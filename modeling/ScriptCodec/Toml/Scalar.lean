import ScriptCodec.Number.Literal

/-!
The numbers and moments of a configuration file. Integers are kept; of floating-point numbers and
moments only the form is checked, because nothing reads their value.
-/
namespace ScriptCodec.Toml

inductive Scalar where
  | integer (n : Int)
  | float
  | moment
deriving DecidableEq, Repr

def isDigit (b : UInt8) : Bool := 0x30 ≤ b && b ≤ 0x39

def isHexDigit (b : UInt8) : Bool := (Text.hexValue b).isSome

/-- Every underscore follows a digit, and the last character is one. Any hexadecimal digit counts,
whatever the base. -/
def underscoresOk (afterDigit : Bool) : Bytes → Bool
  | [] => afterDigit
  | b :: rest => (b != 0x5F || afterDigit) && underscoresOk (isHexDigit b) rest

def isBaseMark (b : UInt8) : Bool := b == 0x62 || b == 0x6F || b == 0x78

def hasLeadingZero : Bytes → Bool
  | 0x30 :: b :: _ => !isBaseMark b
  | 0x2B :: 0x30 :: _ :: _ => true
  | 0x2D :: 0x30 :: _ :: _ => true
  | _ => false

def integerOf (token : Bytes) : Option Scalar :=
  if underscoresOk false token && !hasLeadingZero token then
    match Number.literal 64 token with
    | .ok n => some (.integer n)
    | .error _ => none
  else none

def pointsOk (afterPoint : Bool) : Bytes → Bool
  | [] => !afterPoint
  | b :: rest => (!afterPoint || isDigit b) && pointsOk (b == 0x2E) rest

def isFloatMark (b : UInt8) : Bool := b == 0x2E || b == 0x65 || b == 0x45

/-- Numbers from here on round to infinity in double precision. -/
def doubleLimit : Nat := Nat.pow 2 1024 - Nat.pow 2 970

def floatOf (token : Bytes) : Option Scalar :=
  let pieces := (List.splitOnP isFloatMark token).filter (!·.isEmpty)
  if pieces.all (underscoresOk false) && !hasLeadingZero (pieces.headD []) &&
      pointsOk false token then
    match FloatText.numeral (Number.splitSign (token.filter (· != 0x5F))).2 with
    | some (base, n, e) =>
      let (num, den) := Decimal.scaled base n e
      if num < doubleLimit * den then some .float else none
    | none => none
  else none

/-! Moments -/

def field (count low high : Nat) (s : Bytes) : Option (Nat × Bytes) :=
  let digits := s.take count
  if digits.length = count ∧ digits.all isDigit then
    let n := digits.foldl (fun n b => n * 10 + (b.toNat - 0x30)) 0
    if low ≤ n ∧ n ≤ high then some (n, s.drop count) else none
  else none

def expect (b : UInt8) : Bytes → Option Bytes
  | c :: rest => if c = b then some rest else none
  | [] => none

def isLeap (year : Nat) : Bool := year % 4 == 0 && (year % 100 != 0 || year % 400 == 0)

def daysIn (year month : Nat) : Nat :=
  if month = 2 then if isLeap year then 29 else 28
  else if month = 4 ∨ month = 6 ∨ month = 9 ∨ month = 11 then 30
  else 31

def date (s : Bytes) : Option Bytes := do
  let (year, s) ← field 4 0 9999 s
  let (month, s) ← field 2 1 12 (← expect 0x2D s)
  let (_, s) ← field 2 1 (daysIn year month) (← expect 0x2D s)
  return s

def skipFraction : Bytes → Bytes
  | 0x2E :: d :: rest => if isDigit d then rest.dropWhile isDigit else 0x2E :: d :: rest
  | s => s

def clock (s : Bytes) : Option Bytes := do
  let (_, s) ← field 2 0 23 s
  let (_, s) ← field 2 0 59 (← expect 0x3A s)
  match expect 0x3A s with
  | none => return s
  | some s =>
    let (_, s) ← field 2 0 59 s
    return skipFraction s

def isOffset : Bytes → Bool
  | [] => true
  | [0x5A] => true
  | b :: rest =>
    (b == 0x2B || b == 0x2D) &&
      match field 2 0 24 rest with
      | some (_, 0x3A :: rest) => ((field 2 0 60 rest).map Prod.snd) == some []
      | _ => false

def momentMark (b : UInt8) : UInt8 :=
  if b = 0x7A then 0x5A else if b = 0x74 ∨ b = 0x20 then 0x54 else b

def isMoment (token : Bytes) : Bool :=
  let s := token.map momentMark
  match date s with
  | some [] => true
  | some (0x54 :: rest) => (clock rest).any isOffset
  | some _ => false
  | none => clock s == some []

/-! Tokens -/

def isMomentByte (b : UInt8) : Bool :=
  isDigit b || (text "-:Tt .Zz+").contains b

def isFloatByte (b : UInt8) : Bool := isDigit b || isFloatMark b || (text "_-+").contains b

def trimRight (s : Bytes) : Bytes := (s.reverse.dropWhile (· == 0x20)).reverse

def momentAt (s : Bytes) : Option (Scalar × Bytes) :=
  if isMoment (trimRight (s.takeWhile isMomentByte)) then some (.moment, s.dropWhile isMomentByte)
  else none

def decimalAt (sign s : Bytes) : Option (Scalar × Bytes) :=
  let whole := s.takeWhile fun b => isDigit b || b == 0x5F
  let rest := s.drop whole.length
  if rest.head?.any isFloatMark then
    (floatOf (sign ++ whole ++ rest.takeWhile isFloatByte)).map (·, rest.dropWhile isFloatByte)
  else (integerOf (sign ++ whole)).map (·, rest)

def isDigitOf (base : Nat) (b : UInt8) : Bool := (Number.digitValue b).any (· < base)

def basedAt (mark : UInt8) (s : Bytes) : Option (Scalar × Bytes) :=
  let base := if mark = 0x62 then 2 else if mark = 0x6F then 8 else 16
  let digits := s.takeWhile fun b => isDigitOf base b || b == 0x5F
  if s.head?.any (isDigitOf base) then
    (integerOf (0x30 :: mark :: digits)).map (·, s.drop digits.length)
  else none

def scalarAt (s : Bytes) : Option (Scalar × Bytes) :=
  match s with
  | [] => none
  | b :: rest =>
    if b = 0x2B ∨ b = 0x2D then
      if rest.take 3 = text "inf" ∨ rest.take 3 = text "nan" then some (.float, rest.drop 3)
      else if !rest.head?.any isDigit then none
      else if rest.head? = some 0x30 ∧ (rest.drop 1).head?.any isBaseMark then none
      else decimalAt [b] rest
    else if b = 0x30 ∧ rest.head?.any isBaseMark then basedAt (rest.headD 0) (rest.drop 1)
    else
      match (s.dropWhile isDigit).head? with
      | some 0x2D | some 0x3A => momentAt s
      | _ => decimalAt [] s

end ScriptCodec.Toml
