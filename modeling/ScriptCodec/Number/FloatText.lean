import ScriptCodec.Number.Integer
import ScriptCodec.Number.Decimal

/-!
The text of a single-precision operand. It is written with the fewest digits that read back:
positionally while the exponent of the leading digit is at least -4 and below 6, else with an
exponent. A scalar operand with an integral value is always positional and keeps a trailing
`.0`. Reading takes decimal and hexadecimal numerals with digit-separating underscores, and the
words for infinities and NaN.
-/
namespace ScriptCodec.FloatText

def sign (bits : UInt32) : Bytes := if Binary32.isNegative bits then [0x2D] else []

def general (bits : UInt32) : Bytes :=
  let p := Binary32.magnitude bits
  if Binary32.infinity < p then text "NaN"
  else if p = Binary32.infinity then
    (if Binary32.isNegative bits then text "-Inf" else text "+Inf")
  else
    let d := Decimal.shortest p
    let e := d.point - 1
    sign bits ++ (if e < -4 ∨ 6 ≤ e then d.scientific else d.positional)

def component (bits : UInt32) : Bytes := general bits

def scalar (bits : UInt32) : Bytes :=
  let p := Binary32.magnitude bits
  if Binary32.isIntegral p then sign bits ++ (Decimal.shortest p).positional ++ text ".0"
  else general bits

structure Mantissa where
  value : Nat := 0
  fractionDigits : Nat := 0
  sawPoint : Bool := false
  sawDigit : Bool := false

def floatDigit (hex : Bool) (b : UInt8) : Option Nat :=
  (Number.digitValue b).filter fun d => d < if hex then 16 else 10

def mantissa (hex : Bool) (m : Mantissa) : Bytes → Mantissa × Bytes
  | [] => (m, [])
  | b :: rest =>
    if b = 0x5F then mantissa hex m rest
    else if b = 0x2E then
      if m.sawPoint then (m, b :: rest) else mantissa hex { m with sawPoint := true } rest
    else match floatDigit hex b with
      | some d =>
        let m := { m with
          value := m.value * (if hex then 16 else 10) + d
          fractionDigits := if m.sawPoint then m.fractionDigits + 1 else m.fractionDigits
          sawDigit := true }
        mantissa hex m rest
      | none => (m, b :: rest)

def isDigit (b : UInt8) : Bool := 0x30 ≤ b && b ≤ 0x39

/-- Exponent digits are added only while the exponent is below ten thousand. -/
def exponentDigits (e : Nat) : Bytes → Option Nat
  | [] => some e
  | b :: rest =>
    if b = 0x5F then exponentDigits e rest
    else if isDigit b then
      exponentDigits (if e < 10000 then e * 10 + (b.toNat - 0x30) else e) rest
    else none

def unsignedExponent : Bytes → Option Nat
  | b :: rest => if isDigit b then exponentDigits 0 (b :: rest) else none
  | [] => none

def exponent : Bytes → Option Int
  | 0x2B :: rest => (unsignedExponent rest).map fun e => (e : Int)
  | 0x2D :: rest => (unsignedExponent rest).map fun e => -(e : Int)
  | s => (unsignedExponent s).map fun e => (e : Int)

inductive Before where
  | start
  | digit
  | underscore
  | other
deriving DecidableEq

def separatedLoop (hex : Bool) (before : Before) : Bytes → Bool
  | [] => before ≠ .underscore
  | b :: rest =>
    if (floatDigit hex b).isSome then separatedLoop hex .digit rest
    else if b = 0x5F then before = .digit && separatedLoop hex .underscore rest
    else before ≠ .underscore && separatedLoop hex .other rest

def hexMark (b : UInt8) : Bool := Text.lowerByte b == 0x78

/-- A base mark counts as a digit for the underscore after it. -/
def baseMark (b : UInt8) : Bool := hexMark b || Text.lowerByte b == 0x62 || Text.lowerByte b == 0x6F

/-- Every underscore stands between two digits. The text is given without its sign. -/
def wellSeparated : Bytes → Bool
  | 0x30 :: b :: rest =>
    if baseMark b then separatedLoop (hexMark b) .digit rest
    else separatedLoop false .start (0x30 :: b :: rest)
  | s => separatedLoop false .start s

def splitHex : Bytes → Bool × Bytes
  | 0x30 :: b :: c :: rest => if hexMark b then (true, c :: rest) else (false, 0x30 :: b :: c :: rest)
  | s => (false, s)

/-- The exponent with its mark. Only a hexadecimal numeral has to have one. -/
def markedExponent (hex : Bool) : Bytes → Option Int
  | [] => if hex then none else some 0
  | b :: rest => if Text.lowerByte b == (if hex then 0x70 else 0x65) then exponent rest else none

/-- The exact value of an unsigned numeral: `n * base ^ e`, as `(base, n, e)`. -/
def numeral (s : Bytes) : Option (Nat × Nat × Int) :=
  let (hex, body) := splitHex s
  let (m, rest) := mantissa hex {} body
  if !m.sawDigit then none
  else
    (markedExponent hex rest).bind fun e =>
      if s.contains 0x5F && !wellSeparated s then none
      else if hex then some (2, m.value, e - 4 * m.fractionDigits)
      else some (10, m.value, e - m.fractionDigits)

def splitSign : Bytes → Bool × Bool × Bytes
  | 0x2B :: rest => (true, false, rest)
  | 0x2D :: rest => (true, true, rest)
  | s => (false, false, s)

def word? (signed negative : Bool) (body : Bytes) : Option UInt32 :=
  let word := Text.lower body
  if word = text "inf" ∨ word = text "infinity" then
    some (Binary32.withSign negative Binary32.infinity)
  else if word = text "nan" ∧ !signed then some Binary32.nan
  else none

def ofRounded (negative : Bool) : Option Nat → Except Number.Reason UInt32
  | some p => .ok (Binary32.withSign negative p)
  | none => .error .outOfRange

def readNumeral (negative : Bool) (body : Bytes) : Except Number.Reason UInt32 :=
  match numeral body with
  | none => .error .malformed
  | some (base, n, e) => ofRounded negative (Decimal.roundScaled base n e)

def read (s : Bytes) : Except Number.Reason UInt32 :=
  let (signed, negative, body) := splitSign s
  match word? signed negative body with
  | some bits => .ok bits
  | none => readNumeral negative body

def parse (s : Bytes) : Except Number.Fault UInt32 := (read s).mapError (⟨.float, s, ·⟩)

end ScriptCodec.FloatText
