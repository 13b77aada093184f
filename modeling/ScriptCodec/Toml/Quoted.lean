import ScriptCodec.Text.Quoted

/-!
The strings of a configuration file: on one line or as a block of lines, with escapes between
double quotes and without them between single ones. Each reader is given the text after the
opening quotes and returns the string and what follows the closing ones.
-/
namespace ScriptCodec.Toml

def isBlank (b : UInt8) : Bool := b == 0x20 || b == 0x09

def isBreak (b : UInt8) : Bool := b == 0x0A || b == 0x0D

def doubleQuote : UInt8 := 0x22

def singleQuote : UInt8 := 0x27

def backslash : UInt8 := 0x5C

def letterEscape : UInt8 → Option UInt8
  | 0x62 => some 0x08
  | 0x65 => some 0x1B
  | 0x66 => some 0x0C
  | 0x6E => some 0x0A
  | 0x72 => some 0x0D
  | 0x74 => some 0x09
  | 0x22 => some 0x22
  | 0x5C => some 0x5C
  | _ => none

def unescape : Bytes → Option (Bytes × Bytes)
  | [] => none
  | c :: rest =>
    match letterEscape c with
    | some b => some ([b], rest)
    | none =>
      if c = 0x78 then Text.unescapeScalar 2 rest
      else if c = 0x75 then Text.unescapeScalar 4 rest
      else if c = 0x55 then Text.unescapeScalar 8 rest
      else none

theorem unescape_length {s out rest : Bytes} (h : unescape s = some (out, rest)) :
    rest.length < s.length := by
  cases s with
  | nil => simp [unescape] at h
  | cons c s =>
    have hu := fun n out tail (h : Text.unescapeScalar n s = some (out, tail)) =>
      Text.unescapeScalar_length h
    simp only [unescape] at h
    grind

def lineString (done : Bytes) : Bytes → Option (Bytes × Bytes)
  | [] => none
  | b :: rest =>
    if b = doubleQuote then some (done.reverse, rest)
    else if isBreak b then none
    else if b = backslash then
      match _h : unescape rest with
      | some (out, tail) => lineString (out.reverse ++ done) tail
      | none => none
    else lineString (b :: done) rest
termination_by s => s.length
decreasing_by
  · have := unescape_length _h
    simp only [List.length_cons]
    omega
  · simp

def rawLineString (done : Bytes) : Bytes → Option (Bytes × Bytes)
  | [] => none
  | b :: rest =>
    if b = singleQuote then some (done.reverse, rest)
    else if isBreak b then none
    else rawLineString (b :: done) rest

/-- A line break right after the opening quotes is not part of the block. -/
def dropFirstBreak : Bytes → Bytes
  | 0x0A :: rest => rest
  | 0x0D :: 0x0A :: rest => rest
  | s => s

def isSpace (b : UInt8) : Bool := isBlank b || isBreak b

/-- The text after a backslash that ends its line, with all white space up to the next word
skipped; nothing when the backslash does not end its line. -/
def afterLineEnd? (s : Bytes) : Option Bytes :=
  if (s.takeWhile isSpace).contains 0x0A then some (s.dropWhile isSpace) else none

inductive QuoteRun where
  /-- too few to end the block, all of them text -/
  | inside
  /-- the end, after this many quotes of text -/
  | closing (kept : Nat)
  | tooMany

/-- Three quotes end a block. Up to two may stand before them, and right after an escaped backslash
up to three. -/
def quoteRun (afterBackslash : Bool) (count : Nat) : QuoteRun :=
  if count < 3 then .inside
  else if count ≤ (if afterBackslash then 6 else 5) then .closing (count - 3)
  else .tooMany

/-- A block between triple quotes; `escapes` says whether a backslash is special in it, and
`afterBackslash` whether an escaped one has just been read. -/
def block (mark : UInt8) (escapes afterBackslash : Bool) (done : Bytes) :
    Bytes → Option (Bytes × Bytes)
  | [] => none
  | b :: rest =>
    if b = mark then
      let more := rest.takeWhile (· == mark)
      let tail := rest.dropWhile (· == mark)
      match quoteRun afterBackslash (more.length + 1) with
      | .inside => block mark escapes false (b :: (more ++ done)) tail
      | .closing kept => some ((List.replicate kept mark ++ done).reverse, tail)
      | .tooMany => none
    else if escapes && b == backslash then
      match _h : afterLineEnd? rest with
      | some tail => block mark escapes false done tail
      | none =>
        match _h : unescape rest with
        | some (out, tail) =>
          block mark escapes (rest.head? == some backslash) (out.reverse ++ done) tail
        | none => none
    else block mark escapes false (b :: done) rest
termination_by s => s.length
decreasing_by
  · have := (List.dropWhile_sublist (l := rest) (· == mark)).length_le
    simp only [List.length_cons]
    omega
  · have := (List.dropWhile_sublist (l := rest) isSpace).length_le
    simp only [afterLineEnd?, Option.ite_none_right_eq_some, Option.some.injEq] at _h
    simp only [List.length_cons, ← _h.2]
    omega
  · have := unescape_length _h
    simp only [List.length_cons]
    omega
  · simp

def quotedLine (mark : UInt8) (s : Bytes) : Option (Bytes × Bytes) :=
  if mark = doubleQuote then lineString [] s else rawLineString [] s

def quoted (mark : UInt8) (s : Bytes) : Option (Bytes × Bytes) :=
  match Text.afterLead [mark, mark] s with
  | some rest => block mark (mark == doubleQuote) false [] (dropFirstBreak rest)
  | none => quotedLine mark s

end ScriptCodec.Toml
