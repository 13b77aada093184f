import ScriptCodec.Text.Quoted

/-!
Integers read from text. Digits are taken from the left and the first one that is wrong decides:
a byte that is no digit of the base makes the text malformed, a digit that takes the value past
the bound puts it out of range.
-/
namespace ScriptCodec.Number

inductive Reason where
  | malformed
  | outOfRange
  | badWidth (bits : Int)
deriving DecidableEq, Repr

inductive Reading where
  | unsigned
  | signed
  | float
deriving DecidableEq, Repr

structure Fault where
  reading : Reading
  source : Bytes
  reason : Reason
deriving DecidableEq, Repr

def Reason.text : Reason → Bytes
  | .malformed => ScriptCodec.text "invalid syntax"
  | .outOfRange => ScriptCodec.text "value out of range"
  | .badWidth bits => ScriptCodec.text "invalid bit size " ++ Text.decimalInt bits

def Reading.text : Reading → Bytes
  | .unsigned => ScriptCodec.text "strconv.ParseUint"
  | .signed => ScriptCodec.text "strconv.ParseInt"
  | .float => ScriptCodec.text "strconv.ParseFloat"

def Fault.message (f : Fault) : Bytes :=
  f.reading.text ++ ScriptCodec.text ": parsing " ++ Text.quote f.source ++
    ScriptCodec.text ": " ++ f.reason.text

def digitValue (b : UInt8) : Option Nat :=
  if 0x30 ≤ b ∧ b ≤ 0x39 then some (b.toNat - 0x30)
  else if 0x61 ≤ b ∧ b ≤ 0x7A then some (b.toNat - 0x61 + 10)
  else if 0x41 ≤ b ∧ b ≤ 0x5A then some (b.toNat - 0x41 + 10)
  else none

def addDigit (base bound value : Nat) (b : UInt8) : Except Reason Nat :=
  match digitValue b with
  | none => .error .malformed
  | some d =>
    if base ≤ d then .error .malformed
    else if bound ≤ value * base + d then .error .outOfRange
    else .ok (value * base + d)

def magnitude (base bound : Nat) (s : Bytes) : Except Reason Nat :=
  if s.isEmpty then .error .malformed else s.foldlM (addDigit base bound) 0

def maxWidth : Nat := 64

/-- A width in bits; zero asks for the widest. -/
def width (bits : Int) : Except Reason Nat :=
  if bits = 0 then .ok maxWidth
  else if bits < 0 ∨ maxWidth < bits then .error (.badWidth bits)
  else .ok bits.toNat

/-- An unsigned integer of at most `bits` bits. An empty text is malformed whatever the width. -/
def unsigned (base : Nat) (bits : Int) (s : Bytes) : Except Fault Nat :=
  (if s.isEmpty then .error .malformed
    else (width bits).bind fun bits => magnitude base (Nat.pow 2 bits) s).mapError
      (⟨.unsigned, s, ·⟩)

/-- A magnitude with a sign, kept inside two's complement. The digits may run through the whole
unsigned range before the value is found too large. -/
def withSign (bits : Nat) (negative : Bool) (n : Nat) : Except Reason Int :=
  let half := Nat.pow 2 (bits - 1)
  if negative then if half < n then .error .outOfRange else .ok (-(n : Int))
  else if half ≤ n then .error .outOfRange else .ok n

def splitSign : Bytes → Bool × Bytes
  | 0x2D :: rest => (true, rest)
  | 0x2B :: rest => (false, rest)
  | s => (false, s)

def signed (bits : Nat) (s : Bytes) : Except Fault Int :=
  let (negative, digits) := splitSign s
  ((magnitude 10 (Nat.pow 2 bits) digits).bind (withSign bits negative)).mapError (⟨.signed, s, ·⟩)

end ScriptCodec.Number
