import ScriptCodec.Text.Utf8

/-!
The forms in which an index keeps its texts. A text comes and goes as UTF-8. In a form with units of
sixteen bits it is kept as the bytes of its units, and the order of two texts is the order of these
bytes. What is no UTF-8 is read all the same, so such a text may come back changed.
-/
namespace ScriptCodec

inductive TextForm where
  | utf8
  | utf16 (bigEndian : Bool)
deriving DecidableEq, Repr

namespace TextForm

def leadBits (b : UInt8) : Nat :=
  if b < 0xE0 then b.toNat % 32
  else if b < 0xF0 then b.toNat % 16
  else if b < 0xF8 then b.toNat % 8
  else if b < 0xFC then b.toNat % 4
  else if b < 0xFE then b.toNat % 2
  else 0

/-- What a lead and all that follow it stand for. Values that no lead is needed for, halves of pairs
and the last two values of sixteen bits are replaced. -/
def followed (code : Nat) : Nat :=
  if code < 0x80 ∨ (0xD800 ≤ code ∧ code < 0xE000) ∨ code = 0xFFFE ∨ code = 0xFFFF then
    Utf8.replacement
  else code

/-- The values of a text. A lead takes every tail byte after it, of which the last 32 bits count,
and a tail byte without a lead is a value of its own. -/
def codes : Bytes → List Nat
  | [] => []
  | b :: rest =>
    if b < 0xC0 then b.toNat :: codes rest
    else
      let tails := rest.takeWhile Utf8.isTail
      followed (tails.foldl (fun n t => (n * 64 + Utf8.tailBits t) % 4294967296) (leadBits b)) ::
        codes (rest.dropWhile Utf8.isTail)
termination_by s => s.length
decreasing_by
  · simp
  · exact Nat.lt_succ_of_le (List.dropWhile_sublist _).length_le

def units (code : Nat) : List Nat :=
  if code < 0x10000 then [code]
  else [0xD800 + (code - 0x10000) / 1024 % 1024, 0xDC00 + code % 1024]

def unitBytes (bigEndian : Bool) (unit : Nat) : Bytes :=
  let low := UInt8.ofNat (unit % 256)
  let high := UInt8.ofNat (unit / 256)
  if bigEndian then [high, low] else [low, high]

def stored : TextForm → Bytes → Bytes
  | .utf8, s => s
  | .utf16 bigEndian, s => ((codes s).flatMap units).flatMap (unitBytes bigEndian)

def unitsOf (bigEndian : Bool) : Bytes → List Nat
  | a :: b :: rest =>
    (if bigEndian then a.toNat * 256 + b.toNat else a.toNat + b.toNat * 256) ::
      unitsOf bigEndian rest
  | _ => []

def paired : List Nat → List Nat
  | high :: low :: rest =>
    if 0xD800 ≤ high ∧ high < 0xE000 then
      (0x10000 + high % 1024 * 1024 + low % 1024) :: paired rest
    else high :: paired (low :: rest)
  | [unit] => [unit]
  | [] => []

def shown : TextForm → Bytes → Bytes
  | .utf8, s => s
  | .utf16 bigEndian, s => (paired (unitsOf bigEndian s)).flatMap Utf8.encode

def number : TextForm → UInt8
  | .utf8 => 1
  | .utf16 false => 2
  | .utf16 true => 3

def ofNumber? (n : UInt8) : Option TextForm :=
  [utf8, utf16 false, utf16 true].find? fun form => form.number == n

end TextForm
end ScriptCodec
