/-!
Byte strings and the few ways numbers are written into them. Names, literals and messages are
arbitrary bytes, so a text is a list of bytes and never assumed to be valid UTF-8.
-/
namespace ScriptCodec

abbrev Bytes := List UInt8

/-- The UTF-8 bytes of a string. -/
def text (s : String) : Bytes := s.toUTF8.data.toList

namespace Text

def decimal (n : Nat) : Bytes := (Nat.toDigits 10 n).map Char.toUInt8

def decimalInt (n : Int) : Bytes :=
  if n < 0 then 0x2D :: decimal n.natAbs else decimal n.natAbs

def upperDigit (c : Char) : UInt8 := if c.isLower then c.toUInt8 - 32 else c.toUInt8

def hex (n : Nat) : Bytes := (Nat.toDigits 16 n).map upperDigit

def hexInt (n : Int) : Bytes := if n < 0 then 0x2D :: hex n.natAbs else hex n.natAbs

def lowerHex (width n : Nat) : Bytes :=
  ((Nat.toDigits 16 n).map Char.toUInt8).leftpad width 0x30

def hexPadded (width n : Nat) : Bytes := (hex n).leftpad width 0x30

def address (a : UInt32) : Bytes := text "0x" ++ hexPadded 4 a.toNat

def lowerByte (b : UInt8) : UInt8 := if 0x41 ≤ b ∧ b ≤ 0x5A then b + 32 else b

def lower (s : Bytes) : Bytes := s.map lowerByte

def afterLead (lead : Bytes) (s : Bytes) : Option Bytes :=
  if lead.isPrefixOf s then some (s.drop lead.length) else none

def beforeTrail (trail : Bytes) (s : Bytes) : Option Bytes :=
  if trail.isSuffixOf s then some (s.take (s.length - trail.length)) else none

def cutLoop (sep : Bytes) (before : Bytes) : Bytes → Option (Bytes × Bytes)
  | [] => if sep.isEmpty then some (before.reverse, []) else none
  | b :: rest =>
    if sep.isPrefixOf (b :: rest) then some (before.reverse, (b :: rest).drop sep.length)
    else cutLoop sep (b :: before) rest

def cut (sep s : Bytes) : Option (Bytes × Bytes) := cutLoop sep [] s

/-- Bytewise order, a proper beginning first. -/
def compareBytes : Bytes → Bytes → Ordering := List.compareLex compare

def splitOn (sep : UInt8) (s : Bytes) : List Bytes := List.splitOnP (· == sep) s

theorem not_mem_of_mem_splitOn {sep : UInt8} {s piece : Bytes} (h : piece ∈ splitOn sep s) :
    sep ∉ piece := by
  by_cases hsep : sep ∈ s
  · obtain ⟨front, rest, rfl, hfront⟩ := List.eq_append_cons_of_mem hsep
    have hpieces : splitOn sep (front ++ sep :: rest) = front :: splitOn sep rest :=
      List.splitOn_append_cons_self_of_not_mem hfront rest
    rw [hpieces] at h
    rcases List.mem_cons.mp h with rfl | h
    · exact hfront
    · exact not_mem_of_mem_splitOn h
  · have hpieces : splitOn sep s = [s] := List.splitOn_eq_singleton hsep
    rw [hpieces] at h
    rwa [List.mem_singleton.mp h]
termination_by s.length
decreasing_by
  subst_vars
  simp only [List.length_append, List.length_cons]
  omega

end Text
end ScriptCodec
