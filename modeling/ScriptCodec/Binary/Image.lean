import ScriptCodec.Binary.Word
import ScriptCodec.Category

/-!
Checked reads from a file held in memory. A read names its position; it fails when the bytes it
needs are not all there.
-/
namespace ScriptCodec

abbrev Image := Array UInt8

inductive RangeFault where
  | position (pos : Int) (length : Nat)
  | need (count : Int) (pos : Int) (length : Nat)
  | stringStart (pos : Int)
  | unterminated (pos : Int)
deriving DecidableEq, Repr

def RangeFault.message (f : RangeFault) : Bytes :=
  text "out of range: " ++ match f with
  | .position pos length =>
    text "position 0x" ++ Text.hexInt pos ++ text " (length 0x" ++ Text.hex length ++ text ")"
  | .need count pos length =>
    text "need " ++ Text.decimalInt count ++ text " bytes at 0x" ++ Text.hexInt pos ++
      text " (length 0x" ++ Text.hex length ++ text ")"
  | .stringStart pos => text "string at 0x" ++ Text.hexInt pos
  | .unterminated pos => text "unterminated string at 0x" ++ Text.hexInt pos

namespace Image

def slice (img : Image) (pos count : Nat) : Except RangeFault Bytes :=
  if pos + count ≤ img.size then .ok (img.extract pos (pos + count)).toList
  else .error (.need count pos img.size)

def word (img : Image) (width pos : Nat) : Except RangeFault Nat :=
  (img.slice pos width).map Word.ofBytes

def u8 (img : Image) (pos : Nat) : Except RangeFault UInt8 := (img.word 1 pos).map UInt8.ofNat
def u16 (img : Image) (pos : Nat) : Except RangeFault UInt16 := (img.word 2 pos).map UInt16.ofNat
def u32 (img : Image) (pos : Nat) : Except RangeFault UInt32 := (img.word 4 pos).map UInt32.ofNat
def u64 (img : Image) (pos : Nat) : Except RangeFault UInt64 := (img.word 8 pos).map UInt64.ofNat

/-- A position may be any offset up to and including the length. -/
def seek (img : Image) (pos : Nat) : Except RangeFault Nat :=
  if pos ≤ img.size then .ok pos else .error (.position pos img.size)

def findZero (img : Image) (pos : Nat) : Option Nat :=
  if h : pos < img.size then if img[pos] = 0 then some pos else findZero img (pos + 1) else none
termination_by img.size - pos

/-- The bytes before the next zero byte, and the position after it. -/
def cstring (img : Image) (pos : Nat) : Except RangeFault (Bytes × Nat) :=
  if img.size < pos then .error (.stringStart pos)
  else match findZero img pos with
    | some stop => .ok ((img.extract pos stop).toList, stop + 1)
    | none => .error (.unterminated pos)

end Image
end ScriptCodec
