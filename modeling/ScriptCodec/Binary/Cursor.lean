import ScriptCodec.Binary.Image

/-!
A cursor over bytes that can be read and written. Positions are 64-bit machine words: a sum that
leaves their range wraps. Reads past the end fail and leave the cursor where it was; writes past
the end lengthen the bytes, with zeros in any gap.
-/
namespace ScriptCodec

structure Cursor where
  bytes : Image
  pos : Int
deriving DecidableEq, Repr

namespace Cursor

def wrap (n : Int) : Int := Int.bmod n 0x10000000000000000

def ofBytes (bytes : Image) : Cursor := ⟨bytes, 0⟩

def empty : Cursor := ofBytes #[]

def length (c : Cursor) : Nat := c.bytes.size

def remaining (c : Cursor) : Int := wrap (c.length - c.pos)

def setPos (c : Cursor) (pos : Int) : Except RangeFault Cursor :=
  if pos < 0 ∨ c.length < pos then .error (.position pos c.length) else .ok { c with pos }

def seek (c : Cursor) (count : Int) : Except RangeFault Cursor := c.setPos (wrap (c.pos + count))

/-- How many bytes take `pos` to the next multiple of `n`; remainders take the sign of `pos`. -/
def alignment (pos n : Int) : Int :=
  if n ≤ 1 then 0 else (wrap (n - pos.tmod n)).tmod n

def align (c : Cursor) (n : Int) : Int × Cursor :=
  let skip := alignment c.pos n
  (skip, { c with pos := wrap (c.pos + skip) })

def take (c : Cursor) (count : Int) : Except RangeFault (Bytes × Cursor) :=
  if c.pos < 0 ∨ c.length < wrap (c.pos + count) then .error (.need count c.pos c.length)
  else
    .ok ((c.bytes.extract c.pos.toNat (c.pos + count).toNat).toList,
      { c with pos := wrap (c.pos + count) })

def readWord (c : Cursor) (width : Nat) : Except RangeFault (Nat × Cursor) :=
  (c.take width).map fun (bytes, c) => (Word.ofBytes bytes, c)

def readU8 (c : Cursor) : Except RangeFault (UInt8 × Cursor) :=
  (c.readWord 1).map fun (n, c) => (UInt8.ofNat n, c)

def readU16 (c : Cursor) : Except RangeFault (UInt16 × Cursor) :=
  (c.readWord 2).map fun (n, c) => (UInt16.ofNat n, c)

def readI16 (c : Cursor) : Except RangeFault (Int16 × Cursor) :=
  c.readU16.map fun (v, c) => (v.toInt16, c)

def readU32 (c : Cursor) : Except RangeFault (UInt32 × Cursor) :=
  (c.readWord 4).map fun (n, c) => (UInt32.ofNat n, c)

def readI32 (c : Cursor) : Except RangeFault (Int32 × Cursor) :=
  c.readU32.map fun (v, c) => (v.toInt32, c)

def readU64 (c : Cursor) : Except RangeFault (UInt64 × Cursor) :=
  (c.readWord 8).map fun (n, c) => (UInt64.ofNat n, c)

def readF32 (c : Cursor) : Except RangeFault (UInt32 × Cursor) := c.readU32

def readCString (c : Cursor) : Except RangeFault (Bytes × Cursor) :=
  if c.pos < 0 ∨ c.length < c.pos then .error (.stringStart c.pos)
  else (c.bytes.cstring c.pos.toNat).map fun (s, next) => (s, { c with pos := next })

def readBytes (c : Cursor) (count : Int) : Except RangeFault (Bytes × Cursor) := c.take count

def writeBytes (c : Cursor) (s : Bytes) : Cursor :=
  let start := c.pos.toNat
  let before := c.bytes.extract 0 start
  let gap := Array.replicate (start - c.bytes.size) 0
  let after := c.bytes.extract (start + s.length) c.bytes.size
  ⟨before ++ gap ++ s.toArray ++ after, wrap (c.pos + s.length)⟩

def writeU8 (c : Cursor) (v : UInt8) : Cursor := c.writeBytes [v]
def writeU16 (c : Cursor) (v : UInt16) : Cursor := c.writeBytes (Word.u16 v)
def writeI16 (c : Cursor) (v : Int16) : Cursor := c.writeU16 v.toUInt16
def writeU32 (c : Cursor) (v : UInt32) : Cursor := c.writeBytes (Word.u32 v)
def writeI32 (c : Cursor) (v : Int32) : Cursor := c.writeU32 v.toUInt32
def writeU64 (c : Cursor) (v : UInt64) : Cursor := c.writeBytes (Word.u64 v)

def writeF32 (c : Cursor) (bits : UInt32) : Cursor := c.writeU32 bits

def writeCString (c : Cursor) (s : Bytes) : Cursor := c.writeBytes (s ++ [0])

def fill (c : Cursor) (v : UInt8) (count : Int) : Cursor :=
  c.writeBytes (List.replicate count.toNat v)

def writeAlign (c : Cursor) (n : Int) : Int × Cursor :=
  let skip := alignment c.pos n
  (skip, c.fill 0 skip)

end Cursor
end ScriptCodec
