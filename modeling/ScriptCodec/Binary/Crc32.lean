import ScriptCodec.Text.Basic

/-!
The CRC-32 checksum with the reflected polynomial `EDB88320`.
-/
namespace ScriptCodec.Crc32

def shift (c : UInt32) : UInt32 :=
  if c &&& 1 = 1 then (c >>> 1) ^^^ 0xEDB88320 else c >>> 1

def step (c : UInt32) (b : UInt8) : UInt32 :=
  let c := c ^^^ b.toUInt32
  shift (shift (shift (shift (shift (shift (shift (shift c)))))))

def checksum (s : Bytes) : UInt32 := ~~~ (s.foldl step 0xFFFFFFFF)

example : checksum (text "123456789") = 0xCBF43926 := by decide +kernel

end ScriptCodec.Crc32
