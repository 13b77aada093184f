import ScriptCodec.Text.Quoted
import ScriptCodec.Category

/-!
The string pool of a script object. It follows the header; strings stand in the order of their
first use, each with a terminating zero, and are referred to by their offset in the file.
-/
namespace ScriptCodec

structure StringPool where
  strings : List Bytes
deriving DecidableEq, Repr

inductive PoolFault where
  | overflow (s : Bytes) (offset : UInt32)
  | notCollected (s : Bytes)
deriving DecidableEq, Repr

namespace PoolFault

def message : PoolFault → Bytes
  | .overflow s offset =>
    text "string pool overflow: " ++ Text.quote s ++ text " at 0x" ++ Text.hex offset.toNat ++
      text " is beyond 16-bit reach"
  | .notCollected s => text "bad operand: string " ++ Text.quote s ++ text " was not collected"

def categories : PoolFault → List Category
  | .overflow _ _ => [.poolOverflow]
  | .notCollected _ => [.badOperand]

end PoolFault

namespace StringPool

def empty : StringPool := ⟨[]⟩

def start : UInt32 := 0x40

def after (offset : UInt32) (s : Bytes) : UInt32 := offset + UInt32.ofNat s.length + 1

def stop (p : StringPool) : UInt32 := p.strings.foldl after start

def offsetFrom (s : Bytes) (offset : UInt32) : List Bytes → Option UInt32
  | [] => none
  | t :: rest => if t = s then some offset else offsetFrom s (after offset t) rest

def offset? (p : StringPool) (s : Bytes) : Option UInt32 := offsetFrom s start p.strings

def add (p : StringPool) (s : Bytes) : StringPool :=
  if p.strings.contains s then p else ⟨p.strings ++ [s]⟩

def key32 (p : StringPool) (s : Bytes) : Except PoolFault UInt32 :=
  match p.offset? s with
  | some offset => .ok offset
  | none => .error (.notCollected s)

def key16 (p : StringPool) (s : Bytes) : Except PoolFault UInt16 :=
  (p.key32 s).bind fun offset =>
    if 0xFFFF < offset then .error (.overflow s offset) else .ok offset.toUInt16

def bytes (p : StringPool) : Bytes := p.strings.flatMap fun s => s ++ [0]

end StringPool
end ScriptCodec
