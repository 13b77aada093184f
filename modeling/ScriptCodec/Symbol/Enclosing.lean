import ScriptCodec.Object.Basic
import ScriptCodec.Order.Quicksort

/-!
Which exported function a code address lies in.
-/
namespace ScriptCodec.Export

def sortByOffset (exports : List Export) : List Export :=
  Order.quicksort (fun a b => a.offset < b.offset) exports

def reaches (e : Export) (addr : UInt32) : Bool := addr < e.offset + e.size

/-- The name of the export an address lies in, given the exports in ascending order. It is the last
export that starts at or before the address, if that one reaches it; empty when there is none. -/
def enclosing (sorted : List Export) (addr : UInt32) : Bytes :=
  match (sorted.takeWhile fun e => e.offset ≤ addr).getLast? with
  | some e => if e.reaches addr then e.name else []
  | none => []

end ScriptCodec.Export
