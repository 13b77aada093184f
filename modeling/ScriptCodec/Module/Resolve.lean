import ScriptCodec.Module.Basic

/-!
Label resolution. A label stands for an instruction boundary of its function, and resolving it
gives the address that boundary has in a new layout. Where several instructions share an offset
the last one counts, and the end of the function comes before all of them.
-/
namespace ScriptCodec

inductive LabelFault where
  | duplicate (name function : Bytes) (low high : UInt32)
  | offBoundary (name function : Bytes) (offset : UInt32)
deriving DecidableEq, Repr

namespace LabelFault

def message : LabelFault → Bytes
  | .duplicate name function low high =>
    text "duplicate label: " ++ name ++ text " in " ++ function ++ text " at " ++
      Text.address low ++ text " and " ++ Text.address high
  | .offBoundary name function offset =>
    text "unresolved label: " ++ name ++ text " in " ++ function ++ text " targets " ++
      Text.address offset ++ text ", which is not an instruction boundary"

def categories : LabelFault → List Category
  | .duplicate .. => [.duplicateLabel]
  | .offBoundary .. => [.unresolvedLabel]

end LabelFault

structure ResolvedLabel where
  name : Bytes
  offset : UInt32
  addr : UInt32
deriving DecidableEq, Repr

/-- Instruction boundaries with their new addresses, the ones that count first. -/
abbrev Boundaries := List (UInt32 × UInt32)

def Boundaries.address? (boundaries : Boundaries) (offset : UInt32) : Option UInt32 :=
  (List.find? (fun e => e.1 == offset) boundaries).map Prod.snd

namespace Labels

def resolveLoop (function : Bytes) (boundaries : Boundaries) (done : List ResolvedLabel) :
    Labels → Except LabelFault (List ResolvedLabel)
  | [] => .ok done.reverse
  | (offset, name) :: rest =>
    match done.find? fun d => d.name == name with
    | some d => .error (.duplicate name function (min d.offset offset) (max d.offset offset))
    | none =>
      match boundaries.address? offset with
      | none => .error (.offBoundary name function offset)
      | some addr => resolveLoop function boundaries (⟨name, offset, addr⟩ :: done) rest

def resolve (labels : Labels) (function : Bytes) (boundaries : Boundaries) :
    Except LabelFault (List ResolvedLabel) :=
  resolveLoop function boundaries [] labels

end Labels

namespace Function

def boundaries (fn : Function) (addrs : List UInt32) (stop : UInt32) : Boundaries :=
  (fn.stop, stop) :: ((fn.code.map Instruction.offset).zip addrs).reverse

def resolveLabels (fn : Function) (addrs : List UInt32) (stop : UInt32) :
    Except LabelFault (List ResolvedLabel) :=
  fn.labelMap.resolve fn.name (fn.boundaries addrs stop)

end Function
end ScriptCodec
