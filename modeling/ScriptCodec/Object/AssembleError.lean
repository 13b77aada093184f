import ScriptCodec.Module.Operand
import ScriptCodec.Module.Resolve
import ScriptCodec.Opcode.Table
import ScriptCodec.Object.StringPool

/-!
Why a module cannot be assembled. An error has a cause and the places it was met in, outermost
first; its message names them all.
-/
namespace ScriptCodec

namespace AssembleError

inductive Place where
  | script (name : Bytes)
  | function (name : Bytes)
  | instruction (op : Opcode) (addr : UInt32)
deriving DecidableEq, Repr

inductive Cause where
  /-- a function or an instruction is absent from its list -/
  | gap
  | naming (fault : NameFault)
  | unhandledOpcode (op : Opcode)
  | size (fault : SizeFault)
  | operand (fault : OperandFault)
  | pool (fault : PoolFault)
  | label (fault : LabelFault)
  | noLabel (name : Bytes)
  | sizeMismatch (emitted laidOut : UInt32)
  | tooManyIncludes (count : Nat)
  | tooManyTrees (count : Nat)
  | tableLimit (exports imports : Nat)
  | importRefs (name : Bytes) (count : Nat)
  | treeAnims (name : Bytes) (count : Nat)
  | misplacedCode (length : Nat) (codeOffset : UInt32)
deriving DecidableEq, Repr

end AssembleError

structure AssembleError where
  places : List AssembleError.Place
  cause : AssembleError.Cause
deriving DecidableEq, Repr

namespace AssembleError

def Place.text : Place → Bytes
  | .script name => ScriptCodec.text "assemble " ++ name
  | .function name => name
  | .instruction op addr => op.display ++ ScriptCodec.text " at " ++ Text.address addr

def Cause.text : Cause → Bytes
  | .gap => ScriptCodec.text "missing function or instruction"
  | .naming fault => fault.message
  | .unhandledOpcode op => ScriptCodec.text "unhandled opcode: " ++ op.number
  | .size fault => fault.message
  | .operand fault => fault.message
  | .pool fault => fault.message
  | .label fault => fault.message
  | .noLabel name => ScriptCodec.text "unresolved label: " ++ name
  | .sizeMismatch emitted laidOut =>
    ScriptCodec.text "bad operand: emitted 0x" ++ Text.hex emitted.toNat ++
      ScriptCodec.text " bytes, laid out 0x" ++ Text.hex laidOut.toNat
  | .tooManyIncludes count =>
    ScriptCodec.text "bad operand: " ++ Text.decimal count ++
      ScriptCodec.text " includes, at most 255"
  | .tooManyTrees count =>
    ScriptCodec.text "bad operand: " ++ Text.decimal count ++
      ScriptCodec.text " animtrees, at most 255"
  | .tableLimit exports imports =>
    ScriptCodec.text "bad operand: " ++ Text.decimal exports ++ ScriptCodec.text " exports, " ++
      Text.decimal imports ++ ScriptCodec.text " imports, at most 65535 each"
  | .importRefs name count =>
    ScriptCodec.text "bad operand: import " ++ name ++ ScriptCodec.text " has " ++
      Text.decimal count ++ ScriptCodec.text " references"
  | .treeAnims name count =>
    ScriptCodec.text "bad operand: animtree " ++ name ++ ScriptCodec.text " has " ++
      Text.decimal count ++ ScriptCodec.text " animations"
  | .misplacedCode length codeOffset =>
    ScriptCodec.text "corrupt input: stack prefix is 0x" ++ Text.hex length ++
      ScriptCodec.text " bytes, code offset 0x" ++ Text.hex codeOffset.toNat

def Cause.categories : Cause → List Category
  | .gap => []
  | .naming fault => fault.categories
  | .unhandledOpcode _ => [.unhandledOpcode]
  | .size fault => fault.categories
  | .operand _ => [.badOperand]
  | .pool fault => fault.categories
  | .label fault => fault.categories
  | .noLabel _ => [.unresolvedLabel]
  | .sizeMismatch .. | .tooManyIncludes _ | .tooManyTrees _ | .tableLimit .. | .importRefs ..
  | .treeAnims .. => [.badOperand]
  | .misplacedCode .. => [.corrupt]

def message (e : AssembleError) : Bytes :=
  (e.places.flatMap fun p => p.text ++ ScriptCodec.text ": ") ++ e.cause.text

def categories (e : AssembleError) : List Category := e.cause.categories

def within (p : Place) (e : AssembleError) : AssembleError := { e with places := p :: e.places }

end AssembleError

abbrev Assembling (α : Type) := Except AssembleError α

namespace Assembling

def fail {α : Type} (cause : AssembleError.Cause) : Assembling α := .error ⟨[], cause⟩

def within {α : Type} (p : AssembleError.Place) (r : Assembling α) : Assembling α :=
  r.mapError (.within p)

def ofOperand {α : Type} (r : Except OperandFault α) : Assembling α :=
  r.mapError (⟨[], .operand ·⟩)

def ofPool {α : Type} (r : Except PoolFault α) : Assembling α := r.mapError (⟨[], .pool ·⟩)

end Assembling
end ScriptCodec
