import ScriptCodec.Symbol.Enclosing
import ScriptCodec.Category

/-!
A symbol index over many scripts: where functions are defined and where they are referred to. The
index is three tables that are kept in step. Adding a script under a name replaces what was
recorded under that name, and removing it drops its rows from every table.
-/
namespace ScriptCodec

structure Definition where
  script : Bytes
  name : Bytes
  params : UInt8
  flags : UInt8
  offset : UInt32
  size : UInt32
  checksum : UInt32
deriving DecidableEq, Repr

/-- One code address that refers to a function. The caller is empty outside every function. -/
structure Reference where
  script : Bytes
  caller : Bytes
  space : Bytes
  name : Bytes
  kind : ImportKind
  offset : UInt32
  devOnly : Bool
deriving DecidableEq, Repr

structure SymbolIndex where
  scripts : List Bytes
  definitions : List Definition
  references : List Reference
deriving DecidableEq, Repr

structure UnknownScript where
  script : Bytes
deriving DecidableEq, Repr

namespace UnknownScript

def message (e : UnknownScript) : Bytes := text "script not found: " ++ e.script

def categories (_ : UnknownScript) : List Category := [.unknownScript]

end UnknownScript

def Definition.ofExport (script : Bytes) (e : Export) : Definition :=
  ⟨script, e.name, e.params, e.flags, e.offset, e.size, e.checksum⟩

def Reference.ofImport (script : Bytes) (sorted : List Export) (i : Import) : List Reference :=
  i.refs.map fun addr =>
    ⟨script, Export.enclosing sorted addr, i.space, i.name, i.kind, addr, i.devOnly⟩

namespace SymbolIndex

def empty : SymbolIndex := ⟨[], [], []⟩

def without (index : SymbolIndex) (script : Bytes) : SymbolIndex where
  scripts := index.scripts.filter (· != script)
  definitions := index.definitions.filter (·.script != script)
  references := index.references.filter (·.script != script)

def add (index : SymbolIndex) (script : Bytes) (obj : ScriptObject) : SymbolIndex :=
  let rest := index.without script
  let sorted := Export.sortByOffset obj.exports
  { scripts := rest.scripts ++ [script]
    definitions := rest.definitions ++ obj.exports.map (Definition.ofExport script)
    references := rest.references ++ obj.imports.flatMap (Reference.ofImport script sorted) }

def remove (index : SymbolIndex) (script : Bytes) : Except UnknownScript SymbolIndex :=
  if index.scripts.contains script then .ok (index.without script) else .error ⟨script⟩

def scriptNames (index : SymbolIndex) : List Bytes :=
  index.scripts.mergeSort fun a b => (Text.compareBytes a b).isLE

def definitionLE (a b : Definition) : Bool :=
  ((Text.compareBytes a.script b.script).then (compare a.offset b.offset)).isLE

def referenceLE (a b : Reference) : Bool :=
  ((Text.compareBytes a.script b.script).then
    ((compare a.offset b.offset).then (Text.compareBytes a.space b.space))).isLE

def definitionsOf (index : SymbolIndex) (name : Bytes) : List Definition :=
  (index.definitions.filter (·.name == name)).mergeSort definitionLE

def referencesIn (index : SymbolIndex) (space name : Bytes) : List Reference :=
  (index.references.filter fun r => r.name == name && r.space == space).mergeSort referenceLE

def referencesTo (index : SymbolIndex) (name : Bytes) : List Reference :=
  (index.references.filter (·.name == name)).mergeSort referenceLE

end SymbolIndex
end ScriptCodec
