import ScriptCodec.Symbol.Index
import ScriptCodec.Symbol.TextForm

/-!
A symbol index whose texts are kept in a form of their own. Names are put into that form before they
are recorded or looked for, and taken out of it when rows are given back, so rows are in the order
of the kept bytes.
-/
namespace ScriptCodec

structure StoredIndex where
  form : TextForm
  rows : SymbolIndex
deriving DecidableEq, Repr

def ScriptObject.mapNames (f : Bytes → Bytes) (obj : ScriptObject) : ScriptObject :=
  { obj with
    imports := obj.imports.map fun i => { i with name := f i.name, space := f i.space }
    exports := obj.exports.map fun e => { e with name := f e.name } }

def Definition.mapNames (f : Bytes → Bytes) (d : Definition) : Definition :=
  { d with script := f d.script, name := f d.name }

def Reference.mapNames (f : Bytes → Bytes) (r : Reference) : Reference :=
  { r with script := f r.script, caller := f r.caller, space := f r.space, name := f r.name }

namespace StoredIndex

def empty (form : TextForm) : StoredIndex := ⟨form, .empty⟩

def add (index : StoredIndex) (script : Bytes) (obj : ScriptObject) : StoredIndex :=
  let stored := index.form.stored
  { index with rows := index.rows.add (stored script) (obj.mapNames stored) }

def definitionsOf (index : StoredIndex) (name : Bytes) : List Definition :=
  (index.rows.definitionsOf (index.form.stored name)).map (·.mapNames index.form.shown)

def referencesIn (index : StoredIndex) (space name : Bytes) : List Reference :=
  (index.rows.referencesIn (index.form.stored space) (index.form.stored name)).map
    (·.mapNames index.form.shown)

def referencesTo (index : StoredIndex) (name : Bytes) : List Reference :=
  (index.rows.referencesTo (index.form.stored name)).map (·.mapNames index.form.shown)

end StoredIndex
end ScriptCodec
