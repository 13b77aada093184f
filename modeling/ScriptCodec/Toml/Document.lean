import ScriptCodec.Toml.Statement

/-!
The table a configuration file stands for. A key may be given once, with two exceptions: a table
that was only passed through on the way to another may still be opened by name, and a key that
holds an array may be passed through, in which case a table takes the place of the array.
-/
namespace ScriptCodec.Toml

inductive Value where
  | string (s : Bytes)
  | integer (n : Int)
  | float
  | boolean (b : Bool)
  | moment
  | array (items : List Value)
  | table (entries : List (Bytes × Value))
  /-- a list of tables, the table added last in front of the others -/
  | tables (last : List (Bytes × Value)) (before : List (List (Bytes × Value)))
deriving Repr

def Value.isArray : Value → Bool
  | .array _ => true
  | _ => false

abbrev Table := List (Bytes × Value)

namespace Table

def get? (t : Table) (name : Bytes) : Option Value := List.lookup name t

/-- Sets a name, at its old place if it has one. -/
def put (t : Table) (name : Bytes) (v : Value) : Table :=
  if List.any t (·.1 == name) then List.map (fun e => if e.1 == name then (name, v) else e) t
  else List.append t [(name, v)]

def putBelow (name : Bytes) (v : Value) : Key → Table → Option Table
  | [], t => some (t.put name v)
  | step :: path, t =>
    match t.get? step with
    | none => (putBelow name v path []).map fun sub => t.put step (.table sub)
    | some (.table sub) => (putBelow name v path sub).map fun sub => t.put step (.table sub)
    | some _ => none

end Table

/-- What is noted about a key, and about the keys below it. Elements of a list of tables share their
notes. -/
inductive Notes where
  | mk (implicit isArray : Bool) (below : List (Bytes × Notes))

namespace Notes

def empty : Notes := mk false false []

/-- Nobody has opened the table at the key by name. -/
def implicit : Notes → Bool
  | mk i _ _ => i

def isArray : Notes → Bool
  | mk _ a _ => a

def setImplicit (i : Bool) : Notes → Notes
  | mk _ a below => mk i a below

def setArray (a : Bool) : Notes → Notes
  | mk i _ below => mk i a below

def get (n : Notes) (name : Bytes) : Notes :=
  match n with
  | mk _ _ below => (below.lookup name).getD empty

def put (n : Notes) (name : Bytes) (sub : Notes) : Notes :=
  match n with
  | mk i a below =>
    if below.any (·.1 == name) then
      mk i a (below.map fun e => if e.1 == name then (name, sub) else e)
    else mk i a ((name, sub) :: below)

end Notes

structure Draft where
  root : Table
  notes : Notes

namespace Draft

def empty : Draft := ⟨[], .empty⟩

/-- Works in the table below one name. A list of tables stands for its last element. -/
def below {α : Type} (d : Draft) (name : Bytes) (work : Draft → Option (α × Draft)) :
    Option (α × Draft) :=
  let enter (t : Table) (wrap : Table → Value) : Option (α × Draft) :=
    (work ⟨t, d.notes.get name⟩).map fun (a, sub) =>
      (a, ⟨d.root.put name (wrap sub.root), d.notes.put name sub.notes⟩)
  match d.root.get? name with
  | some (.table t) => enter t .table
  | some (.tables last before) => enter last (.tables · before)
  | _ => none

/-- Works in the table at a path, told whether it is the whole document. -/
def within {α : Type} (work : Bool → Draft → Option (α × Draft)) :
    Bool → Key → Draft → Option (α × Draft)
  | atRoot, [], d => work atRoot d
  | _, name :: path, d => d.below name (within work false path)

/-- Notes whether a name was given an array. A nameless key stands for its table, unless that is the
whole document. -/
def noteKind (d : Draft) (atRoot : Bool) (name : Bytes) (isArray : Bool) : Draft :=
  if name.isEmpty && !atRoot then { d with notes := d.notes.setArray isArray }
  else { d with notes := d.notes.put name ((d.notes.get name).setArray isArray) }

def setImplicit (d : Draft) (name : Bytes) (i : Bool) : Draft :=
  { d with notes := d.notes.put name ((d.notes.get name).setImplicit i) }

/-- Gives a name a value. A name that has one keeps it, unless it was given an array. -/
def assign (d : Draft) (name : Bytes) (v : Value) : Option Draft :=
  let note := d.notes.get name
  if (d.root.get? name).isNone then some { d with root := d.root.put name v }
  else if !note.implicit then none
  else if note.isArray then some { d.setImplicit name false with root := d.root.put name v }
  else some (d.setImplicit name false)

def addElement (d : Draft) (name : Bytes) : Option Draft :=
  match d.root.get? name with
  | none => some { d with root := d.root.put name (.tables [] []) }
  | some (.tables last before) =>
    some { d with root := d.root.put name (.tables [] (last :: before)) }
  | some _ => none

def openHere (d : Draft) (name : Bytes) (element : Bool) : Option Draft :=
  if element then d.addElement name else d.assign name (.table [])

def ensure (d : Draft) (name : Bytes) : Draft :=
  if (d.root.get? name).isSome then d
  else { d.setImplicit name true with root := d.root.put name (.table []) }

def openTable (element : Bool) : Key → Draft → Option Draft
  | [], _ => none
  | [name], d => d.openHere name element
  | name :: path, d =>
    ((d.ensure name).below name fun sub => (openTable element path sub).map ((), ·)).map Prod.snd

def through {α : Type} (work : Bool → Draft → Option (α × Draft)) :
    Bool → Key → Draft → Option (α × Draft)
  | atRoot, [], d => work atRoot d
  | _, name :: path, d =>
    match (d.setImplicit name true).assign name (.table []) with
    | some d => d.below name (through work false path)
    | none => none

end Draft

mutual

/-- The value of a term given to a name. The tables inside it are opened in the document too. -/
def evaluate (name : Bytes) (inArray : Bool) : Term → Bool → Draft → Option (Value × Draft)
  | .string s, _, d => some (.string s, d)
  | .integer n, _, d => some (.integer n, d)
  | .float, _, d => some (.float, d)
  | .boolean b, _, d => some (.boolean b, d)
  | .moment, _, d => some (.moment, d)
  | .array xs, atRoot, d =>
    (evaluateItems name xs [] atRoot (d.noteKind atRoot name true)).map
      fun (vs, d) => (.array vs, d)
  | .inlineTable es, _, d =>
    match (d.setImplicit name true).openHere name inArray with
    | some d => (d.below name (evaluateEntries es [] false)).map fun (t, d) => (.table t, d)
    | none => none

def evaluateItems (name : Bytes) :
    List Term → List Value → Bool → Draft → Option (List Value × Draft)
  | [], done, _, d => some (done.reverse, d)
  | x :: rest, done, atRoot, d =>
    match evaluate name true x atRoot d with
    | some (v, d) => evaluateItems name rest (v :: done) atRoot d
    | none => none

def evaluateEntries : List (Key × Term) → Table → Bool → Draft → Option (Table × Draft)
  | [], t, _, d => some (t, d)
  | (key, x) :: rest, t, atRoot, d =>
    let way := key.dropLast
    let name := key.getLastD []
    let give (atRoot : Bool) (d : Draft) : Option (Value × Draft) :=
      match evaluate name false x atRoot d with
      | none => none
      | some (v, d) => (d.assign name v).map fun d => (v, d.noteKind atRoot name v.isArray)
    match Draft.through give atRoot way d with
    | none => none
    | some (v, d) =>
      match t.putBelow name v way with
      | some t => evaluateEntries rest t atRoot d
      | none => none

end

/-- A table that was opened by name was not given an array. -/
def Draft.clearKind : Key → Draft → Option (Unit × Draft) :=
  Draft.within (fun _ d => some ((), { d with notes := d.notes.setArray false })) true

def Statement.apply (context : Key) (d : Draft) : Statement → Option (Key × Draft)
  | .table key => opened key false
  | .element key => opened key true
  | .assign key x =>
    (Draft.within (fun atRoot d => evaluateEntries [(key, x)] [] atRoot d) true context d).map
      fun (_, d) => (context, d)
where
  opened (key : Key) (element : Bool) : Option (Key × Draft) :=
    ((Draft.openTable element key d).bind (Draft.clearKind key)).map fun (_, d) => (key, d)

def build (context : Key) (d : Draft) : List Statement → Option Table
  | [] => some d.root
  | st :: rest =>
    match st.apply context d with
    | some (context, d) => build context d rest
    | none => none

def document (file : Bytes) : Option Table := (parse file).bind (build [] Draft.empty)

end ScriptCodec.Toml
