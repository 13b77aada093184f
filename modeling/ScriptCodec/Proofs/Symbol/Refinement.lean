import ScriptCodec.Symbol.Index
import Mathlib.Data.List.Basic
import Mathlib.Data.List.Induction
import Mathlib.Logic.Function.Basic

/-!
The index refines a map from script names to objects. After any history of additions and removals
every table holds, script by script, the rows of the object the name stands for. The queries only
filter and sort these tables, so they answer for the live objects and for nothing else.
-/
namespace ScriptCodec

open Std

namespace Text

instance : TransCmp compareBytes := inferInstanceAs (TransCmp (List.compareLex compare))

instance : LawfulEqCmp compareBytes := inferInstanceAs (LawfulEqCmp (List.compareLex compare))

theorem compareBytes_eq_lt_iff {a b : Bytes} : compareBytes a b = .lt ↔ a < b := by
  induction a generalizing b with
  | nil => cases b <;> simp [compareBytes, List.compareLex]
  | cons x xs ih =>
    cases b with
    | nil => simp [compareBytes, List.compareLex]
    | cons y ys =>
      rw [compareBytes, List.compareLex_cons_cons, Ordering.then_eq_lt, List.cons_lt_cons_iff,
        ← compareBytes, ih, Std.compare_eq_lt, Std.compare_eq_iff_eq]

end Text

section Rows

variable {α β : Type}

theorem transCmp_comap {cmp : β → β → Ordering} [TransCmp cmp] (f : α → β) :
    TransCmp fun a b => cmp (f a) (f b) where
  eq_swap := OrientedCmp.eq_swap
  isLE_trans := TransCmp.isLE_trans

theorem pairwise_mergeSort_isLE (cmp : α → α → Ordering) [TransCmp cmp] (rows : List α) :
    (rows.mergeSort fun a b => (cmp a b).isLE).Pairwise fun a b => (cmp a b).isLE = true := by
  apply List.pairwise_mergeSort
  · intro a b c hab hbc
    exact TransCmp.isLE_trans hab hbc
  · intro a b
    have hswap : cmp b a = (cmp a b).swap := OrientedCmp.eq_swap
    rw [hswap]
    cases cmp a b <;> rfl

theorem filter_key_without (key : α → Bytes) (table : List α) (s t : Bytes) :
    (table.filter (key · != t)).filter (key · == s) =
      if s = t then [] else table.filter (key · == s) := by
  rw [List.filter_filter]
  by_cases hs : s = t
  · rw [if_pos hs, List.filter_eq_nil_iff]
    simp [hs]
  · rw [if_neg hs]
    apply List.filter_congr
    intro r _
    grind

theorem filter_key_append (key : α → Bytes) (table : List α) {rows : List α} {t : Bytes}
    (hrows : ∀ r ∈ rows, key r = t) (s : Bytes) :
    (table ++ rows).filter (key · == s) =
      table.filter (key · == s) ++ if s = t then rows else [] := by
  rw [List.filter_append]
  congr 1
  by_cases hs : s = t
  · rw [if_pos hs, List.filter_eq_self]
    simpa [hs] using hrows
  · rw [if_neg hs, List.filter_eq_nil_iff]
    intro r hr
    simpa [hrows r hr] using Ne.symm hs

/-- A table whose keys are all listed, each once, is its rows key by key. -/
theorem perm_flatMap_filter (key : α → Bytes) {keys : List Bytes} (hkeys : keys.Nodup)
    {table : List α} (htable : ∀ r ∈ table, key r ∈ keys) :
    table.Perm (keys.flatMap fun k => table.filter (key · == k)) := by
  induction keys generalizing table with
  | nil =>
    have hempty : table = [] := List.eq_nil_iff_forall_not_mem.mpr (by simpa using htable)
    simp [hempty]
  | cons k ks ih =>
    have hk : k ∉ ks := (List.nodup_cons.mp hkeys).1
    have hrest : ∀ r ∈ table.filter (!key · == k), key r ∈ ks := by
      intro r hr
      rw [List.mem_filter] at hr
      have := htable r hr.1
      grind
    -- Setting the rows of the first key aside does not touch those of the others.
    have hothers : (ks.flatMap fun k' => (table.filter (!key · == k)).filter (key · == k')) =
        ks.flatMap fun k' => table.filter (key · == k') := by
      apply List.flatMap_congr
      intro k' hk'
      rw [List.filter_filter]
      apply List.filter_congr
      intro r _
      grind
    calc table
      _ |>.Perm (table.filter (key · == k) ++ table.filter (!key · == k)) :=
          (List.filter_append_perm _ _).symm
      _ |>.Perm (table.filter (key · == k) ++
          ks.flatMap fun k' => (table.filter (!key · == k)).filter (key · == k')) :=
          (ih (List.nodup_cons.mp hkeys).2 hrest).append_left _
      _ |>.Perm ((k :: ks).flatMap fun k' => table.filter (key · == k')) := by
          rw [hothers, List.flatMap_cons]

/-- Where the rows of a source pass a test together or not at all, picking rows picks sources. -/
theorem filter_flatMap_rows {p : β → Bool} {q : α → Bool} {rows : α → List β}
    (h : ∀ a, ∀ r ∈ rows a, p r = q a) (sources : List α) :
    (sources.flatMap rows).filter p = (sources.filter q).flatMap rows := by
  induction sources with
  | nil => rfl
  | cons a rest ih =>
    rw [List.flatMap_cons, List.filter_append, ih]
    by_cases ha : q a = true
    · have hall : (rows a).filter p = rows a :=
        List.filter_eq_self.mpr fun r hr => (h a r hr).trans ha
      rw [hall, List.filter_cons_of_pos ha, List.flatMap_cons]
    · have hnone : (rows a).filter p = [] := by
        rw [List.filter_eq_nil_iff]
        intro r hr
        rwa [h a r hr]
      rw [hnone, List.filter_cons_of_neg ha, List.nil_append]

end Rows

namespace SymbolIndex

inductive Change where
  | add (script : Bytes) (obj : ScriptObject)
  | remove (script : Bytes)

namespace Change

def script : Change → Bytes
  | add s _ => s
  | remove s => s

def object? : Change → Option ScriptObject
  | add _ obj => some obj
  | remove _ => none

/-- A request that fails leaves the index as it was. -/
def apply (index : SymbolIndex) : Change → SymbolIndex
  | add s obj => index.add s obj
  | remove s =>
    match index.remove s with
    | .ok next => next
    | .error _ => index

end Change

/-- The index after a history of requests, the oldest first. -/
def run (history : List Change) : SymbolIndex := history.foldl Change.apply .empty

/-- The object a name stands for after a history: the one its latest request added. A removal that
fails finds the name gone already, so it need not be told from one that succeeds. -/
def live (history : List Change) (s : Bytes) : Option ScriptObject :=
  (history.reverse.find? fun change => change.script == s).bind Change.object?

theorem run_concat (history : List Change) (change : Change) :
    run (history ++ [change]) = change.apply (run history) := by
  rw [run, List.foldl_append]
  rfl

theorem live_concat (history : List Change) (change : Change) :
    live (history ++ [change]) =
      Function.update (live history) change.script change.object? := by
  funext s
  rw [live, List.reverse_append, List.reverse_singleton, List.singleton_append, List.find?_cons]
  by_cases hs : s = change.script
  · subst hs
    simp
  · have hne : (change.script == s) = false := by simpa using fun h => hs h.symm
    rw [hne, Function.update_of_ne hs]
    rfl

variable {index : SymbolIndex} {objects : Bytes → Option ScriptObject}

/-- The definitions a script makes: one for each export that is wanted. -/
def definitionRows (objects : Bytes → Option ScriptObject) (wanted : Export → Bool) (s : Bytes) :
    List Definition :=
  (objects s).toList.flatMap fun obj => (obj.exports.filter wanted).map fun e =>
    { script := s
      name := e.name
      params := e.params
      flags := e.flags
      offset := e.offset
      size := e.size
      checksum := e.checksum }

/-- The references a script makes: one for each address that an import which is wanted lists. -/
def referenceRows (objects : Bytes → Option ScriptObject) (wanted : Import → Bool) (s : Bytes) :
    List Reference :=
  (objects s).toList.flatMap fun obj => (obj.imports.filter wanted).flatMap fun i =>
    i.refs.map fun addr =>
      { script := s
        caller := Export.enclosing (Export.sortByOffset obj.exports) addr
        space := i.space
        name := i.name
        kind := i.kind
        offset := addr
        devOnly := i.devOnly }

theorem definitionRows_of_none {s : Bytes} (h : objects s = none) (wanted : Export → Bool) :
    definitionRows objects wanted s = [] := by
  rw [definitionRows, h, Option.toList_none, List.flatMap_nil]

theorem referenceRows_of_none {s : Bytes} (h : objects s = none) (wanted : Import → Bool) :
    referenceRows objects wanted s = [] := by
  rw [referenceRows, h, Option.toList_none, List.flatMap_nil]

theorem definitionRows_of_some {s : Bytes} {obj : ScriptObject} (h : objects s = some obj) :
    definitionRows objects (fun _ => true) s = obj.exports.map (Definition.ofExport s) := by
  rw [definitionRows, h, Option.toList_some, List.flatMap_singleton, List.filter_true]
  rfl

theorem referenceRows_of_some {s : Bytes} {obj : ScriptObject} (h : objects s = some obj) :
    referenceRows objects (fun _ => true) s =
      obj.imports.flatMap (Reference.ofImport s (Export.sortByOffset obj.exports)) := by
  rw [referenceRows, h, Option.toList_some, List.flatMap_singleton, List.filter_true]
  rfl

/-- The tables hold the rows of a map of objects, and no other rows. -/
structure Represents (index : SymbolIndex) (objects : Bytes → Option ScriptObject) : Prop where
  nodup : index.scripts.Nodup
  mem_scripts : ∀ s, s ∈ index.scripts ↔ (objects s).isSome
  definitions : ∀ s,
    index.definitions.filter (·.script == s) = definitionRows objects (fun _ => true) s
  references : ∀ s,
    index.references.filter (·.script == s) = referenceRows objects (fun _ => true) s

theorem Represents.empty : Represents .empty fun _ => none where
  nodup := List.nodup_nil
  mem_scripts := by simp [SymbolIndex.empty]
  definitions := by simp [SymbolIndex.empty, definitionRows]
  references := by simp [SymbolIndex.empty, referenceRows]

theorem script_of_mem_ofImport {s : Bytes} {sorted : List Export} {imports : List Import}
    {r : Reference} (hr : r ∈ imports.flatMap (Reference.ofImport s sorted)) : r.script = s := by
  simp only [List.mem_flatMap, Reference.ofImport, List.mem_map] at hr
  obtain ⟨_, _, _, _, rfl⟩ := hr
  rfl

theorem Represents.without (h : Represents index objects) (t : Bytes) :
    Represents (index.without t) (Function.update objects t none) where
  nodup := h.nodup.filter _
  mem_scripts s := by
    by_cases hs : s = t
    · simp [SymbolIndex.without, hs]
    · simp [SymbolIndex.without, hs, h.mem_scripts s]
  definitions s := by
    rw [SymbolIndex.without, filter_key_without, h.definitions s]
    by_cases hs : s = t
    · subst hs
      rw [if_pos rfl, definitionRows_of_none (Function.update_self ..)]
    · simp [definitionRows, hs]
  references s := by
    rw [SymbolIndex.without, filter_key_without, h.references s]
    by_cases hs : s = t
    · subst hs
      rw [if_pos rfl, referenceRows_of_none (Function.update_self ..)]
    · simp [referenceRows, hs]

theorem Represents.add (h : Represents index objects) (t : Bytes) (obj : ScriptObject) :
    Represents (index.add t obj) (Function.update objects t (some obj)) where
  nodup := by
    have hnew : t ∉ (index.without t).scripts := by simp [SymbolIndex.without]
    have hcons : (t :: (index.without t).scripts).Nodup :=
      List.nodup_cons.mpr ⟨hnew, (h.without t).nodup⟩
    exact hcons.perm (List.perm_append_singleton _ _).symm
  mem_scripts s := by
    rw [SymbolIndex.add, List.mem_append, (h.without t).mem_scripts s]
    by_cases hs : s = t
    · simp [hs]
    · simp [hs]
  definitions s := by
    have hrows : ∀ r ∈ obj.exports.map (Definition.ofExport t), r.script = t := by
      simp [Definition.ofExport]
    rw [SymbolIndex.add, filter_key_append _ _ hrows, (h.without t).definitions s]
    by_cases hs : s = t
    · subst hs
      rw [if_pos rfl, definitionRows_of_none (Function.update_self ..), List.nil_append,
        definitionRows_of_some (Function.update_self ..)]
    · simp [definitionRows, hs]
  references s := by
    have hrows : ∀ r ∈ obj.imports.flatMap
        (Reference.ofImport t (Export.sortByOffset obj.exports)), r.script = t :=
      fun _ => script_of_mem_ofImport
    rw [SymbolIndex.add, filter_key_append _ _ hrows, (h.without t).references s]
    by_cases hs : s = t
    · subst hs
      rw [if_pos rfl, referenceRows_of_none (Function.update_self ..), List.nil_append,
        referenceRows_of_some (Function.update_self ..)]
    · simp [referenceRows, hs]

theorem Represents.contains_eq (h : Represents index objects) (s : Bytes) :
    index.scripts.contains s = (objects s).isSome := by
  rw [Bool.eq_iff_iff, List.contains_iff_mem]
  exact h.mem_scripts s

theorem Represents.remove_of_live (h : Represents index objects) {s : Bytes}
    (hs : (objects s).isSome) : index.remove s = .ok (index.without s) := by
  rw [remove, h.contains_eq, if_pos hs]

theorem Represents.remove_of_not_live (h : Represents index objects) {s : Bytes}
    (hs : objects s = none) : index.remove s = .error ⟨s⟩ := by
  rw [remove, h.contains_eq, hs]
  rfl

theorem Represents.apply (h : Represents index objects) (change : Change) :
    Represents (change.apply index) (Function.update objects change.script change.object?) := by
  cases change with
  | add s obj => exact h.add s obj
  | remove s =>
    cases hs : objects s with
    | some obj =>
      rw [Change.apply, h.remove_of_live (by rw [hs]; rfl)]
      exact h.without s
    | none =>
      have hsame : Function.update objects s none = objects := by
        rw [← hs, Function.update_eq_self]
      rw [Change.apply, h.remove_of_not_live hs]
      simpa only [Change.script, Change.object?, hsame] using h

theorem run_represents (history : List Change) : Represents (run history) (live history) := by
  induction history using List.reverseRecOn with
  | nil => exact .empty
  | append_singleton history change ih =>
    rw [run_concat, live_concat]
    exact ih.apply change

theorem Represents.mem_scriptNames (h : Represents index objects) (s : Bytes) :
    s ∈ index.scriptNames ↔ (objects s).isSome := by
  rw [scriptNames, List.mem_mergeSort, h.mem_scripts]

theorem Represents.nodup_scriptNames (h : Represents index objects) : index.scriptNames.Nodup :=
  h.nodup.perm (List.mergeSort_perm _ _).symm

theorem Represents.scriptNames_ascending (h : Represents index objects) :
    index.scriptNames.Pairwise (· < ·) := by
  apply List.Pairwise.imp₂ _ h.nodup_scriptNames
    (pairwise_mergeSort_isLE Text.compareBytes index.scripts)
  intro a b hne hle
  cases hcmp : Text.compareBytes a b with
  | lt => exact Text.compareBytes_eq_lt_iff.mp hcmp
  | eq => exact absurd (LawfulEqCmp.compare_eq_iff_eq.mp hcmp) hne
  | gt => simp [hcmp] at hle

theorem Represents.perm_flatMap_rows {α : Type} (h : Represents index objects) {key : α → Bytes}
    {table : List α} {rows : Bytes → List α} (htable : ∀ s, table.filter (key · == s) = rows s)
    (hrows : ∀ s, objects s = none → rows s = []) :
    table.Perm (index.scriptNames.flatMap rows) := by
  have hkeys : ∀ r ∈ table, key r ∈ index.scriptNames := by
    intro r hr
    rw [h.mem_scriptNames, Option.isSome_iff_ne_none]
    intro hnone
    have hmem : r ∈ table.filter (key · == key r) := by simp [hr]
    rw [htable, hrows _ hnone] at hmem
    exact List.not_mem_nil hmem
  have hperm := perm_flatMap_filter key h.nodup_scriptNames hkeys
  simpa only [htable] using hperm

theorem Represents.definitions_perm (h : Represents index objects) (name : Bytes) :
    (index.definitions.filter (·.name == name)).Perm
      (index.scriptNames.flatMap (definitionRows objects fun e => e.name == name)) := by
  have hperm : index.definitions.Perm _ :=
    h.perm_flatMap_rows h.definitions fun _ hs => definitionRows_of_none hs _
  have hrows : ∀ s, (definitionRows objects (fun _ => true) s).filter (·.name == name) =
      definitionRows objects (fun e => e.name == name) s := by
    intro s
    simp [definitionRows, List.filter_flatMap, List.filter_map, Function.comp_def]
  have hfilter := hperm.filter (·.name == name)
  rwa [List.filter_flatMap, funext hrows] at hfilter

/-- Rows of an import carry its name and its namespace, so picking rows by these picks imports. -/
theorem filter_referenceRows (wanted : Bytes → Bytes → Bool) (s : Bytes) :
    (referenceRows objects (fun _ => true) s).filter (fun r => wanted r.space r.name) =
      referenceRows objects (fun i => wanted i.space i.name) s := by
  rw [referenceRows, List.filter_flatMap, referenceRows]
  apply List.flatMap_congr
  intro obj _
  rw [List.filter_true]
  apply filter_flatMap_rows
  intro i r hr
  obtain ⟨addr, -, rfl⟩ := List.mem_map.mp hr
  rfl

theorem Represents.references_perm (h : Represents index objects) (wanted : Bytes → Bytes → Bool) :
    (index.references.filter fun r => wanted r.space r.name).Perm
      (index.scriptNames.flatMap (referenceRows objects fun i => wanted i.space i.name)) := by
  have hperm : index.references.Perm _ :=
    h.perm_flatMap_rows h.references fun _ hs => referenceRows_of_none hs _
  have hfilter := hperm.filter fun r => wanted r.space r.name
  rwa [List.filter_flatMap, funext (filter_referenceRows wanted)] at hfilter

theorem pairwise_mergeSort_byScript {α : Type} (script : α → Bytes) {offset : α → UInt32}
    (rest : α → α → Ordering) [TransCmp rest]
    (hrest : ∀ a b, (rest a b).isLE = true → offset a ≤ offset b) (rows : List α) :
    (rows.mergeSort fun a b =>
        ((Text.compareBytes (script a) (script b)).then (rest a b)).isLE).Pairwise fun a b =>
      script a < script b ∨ script a = script b ∧ offset a ≤ offset b := by
  have hscript : TransCmp fun a b => Text.compareBytes (script a) (script b) :=
    transCmp_comap script
  have hsorted := pairwise_mergeSort_isLE
    (compareLex (fun a b => Text.compareBytes (script a) (script b)) rest) rows
  apply hsorted.imp
  intro a b hle
  rw [compareLex, Ordering.isLE_then_iff_or, Text.compareBytes_eq_lt_iff,
    LawfulEqCmp.compare_eq_iff_eq] at hle
  exact hle.imp_right fun h => ⟨h.1, hrest a b h.2⟩

theorem mergeSort_definitionLE_ordered (rows : List Definition) :
    (rows.mergeSort definitionLE).Pairwise fun a b =>
      a.script < b.script ∨ a.script = b.script ∧ a.offset ≤ b.offset := by
  apply pairwise_mergeSort_byScript Definition.script (compareOn Definition.offset)
  intro a b hle
  exact isLE_compare.mp hle

theorem mergeSort_referenceLE_ordered (rows : List Reference) :
    (rows.mergeSort referenceLE).Pairwise fun a b =>
      a.script < b.script ∨ a.script = b.script ∧ a.offset ≤ b.offset := by
  have hspace : TransCmp fun a b : Reference => Text.compareBytes a.space b.space :=
    transCmp_comap Reference.space
  apply pairwise_mergeSort_byScript Reference.script
    (compareLex (compareOn Reference.offset)
      fun a b : Reference => Text.compareBytes a.space b.space)
  intro a b hle
  exact isLE_compare.mp (Ordering.isLE_then_iff_and.mp hle).1

/-- Every query is answered with the rows of the objects of a map, each row as often as they make
it, and the rows go by script and then by address. -/
structure Answers (index : SymbolIndex) (objects : Bytes → Option ScriptObject) : Prop where
  scriptNames_ascending : index.scriptNames.Pairwise (· < ·)
  mem_scriptNames : ∀ s, s ∈ index.scriptNames ↔ (objects s).isSome
  definitionsOf_perm : ∀ name, (index.definitionsOf name).Perm
    (index.scriptNames.flatMap (definitionRows objects fun e => e.name == name))
  definitionsOf_ordered : ∀ name, (index.definitionsOf name).Pairwise fun a b =>
    a.script < b.script ∨ a.script = b.script ∧ a.offset ≤ b.offset
  referencesIn_perm : ∀ space name, (index.referencesIn space name).Perm
    (index.scriptNames.flatMap
      (referenceRows objects fun i => i.name == name && i.space == space))
  referencesIn_ordered : ∀ space name, (index.referencesIn space name).Pairwise fun a b =>
    a.script < b.script ∨ a.script = b.script ∧ a.offset ≤ b.offset
  referencesTo_perm : ∀ name, (index.referencesTo name).Perm
    (index.scriptNames.flatMap (referenceRows objects fun i => i.name == name))
  referencesTo_ordered : ∀ name, (index.referencesTo name).Pairwise fun a b =>
    a.script < b.script ∨ a.script = b.script ∧ a.offset ≤ b.offset

theorem Represents.answers (h : Represents index objects) : Answers index objects where
  scriptNames_ascending := h.scriptNames_ascending
  mem_scriptNames := h.mem_scriptNames
  definitionsOf_perm _ := (List.mergeSort_perm _ _).trans (h.definitions_perm _)
  definitionsOf_ordered _ := mergeSort_definitionLE_ordered _
  referencesIn_perm space name := (List.mergeSort_perm _ _).trans
    (h.references_perm fun space' name' => name' == name && space' == space)
  referencesIn_ordered _ _ := mergeSort_referenceLE_ordered _
  referencesTo_perm name := (List.mergeSort_perm _ _).trans
    (h.references_perm fun _ name' => name' == name)
  referencesTo_ordered _ := mergeSort_referenceLE_ordered _

/-- After every history the index answers for the live objects. A name that is not live cannot be
removed, and trying to changes nothing. -/
theorem run_answers (history : List Change) :
    Answers (run history) (live history) ∧
      ∀ s, if (live history s).isSome then
          (run history).remove s = .ok (run (history ++ [.remove s]))
        else
          (∃ e, (run history).remove s = .error e ∧ e.categories = [.unknownScript]) ∧
            run (history ++ [.remove s]) = run history := by
  have hrun := run_represents history
  refine ⟨hrun.answers, ?_⟩
  intro s
  rw [run_concat, Change.apply]
  by_cases hs : (live history s).isSome
  · rw [if_pos hs, hrun.remove_of_live hs]
  · have hnone : live history s = none := by simpa using hs
    rw [if_neg hs, hrun.remove_of_not_live hnone]
    exact ⟨⟨⟨s⟩, rfl, rfl⟩, rfl⟩

end SymbolIndex
end ScriptCodec
