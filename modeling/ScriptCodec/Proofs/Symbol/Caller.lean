import ScriptCodec.Proofs.Object.Partition
import ScriptCodec.Proofs.Object.RoundTrip
import ScriptCodec.Proofs.Order.Ordered
import ScriptCodec.Proofs.Symbol.Refinement
import Mathlib.Data.List.Forall2
import Mathlib.Data.List.TakeWhile

/-!
Whose code an address lies in. The extents of a decoded object ascend without touching each other
and none wraps, so the last export that starts at or before an address is the only one that can
hold it. Hence the index records as the caller of a reference the one function that contains it.
-/
namespace ScriptCodec

namespace Export

/-- The address lies in the extent of the export. The end is a number here, not a word. -/
def Holds (e : Export) (addr : UInt32) : Prop :=
  e.offset.toNat ≤ addr.toNat ∧ addr.toNat < e.offset.toNat + e.size.toNat

/-- The name of the one export of a table that holds an address, or no name when none does. -/
inductive Attributed (exports : List Export) (addr : UInt32) : Bytes → Prop
  | inside {before after : List Export} {e : Export} (table : exports = before ++ e :: after)
    (holds : e.Holds addr) (alone : ∀ other ∈ before ++ after, ¬ other.Holds addr) :
    Attributed exports addr e.name
  | outside (none : ∀ e ∈ exports, ¬ e.Holds addr) : Attributed exports addr []

open ExportSizes

variable {exports : List Export}

theorem not_lt_of_precede {e next : Export} (h : Precede e next) : ¬ next.offset < e.offset := by
  rw [UInt32.lt_iff_toNat_lt]
  have hle : e.offset.toNat + e.size.toNat + 4 ≤ next.offset.toNat := h
  omega

theorem sortByOffset_of_precede (h : exports.Pairwise Precede) :
    sortByOffset exports = exports := by
  apply Order.quicksort_of_pairwise
  refine h.imp fun hprecede => ?_
  rw [decide_eq_false_iff_not]
  exact not_lt_of_precede hprecede

theorem reaches_iff {e : Export} (h : e.offset.toNat + e.size.toNat < 2 ^ 32) (addr : UInt32) :
    e.reaches addr = true ↔ addr.toNat < e.offset.toNat + e.size.toNat := by
  rw [reaches, decide_eq_true_eq, UInt32.lt_iff_toNat_lt, UInt32.toNat_add, Nat.mod_eq_of_lt h]

theorem not_holds_of_precede {e next : Export} (h : Precede e next) {addr : UInt32}
    (haddr : next.offset ≤ addr) : ¬ e.Holds addr := by
  have hle : e.offset.toNat + e.size.toNat + 4 ≤ next.offset.toNat := h
  have hstart := UInt32.le_iff_toNat_le.mp haddr
  rintro ⟨-, hend⟩
  omega

/-- Exports that start after an address are those that the search for it leaves. -/
theorem lt_offset_of_mem_dropWhile (h : exports.Pairwise Precede) {addr : UInt32} {e : Export}
    (he : e ∈ exports.dropWhile fun e => e.offset ≤ addr) : addr < e.offset := by
  have hsorted := h.sublist (List.dropWhile_sublist fun e : Export => decide (e.offset ≤ addr))
  have hhead := List.head?_dropWhile_not (fun e : Export => decide (e.offset ≤ addr)) exports
  cases hback : exports.dropWhile fun e => decide (e.offset ≤ addr) with
  | nil =>
    rw [hback] at he
    cases he
  | cons first back =>
    rw [hback] at he hsorted hhead
    have hfirst : addr < first.offset := by simpa using hhead
    rcases List.mem_cons.mp he with rfl | he
    · exact hfirst
    · have hle := UInt32.not_lt.mp (not_lt_of_precede (List.rel_of_pairwise_cons hsorted he))
      exact UInt32.lt_of_lt_of_le hfirst hle

theorem attributed_enclosing (h : exports.Pairwise Precede)
    (hend : ∀ e ∈ exports, e.offset.toNat + e.size.toNat < 2 ^ 32) (addr : UInt32) :
    Attributed exports addr (enclosing exports addr) := by
  obtain ⟨front, hfront⟩ : ∃ front, exports.takeWhile (fun e => e.offset ≤ addr) = front := ⟨_, rfl⟩
  obtain ⟨back, hback⟩ : ∃ back, exports.dropWhile (fun e => e.offset ≤ addr) = back := ⟨_, rfl⟩
  have hsplit : exports = front ++ back := by
    rw [← hfront, ← hback, List.takeWhile_append_dropWhile]
  have hlater : ∀ e ∈ back, ¬ e.Holds addr := by
    intro e he hholds
    have hlt := lt_offset_of_mem_dropWhile h (hback ▸ he)
    exact absurd hholds.1 (Nat.not_le.mpr (UInt32.lt_iff_toNat_lt.mp hlt))
  rw [enclosing, hfront]
  cases front using List.reverseRecOn with
  | nil =>
    refine .outside ?_
    rw [hsplit]
    exact hlater
  | append_singleton before last _ =>
    rw [List.append_assoc, List.singleton_append] at hsplit
    have hstart : last.offset ≤ addr := by
      have hmem : last ∈ exports.takeWhile fun e => e.offset ≤ addr := by simp [hfront]
      simpa using List.mem_takeWhile_imp hmem
    have hearlier : ∀ e ∈ before, ¬ e.Holds addr := by
      intro e he
      rw [hsplit, List.pairwise_append] at h
      exact not_holds_of_precede (h.2.2 e he last List.mem_cons_self) hstart
    have hothers := List.forall_mem_append.mpr ⟨hearlier, hlater⟩
    have hlast := reaches_iff (hend last (by simp [hsplit])) addr
    rw [List.getLast?_concat]
    by_cases hreach : last.reaches addr = true
    · simp only [if_pos hreach]
      exact .inside hsplit ⟨UInt32.le_iff_toNat_le.mp hstart, hlast.mp hreach⟩ hothers
    · simp only [if_neg hreach]
      refine .outside ?_
      rw [hsplit]
      intro e he
      rcases List.mem_append.mp he with he | he
      · exact hearlier e he
      · rcases List.mem_cons.mp he with rfl | he
        · exact fun hholds => hreach (hlast.mpr hholds.2)
        · exact hlater e he

end Export

namespace SymbolIndex

theorem references_add (index : SymbolIndex) (script : Bytes) (obj : ScriptObject) :
    (index.add script obj).references.filter (·.script == script) =
      obj.imports.flatMap (Reference.ofImport script (Export.sortByOffset obj.exports)) := by
  have hrows : ∀ r ∈ obj.imports.flatMap
      (Reference.ofImport script (Export.sortByOffset obj.exports)), r.script = script :=
    fun _ => script_of_mem_ofImport
  rw [add, filter_key_append _ _ hrows, if_pos rfl, without, filter_key_without, if_pos rfl,
    List.nil_append]

end SymbolIndex

/-- An address of a decoded object is attributed to the function that contains it, and so is every
reference that is recorded when the object is added to an index. -/
theorem caller_of_disassemble {opcodes : OpcodeTable} {img : Image} {obj : ScriptObject}
    (hsize : img.size < 2 ^ 32 - 4) (h : disassemble opcodes img = .ok obj) :
    (∀ addr, Export.Attributed obj.exports addr
      (Export.enclosing (Export.sortByOffset obj.exports) addr)) ∧
    ∀ (index : SymbolIndex) (script : Bytes),
      (obj.imports.flatMap fun i => i.refs.map fun addr => (i, addr)).Forall₂
        (fun use r => r.space = use.1.space ∧ r.name = use.1.name ∧ r.kind = use.1.kind ∧
          r.devOnly = use.1.devOnly ∧ r.offset = use.2 ∧
          Export.Attributed obj.exports use.2 r.caller)
        ((index.add script obj).references.filter (·.script == script)) := by
  obtain ⟨hprecede, hinside⟩ := exports_of_disassemble hsize h
  have hcaller : ∀ addr, Export.Attributed obj.exports addr
      (Export.enclosing (Export.sortByOffset obj.exports) addr) := by
    intro addr
    rw [Export.sortByOffset_of_precede hprecede]
    refine Export.attributed_enclosing hprecede ?_ addr
    intro e he
    have hle := hinside e he
    omega
  refine ⟨hcaller, ?_⟩
  intro index script
  have hrows : obj.imports.flatMap (Reference.ofImport script (Export.sortByOffset obj.exports)) =
      (obj.imports.flatMap fun i => i.refs.map fun addr => (i, addr)).map fun use =>
        ⟨script, Export.enclosing (Export.sortByOffset obj.exports) use.2, use.1.space, use.1.name,
          use.1.kind, use.2, use.1.devOnly⟩ := by
    rw [List.map_flatMap]
    refine congrArg (List.flatMap · obj.imports) (funext fun i => ?_)
    rw [List.map_map]
    rfl
  rw [SymbolIndex.references_add, hrows, List.forall₂_map_right_iff, List.forall₂_same]
  intro use _
  exact ⟨rfl, rfl, rfl, rfl, rfl, hcaller use.2⟩

theorem caller_of_disassemble_callingModule :
    ∃ a obj, assemble .builtIn 1 callingModule = .ok a ∧ a.file.toArray.size < 2 ^ 32 - 4 ∧
      disassemble .builtIn a.file.toArray = .ok obj ∧
      (obj.imports.flatMap Import.refs).length = 1 ∧
      (∀ addr, Export.Attributed obj.exports addr
        (Export.enclosing (Export.sortByOffset obj.exports) addr)) ∧
      ∀ (index : SymbolIndex) (script : Bytes),
        (obj.imports.flatMap fun i => i.refs.map fun addr => (i, addr)).Forall₂
          (fun use r => r.space = use.1.space ∧ r.name = use.1.name ∧ r.kind = use.1.kind ∧
            r.devOnly = use.1.devOnly ∧ r.offset = use.2 ∧
            Export.Attributed obj.exports use.2 r.caller)
          ((index.add script obj).references.filter (·.script == script)) := by
  obtain ⟨a, ha, hrest⟩ : ∃ a, assemble .builtIn 1 callingModule = .ok a ∧
      (decide (a.file.toArray.size < 2 ^ 32 - 4) &&
        (disassemble .builtIn a.file.toArray).toOption.any fun obj =>
          decide ((obj.imports.flatMap Import.refs).length = 1)) = true :=
    Except.exists_of_any (by decide +kernel)
  rw [Bool.and_eq_true, decide_eq_true_eq] at hrest
  obtain ⟨obj, hobj, hrefs⟩ := Except.exists_of_any hrest.2
  rw [decide_eq_true_eq] at hrefs
  exact ⟨a, obj, ha, hrest.1, hobj, hrefs, caller_of_disassemble hrest.1 hobj⟩

end ScriptCodec
