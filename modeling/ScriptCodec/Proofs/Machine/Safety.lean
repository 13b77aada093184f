import ScriptCodec.Proofs.Machine.Code
import ScriptCodec.Proofs.Object.Stability

/-!
The whole decoding on the machine. Every export is decoded, also when another one has failed
before. Whatever the input, the machine ends with what the checked decoding gives: no index or
slice is out of range, no loop runs out of rounds, and an error is of one kind.
-/
namespace ScriptCodec

namespace Machine

open Pass

def functions (l : Lookups) (img : Image) : List Export → Pass (List (Decoding Function))
  | [] => pure []
  | e :: rest => do
    let first ← attempt (within (.function e.name) (function l img e))
    let others ← functions l img rest
    return first :: others

def disassemble (opcodes : OpcodeTable) (img : Image) : Pass ScriptObject := do
  let (s, animRefs, importRefs) ← sections img
  let l : Lookups := ⟨opcodes, s.strings, s.animTrees, animRefs, s.imports, importRefs⟩
  let outcomes ← functions l img s.exports
  let functions ← ofDecoding (outcomes.mapM id)
  return s.object functions

def run (opcodes : OpcodeTable) (img : Image) : Guarded (Decoding ScriptObject) :=
  (disassemble opcodes img ⟨0, none⟩).map Prod.fst

theorem matches_sections (opcodes : OpcodeTable) (s : Disassembly.Sections) :
    Matches ⟨opcodes, s.strings, s.animTrees, indexOf AnimTree.keys s.animTrees, s.imports,
      indexOf Import.refs s.imports⟩ (s.tables opcodes) where
  opcodes := rfl
  strings := rfl
  trees := by
    have htrees := indexes_indexOf AnimTree.keys s.animTrees
    simp only [AnimTree.keys, List.foldl_map] at htrees
    exact htrees
  imports := indexes_indexOf Import.refs s.imports

theorem gives_functions {l : Lookups} {t : DecodeTables} (h : Matches l t) {img : Image}
    (hsize : img.size < 2 ^ 32) (exports : List Export) :
    Gives (functions l img exports) (.ok (exports.map (Disassembly.exportedFunction t img))) := by
  induction exports with
  | nil => exact Gives.pure []
  | cons e rest ih =>
    refine ((((gives_function h hsize e).within _).attempt).bind fun first _ =>
      ih.bind fun others _ => Gives.pure _).of_eq ?_
    rfl

theorem gives_disassemble (opcodes : OpcodeTable) {img : Image} (hsize : img.size < 2 ^ 32) :
    Gives (disassemble opcodes img) (ScriptCodec.disassemble opcodes img) := by
  have hrest (found : Disassembly.Sections × Refs × Refs)
      (hfound : (Disassembly.sections img).map (fun s =>
        (s, indexOf AnimTree.keys s.animTrees, indexOf Import.refs s.imports)) = .ok found) :
      Matches ⟨opcodes, found.1.strings, found.1.animTrees, found.2.1, found.1.imports, found.2.2⟩
        (found.1.tables opcodes) := by
    obtain ⟨s, -, rfl⟩ := Except.map_eq_ok_iff.mp hfound
    exact matches_sections opcodes s
  refine ((gives_sections hsize).bind fun found hfound =>
    (gives_functions (hrest found hfound) hsize found.1.exports).bind fun outcomes _ =>
    (Gives.ofDecoding _).bind fun functions _ => Gives.pure _).of_eq ?_
  simp only [ScriptCodec.disassemble, Except.andThen_eq_bind, Except.map_eq_bind, Except.bind_bind,
    Except.ok_bind, pure, Except.pure]
  simp

theorem Indexes.lt_length {α : Type} {refs : Refs} {entries : List α}
    {index : Std.TreeMap UInt32 α} (h : Indexes refs entries index) {ref : UInt32} {i : Nat}
    (hi : refs[ref]? = some i) : i < entries.length := by
  rcases h ref with ⟨hnone, -⟩ | ⟨j, x, hj, hx, -⟩
  · rw [hnone] at hi
    cases hi
  · rw [hj] at hi
    cases hi
    exact (List.getElem?_eq_some_iff.mp hx).1

end Machine

def DecodeError.kinds : List Category :=
  [.badMagic, .truncatedHeader, .truncated, .corrupt, .unhandledOpcode, .functionOverrun]

/-- The error is of exactly one kind; a read beyond the input is also named as such. -/
def DecodeError.IsOfOneKind (e : DecodeError) : Prop :=
  (∃ c ∈ kinds, e.categories = [c]) ∨ e.categories = [.truncated, .outOfRange]

theorem DecodeError.isOfOneKind (e : DecodeError) : e.IsOfOneKind := by
  obtain ⟨places, cause⟩ := e
  cases cause with
  | range fault => exact Or.inr rfl
  | _ => exact Or.inl ⟨_, by decide, rfl⟩

theorem disassemble_safe {img : Image} (hsize : img.size < 2 ^ 32) (opcodes : OpcodeTable) :
    Machine.run opcodes img = .ok (disassemble opcodes img) ∧
      (∀ s animRefs importRefs r,
        Machine.sections img ⟨0, none⟩ = .ok (.ok (s, animRefs, importRefs), r) →
          (∀ (ref : UInt32) i, animRefs[ref]? = some i → i < s.animTrees.length) ∧
          ∀ (ref : UInt32) i, importRefs[ref]? = some i → i < s.imports.length) ∧
      ∀ e, disassemble opcodes img = .error e → e.IsOfOneKind := by
  refine ⟨?_, ?_, fun e _ => e.isOfOneKind⟩
  · rw [Machine.run, Machine.gives_disassemble opcodes hsize]
    rfl
  · intro s animRefs importRefs r hrun
    rw [Machine.gives_sections hsize] at hrun
    have hsections := (Prod.mk.inj (Except.ok.inj hrun)).1
    obtain ⟨found, -, hfound⟩ := Except.map_eq_ok_iff.mp hsections
    cases hfound
    have hmatches := Machine.matches_sections opcodes s
    exact ⟨fun ref i hi => hmatches.trees.lt_length hi,
      fun ref i hi => hmatches.imports.lt_length hi⟩

def overrunImage : Image := strayImage.set! 44 18

theorem disassemble_safe_overrunImage :
    overrunImage.size < 2 ^ 32 ∧ ∃ e, Machine.run .builtIn overrunImage = .ok (.error e) ∧
      e.IsOfOneKind ∧ e.categories = [.functionOverrun] := by
  have hsize : overrunImage.size < 2 ^ 32 := by decide +kernel
  have hfails : (match disassemble .builtIn overrunImage with
      | .ok _ => false
      | .error e => decide (e.categories = [.functionOverrun])) = true := by decide +kernel
  obtain ⟨hrun, -, hkind⟩ := disassemble_safe hsize .builtIn
  refine ⟨hsize, ?_⟩
  cases hdisassemble : disassemble .builtIn overrunImage with
  | ok obj =>
    rw [hdisassemble] at hfails
    cases hfails
  | error e =>
    rw [hdisassemble] at hfails hrun
    exact ⟨e, hrun, hkind e hdisassemble, of_decide_eq_true hfails⟩

end ScriptCodec
