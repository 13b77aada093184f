import ScriptCodec.Proofs.Object.ReadBack

/-!
Disassembly undoes assembly. Whatever module assembles, its file decodes to the same name,
includes and functions, with every operand in the canonical text of its kind and every branch
named after the address its label has in the layout.
-/
namespace ScriptCodec

/-- No string that is pooled for the module has a zero byte. -/
def Module.IsNulFree (m : Module) : Prop :=
  ∀ ms, Mentions.ofModule .builtIn m = .ok ms → ∀ s ∈ ms.strings m, 0 ∉ s

instance (m : Module) : Decidable m.IsNulFree :=
  decidable_of_iff
    (∀ ms ∈ (Mentions.ofModule .builtIn m).toOption, ∀ s ∈ ms.strings m, 0 ∉ s) <| by
    simp only [Module.IsNulFree, Option.mem_def, Except.toOption_eq_some_iff]

namespace Layout

variable {lay : Layout} {fn : Function} {start size : UInt32}

theorem instructions_canonicalFunction :
    (lay.canonicalFunction fn start size).instructions.getD [] = lay.canonicalCode.map some := by
  unfold canonicalFunction
  cases hcode : lay.canonicalCode with
  | nil => rfl
  | cons i code => rfl

theorem code_canonicalFunction : (lay.canonicalFunction fn start size).code = lay.canonicalCode := by
  rw [Function.code, instructions_canonicalFunction, List.filterMap_map]
  exact List.filterMap_some

theorem args_canonicalInstruction {x : Placed} (h : (lay.canonical? x.inst).isSome = true) :
    lay.canonical? x.inst = some (lay.canonicalInstruction x).args := by
  obtain ⟨args, hargs⟩ := Option.isSome_iff_exists.mp h
  rw [canonicalInstruction, Instruction.args, hargs, Option.getD_some, Disassembly.getD_listed]

end Layout

namespace Function

/-- The same function with the operands of every instruction in canonical form, where branches
lead to the addresses of the layout that starts at the function's offset. -/
structure IsCanonicalOf (g fn : Function) : Prop where
  name : g.name = fn.name
  params : g.params = fn.params
  flags : g.flags = fn.flags
  whole : g.IsWhole
  code : ∃ lay, Layout.ofFunction fn g.offset = .ok lay ∧
    fn.code.Forall₂ (fun inst j => j.opcode = inst.opcode ∧ lay.canonical? inst = some j.args) g.code

theorem ReadsBackAs.isCanonicalOf {fn g : Function} (h : fn.ReadsBackAs g) : g.IsCanonicalOf fn := by
  obtain ⟨lay, hlay, hcanonical, hg⟩ := h
  have hcode : g.code = lay.canonicalCode := by rw [hg, Layout.code_canonicalFunction]
  refine ⟨by rw [hg]; rfl, by rw [hg]; rfl, by rw [hg]; rfl, ?_, lay, hlay, ?_⟩
  · rw [IsWhole, hcode, hg, Layout.instructions_canonicalFunction]
  · have hinst := (Layout.ofFunction_eq_ok_iff.mp hlay).1.map_inst
    rw [hcode, ← hinst, Layout.canonicalCode, List.forall₂_map_left_iff,
      List.forall₂_map_right_iff, List.forall₂_same]
    intro x hx
    refine ⟨rfl, Layout.args_canonicalInstruction (hcanonical _ ?_)⟩
    rw [← hinst]
    exact List.mem_map_of_mem hx

end Function

theorem Disassembly.getD_presentList {α : Type} (xs : List α) : (presentList xs).getD [] = xs := by
  cases xs with
  | nil => rfl
  | cons x xs => rfl

theorem disassemble_assemble {flags : UInt8} {m : Module} {a : Assembled}
    (h : assemble .builtIn flags m = .ok a) (hnul : m.IsNulFree)
    (hlength : a.file.length < 2 ^ 32) :
    ∃ obj gs, disassemble .builtIn a.file.toArray = .ok obj ∧
      obj.body.name = m.name ∧ obj.body.includeList = m.includeList ∧
      obj.body.functions = some (gs.map some) ∧
      m.functionList.Forall₂ (fun fn g => g.IsCanonicalOf fn) gs := by
  obtain ⟨ms, bs, r, hfile⟩ := exists_fileOf h hlength
  obtain ⟨obj, hobj, -, hback⟩ := hfile.disassemble (hnul ms hfile.mentions)
  refine ⟨obj, obj.body.functionList, hobj, hback.name, ?_, hback.whole, ?_⟩
  · rw [Module.includeList, hback.includes, Disassembly.getD_presentList]
  · exact hback.functions.imp fun _ _ hfn => hfn.isCanonicalOf

def callingModule : Module where
  name := text "main"
  includes := some [text "lib"]
  functions := some [
    some ⟨0, 0, 1, 0, text "run", some [
      some ⟨0, 3, 10, some [text "\"go\""]⟩,
      some ⟨3, 3, 63, some [text "done"]⟩,
      some ⟨6, 5, 9, some [text "15e-1"]⟩,
      some ⟨11, 6, 46, some [text "lib::stop"]⟩,
      some ⟨17, 1, 0, none⟩], some [(17, text "done")]⟩,
    some ⟨0, 0, 0, 2, text "idle", some [some ⟨0, 1, 0, none⟩], none⟩]
  imports := none

theorem disassemble_assemble_callingModule :
    ∃ a obj gs, assemble .builtIn 1 callingModule = .ok a ∧ callingModule.IsNulFree ∧
      a.file.length < 2 ^ 32 ∧ disassemble .builtIn a.file.toArray = .ok obj ∧
      obj.body.name = callingModule.name ∧ obj.body.includeList = callingModule.includeList ∧
      obj.body.functions = some (gs.map some) ∧
      callingModule.functionList.Forall₂ (fun fn g => g.IsCanonicalOf fn) gs := by
  obtain ⟨a, ha, hlength⟩ : ∃ a, assemble .builtIn 1 callingModule = .ok a ∧
      decide (a.file.length < 2 ^ 32) = true := Except.exists_of_any (by decide +kernel)
  have hnul : callingModule.IsNulFree := by decide +kernel
  obtain ⟨obj, gs, hobj⟩ := disassemble_assemble ha hnul (of_decide_eq_true hlength)
  exact ⟨a, obj, gs, ha, hnul, of_decide_eq_true hlength, hobj⟩

end ScriptCodec
