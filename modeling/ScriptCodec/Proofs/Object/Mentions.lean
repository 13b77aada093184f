import ScriptCodec.Proofs.Object.Emission

/-!
What the mentions of a module are. They are collected exactly when no function and no instruction
is absent and every instruction is read, and the sites of emitted code refer to callees and trees
that are mentioned.
-/
namespace ScriptCodec

namespace Function

def IsWhole (fn : Function) : Prop := fn.instructions.getD [] = fn.code.map some

end Function

namespace Module

def IsWhole (m : Module) : Prop := m.functions.getD [] = m.functionList.map some

theorem functionList_eq {m : Module} {fns : List Function} (h : m.functions = some (fns.map some)) :
    m.functionList = fns := by
  rw [functionList, h, Option.getD_some, List.filterMap_map]
  exact List.filterMap_some

theorem hasGap_eq_false {m : Module} (h : m.IsWhole) : m.hasGap = false := by
  rw [hasGap, h]
  simp

end Module

theorem mapM_option_eq_ok_iff {ε α β : Type} {f : Option α → Except ε β}
    (hnone : ∀ b, f none ≠ .ok b) {xs : List (Option α)} {ys : List β} :
    xs.mapM f = .ok ys ↔
      xs = (xs.filterMap id).map some ∧
        (xs.filterMap id).Forall₂ (fun a b => f (some a) = .ok b) ys := by
  rw [List.mapM_eq_ok_iff]
  induction xs generalizing ys with
  | nil => simp
  | cons x xs ih =>
    cases x with
    | none =>
      constructor
      · intro h
        obtain _ | ⟨h, -⟩ := h
        exact absurd h (hnone _)
      · intro h
        have hlength := congrArg List.length h.1
        have hle := List.length_filterMap_le id xs
        rw [List.length_cons, List.length_map, List.filterMap_cons_none rfl] at hlength
        omega
    | some a =>
      rw [List.filterMap_cons_some (f := id) rfl, List.map_cons, List.cons.injEq]
      constructor
      · intro h
        obtain _ | ⟨h, hrest⟩ := h
        exact ⟨⟨rfl, (ih.mp hrest).1⟩, .cons h (ih.mp hrest).2⟩
      · intro h
        obtain ⟨⟨-, hwhole⟩, _ | ⟨h, hrest⟩⟩ := h
        exact .cons h (ih.mpr ⟨hwhole, hrest⟩)

namespace Mentions

def Collects (fn : Function) (r : Bytes × List Mention) : Prop :=
  r.1 = fn.name ∧ fn.IsWhole ∧
    fn.code.Forall₂ (fun inst found => Mention.ofInstruction .builtIn inst = .ok found) r.2

theorem ofFunction_eq_ok_iff {fn : Function} {found : List Mention} :
    Mention.ofFunction .builtIn (fun _ => false) fn = .ok found ↔ Collects fn (fn.name, found) := by
  rw [Mention.ofFunction, mapM_option_eq_ok_iff]
  · simp [Mention.ofEntry, Collects, Function.IsWhole, Function.code]
  · intro b h
    rw [Mention.ofEntry, Assembling.within_eq_ok_iff] at h
    exact Assembling.fail_ne_ok h

theorem named_eq_ok_iff {fn : Function} {r : Bytes × List Mention} :
    (Mention.ofFunction .builtIn (fun _ => false) fn).map (fun found => (fn.name, found)) = .ok r ↔
      Collects fn r := by
  simp only [Except.map_eq_ok_iff, ofFunction_eq_ok_iff]
  constructor
  · intro h
    obtain ⟨found, h, rfl⟩ := h
    exact h
  · intro h
    refine ⟨r.2, ?_, ?_⟩
    · rw [← h.1]
      exact h
    · rw [← h.1]

theorem ofModule_eq_ok_iff {m : Module} {ms : Mentions} :
    ofModule .builtIn m = .ok ms ↔ m.IsWhole ∧ m.functionList.Forall₂ Collects ms.functions := by
  have hms (found : List (Bytes × List Mention)) :
      (⟨found⟩ : Mentions) = ms ↔ found = ms.functions :=
    ⟨congrArg functions, congrArg mk⟩
  simp only [ofModule, Except.map_eq_ok_iff, hms, exists_eq_right]
  rw [mapM_option_eq_ok_iff fun b => Assembling.fail_ne_ok]
  refine and_congr_right fun hwhole => ?_
  have hgap : m.hasGap = false := Module.hasGap_eq_false hwhole
  simp only [hgap, Bool.false_eq_true, if_false, named_eq_ok_iff]
  exact Iff.rfl

variable {m : Module} {ms : Mentions}

theorem isCounted (hms : ofModule .builtIn m = .ok ms) : ∀ fn ∈ m.functionList, fn.IsCounted := by
  intro fn hfn inst hinst
  obtain ⟨r, -, hr⟩ := (ofModule_eq_ok_iff.mp hms).2.exists_right hfn
  obtain ⟨found, -, hfound⟩ := hr.2.2.exists_right hinst
  exact Mention.isCounted_of_ofInstruction hfound

theorem name_mem_strings (hname : m.name.isEmpty = false) : m.name ∈ ms.strings m := by
  rw [strings, hname]
  simp

theorem include_mem_strings {name : Bytes} (h : name ∈ m.includeList) : name ∈ ms.strings m := by
  rw [strings, List.append_assoc]
  exact List.mem_append_right _ (List.mem_append_left _ h)

theorem importKind_mem (op : Opcode) : op.importKind ∈ ([0, 1, 2, 3, 4, 5] : List UInt8) := by
  unfold Opcode.importKind
  split
  · decide
  split
  · decide
  split
  · decide
  split
  · decide
  split
  · decide
  · decide

theorem kind_of_callee {inst : Instruction} {found : Mention} {c : Callee}
    (h : Mention.ofInstruction .builtIn inst = .ok found) (hc : found.callee = some c) :
    c.kind = inst.opcode.importKind := by
  simp only [Mention.ofInstruction, Except.bind_eq_ok_iff] at h
  obtain ⟨kind, -, h⟩ := h
  cases kind with
  | call | function =>
    simp only [Except.map_eq_ok_iff] at h
    obtain ⟨_, -, rfl⟩ := h
    rw [← Option.some_inj.mp hc]
  | string | field | animation =>
    simp only [Except.map_eq_ok_iff] at h
    obtain ⟨_, -, rfl⟩ := h
    cases hc
  | _ =>
    rw [← Except.ok.inj h] at hc
    cases hc

theorem kind_of_import (hms : ofModule .builtIn m = .ok ms) {d : ImportDecl}
    (hd : d ∈ ms.imports m) : d.kind ∈ ([0, 1, 2, 3, 4, 5] : List UInt8) := by
  obtain ⟨c, hc, rfl⟩ := List.mem_map.mp hd
  obtain ⟨found, hfound, hcallee⟩ := List.mem_filterMap.mp (List.mem_eraseDups.mp hc)
  obtain ⟨r, hr, hfound⟩ := List.mem_flatMap.mp hfound
  obtain ⟨fn, -, hfn⟩ := (ofModule_eq_ok_iff.mp hms).2.exists_left hr
  obtain ⟨inst, -, hinst⟩ := hfn.2.2.exists_left hfound
  rw [kind_of_callee hinst hcallee]
  exact importKind_mem _

end Mentions

def Site.Mentioned (found : Mention) : Site → Prop
  | literal s _ => s ∈ found.strings
  | call c _ _ => found.callee = some c
  | animation tree _ _ => found.tree = some tree

namespace Code

theorem literal_of_mem_localSites {names : List Bytes} {pos : Nat} {s : Site}
    (h : s ∈ localSites pos names) : ∃ name ∈ names, ∃ addr, s = .literal name addr := by
  induction names generalizing pos with
  | nil => cases h
  | cons name names ih =>
    rcases List.mem_cons.mp h with rfl | h
    · exact ⟨name, List.mem_cons_self, _, rfl⟩
    · obtain ⟨name', hname, hs⟩ := ih h
      exact ⟨name', List.mem_cons_of_mem _ hname, hs⟩

theorem Emits.mentioned {ctx : Context} {lay : Layout} {op : Opcode} {start : UInt32} {dev : Bool}
    {kind : OperandKind} {v : OperandValue} {e : Emitted} (h : Emits ctx lay op start dev kind v e) :
    ∀ s ∈ e.sites, s.Mentioned (v.mention op) := by
  intro s hs
  cases h with
  | locals =>
    obtain ⟨name, hname, addr, rfl⟩ := literal_of_mem_localSites hs
    exact hname
  | string | field =>
    obtain rfl := List.mem_singleton.mp hs
    exact List.mem_singleton.mpr rfl
  | animation | call | function =>
    obtain rfl := List.mem_singleton.mp hs
    exact rfl
  | _ => cases hs

theorem EncodesAll.mentioned {ctx : Context} {lay : Layout} {regions : List UInt32}
    {xs : List Placed} {es : List Emitted} (h : EncodesAll ctx lay regions xs es) {s : Site}
    (hs : s ∈ (es.map Emitted.sites).flatten) :
    ∃ x ∈ xs, ∃ found, Mention.ofInstruction .builtIn x.inst = .ok found ∧ s.Mentioned found := by
  induction h with
  | nil => cases hs
  | @cons regions x xs e es hhead _ ih =>
    rw [List.map_cons, List.flatten_cons] at hs
    rcases List.mem_append.mp hs with hs | hs
    · obtain ⟨kind, v, operand, hkind, hread, hemits, rfl, -⟩ := hhead
      exact ⟨x, List.mem_cons_self, _, Mention.ofInstruction_of_read hkind hread,
        hemits.mentioned s hs⟩
    · obtain ⟨x', hx, hfound⟩ := ih hs
      exact ⟨x', List.mem_cons_of_mem _ hx, hfound⟩

theorem Lays.mentioned {ctx : Context} {codeOffset : UInt32} {before : Nat} {fns : List Function}
    {bs : List Body} (h : Lays ctx codeOffset before fns bs)
    {all : List (Bytes × List Mention)} (hall : fns.Forall₂ Mentions.Collects all) {s : Site}
    (hs : s ∈ (bs.map Body.sites).flatten) : ∃ found ∈ all.flatMap Prod.snd, s.Mentioned found := by
  induction h generalizing all with
  | nil => cases hs
  | @cons before fn fns b bs hhead _ ih =>
    obtain _ | @⟨_, r, _, all, hr, hall⟩ := hall
    rw [List.flatMap_cons]
    rw [List.map_cons, List.flatten_cons] at hs
    rcases List.mem_append.mp hs with hs | hs
    · obtain ⟨lay, es, hlay, hes, rfl⟩ := hhead
      obtain ⟨x, hx, found, hfound, hmentioned⟩ := hes.mentioned hs
      have hinst : x.inst ∈ fn.code := by
        rw [← (Layout.ofFunction_eq_ok_iff.mp hlay).1.map_inst]
        exact List.mem_map_of_mem hx
      obtain ⟨found', hmem, hfound'⟩ := hr.2.2.exists_right hinst
      rw [hfound] at hfound'
      rw [← Except.ok.inj hfound'] at hmem
      exact ⟨found, List.mem_append_left _ hmem, hmentioned⟩
    · obtain ⟨found, hfound, hmentioned⟩ := ih hall hs
      exact ⟨found, List.mem_append_right _ hfound, hmentioned⟩

end Code
end ScriptCodec
