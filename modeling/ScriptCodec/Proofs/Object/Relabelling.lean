import ScriptCodec.Proofs.Object.Naming
import ScriptCodec.Proofs.Object.Stability

/-!
Labels count by what they stand for. Two modules that differ in offsets, sizes, label names and
label offsets, but whose branches stand for the same instructions, assemble alike: either neither
assembles, or both do and give the same code and metadata.
-/
namespace ScriptCodec

/-- Instructions of two functions that differ at most in offset, size and the names of labels. -/
structure Instruction.Relabels (fn g : Function) (i j : Instruction) : Prop where
  opcode : j.opcode = i.opcode
  operands : ¬ i.IsBranch → j.args = i.args
  targets : i.IsBranch → j.args.map g.boundary? = i.args.map fn.boundary?

structure Function.Relabels (fn g : Function) : Prop where
  name : g.name = fn.name
  params : g.params = fn.params
  flags : g.flags = fn.flags
  code : (fn.instructions.getD []).Forall₂ (Option.Rel (Instruction.Relabels fn g))
    (g.instructions.getD [])

structure Module.Relabels (m d : Module) : Prop where
  name : d.name = m.name
  includes : d.includeList = m.includeList
  imports : d.importList = m.importList
  functions : (m.functions.getD []).Forall₂ (Option.Rel Function.Relabels) (d.functions.getD [])

/-- Some addresses for the instructions resolve the labels. Which ones does not matter. -/
def Function.ResolvesLabels (fn : Function) : Prop :=
  ∃ addrs stop resolved, addrs.length = fn.code.length ∧ fn.resolveLabels addrs stop = .ok resolved

section

variable {α β : Type} {R : α → β → Prop} {xs : List (Option α)} {ys : List (Option β)}

theorem forall₂_present (h : xs.Forall₂ (Option.Rel R) ys) :
    (xs.filterMap id).Forall₂ R (ys.filterMap id) :=
  List.rel_filterMap (fun _ _ hxy => hxy) h

theorem present_of_forall₂ (h : xs.Forall₂ (Option.Rel R) ys)
    (hxs : xs = (xs.filterMap id).map some) : ys = (ys.filterMap id).map some := by
  have hno : ∀ y ∈ ys, y ≠ none := by
    intro y hy hnone
    obtain ⟨x, hx, hxy⟩ := h.exists_left hy
    rw [hnone] at hxy
    cases hxy
    rw [hxs] at hx
    obtain ⟨_, _, hsome⟩ := List.mem_map.mp hx
    cases hsome
  clear h
  induction ys with
  | nil => rfl
  | cons y ys ih =>
    cases y with
    | none => exact absurd rfl (hno none List.mem_cons_self)
    | some b =>
      rw [List.filterMap_cons_some (f := id) rfl, List.map_cons]
      exact congrArg _ (ih fun y hy => hno y (List.mem_cons_of_mem _ hy))

theorem forall₂_rel_flip {S : β → α → Prop} (hRS : ∀ a b, R a b → S b a)
    (h : xs.Forall₂ (Option.Rel R) ys) : ys.Forall₂ (Option.Rel S) xs := by
  refine h.flip.imp ?_
  intro y x hxy
  cases hxy with
  | none => exact .none
  | some hab => exact .some (hRS _ _ hab)

end

section

variable {fn g : Function} {m d : Module}

theorem Instruction.Relabels.symm {i j : Instruction} (h : i.Relabels fn g j) :
    j.Relabels g fn i := by
  have hbranch : j.IsBranch ↔ i.IsBranch := by rw [IsBranch, IsBranch, h.opcode]
  refine ⟨h.opcode.symm, ?_, ?_⟩
  · intro hj
    exact (h.operands fun hi => hj (hbranch.mpr hi)).symm
  · intro hj
    exact (h.targets (hbranch.mp hj)).symm

theorem Function.Relabels.refl (fn : Function) : fn.Relabels fn := by
  refine ⟨rfl, rfl, rfl, List.forall₂_same.mpr ?_⟩
  intro entry _
  cases entry with
  | none => exact .none
  | some inst => exact .some ⟨rfl, fun _ => rfl, fun _ => rfl⟩

theorem Function.Relabels.symm (h : fn.Relabels g) : g.Relabels fn :=
  ⟨h.name.symm, h.params.symm, h.flags.symm,
    forall₂_rel_flip (fun _ _ hij => hij.symm) h.code⟩

theorem Module.Relabels.symm (h : m.Relabels d) : d.Relabels m :=
  ⟨h.name.symm, h.includes.symm, h.imports.symm,
    forall₂_rel_flip (fun _ _ hfn => hfn.symm) h.functions⟩

theorem Function.ResolvesLabels.binds (h : fn.ResolvesLabels) : fn.BindsLabels := by
  obtain ⟨addrs, stop, resolved, hlength, hresolve⟩ := h
  obtain ⟨hresolved, hnodup⟩ := Labels.resolve_eq_ok_iff.mp hresolve
  refine ⟨hnodup, ?_⟩
  intro e he
  obtain ⟨r, -, -, -, hr⟩ := hresolved.exists_right he
  rw [Function.address?_boundaries fn hlength, Option.bind_eq_some_iff] at hr
  obtain ⟨k, hk, -⟩ := hr
  exact ⟨k, hk⟩

end

def Instruction.IsReadIn (fn : Function) (inst : Instruction) : Prop :=
  ∃ kind v, inst.opcode.kind? = some kind ∧ kind.read inst.args = .ok v ∧
    ∀ name, v = .label name → ∃ k, fn.boundary? name = some k

namespace Code

variable {ctx : Context} {fn : Function}

theorem Encodes.isReadIn {start : UInt32} {lay : Layout} (hlay : Layout.ofFunction fn start = .ok lay)
    {dev : Bool} {x : Placed} {e : Emitted} (h : Encodes ctx lay dev x e) : x.inst.IsReadIn fn := by
  obtain ⟨kind, v, operand, hkind, hread, hemits, -, -⟩ := h
  refine ⟨kind, v, hkind, hread, ?_⟩
  rintro name rfl
  cases hemits with
  | jump haddr _ | longJump haddr _ =>
    rw [Layout.addressOf?_eq hlay, Option.bind_eq_some_iff] at haddr
    obtain ⟨k, hk, -⟩ := haddr
    exact ⟨k, hk⟩

theorem EncodesAll.isReadIn {start : UInt32} {lay : Layout}
    (hlay : Layout.ofFunction fn start = .ok lay) {ends : List UInt32} {xs : List Placed}
    {es : List Emitted} (h : EncodesAll ctx lay ends xs es) : ∀ x ∈ xs, x.inst.IsReadIn fn := by
  induction h with
  | nil => simp
  | cons hhead _ ih => exact List.forall_mem_cons.mpr ⟨hhead.isReadIn hlay, ih⟩

theorem Lays.isReadIn {codeOffset : UInt32} {before : Nat} {fns : List Function} {bs : List Body}
    (h : Lays ctx codeOffset before fns bs) :
    ∀ fn ∈ fns, ∀ inst ∈ fn.code, inst.IsReadIn fn := by
  induction h with
  | nil => simp
  | cons hhead _ ih =>
    refine List.forall_mem_cons.mpr ⟨?_, ih⟩
    obtain ⟨lay, es, hlay, hes, -⟩ := hhead
    intro inst hinst
    rw [← (Layout.ofFunction_eq_ok_iff.mp hlay).1.map_inst] at hinst
    obtain ⟨x, hx, rfl⟩ := List.mem_map.mp hinst
    exact hes.isReadIn hlay x hx

end Code

section

variable {fn g : Function} {m d : Module}

theorem Instruction.Relabels.agrees {i j : Instruction} (h : i.Relabels fn g j)
    (hread : i.IsReadIn fn) : i.Agrees fn g j := by
  obtain ⟨kind, v, hkind, hread, hbound⟩ := hread
  have hbranch : i.IsBranch ↔ kind.isBranch = true := by simp [IsBranch, hkind]
  cases OperandValue.fits_of_read hread with
  | jump name | longJump name =>
    simp only [OperandKind.read, Except.map_eq_ok_iff, Operand.single_eq_ok_iff] at hread
    obtain ⟨_, hargs, hname⟩ := hread
    cases hname
    have htargets := h.targets (hbranch.mpr rfl)
    rw [hargs, List.map_singleton, List.map_eq_singleton_iff] at htargets
    obtain ⟨name', hargs', hname'⟩ := htargets
    obtain ⟨k, hk⟩ := hbound name rfl
    refine ⟨h.opcode, _, _, .label name', hkind, ?_, ?_, .label hk (hname'.trans hk)⟩
    · rw [hargs]
      rfl
    · rw [hargs']
      rfl
  | _ =>
    have hargs := h.operands fun hi => absurd (hbranch.mp hi) (by decide)
    refine ⟨h.opcode, _, _, _, hkind, hread, by rw [hargs, hread], .same ?_⟩
    rintro name ⟨⟩

theorem Function.Relabels.agrees (h : fn.Relabels g) (hwhole : fn.IsWhole)
    (hreads : ∀ inst ∈ fn.code, inst.IsReadIn fn) (hlabels : g.BindsLabels) : fn.Agrees g where
  name := h.name
  params := h.params
  flags := h.flags
  whole := present_of_forall₂ h.code hwhole
  labels := hlabels
  code := by
    have hcode := (List.forall₂_and_left _ _).mpr ⟨hreads, forall₂_present h.code⟩
    exact hcode.imp fun i j hij => hij.2.agrees hij.1

theorem Module.Relabels.agrees (h : m.Relabels d) {ms : Mentions}
    (hms : Mentions.ofModule .builtIn m = .ok ms)
    (hreads : ∀ fn ∈ m.functionList, ∀ inst ∈ fn.code, inst.IsReadIn fn)
    (hlabels : ∀ g ∈ d.functionList, g.BindsLabels) : m.Agrees d where
  name := h.name
  includes := h.includes
  whole := present_of_forall₂ h.functions (Mentions.ofModule_eq_ok_iff.mp hms).1
  functions := by
    have hwhole : ∀ fn ∈ m.functionList, fn.IsWhole := by
      intro fn hfn
      obtain ⟨r, -, hr⟩ := (Mentions.ofModule_eq_ok_iff.mp hms).2.exists_right hfn
      exact hr.2.1
    have hfns : m.functionList.Forall₂ Function.Relabels d.functionList := forall₂_present h.functions
    have hread := (List.forall₂_and_left _ _).mpr ⟨hreads, hfns⟩
    have hpresent := (List.forall₂_and_left _ _).mpr ⟨hwhole, hread⟩
    have hbound := (List.forall₂_and_left _ _).mpr ⟨hlabels, hpresent.flip⟩
    refine hbound.flip.imp ?_
    rintro fn g ⟨hg, hfn, hinsts, hrelabels⟩
    exact hrelabels.agrees hfn hinsts hg

theorem Module.calleeParams_eq_of (himports : d.importList = m.importList)
    (hfns : m.functionList.Forall₂ (fun fn g => g.name = fn.name ∧ g.params = fn.params)
      d.functionList) (c : Callee) : d.calleeParams c = m.calleeParams c := by
  have hfind : (d.findFunction? c.name).map Function.params =
      (m.findFunction? c.name).map Function.params := by
    unfold findFunction?
    generalize m.functionList = fns at hfns
    generalize d.functionList = gs at hfns
    induction hfns with
    | nil => rfl
    | cons hfn _ ih =>
      rw [List.find?_cons, List.find?_cons, hfn.1]
      split
      · rw [Option.map_some, Option.map_some, hfn.2]
      · exact ih
  simp only [calleeParams, himports, hfind]

theorem Module.Relabels.calleeParams_eq (h : m.Relabels d) (c : Callee) :
    d.calleeParams c = m.calleeParams c := by
  have hfns : m.functionList.Forall₂ Function.Relabels d.functionList := forall₂_present h.functions
  exact calleeParams_eq_of h.imports (hfns.imp fun _ _ hfn => ⟨hfn.name, hfn.params⟩) c

theorem Module.Relabels.namedBy (h : m.Relabels d) {t : OpcodeTable} (hm : m.NamedBy t) :
    d.NamedBy t := by
  intro g hg j hj
  obtain ⟨fn, hfn, hrelabels⟩ := (forall₂_present h.functions).exists_left hg
  obtain ⟨i, hi, hij⟩ := (forall₂_present hrelabels.code).exists_left hj
  rw [hij.opcode]
  exact hm fn hfn i hi

theorem Module.Relabels.assemble (h : m.Relabels d)
    (hlabels : ∀ g ∈ d.functionList, g.BindsLabels) {t : OpcodeTable} {flags : UInt8}
    {a : Assembled} (ha : ScriptCodec.assemble t flags m = .ok a) :
    ScriptCodec.assemble t flags d = .ok a := by
  rw [Assembly.assemble_eq_ok_iff_named] at ha ⊢
  refine ⟨h.namedBy ha.1, ?_⟩
  obtain ⟨ms, bs, hms, hlays, -⟩ := Assembly.assemble_eq_ok_iff.mp ha.2
  exact (h.agrees hms hlays.isReadIn hlabels).assemble (fun _ _ c _ => h.calleeParams_eq c) ha.2

end

theorem assemble_of_relabels {t : OpcodeTable} {flags : UInt8} {m d : Module} (h : m.Relabels d)
    (hm : ∀ fn ∈ m.functionList, fn.ResolvesLabels)
    (hd : ∀ g ∈ d.functionList, g.ResolvesLabels) :
    (assemble t flags m).toOption = (assemble t flags d).toOption := by
  ext a
  rw [Except.toOption_eq_some_iff, Except.toOption_eq_some_iff]
  constructor
  · exact h.assemble fun g hg => (hd g hg).binds
  · exact h.symm.assemble fun fn hfn => (hm fn hfn).binds

def jumpingModule (offset : UInt32) (label : Bytes) : Module where
  name := text "main"
  includes := none
  functions := some [some ⟨offset, 4, 0, 0, text "run", some [
    some ⟨offset, 3, 63, some [label]⟩,
    some ⟨offset + 3, 1, 0, none⟩], some [(offset + 3, label)]⟩]
  imports := none

theorem assemble_of_relabels_jumpingModule :
    (jumpingModule 0 (text "done")).Relabels (jumpingModule 8 (text "loc_B")) ∧
      ∃ a, assemble .builtIn 0 (jumpingModule 0 (text "done")) = .ok a ∧
        assemble .builtIn 0 (jumpingModule 8 (text "loc_B")) = .ok a := by
  have hjump : (⟨0, 3, 63, some [text "done"]⟩ : Instruction).IsBranch :=
    ⟨.jump, by decide +kernel, rfl⟩
  have hrelabels : (jumpingModule 0 (text "done")).Relabels (jumpingModule 8 (text "loc_B")) := by
    refine ⟨rfl, rfl, rfl, .cons (.some ⟨rfl, rfl, rfl, .cons (.some ⟨rfl, ?_, ?_⟩)
      (.cons (.some ⟨rfl, fun _ => rfl, fun _ => rfl⟩) .nil)⟩) .nil⟩
    · exact fun hne => absurd hjump hne
    · intro _
      decide +kernel
  have hresolves {offset : UInt32} {label : Bytes}
      (hlabels : (jumpingModule offset label).functionList.all (fun fn =>
        (fn.resolveLabels [0, 3] 4).toOption.isSome) = true) :
      ∀ fn ∈ (jumpingModule offset label).functionList, fn.ResolvesLabels := by
    intro fn hfn
    obtain ⟨resolved, hresolved⟩ := Option.isSome_iff_exists.mp (List.all_eq_true.mp hlabels fn hfn)
    refine ⟨[0, 3], 4, resolved, ?_, Except.toOption_eq_some_iff.mp hresolved⟩
    rw [List.mem_singleton.mp hfn]
    rfl
  have hsame : (assemble .builtIn 0 (jumpingModule 0 (text "done"))).toOption =
      (assemble .builtIn 0 (jumpingModule 8 (text "loc_B"))).toOption :=
    assemble_of_relabels hrelabels (hresolves (by decide +kernel)) (hresolves (by decide +kernel))
  obtain ⟨a, ha, -⟩ : ∃ a, assemble .builtIn 0 (jumpingModule 0 (text "done")) = .ok a ∧
      true = true := Except.exists_of_any (by decide +kernel)
  refine ⟨hrelabels, a, ha, Except.toOption_eq_some_iff.mp ?_⟩
  rw [← hsame, Except.toOption_eq_some_iff.mpr ha]

end ScriptCodec
