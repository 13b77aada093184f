import ScriptCodec.Proofs.Object.Agreement
import ScriptCodec.Proofs.Object.RoundTrip

/-!
The labels of branch targets. Each target has one label, named after its address; where the
boundaries of a function ascend, a target on a boundary stands for that boundary alone. So a
function agrees with the canonical form it is read back as.
-/
namespace ScriptCodec

namespace Labels

theorem mem_set_self (offset : UInt32) (name : Bytes) (labels : Labels) :
    (offset, name) ∈ labels.set offset name := by
  induction labels with
  | nil => exact List.mem_singleton.mpr rfl
  | cons e labels ih =>
    rw [set]
    split
    · exact List.mem_cons_self
    · split
      · exact List.mem_cons_self
      · exact List.mem_cons_of_mem _ ih

theorem mem_set_of_ne {offset : UInt32} {labels : Labels} {e : UInt32 × Bytes} (h : e ∈ labels)
    (hne : e.1 ≠ offset) (name : Bytes) : e ∈ labels.set offset name := by
  induction labels with
  | nil => cases h
  | cons d labels ih =>
    rw [set]
    split
    · exact List.mem_cons_of_mem _ h
    · split
      · rename_i heq
        rcases List.mem_cons.mp h with rfl | h
        · exact absurd heq.symm hne
        · exact List.mem_cons_of_mem _ h
      · rcases List.mem_cons.mp h with rfl | h
        · exact List.mem_cons_self
        · exact List.mem_cons_of_mem _ (ih h)

theorem mem_of_mem_set {offset : UInt32} {name : Bytes} {labels : Labels} {e : UInt32 × Bytes}
    (h : e ∈ labels.set offset name) : e = (offset, name) ∨ e ∈ labels := by
  induction labels with
  | nil => exact Or.inl (List.mem_singleton.mp h)
  | cons d labels ih =>
    rw [set] at h
    split at h
    · exact List.mem_cons.mp h
    · split at h
      · rcases List.mem_cons.mp h with h | h
        · exact Or.inl h
        · exact Or.inr (List.mem_cons_of_mem _ h)
      · rcases List.mem_cons.mp h with rfl | h
        · exact Or.inr List.mem_cons_self
        · exact (ih h).imp_right (List.mem_cons_of_mem _)

theorem mem_of_nameAt? {labels : Labels} {offset : UInt32} {name : Bytes}
    (h : labels.nameAt? offset = some name) : (offset, name) ∈ labels := by
  obtain ⟨e, he, rfl⟩ := Option.map_eq_some_iff.mp h
  have hoffset : e.1 = offset := by simpa using List.find?_some he
  rw [← hoffset]
  exact List.mem_of_find?_eq_some he

def Ascends (labels : Labels) : Prop := labels.Pairwise fun a b => a.1 < b.1

theorem Ascends.set {labels : Labels} (h : labels.Ascends) (offset : UInt32) (name : Bytes) :
    (labels.set offset name).Ascends := by
  induction labels with
  | nil => exact List.pairwise_singleton _ _
  | cons e labels ih =>
    obtain ⟨hhead, htail⟩ := List.pairwise_cons.mp h
    rw [Labels.set]
    split
    · rename_i hlt
      refine List.pairwise_cons.mpr ⟨?_, h⟩
      intro d hd
      rcases List.mem_cons.mp hd with rfl | hd
      · exact hlt
      · exact UInt32.lt_trans hlt (hhead d hd)
    · rename_i hle
      split
      · rename_i heq
        exact List.pairwise_cons.mpr ⟨fun d hd => heq ▸ hhead d hd, htail⟩
      · rename_i hne
        refine List.pairwise_cons.mpr ⟨?_, ih htail⟩
        intro d hd
        rcases mem_of_mem_set hd with rfl | hd
        · exact UInt32.lt_of_le_of_ne (UInt32.not_lt.mp hle) fun h => hne h.symm
        · exact hhead d hd

variable {targets : List UInt32}

theorem mem_ofTargets {e : UInt32 × Bytes} :
    e ∈ ofTargets targets ↔ ∃ t ∈ targets, e = (t, nameOf t) := by
  induction targets with
  | nil => simp [ofTargets]
  | cons t targets ih =>
    change e ∈ (ofTargets targets).set t (nameOf t) ↔ _
    constructor
    · intro h
      rcases mem_of_mem_set h with rfl | h
      · exact ⟨t, List.mem_cons_self, rfl⟩
      · obtain ⟨t', ht', rfl⟩ := ih.mp h
        exact ⟨t', List.mem_cons_of_mem _ ht', rfl⟩
    · intro h
      obtain ⟨t', ht', rfl⟩ := h
      by_cases heq : t' = t
      · rw [heq]
        exact mem_set_self _ _ _
      · have hmem : t' ∈ targets := (List.mem_cons.mp ht').resolve_left heq
        exact mem_set_of_ne (ih.mpr ⟨t', hmem, rfl⟩) heq _

theorem ascends_ofTargets (targets : List UInt32) : (ofTargets targets).Ascends := by
  induction targets with
  | nil => exact List.Pairwise.nil
  | cons t targets ih => exact Ascends.set ih _ _

theorem nodup_ofTargets (targets : List UInt32) :
    ((ofTargets targets).map Prod.snd).Nodup := by
  rw [List.nodup_iff_pairwise_ne, List.pairwise_map]
  refine List.Pairwise.imp_of_mem ?_ (ascends_ofTargets targets)
  intro a b ha hb hlt heq
  obtain ⟨s, -, rfl⟩ := mem_ofTargets.mp ha
  obtain ⟨t, -, rfl⟩ := mem_ofTargets.mp hb
  rw [nameOf_injective heq] at hlt
  exact UInt32.lt_irrefl _ hlt

theorem find?_ofTargets {t : UInt32} (h : t ∈ targets) :
    List.find? (fun e => e.2 == nameOf t) (ofTargets targets) = some (t, nameOf t) := by
  have hmem : (t, nameOf t) ∈ ofTargets targets := mem_ofTargets.mpr ⟨t, h, rfl⟩
  cases hfind : List.find? (fun e => e.2 == nameOf t) (ofTargets targets) with
  | none =>
    rw [List.find?_eq_none] at hfind
    exact absurd (beq_self_eq_true _) (hfind _ hmem)
  | some e =>
    obtain ⟨t', -, rfl⟩ := mem_ofTargets.mp (List.mem_of_find?_eq_some hfind)
    have hname : nameOf t' = nameOf t := by simpa using List.find?_some hfind
    rw [nameOf_injective hname]

end Labels

namespace Function

def boundaryOffsets (fn : Function) : List UInt32 :=
  fn.code.map Instruction.offset ++ [fn.stop]

theorem mem_boundaryIndices {fn : Function} {offset : UInt32} {k : Nat} :
    (offset, k) ∈ fn.boundaryIndices ↔ fn.boundaryOffsets[k]? = some offset := by
  have hlength : (fn.code.map Instruction.offset).length = fn.code.length := List.length_map _
  rw [boundaryIndices, List.mem_cons, List.mem_reverse, List.mem_zipIdx_iff_getElem?,
    boundaryOffsets]
  rcases Nat.lt_trichotomy k fn.code.length with hlt | heq | hgt
  · rw [List.getElem?_append_left (by omega)]
    simp only [Prod.mk.injEq]
    constructor
    · intro h
      rcases h with ⟨-, hk⟩ | h
      · omega
      · exact h
    · exact Or.inr
  · rw [List.getElem?_append_right (by omega), hlength, heq, Nat.sub_self]
    simp [eq_comm]
  · rw [List.getElem?_append_right (by omega), hlength]
    have hlast : ([fn.stop] : List UInt32)[k - fn.code.length]? = none :=
      List.getElem?_eq_none (by rw [List.length_singleton]; omega)
    have hcode : (fn.code.map Instruction.offset)[k]? = none :=
      List.getElem?_eq_none (by omega)
    simp only [hlast, hcode, Prod.mk.injEq, reduceCtorEq, or_false, iff_false]
    omega

theorem exists_boundaryAt? {fn : Function} {offset : UInt32} (h : offset ∈ fn.boundaryOffsets) :
    ∃ k, fn.boundaryAt? offset = some k := by
  obtain ⟨k, hk⟩ := List.mem_iff_getElem?.mp h
  rw [boundaryAt?]
  cases hfind : fn.boundaryIndices.find? fun e => e.1 == offset with
  | none =>
    rw [List.find?_eq_none] at hfind
    exact absurd (beq_self_eq_true _) (hfind _ (mem_boundaryIndices.mpr hk))
  | some e => exact ⟨e.2, rfl⟩

theorem boundaryAt?_congr {fn g : Function} (h : g.boundaryOffsets = fn.boundaryOffsets) :
    g.boundaryAt? = fn.boundaryAt? := by
  obtain ⟨hcode, hstop⟩ := List.append_inj' h rfl
  have hlength : g.code.length = fn.code.length := by
    have hmap := congrArg List.length hcode
    rwa [List.length_map, List.length_map] at hmap
  funext offset
  rw [boundaryAt?, boundaryAt?, boundaryIndices, boundaryIndices, hcode, hlength,
    List.singleton_inj.mp hstop]

theorem boundaryAt?_eq_some_iff {fn : Function}
    (h : fn.boundaryOffsets.Pairwise (· < ·)) {offset : UInt32} {k : Nat} :
    fn.boundaryAt? offset = some k ↔ fn.boundaryOffsets[k]? = some offset := by
  have hnodup : fn.boundaryOffsets.Nodup := by
    rw [List.nodup_iff_pairwise_ne]
    exact h.imp UInt32.ne_of_lt
  have hfound {e : UInt32 × Nat}
      (he : fn.boundaryIndices.find? (fun e => e.1 == offset) = some e) :
      fn.boundaryOffsets[e.2]? = some offset := by
    have heq : e.1 = offset := by simpa using List.find?_some he
    rw [← heq]
    exact mem_boundaryIndices.mp (List.mem_of_find?_eq_some he)
  rw [boundaryAt?, Option.map_eq_some_iff]
  constructor
  · intro h
    obtain ⟨e, he, rfl⟩ := h
    exact hfound he
  · intro hk
    cases hfind : fn.boundaryIndices.find? fun e => e.1 == offset with
    | none =>
      rw [List.find?_eq_none] at hfind
      exact absurd (beq_self_eq_true _) (hfind _ (mem_boundaryIndices.mpr hk))
    | some e =>
      refine ⟨e, rfl, ?_⟩
      have hlt := (List.getElem?_eq_some_iff.mp (hfound hfind)).1
      exact (List.getElem?_inj hlt hnodup).mp ((hfound hfind).trans hk.symm)

end Function

namespace Layout

theorem Places.stop_eq {start stop : UInt32} {code : List Instruction} {xs : List Placed}
    (h : Places start code xs stop) :
    stop = match xs.getLast? with
      | some x => x.addr + x.size
      | none => start := by
  induction h with
  | nil => rfl
  | @cons inst code addr size stop xs _ htail ih =>
    cases htail with
    | nil => rfl
    | cons h htail => exact ih

variable {lay : Layout} {fn : Function} {start size : UInt32}

theorem boundaryOffsets_canonicalFunction (h : ofFunction fn start = .ok lay) :
    (lay.canonicalFunction fn start size).boundaryOffsets = lay.addresses := by
  have hoffsets : lay.canonicalCode.map Instruction.offset = lay.placed.map Placed.addr := by
    rw [canonicalCode, List.map_map]
    rfl
  have hstop : (lay.canonicalFunction fn start size).stop = lay.stop := by
    rw [(ofFunction_eq_ok_iff.mp h).1.stop_eq, Function.stop, code_canonicalFunction,
      canonicalCode, List.getLast?_map]
    cases lay.placed.getLast? with
    | none => rfl
    | some x => rfl
  rw [Function.boundaryOffsets, code_canonicalFunction, hoffsets, hstop]
  rfl

theorem mem_targets {x : Placed} (hx : x ∈ lay.placed) {t : UInt32}
    (ht : lay.target? x.inst = some t) : t ∈ lay.targets :=
  List.mem_filterMap.mpr ⟨x, hx, ht⟩

theorem exists_boundary_of_target (h : ofFunction fn start = .ok lay) {inst : Instruction}
    {t : UInt32} (ht : lay.target? inst = some t) : ∃ k : Nat, lay.addresses[k]? = some t := by
  rw [target?, Option.bind_eq_some_iff] at ht
  obtain ⟨kind, -, ht⟩ := ht
  rw [Option.bind_eq_some_iff] at ht
  obtain ⟨v, -, ht⟩ := ht
  cases v with
  | label name =>
    change lay.addressOf? name = some t at ht
    rw [addressOf?_eq h, Option.bind_eq_some_iff] at ht
    obtain ⟨k, -, hk⟩ := ht
    exact ⟨k, hk⟩
  | _ => cases ht

end Layout

def Function.IsUnambiguous (fn : Function) : Prop :=
  ∀ inst ∈ fn.code, ∀ kind v, inst.opcode.kind? = some kind → kind.read inst.args = .ok v →
    ¬ v.IsAmbiguous

theorem Layout.agrees_canonicalInstruction {fn g : Function} {start : UInt32} {lay : Layout}
    (hlay : ofFunction fn start = .ok lay) (hlabels : g.labelMap = Labels.ofTargets lay.targets)
    (hboundary : ∀ (k : Nat) (t : UInt32), lay.addresses[k]? = some t → g.boundaryAt? t = some k)
    {x : Placed} (hx : x ∈ lay.placed) (hsome : (lay.canonical? x.inst).isSome = true)
    (hcallee : ∀ kind v, x.inst.opcode.kind? = some kind → kind.read x.inst.args = .ok v →
      ¬ v.IsAmbiguous) : x.inst.Agrees fn g (lay.canonicalInstruction x) := by
  obtain ⟨kind, hkind, hargs⟩ :=
    Option.bind_eq_some_iff.mp (args_canonicalInstruction hsome)
  obtain ⟨v, hread, hspell⟩ := Option.bind_eq_some_iff.mp hargs
  rw [Except.toOption_eq_some_iff] at hread
  have hfits := OperandValue.fits_of_read hread
  refine ⟨rfl, kind, v, ?_⟩
  by_cases hlabel : ∃ name, v = .label name
  · obtain ⟨name, rfl⟩ := hlabel
    rw [OperandValue.spellAt, Option.map_eq_some_iff] at hspell
    obtain ⟨t, ht, hargs⟩ := hspell
    have htarget : lay.target? x.inst = some t := by
      rw [target?, Option.bind_eq_some_iff]
      refine ⟨kind, hkind, Option.bind_eq_some_iff.mpr ⟨.label name, ?_, ht⟩⟩
      exact Except.toOption_eq_some_iff.mpr hread
    rw [addressOf?_eq hlay, Option.bind_eq_some_iff] at ht
    obtain ⟨k, hk, haddr⟩ := ht
    refine ⟨.label (Labels.nameOf t), hkind, hread, ?_, .label hk ?_⟩
    · rw [← hargs]
      cases hfits with
      | jump => rfl
      | longJump => rfl
    · rw [Function.boundary?, hlabels, Labels.find?_ofTargets (mem_targets hx htarget)]
      exact hboundary k t haddr
  · have hplain : ∀ name, v ≠ .label name := fun name hv => hlabel ⟨name, hv⟩
    have hback := OperandValue.read_spell hfits (hcallee kind v hkind hread)
    rw [OperandValue.settled_of_read hread] at hback
    rw [OperandValue.spellAt_of_ne hplain] at hspell
    refine ⟨v, hkind, hread, ?_, .same hplain⟩
    rw [← Option.some_inj.mp hspell]
    exact hback

theorem Function.ReadsBackAs.agrees {fn g : Function} (h : fn.ReadsBackAs g)
    (hascend : g.boundaryOffsets.Pairwise (· < ·)) (hcallees : fn.IsUnambiguous) : fn.Agrees g := by
  have hcanonical := h.isCanonicalOf
  obtain ⟨lay, hlay, hsome, hg⟩ := h
  have hplaces := (Layout.ofFunction_eq_ok_iff.mp hlay).1
  have hoffsets : g.boundaryOffsets = lay.addresses := by
    rw [hg]
    exact Layout.boundaryOffsets_canonicalFunction hlay
  have hlabels : g.labelMap = Labels.ofTargets lay.targets := by
    rw [hg]
    rfl
  have hcode : g.code = lay.canonicalCode := by rw [hg, Layout.code_canonicalFunction]
  have hboundary (k : Nat) (t : UInt32) (hk : lay.addresses[k]? = some t) :
      g.boundaryAt? t = some k := by
    rw [boundaryAt?_eq_some_iff hascend, hoffsets]
    exact hk
  refine ⟨hcanonical.name, hcanonical.params, hcanonical.flags, hcanonical.whole, ?_, ?_⟩
  · rw [BindsLabels, hlabels]
    refine ⟨Labels.nodup_ofTargets _, ?_⟩
    intro e he
    obtain ⟨t, ht, rfl⟩ := Labels.mem_ofTargets.mp he
    obtain ⟨x, -, hx⟩ := List.mem_filterMap.mp ht
    obtain ⟨k, hk⟩ := Layout.exists_boundary_of_target hlay hx
    exact ⟨k, hboundary k t hk⟩
  · rw [hcode, ← hplaces.map_inst, Layout.canonicalCode, List.forall₂_map_left_iff,
      List.forall₂_map_right_iff, List.forall₂_same]
    intro x hx
    have hinst : x.inst ∈ fn.code := by
      rw [← hplaces.map_inst]
      exact List.mem_map_of_mem hx
    exact Layout.agrees_canonicalInstruction hlay hlabels hboundary hx (hsome _ hinst)
      (hcallees _ hinst)

end ScriptCodec
