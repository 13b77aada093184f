import ScriptCodec.Proofs.Object.Targets

/-!
Label resolution whatever the order in which the labels are taken. It succeeds when no two labels
share a name and each stands for a boundary of its function; every name then has the address of
the last instruction at its offset, or of the end. A fault names labels that are at fault. None
of this mentions the order, in which the labels may be met one way or another.
-/
namespace List

variable {α : Type} {p : α → Bool} {xs : List α} {x : α}

theorem find?_reverse_eq_some_iff :
    xs.reverse.find? p = some x ↔
      p x = true ∧ ∃ k : Nat, xs[k]? = some x ∧
        ∀ (j : Nat) y, k < j → xs[j]? = some y → p y = false := by
  induction xs with
  | nil => simp
  | cons a xs ih =>
    rw [reverse_cons, find?_append, Option.or_eq_some_iff, ih]
    constructor
    · rintro (⟨hx, k, hk, hlater⟩ | ⟨hnone, hfirst⟩)
      · refine ⟨hx, k + 1, hk, ?_⟩
        intro j y hj hy
        obtain ⟨j, rfl⟩ := Nat.exists_eq_add_of_lt (Nat.zero_lt_of_lt hj)
        rw [Nat.zero_add, getElem?_cons_succ] at hy
        exact hlater j y (by omega) hy
      · obtain ⟨hx, rfl⟩ : p a = true ∧ a = x := by simpa [find?_singleton] using hfirst
        refine ⟨hx, 0, rfl, ?_⟩
        intro j y hj hy
        obtain ⟨j, rfl⟩ := Nat.exists_eq_add_of_lt hj
        rw [Nat.zero_add, getElem?_cons_succ] at hy
        have hmiss := find?_eq_none.mp hnone y (mem_reverse.mpr (mem_of_getElem? hy))
        exact Bool.eq_false_of_not_eq_true hmiss
    · rintro ⟨hx, k, hk, hlater⟩
      cases k with
      | zero =>
        rw [getElem?_cons_zero, Option.some_inj] at hk
        subst hk
        refine Or.inr ⟨?_, by simp [hx]⟩
        rw [find?_eq_none]
        intro y hy
        obtain ⟨j, hj⟩ := mem_iff_getElem?.mp (mem_reverse.mp hy)
        simp [hlater (j + 1) y (Nat.succ_pos j) hj]
      | succ k => exact Or.inl ⟨hx, k, hk, fun j y hj hy => hlater (j + 1) y (by omega) hy⟩

end List

namespace ScriptCodec

namespace Function

def withLabels (fn : Function) (order : Labels) : Function := { fn with labels := some order }

/-- The address an offset gets from new addresses of the instructions and of the end. The end
comes before the instructions, and a later instruction before an earlier one. -/
inductive StandsAt (fn : Function) (addrs : List UInt32) (stop : UInt32) : UInt32 → UInt32 → Prop
  | stop : StandsAt fn addrs stop fn.stop stop
  | last {k : Nat} {inst : Instruction} {addr : UInt32} (hstop : inst.offset ≠ fn.stop)
    (hinst : fn.code[k]? = some inst) (haddr : addrs[k]? = some addr)
    (hlast : ∀ (j : Nat) later, k < j → fn.code[j]? = some later → later.offset ≠ inst.offset) :
    StandsAt fn addrs stop inst.offset addr

variable {fn : Function} {addrs : List UInt32} {stop offset addr : UInt32}

theorem StandsAt.eq_stop (h : fn.StandsAt addrs stop offset addr) (hstop : offset = fn.stop) :
    addr = stop := by
  cases h with
  | stop => rfl
  | last hne => exact absurd hstop hne

theorem address?_eq_some_iff (hlength : addrs.length = fn.code.length) :
    (fn.boundaries addrs stop).address? offset = some addr ↔
      fn.StandsAt addrs stop offset addr := by
  rw [boundaries, Boundaries.address?, List.find?_cons]
  cases hstop : fn.stop == offset with
  | true =>
    have heq : fn.stop = offset := eq_of_beq hstop
    simp only [Option.map_some, Option.some_inj]
    constructor
    · intro h
      rw [← heq, ← h]
      exact .stop
    · intro h
      exact (h.eq_stop heq.symm).symm
  | false =>
    have hne : offset ≠ fn.stop := fun heq => by simp [heq] at hstop
    simp only [Option.map_eq_some_iff, List.find?_reverse_eq_some_iff, List.getElem?_zip_eq_some,
      List.getElem?_map, beq_iff_eq, beq_eq_false_iff_ne]
    constructor
    · rintro ⟨e, ⟨rfl, k, ⟨⟨inst, hinst, hoffset⟩, haddr⟩, hlater⟩, rfl⟩
      rw [← hoffset] at hne hlater ⊢
      refine .last hne hinst haddr ?_
      intro j later hj hcode
      have hlt : j < addrs.length := by
        rw [hlength]
        exact (List.getElem?_eq_some_iff.mp hcode).1
      exact hlater j (later.offset, addrs[j]) hj
        ⟨⟨later, hcode, rfl⟩, List.getElem?_eq_getElem hlt⟩
    · intro h
      cases h with
      | stop => exact absurd rfl hne
      | @last k inst _ _ hinst haddr hlast =>
        refine ⟨(inst.offset, addr), ⟨rfl, k, ⟨⟨inst, hinst, rfl⟩, haddr⟩, ?_⟩, rfl⟩
        rintro j y hj ⟨⟨later, hlater, hoffset⟩, -⟩
        rw [← hoffset]
        exact hlast j later hj hlater

theorem not_mem_boundaryOffsets (hlength : addrs.length = fn.code.length)
    (h : (fn.boundaries addrs stop).address? offset = none) : offset ∉ fn.boundaryOffsets := by
  intro hmem
  obtain ⟨k, hk⟩ := exists_boundaryAt? hmem
  obtain ⟨addr, haddr⟩ := exists_address? hlength stop hk
  rw [h] at haddr
  cases haddr

theorem StandsAt.mem_boundaryOffsets (h : fn.StandsAt addrs stop offset addr) :
    offset ∈ fn.boundaryOffsets := by
  cases h with
  | stop => exact List.mem_append_right _ List.mem_cons_self
  | last _ hinst =>
    exact List.mem_append_left _ (List.mem_map_of_mem (List.mem_of_getElem? hinst))

end Function

/-- The labels a fault names are among the labels, and are at fault. -/
inductive LabelFault.Blames (function : Bytes) (offsets : List UInt32) (labels : Labels) :
    LabelFault → Prop
  | duplicate {name : Bytes} {low high : UInt32} {rest : Labels} (hle : low ≤ high)
    (hlabels : labels.Perm ((low, name) :: (high, name) :: rest)) :
    Blames function offsets labels (.duplicate name function low high)
  | offBoundary {name : Bytes} {offset : UInt32} (hlabel : (offset, name) ∈ labels)
    (hoffset : offset ∉ offsets) :
    Blames function offsets labels (.offBoundary name function offset)

namespace Labels

variable {function : Bytes} {boundaries : Boundaries} {offsets : List UInt32}
  {labels labels' : Labels} {fault : LabelFault}

theorem blames_of_perm (h : fault.Blames function offsets labels) (hperm : labels.Perm labels') :
    fault.Blames function offsets labels' := by
  cases h with
  | duplicate hle hlabels => exact .duplicate hle (hperm.symm.trans hlabels)
  | offBoundary hlabel hoffset => exact .offBoundary (hperm.mem_iff.mp hlabel) hoffset

-- The labels done so far count too: one of them may be the first of the name.
theorem resolveLoop_eq_error {done : List ResolvedLabel}
    (hmiss : ∀ offset, boundaries.address? offset = none → offset ∉ offsets)
    (h : resolveLoop function boundaries done labels = .error fault) :
    fault.Blames function offsets (done.map (fun d => (d.offset, d.name)) ++ labels) := by
  induction labels generalizing done with
  | nil => cases h
  | cons e labels ih =>
    obtain ⟨offset, name⟩ := e
    rw [resolveLoop] at h
    cases hfind : done.find? fun d => d.name == name with
    | some d =>
      obtain rfl : d.name = name := by simpa using List.find?_some hfind
      obtain ⟨front, back, hdone⟩ := List.append_of_mem (List.mem_of_find?_eq_some hfind)
      simp only [hfind, Except.error.injEq] at h
      subst h hdone
      have hsplit : ((front ++ d :: back).map (fun d => (d.offset, d.name)) ++
          (offset, d.name) :: labels).Perm ((offset, d.name) :: (d.offset, d.name) ::
            ((front ++ back).map (fun d => (d.offset, d.name)) ++ labels)) := by
        refine List.perm_middle.trans (.cons _ ?_)
        exact ((List.perm_middle.map _).append_right labels)
      by_cases hle : d.offset ≤ offset
      · have hmin : min d.offset offset = d.offset := if_pos hle
        have hmax : max d.offset offset = offset := if_pos hle
        rw [hmin, hmax]
        exact .duplicate hle (hsplit.trans (.swap _ _ _))
      · have hmin : min d.offset offset = offset := if_neg hle
        have hmax : max d.offset offset = d.offset := if_neg hle
        rw [hmin, hmax]
        exact .duplicate (UInt32.le_of_lt (UInt32.not_le.mp hle)) hsplit
    | none =>
      cases haddr : boundaries.address? offset with
      | none =>
        simp only [hfind, haddr, Except.error.injEq] at h
        subst h
        exact .offBoundary (List.mem_append_right _ List.mem_cons_self) (hmiss offset haddr)
      | some addr =>
        simp only [hfind, haddr] at h
        exact blames_of_perm (ih h) List.perm_middle.symm

theorem ResolvesTo.names {resolved : List ResolvedLabel}
    (h : labels.Forall₂ (ResolvesTo boundaries) resolved) :
    resolved.map ResolvedLabel.name = labels.map Prod.snd := by
  induction h with
  | nil => rfl
  | cons hr _ ih => rw [List.map_cons, List.map_cons, hr.1, ih]

theorem ResolvesTo.find? {resolved : List ResolvedLabel}
    (h : labels.Forall₂ (ResolvesTo boundaries) resolved) (hnodup : (labels.map Prod.snd).Nodup)
    {e : UInt32 × Bytes} (he : e ∈ labels) :
    ∃ addr, boundaries.address? e.1 = some addr ∧
      resolved.find? (fun l => l.name == e.2) = some ⟨e.2, e.1, addr⟩ := by
  induction h with
  | nil => cases he
  | @cons d r labels resolved hr hrest ih =>
    rw [List.map_cons, List.nodup_cons] at hnodup
    rcases List.mem_cons.mp he with rfl | he
    · obtain ⟨name, offset, addr⟩ := r
      obtain ⟨rfl, rfl, haddr⟩ := hr
      exact ⟨addr, haddr, List.find?_cons_of_pos (beq_self_eq_true _)⟩
    · obtain ⟨addr, haddr, hfind⟩ := ih hnodup.2 he
      refine ⟨addr, haddr, ?_⟩
      rw [List.find?_cons_of_neg, hfind]
      rw [hr.1, beq_iff_eq]
      intro heq
      exact hnodup.1 (heq ▸ List.mem_map_of_mem he)

end Labels

namespace Function

variable {fn : Function} {addrs : List UInt32} {stop : UInt32} {order : Labels}

/-- The outcome of label resolution, in whatever order the labels are taken. -/
theorem resolveLabels_withLabels (hlength : addrs.length = fn.code.length)
    (hperm : order.Perm fn.labelMap) :
    ((∃ resolved, (fn.withLabels order).resolveLabels addrs stop = .ok resolved) ↔
        (fn.labelMap.map Prod.snd).Nodup ∧ ∀ e ∈ fn.labelMap, e.1 ∈ fn.boundaryOffsets) ∧
      (∀ resolved, (fn.withLabels order).resolveLabels addrs stop = .ok resolved →
        (resolved.map ResolvedLabel.name).Perm (fn.labelMap.map Prod.snd) ∧
          ∀ e ∈ fn.labelMap, ∃ addr, fn.StandsAt addrs stop e.1 addr ∧
            resolved.find? (fun l => l.name == e.2) = some ⟨e.2, e.1, addr⟩) ∧
      ∀ fault, (fn.withLabels order).resolveLabels addrs stop = .error fault →
        fault.Blames fn.name fn.boundaryOffsets fn.labelMap ∧
          (fault.categories = [.duplicateLabel] ∨ fault.categories = [.unresolvedLabel]) := by
  have hnames : (order.map Prod.snd).Perm (fn.labelMap.map Prod.snd) := hperm.map _
  have hresolve : (fn.withLabels order).resolveLabels addrs stop =
      order.resolve fn.name (fn.boundaries addrs stop) := rfl
  -- What a success says of each label, and of the names.
  have hok {resolved : List ResolvedLabel}
      (h : order.resolve fn.name (fn.boundaries addrs stop) = .ok resolved) :
      (fn.labelMap.map Prod.snd).Nodup ∧ (resolved.map ResolvedLabel.name).Perm
          (fn.labelMap.map Prod.snd) ∧
        ∀ e ∈ fn.labelMap, ∃ addr, fn.StandsAt addrs stop e.1 addr ∧
          resolved.find? (fun l => l.name == e.2) = some ⟨e.2, e.1, addr⟩ := by
    obtain ⟨hresolved, hnodup⟩ := Labels.resolve_eq_ok_iff.mp h
    refine ⟨hnames.nodup_iff.mp hnodup, ?_, ?_⟩
    · rw [Labels.ResolvesTo.names hresolved]
      exact hnames
    · intro e he
      obtain ⟨addr, haddr, hfind⟩ :=
        Labels.ResolvesTo.find? hresolved hnodup (hperm.mem_iff.mpr he)
      exact ⟨addr, (address?_eq_some_iff hlength).mp haddr, hfind⟩
  rw [hresolve]
  refine ⟨⟨?_, ?_⟩, fun resolved h => (hok h).2, ?_⟩
  · rintro ⟨resolved, h⟩
    obtain ⟨hnodup, -, hlabels⟩ := hok h
    refine ⟨hnodup, ?_⟩
    intro e he
    obtain ⟨addr, haddr, -⟩ := hlabels e he
    exact haddr.mem_boundaryOffsets
  · rintro ⟨hnodup, hoffsets⟩
    have hbinds : (fn.withLabels order).BindsLabels := by
      refine ⟨hnames.nodup_iff.mpr hnodup, ?_⟩
      intro e he
      exact exists_boundaryAt? (hoffsets e (hperm.mem_iff.mp he))
    exact hbinds.exists_resolveLabels hlength stop
  · intro fault h
    have hblames : fault.Blames fn.name fn.boundaryOffsets order :=
      Labels.resolveLoop_eq_error (fun _ => not_mem_boundaryOffsets hlength) h
    refine ⟨Labels.blames_of_perm hblames hperm, ?_⟩
    cases hblames with
    | duplicate => exact Or.inl rfl
    | offBoundary => exact Or.inr rfl

def sharedOffset : Function where
  offset := 4
  size := 3
  params := 0
  flags := 0
  name := text "f"
  instructions := some [some ⟨4, 1, 0, none⟩, some ⟨4, 2, 0, none⟩]
  labels := some [(4, text "a"), (6, text "b")]

theorem resolveLabels_withLabels_sharedOffset :
    ([16, 20] : List UInt32).length = sharedOffset.code.length ∧
      List.Perm [(6, text "b"), (4, text "a")] sharedOffset.labelMap ∧
        ∃ resolved, (sharedOffset.withLabels [(6, text "b"), (4, text "a")]).resolveLabels
            [16, 20] 24 = .ok resolved ∧
          resolved.find? (fun l => l.name == text "a") = some ⟨text "a", 4, 20⟩ := by
  have hlength : ([16, 20] : List UInt32).length = sharedOffset.code.length := rfl
  have hperm : List.Perm [(6, text "b"), (4, text "a")] sharedOffset.labelMap := .swap _ _ _
  obtain ⟨hok, hlabels, -⟩ := @resolveLabels_withLabels _ _ 24 _ hlength hperm
  obtain ⟨resolved, hresolved⟩ := hok.mpr (by decide)
  obtain ⟨-, hlabels⟩ := hlabels resolved hresolved
  obtain ⟨addr, haddr, hfind⟩ := hlabels (4, text "a") (by decide)
  have h20 : addr = 20 := by
    have heq := (address?_eq_some_iff hlength).mpr haddr
    exact (Option.some_inj.mp heq).symm
  rw [h20] at hfind
  exact ⟨hlength, hperm, resolved, hresolved, hfind⟩

end Function
end ScriptCodec
