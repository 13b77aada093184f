import ScriptCodec.Proofs.Listing.Placement

/-!
The names of a function while it is read. Three tables are kept for them: every name with its
offset, the one label an offset has, and for each further name of an offset the label that
replaces it. They say the same, whatever order the names come in and however often.
-/
namespace ScriptCodec

def OneOffset (bound : List (Bytes × UInt32)) : Prop :=
  ∀ ⦃name offset offset'⦄, (name, offset) ∈ bound → (name, offset') ∈ bound → offset' = offset

theorem OneOffset.cons {bound : List (Bytes × UInt32)} (h : OneOffset bound) {name : Bytes}
    (hnew : ∀ o, (name, o) ∉ bound) (offset : UInt32) : OneOffset ((name, offset) :: bound) := by
  intro n o o' ho ho'
  simp only [List.mem_cons, Prod.mk.injEq] at ho ho'
  obtain ⟨rfl, rfl⟩ | ho := ho
  · obtain ⟨-, rfl⟩ | ho' := ho'
    · rfl
    · exact absurd ho' (hnew o')
  · obtain ⟨rfl, -⟩ | ho' := ho'
    · exact absurd ho (hnew o)
    · exact h ho ho'

/-- The labels keep one name for each offset, and a name has one offset only. -/
structure Labels.Represents (labels : Labels) (kept : Bytes → Bytes)
    (bound : List (Bytes × UInt32)) : Prop where
  ascends : Ascends labels
  single : OneOffset bound
  named : ∀ {name offset}, (name, offset) ∈ bound → (offset, kept name) ∈ labels
  other : ∀ {name}, (∀ offset, (name, offset) ∉ bound) → kept name = name
  known : ∀ {offset name}, (offset, name) ∈ labels → (name, offset) ∈ bound

theorem Labels.Represents.nodup {labels : Labels} {kept : Bytes → Bytes}
    {bound : List (Bytes × UInt32)} (h : Labels.Represents labels kept bound) :
    (labels.map Prod.snd).Nodup := by
  rw [List.nodup_iff_pairwise_ne, List.pairwise_map]
  refine List.Pairwise.imp_of_mem ?_ h.ascends
  intro e f he hf hlt hsame
  have hf' : (e.2, f.1) ∈ bound := by
    rw [hsame]
    exact h.known hf
  rw [h.single (h.known he) hf'] at hlt
  exact UInt32.lt_irrefl _ hlt

section

variable {fn : Function} {kept : Bytes → Bytes} {bound : List (Bytes × UInt32)} {name : Bytes}
  (h : Labels.Represents fn.labelMap kept bound)

include h

theorem Function.boundary?_kept {offset : UInt32} (hname : (name, offset) ∈ bound) :
    fn.boundary? (kept name) = fn.boundaryAt? offset := by
  have hfind : List.find? (fun e => e.2 == kept name) fn.labelMap = some (offset, kept name) :=
    find?_eq_some_of_nodup h.nodup (h.named hname)
  rw [boundary?, hfind, Option.bind_some]

theorem Function.boundary?_other (hname : ∀ offset, (name, offset) ∉ bound) :
    fn.boundary? (kept name) = none := by
  have hfind : List.find? (fun e => e.2 == kept name) fn.labelMap = none := by
    rw [List.find?_eq_none, h.other hname]
    intro e he hsame
    obtain rfl : e.2 = name := by simpa using hsame
    exact hname e.1 (h.known he)
  rw [boundary?, hfind, Option.bind_none]

end

namespace Listing.Draft

def IsBound (d : Draft) : Prop := Labels.Represents d.labels d.keptName d.bound

/-- A name a draft has for an offset, or will have when it is bound at this address. -/
def Declares (d : Draft) (addr : UInt32) (name : Bytes) (offset : UInt32) : Prop :=
  (name, offset) ∈ d.bound ∨ name ∈ d.pending ∧ offset = addr

theorem declares_addLabel {d : Draft} {addr : UInt32} {label name : Bytes} {offset : UInt32} :
    (d.addLabel label).Declares addr name offset ↔
      d.Declares addr name offset ∨ name = label ∧ offset = addr := by
  unfold Declares Draft.addLabel
  rw [List.mem_cons, or_and_right, or_left_comm, or_comm]

theorem declares_iff_mem_bound {d : Draft} (h : d.pending = []) (addr : UInt32) {name : Bytes}
    {offset : UInt32} : d.Declares addr name offset ↔ (name, offset) ∈ d.bound := by
  simp [Declares, h]

structure Binds (d : Draft) (offset : UInt32) (names : List Bytes) (d' : Draft) : Prop where
  isBound : d'.IsBound
  mem_bound : ∀ {name o}, (name, o) ∈ d'.bound ↔ (name, o) ∈ d.bound ∨ name ∈ names ∧ o = offset
  frame : d' = { d with labels := d'.labels, aliases := d'.aliases, bound := d'.bound }

variable {d d' : Draft} {offset : UInt32} {name : Bytes}

section

variable {names : List Bytes} (h : d.Binds offset names d')

include h

theorem Binds.name_eq : d'.name = d.name := by rw [h.frame]

theorem Binds.offset_eq : d'.offset = d.offset := by rw [h.frame]

theorem Binds.code_eq : d'.code = d.code := by rw [h.frame]

end

theorem keptName_addAlias (d : Draft) (name first other : Bytes) :
    ({ d with aliases := (name, first) :: d.aliases } : Draft).keptName other =
      if name = other then first else d.keptName other := by
  unfold keptName
  by_cases hsame : name = other
  · simp [hsame]
  · simp [hsame, List.find?_cons_of_neg]

theorem find?_bound_eq_none (hnew : d.bound.find? (fun e => e.1 == name) = none) (o : UInt32) :
    (name, o) ∉ d.bound := by
  rw [List.find?_eq_none] at hnew
  intro hmem
  exact hnew _ hmem (beq_self_eq_true name)

theorem mem_of_find?_bound {e : Bytes × UInt32}
    (hfind : d.bound.find? (fun e => e.1 == name) = some e) : (name, e.2) ∈ d.bound := by
  obtain rfl : e.1 = name := by simpa using List.find?_some hfind
  exact List.mem_of_find?_eq_some hfind

theorem IsBound.addAlias (h : d.IsBound) (hnew : ∀ o, (name, o) ∉ d.bound) {first : Bytes}
    (hfirst : (offset, first) ∈ d.labels) :
    IsBound { d with
      bound := (name, offset) :: d.bound
      aliases := (name, first) :: d.aliases } := by
  have hold {n : Bytes} {o : UInt32} (hn : (n, o) ∈ d.bound) : name ≠ n := by
    rintro rfl
    exact hnew o hn
  have hkept := keptName_addAlias { d with bound := (name, offset) :: d.bound } name first
  refine ⟨h.ascends, h.single.cons hnew offset, ?_, ?_, ?_⟩
  · intro n o ho
    rw [hkept]
    rcases List.mem_cons.mp ho with hhead | ho
    · obtain ⟨rfl, rfl⟩ := Prod.mk.inj hhead
      rwa [if_pos rfl]
    · rw [if_neg (hold ho)]
      exact h.named ho
  · intro n hn
    have hne : name ≠ n := by
      rintro rfl
      exact hn offset List.mem_cons_self
    rw [hkept, if_neg hne]
    exact h.other fun o ho => hn o (List.mem_cons_of_mem _ ho)
  · intro o n hmem
    exact List.mem_cons_of_mem _ (h.known hmem)

theorem IsBound.addFirst (h : d.IsBound) (hnew : ∀ o, (name, o) ∉ d.bound)
    (hfree : d.labels.nameAt? offset = none) :
    IsBound { d with
      bound := (name, offset) :: d.bound
      labels := d.labels.set offset name } := by
  have hother {o : UInt32} {n : Bytes} (hmem : (o, n) ∈ d.labels) : o ≠ offset := by
    rintro rfl
    rw [(Labels.nameAt?_eq_some_iff h.ascends).mpr hmem] at hfree
    cases hfree
  refine ⟨h.ascends.set offset name, h.single.cons hnew offset, ?_, ?_, ?_⟩
  · intro n o ho
    change (o, d.keptName n) ∈ d.labels.set offset name
    rcases List.mem_cons.mp ho with hhead | ho
    · obtain ⟨rfl, rfl⟩ := Prod.mk.inj hhead
      rw [h.other hnew]
      exact Labels.mem_set_self _ _ _
    · exact Labels.mem_set_of_ne (h.named ho) (hother (h.named ho)) _
  · intro n hn
    exact h.other fun o ho => hn o (List.mem_cons_of_mem _ ho)
  · intro o n hmem
    rcases Labels.mem_of_mem_set hmem with hhead | hmem
    · obtain ⟨rfl, rfl⟩ := Prod.mk.inj hhead
      exact List.mem_cons_self
    · exact List.mem_cons_of_mem _ (h.known hmem)

theorem IsBound.bindName (h : d.IsBound) (hd : d.bindName offset name = .ok d') :
    d.Binds offset [name] d' := by
  unfold Draft.bindName at hd
  split at hd
  · rename_i n previous hfind
    split at hd
    · rename_i hsame
      subst hsame
      cases hd
      have hmem : (name, previous) ∈ d.bound := mem_of_find?_bound hfind
      refine ⟨h, ?_, rfl⟩
      intro n' o
      simp only [List.mem_singleton, iff_self_or, and_imp]
      rintro rfl rfl
      exact hmem
    · cases hd
  · rename_i hnew
    have hnew' := find?_bound_eq_none hnew
    dsimp only at hd
    split at hd
    · rename_i first hfirst
      cases hd
      refine ⟨h.addAlias hnew' (Labels.mem_of_nameAt? hfirst), ?_, rfl⟩
      simp [or_comm]
    · rename_i hfree
      cases hd
      refine ⟨h.addFirst hnew' hfree, ?_, rfl⟩
      simp [or_comm]

/-- A name can be bound to any offset when it has none, and again to the offset it has. -/
theorem exists_bindName (hname : ∀ o, (name, o) ∈ d.bound → o = offset) :
    ∃ d', d.bindName offset name = .ok d' := by
  unfold Draft.bindName
  split
  · rename_i n previous hfind
    rw [if_pos (hname previous (mem_of_find?_bound hfind))]
    exact ⟨d, rfl⟩
  · dsimp only
    split
    · exact ⟨_, rfl⟩
    · exact ⟨_, rfl⟩

theorem IsBound.bindNames {names : List Bytes} (h : d.IsBound)
    (hd : names.foldlM (Draft.bindName offset) d = .ok d') : d.Binds offset names d' := by
  induction names generalizing d with
  | nil =>
    rw [List.foldlM_nil, Except.pure_eq_ok_iff] at hd
    subst hd
    exact ⟨h, by simp, rfl⟩
  | cons name names ih =>
    rw [List.foldlM_cons, Except.andThen_eq_ok_iff] at hd
    obtain ⟨next, hnext, hrest⟩ := hd
    have hfirst := h.bindName hnext
    have hothers := ih hfirst.isBound hrest
    refine ⟨hothers.isBound, ?_, ?_⟩
    · intro n o
      rw [hothers.mem_bound, hfirst.mem_bound, List.mem_singleton, List.mem_cons, or_assoc,
        ← or_and_right]
    · rw [hothers.frame, hfirst.frame]

theorem exists_bindNames {names : List Bytes} (h : d.IsBound)
    (hnames : ∀ name ∈ names, ∀ o, (name, o) ∈ d.bound → o = offset) :
    ∃ d', names.foldlM (Draft.bindName offset) d = .ok d' := by
  induction names generalizing d with
  | nil => exact ⟨d, rfl⟩
  | cons name names ih =>
    obtain ⟨hname, hnames⟩ := List.forall_mem_cons.mp hnames
    obtain ⟨next, hnext⟩ := exists_bindName hname
    have hbinds := h.bindName hnext
    obtain ⟨d', hd'⟩ := ih hbinds.isBound fun n hn o ho => by
      rcases hbinds.mem_bound.mp ho with ho | ⟨-, rfl⟩
      · exact hnames n hn o ho
      · rfl
    refine ⟨d', ?_⟩
    rw [List.foldlM_cons, hnext]
    exact hd'

theorem IsBound.bindPending {addr : UInt32} (h : d.IsBound) (hd : d.bindPending addr = .ok d') :
    Binds { d with pending := [] } addr d.pending d' := by
  have hcleared : IsBound { d with pending := [] } := h
  have hbinds := hcleared.bindNames hd
  refine ⟨hbinds.isBound, ?_, hbinds.frame⟩
  intro name offset
  rw [hbinds.mem_bound, List.mem_reverse]

theorem IsBound.pending_bindPending {addr : UInt32} (h : d.IsBound)
    (hd : d.bindPending addr = .ok d') : d'.pending = [] := by
  rw [(h.bindPending hd).frame]

theorem exists_bindPending (h : d.IsBound) {addr : UInt32}
    (hnames : ∀ name ∈ d.pending, ∀ o, (name, o) ∈ d.bound → o = addr) :
    ∃ d', d.bindPending addr = .ok d' := by
  have hcleared : IsBound { d with pending := [] } := h
  exact exists_bindNames hcleared fun name hname o ho =>
    hnames name (List.mem_reverse.mp hname) o ho

end Listing.Draft
end ScriptCodec
