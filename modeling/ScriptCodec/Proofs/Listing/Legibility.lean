import ScriptCodec.Proofs.Listing.Drafts

/-!
What has been read can be printed. Every name and operand of a module that was read stood in its
text as a token or before a colon, so it is one token on a line again. Where an operand was
replaced by the name of a label, that name must not be empty.
-/
namespace ScriptCodec

namespace Listing

theorem not_mem_of_mem_splitOnP {α : Type} {p : α → Bool} {xs acc piece : List α}
    (h : piece ∈ List.splitOnPPrepend p xs acc) (hacc : ∀ x ∈ acc, p x = false) :
    ∀ x ∈ piece, p x = false := by
  induction xs generalizing acc with
  | nil =>
    rw [List.splitOnPPrepend_nil, List.mem_singleton] at h
    subst h
    exact fun x hx => hacc x (List.mem_reverse.mp hx)
  | cons y xs ih =>
    cases hy : p y with
    | false =>
      rw [List.splitOnPPrepend_cons_neg hy] at h
      exact ih h (List.forall_mem_cons.mpr ⟨hy, hacc⟩)
    | true =>
      rw [List.splitOnPPrepend_cons_pos hy] at h
      rcases List.mem_cons.mp h with rfl | h
      · exact fun x hx => hacc x (List.mem_reverse.mp hx)
      · exact ih h (by simp)

theorem not_mem_of_mem_lines {source line : Bytes} (h : line ∈ lines source) : 0x0A ∉ line := by
  have hpiece : line ∈ Text.splitOn 0x0A source := by
    unfold lines at h
    dsimp only at h
    split at h
    · exact List.mem_of_mem_dropLast h
    · exact h
  intro hmem
  exact absurd (not_mem_of_mem_splitOnP hpiece (by simp) _ hmem) (by decide)

theorem prefix_dropReturn (line : Bytes) : dropReturn line <+: line := by
  rw [dropReturn]
  cases hreturn : Text.beforeTrail [0x0D] line with
  | none => exact List.prefix_refl line
  | some front =>
    rw [beforeTrail_eq_some_iff.mp hreturn]
    exact List.prefix_append front [0x0D]

section

variable {line : Bytes} {ts : List Bytes} (h : lineTokens? line = some ts)

include h

theorem length_le_of_lineTokens? : ts.length ≤ line.length := by
  rw [lineTokens?, Except.toOption_eq_some_iff] at h
  obtain ⟨more, rfl, hle, -⟩ := tokensFrom_eq_ok h
  exact hle.trans (prefix_dropReturn line).length_le

theorem isToken_of_lineTokens? (hline : 0x0A ∉ line) : ∀ t ∈ ts, IsToken t := by
  rw [lineTokens?, Except.toOption_eq_some_iff] at h
  obtain ⟨more, rfl, -, hmore⟩ := tokensFrom_eq_ok h
  intro t ht
  obtain ⟨hshape, hpart⟩ := hmore t ht
  refine hshape.isToken fun hmem => hline ?_
  exact (prefix_dropReturn line).subset (hpart.subset hmem)

end

def Entry.IsLegible : Entry → Prop
  | label name => IsLabelName name
  | instruction _ args => ∀ a ∈ args, IsToken a

theorem isLegible_of_entryOf? {line : Bytes} {e : Entry} (h : entryOf? line = some e)
    (hline : 0x0A ∉ line) : e.IsLegible := by
  have hopen := closing?_eq_none_of_entryOf? h
  unfold entryOf? at h
  split at h
  · rename_i head args htokens _
    have hall := isToken_of_lineTokens? htokens hline
    obtain ⟨hhead, hargs⟩ := List.forall_mem_cons.mp hall
    split at h
    · rename_i name _ hcolon
      cases h
      rw [closing?_eq htokens] at hopen
      unfold colonLabel? at hcolon
      split at hcolon
      · rename_i hempty
        obtain rfl := beforeTrail_eq_some_iff.mp hcolon
        rw [if_pos hempty] at hopen
        exact ⟨hhead, hopen⟩
      · cases hcolon
    · cases h
      exact hargs
    · split at h
      · rename_i hloc
        cases h
        obtain ⟨-, hlead⟩ := Bool.and_eq_true_iff.mp hloc
        exact isLabelName_of_locMark hhead (List.isPrefixOf_iff_prefix.mp hlead)
      · cases h
  · cases h

theorem length_args_le_of_entryOf? {line : Bytes} {op : Opcode} {args : List Bytes}
    (h : entryOf? line = some (.instruction op args)) : args.length ≤ line.length := by
  unfold entryOf? at h
  split at h
  · rename_i head rest htokens _
    have hle := length_le_of_lineTokens? htokens
    split at h
    · cases h
    · cases h
      exact Nat.le_of_succ_le hle
    · split at h
      · cases h
      · cases h
  · cases h

end Listing

namespace Function.IsReadFrom

variable {fn : Function} {body : List Bytes} {kept : Bytes → Bytes}
  (h : fn.IsReadFrom (Listing.entries body) kept)

include h

theorem isLabelName (hbody : ∀ line ∈ body, 0x0A ∉ line) :
    ∀ e ∈ fn.labelMap, Listing.IsLabelName e.2 := by
  obtain ⟨bound, hlabels, hbound⟩ := h.labels
  intro e he
  obtain ⟨front, back, hsplit, -⟩ := (hbound _ _).mp (hlabels.known he)
  have hentry : .label e.2 ∈ Listing.entries body := by
    rw [hsplit]
    simp
  obtain ⟨line, hline, hsome⟩ := Listing.mem_entries.mp hentry
  exact Listing.isLegible_of_entryOf? hsome (hbody line hline)

theorem exists_source {inst : Instruction} (hinst : inst ∈ fn.code) :
    ∃ line ∈ body, ∃ args, Listing.entryOf? line = some (.instruction inst.opcode args) ∧
      inst.IsReadFrom kept (inst.opcode, args) := by
  obtain ⟨⟨op, args⟩, hsource, hread⟩ := h.code.exists_left hinst
  obtain ⟨line, hline, hsome⟩ :=
    Listing.mem_entries.mp (Listing.mem_instructions.mp hsource)
  obtain rfl : inst.opcode = op := hread.opcode
  exact ⟨line, hline, args, hsome, hread⟩

/-- A name that is kept in place of another one is that of a label. -/
theorem isToken_kept (hbody : ∀ line ∈ body, 0x0A ∉ line) (hnames : ∀ e ∈ fn.labelMap, e.2 ≠ [])
    {name : Bytes} (hname : Listing.IsToken name) : Listing.IsToken (kept name) := by
  obtain ⟨bound, hlabels, -⟩ := h.labels
  by_cases hbound : ∃ offset, (name, offset) ∈ bound
  · obtain ⟨offset, hoffset⟩ := hbound
    have hmem := hlabels.named hoffset
    exact (h.isLabelName hbody _ hmem).isToken (hnames _ hmem)
  · rwa [hlabels.other fun offset hoffset => hbound ⟨offset, hoffset⟩]

theorem isToken_args (hbody : ∀ line ∈ body, 0x0A ∉ line) (hnames : ∀ e ∈ fn.labelMap, e.2 ≠ []) :
    ∀ inst ∈ fn.code, ∀ a ∈ inst.args, Listing.IsToken a := by
  intro inst hinst
  obtain ⟨line, hline, args, hsome, hread⟩ := h.exists_source hinst
  have hargs : ∀ a ∈ args, Listing.IsToken a :=
    Listing.isLegible_of_entryOf? hsome (hbody line hline)
  by_cases hbranch : inst.IsBranch
  · rw [hread.targets hbranch]
    intro a ha
    obtain ⟨source, hsource, rfl⟩ := List.mem_map.mp ha
    exact h.isToken_kept hbody hnames (hargs source hsource)
  · rwa [hread.operands hbranch]

theorem length_args_le {n : Nat} (hbody : ∀ line ∈ body, line.length ≤ n) :
    ∀ inst ∈ fn.code, inst.args.length ≤ n := by
  intro inst hinst
  obtain ⟨line, hline, args, hsome, hread⟩ := h.exists_source hinst
  have hle := (Listing.length_args_le_of_entryOf? hsome).trans (hbody line hline)
  by_cases hbranch : inst.IsBranch
  · rwa [hread.targets hbranch, List.length_map]
  · rwa [hread.operands hbranch]

end Function.IsReadFrom

namespace Listing

section

variable {s t : State} {o : Outline} {line : Bytes}

def Outline.lines (o : Outline) : List Bytes := o.closed.flatten ++ o.current.getD []

theorem Outline.mem_lines_next {l : Bytes} (h : l ∈ (o.next line).lines) :
    l ∈ o.lines ∨ l = line := by
  unfold Outline.next Outline.lines at *
  split at h
  · rename_i hcurrent
    split at h
    · exact .inl (by simpa [hcurrent] using h)
    · exact .inl h
  · rename_i body hcurrent
    rw [hcurrent]
    split at h
    · exact .inl (by simpa using h)
    · simpa [or_assoc] using h

theorem Outline.mem_lines_foldl {ls : List Bytes} {l : Bytes}
    (h : l ∈ (ls.foldl Outline.next o).lines) : l ∈ o.lines ∨ l ∈ ls := by
  induction ls generalizing o with
  | nil => exact .inl h
  | cons line ls ih =>
    rcases ih h with hnext | hrest
    · rcases Outline.mem_lines_next hnext with hold | rfl
      · exact .inl hold
      · exact .inr List.mem_cons_self
    · exact .inr (List.mem_cons_of_mem _ hrest)

theorem mem_of_mem_outline {ls body : List Bytes} (hbody : body ∈ (outline ls).closed) :
    ∀ l ∈ body, l ∈ ls := by
  intro l hl
  have hmem : l ∈ (outline ls).lines := List.mem_append_left _ (List.mem_flatten_of_mem hbody hl)
  exact (Outline.mem_lines_foldl hmem).resolve_left (by simp [Outline.lines])

structure State.IsLegible (s : State) : Prop where
  includes : ∀ path ∈ s.includes, IsToken path
  functions : ∀ fn ∈ s.functions, ∀ b ∈ fn.name, isBlank b = false ∧ b ≠ 0x0A
  draft : ∀ d ∈ s.draft, ∀ b ∈ d.name, isBlank b = false ∧ b ≠ 0x0A

theorem State.IsLegible.next (h : s.IsLegible) (htracks : s.Tracks o) (hread : Reads s line t)
    (hline : 0x0A ∉ line) : t.IsLegible := by
  obtain ⟨hincludes, hfunctions, hdraft⟩ := h
  cases hread with
  | blank => exact ⟨hincludes, hfunctions, hdraft⟩
  | includes _ tokens =>
    have hall := isToken_of_lineTokens? tokens hline
    exact ⟨List.forall_mem_cons.mpr ⟨hall _ (by simp), hincludes⟩, hfunctions, hdraft⟩
  | @opened name _ _ _ _ _ tokens =>
    have hhead : IsToken (subMark ++ name) := isToken_of_lineTokens? tokens hline _ (by simp)
    have hquote : ¬ [0x22] <+: subMark ++ name := by
      intro hlead
      have hmark := List.prefix_of_prefix_length_le hlead (List.prefix_append subMark name)
        (by decide)
      exact absurd hmark (by decide)
    refine ⟨hincludes, hfunctions, ?_⟩
    rintro d ⟨⟩ b hb
    have hmem : b ∈ subMark ++ name := List.mem_append_right _ hb
    refine ⟨hhead.shape.isBlank_eq_false hquote b hmem, ?_⟩
    rintro rfl
    exact hhead.1 hmem
  | @label name d inside =>
    refine ⟨hincludes, hfunctions, ?_⟩
    rintro _ ⟨⟩
    exact hdraft d inside
  | @instruction d d' _ _ _ inside _ _ binds =>
    obtain ⟨body, -, hfollows⟩ := htracks.inside inside
    have hname : d'.name = d.name := (hfollows.isBound.bindPending binds).name_eq
    refine ⟨hincludes, hfunctions, ?_⟩
    rintro _ ⟨⟩
    change ∀ b ∈ d'.name, _
    rw [hname]
    exact hdraft d inside
  | @closed d d' inside _ binds =>
    obtain ⟨body, -, hfollows⟩ := htracks.inside inside
    have hname : d'.name = d.name := (hfollows.isBound.bindPending binds).name_eq
    refine ⟨hincludes, List.forall_mem_cons.mpr ⟨?_, hfunctions⟩, nofun⟩
    change ∀ b ∈ d'.name, _
    rw [hname]
    exact hdraft d inside

theorem State.IsLegible.readLines {ls : List Bytes} (h : s.IsLegible) (htracks : s.Tracks o)
    (hread : Listing.readLines s ls = .ok t) (hls : ∀ line ∈ ls, 0x0A ∉ line) : t.IsLegible := by
  induction ls generalizing s o with
  | nil =>
    cases hread
    exact h
  | cons line ls ih =>
    obtain ⟨u, hu, hrest⟩ := readLines_cons_eq_ok_iff.mp hread
    obtain ⟨hline, hls⟩ := List.forall_mem_cons.mp hls
    exact ih (h.next htracks hu hline) (htracks.next hu) hrest hls

end

end Listing
end ScriptCodec
