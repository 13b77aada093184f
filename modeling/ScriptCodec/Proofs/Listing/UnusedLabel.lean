import ScriptCodec.Proofs.Listing.LabelMeaning

/-!
A label that nothing refers to. Two readers of which one has met a further label stay in step:
they lay out the same instructions, and every other name stands for the same boundary. At the end
of the function the two results differ in the names that are kept only, so they assemble alike.
-/
namespace ScriptCodec

namespace Listing

def Entry.Uses (name : Bytes) : Entry → Prop
  | label l => l = name
  | instruction _ args => name ∈ args

instance (name : Bytes) : DecidablePred (Entry.Uses name)
  | .label l => inferInstanceAs (Decidable (l = name))
  | .instruction _ args => inferInstanceAs (Decidable (name ∈ args))

namespace Draft

/-- The second draft has all of the first and a further label, which the first does not use. -/
structure Shadows (label : Bytes) (offset addr : UInt32) (d d' : Draft) : Prop where
  isBound : d.IsBound
  isBound' : d'.IsBound
  declares : ∀ {name o}, d'.Declares addr name o ↔
    d.Declares addr name o ∨ name = label ∧ o = offset
  fresh : ∀ o, ¬ d.Declares addr label o
  operands : ∀ inst ∈ d.code, label ∉ inst.args
  frame : d' = { d with
    labels := d'.labels, pending := d'.pending, aliases := d'.aliases, bound := d'.bound }

variable {label : Bytes} {offset addr : UInt32} {d d' e : Draft}

theorem Follows.shadows {es : List Entry} (h : d.Follows addr es)
    (hes : ∀ e ∈ es, ¬ e.Uses label) : d.Shadows label addr addr (d.addLabel label) := by
  refine ⟨h.isBound, h.isBound, declares_addLabel, ?_, ?_, rfl⟩
  · intro o ho
    obtain ⟨front, back, rfl, -⟩ := h.declares.mp ho
    exact hes (.label label) (by simp) rfl
  · intro inst hinst hmem
    have hsource : (inst.opcode, inst.args) ∈ instructions es := by
      rw [← h.code]
      exact List.mem_map_of_mem (List.mem_reverse.mpr hinst)
    exact hes _ (mem_instructions.mp hsource) hmem

theorem Shadows.addLabel (h : d.Shadows label offset addr d') {name : Bytes}
    (hname : name ≠ label) :
    (d.addLabel name).Shadows label offset addr (d'.addLabel name) := by
  refine ⟨h.isBound, h.isBound', ?_, ?_, h.operands, ?_⟩
  · intro n o
    rw [declares_addLabel, declares_addLabel, h.declares, or_right_comm]
  · intro o
    rw [declares_addLabel]
    rintro (ho | ⟨hsame, -⟩)
    · exact h.fresh o ho
    · exact hname hsame.symm
  · rw [Draft.addLabel, Draft.addLabel, h.frame]

theorem Shadows.addCode (h : d.Shadows label offset addr d') {inst : Instruction}
    (hinst : label ∉ inst.args) :
    Shadows label offset addr { d with code := inst :: d.code }
      { d' with code := inst :: d'.code } := by
  refine ⟨h.isBound, h.isBound', h.declares, h.fresh, ?_, ?_⟩
  · exact List.forall_mem_cons.mpr ⟨hinst, h.operands⟩
  · rw [h.frame]

theorem Shadows.offset_eq_of_pending (h : d.Shadows label offset addr d')
    (hd : d.bindPending addr = .ok e) {name : Bytes} (hname : name ∈ d'.pending) {o : UInt32}
    (ho : (name, o) ∈ d'.bound) : o = addr := by
  have hbinds := h.isBound.bindPending hd
  have hhere := h.declares.mp (Or.inr ⟨hname, rfl⟩)
  have hthere := h.declares.mp (Or.inl ho)
  rcases hhere with hhere | ⟨rfl, hoffset⟩
  · rcases hthere with hthere | ⟨rfl, -⟩
    · exact hbinds.isBound.single (hbinds.mem_bound.mpr hhere) (hbinds.mem_bound.mpr hthere)
    · exact absurd hhere (h.fresh addr)
  · rcases hthere with hthere | ⟨-, rfl⟩
    · exact absurd hthere (h.fresh o)
    · exact hoffset.symm

theorem Shadows.bindPending (h : d.Shadows label offset addr d')
    (hd : d.bindPending addr = .ok e) (addr' : UInt32) :
    ∃ e', d'.bindPending addr = .ok e' ∧ e.Shadows label offset addr' e' := by
  have hbinds := h.isBound.bindPending hd
  have hbound {name : Bytes} {o : UInt32} : (name, o) ∈ e.bound ↔ d.Declares addr name o :=
    hbinds.mem_bound
  obtain ⟨e', he'⟩ := exists_bindPending h.isBound' fun name hname o ho =>
    h.offset_eq_of_pending hd hname ho
  have hbinds' := h.isBound'.bindPending he'
  have hbound' {name : Bytes} {o : UInt32} : (name, o) ∈ e'.bound ↔ d'.Declares addr name o :=
    hbinds'.mem_bound
  have hpending := h.isBound.pending_bindPending hd
  have hpending' := h.isBound'.pending_bindPending he'
  refine ⟨e', he', hbinds.isBound, hbinds'.isBound, ?_, ?_, ?_, ?_⟩
  · intro name o
    rw [declares_iff_mem_bound hpending, declares_iff_mem_bound hpending', hbound, hbound',
      h.declares]
  · intro o
    rw [declares_iff_mem_bound hpending, hbound]
    exact h.fresh o
  · rw [hbinds.frame]
    exact h.operands
  · rw [hbinds'.frame, hbinds.frame, h.frame]

section

variable (h : d.Shadows label offset addr d') (hpending : d.pending = [])
  (hpending' : d'.pending = [])

include h

theorem Shadows.boundaryOffsets_close (stop : UInt32) :
    (d'.close stop).boundaryOffsets = (d.close stop).boundaryOffsets := by
  have hcode : d'.code = d.code := by rw [h.frame]
  have hoffset : d'.offset = d.offset := by rw [h.frame]
  rw [Draft.boundaryOffsets_close, Draft.boundaryOffsets_close, hcode, hoffset]

include hpending hpending'

theorem Shadows.boundary?_close {name : Bytes} (hname : name ≠ label) (stop : UInt32) :
    (d'.close stop).boundary? (d'.keptName name) = (d.close stop).boundary? (d.keptName name) := by
  have hbound (o : UInt32) : (name, o) ∈ d'.bound ↔ (name, o) ∈ d.bound := by
    rw [← declares_iff_mem_bound hpending' addr, ← declares_iff_mem_bound hpending addr, h.declares]
    simp [hname]
  have hlabels : Labels.Represents (d.close stop).labelMap d.keptName d.bound := h.isBound
  have hlabels' : Labels.Represents (d'.close stop).labelMap d'.keptName d'.bound := h.isBound'
  by_cases hnamed : ∃ o, (name, o) ∈ d.bound
  · obtain ⟨o, ho⟩ := hnamed
    rw [Function.boundary?_kept hlabels ho, Function.boundary?_kept hlabels' ((hbound o).mpr ho),
      Function.boundaryAt?_congr (h.boundaryOffsets_close stop)]
  · have hnone : ∀ o, (name, o) ∉ d.bound := fun o ho => hnamed ⟨o, ho⟩
    rw [Function.boundary?_other hlabels hnone, Function.boundary?_other hlabels']
    exact fun o ho => hnone o ((hbound o).mp ho)

theorem Shadows.relabels_close (stop : UInt32) : (d.close stop).Relabels (d'.close stop) := by
  have hname : d'.name = d.name := by rw [h.frame]
  have hparams : d'.params = d.params := by rw [h.frame]
  have hflags : d'.flags = d.flags := by rw [h.frame]
  have hcode : d'.code = d.code := by rw [h.frame]
  refine ⟨hname, hparams, hflags, ?_⟩
  rw [instructions_close, instructions_close, getD_listed, getD_listed, List.forall₂_map_left_iff,
    List.forall₂_map_right_iff, hcode, List.forall₂_map_left_iff, List.forall₂_map_right_iff,
    List.forall₂_same]
  intro inst hinst
  have hread := d.isReadFrom_replaceAliases inst
  have hread' := d'.isReadFrom_replaceAliases inst
  have hsame : (d'.replaceAliases inst).IsBranch ↔ (d.replaceAliases inst).IsBranch := by
    rw [Instruction.IsBranch, Instruction.IsBranch, hread.opcode, hread'.opcode]
  refine .some ⟨hread'.opcode.trans hread.opcode.symm, ?_, ?_⟩
  · intro hbranch
    rw [hread.operands hbranch, hread'.operands fun h => hbranch (hsame.mp h)]
  · intro hbranch
    rw [hread.targets hbranch, hread'.targets (hsame.mpr hbranch), List.map_map, List.map_map]
    refine List.map_congr_left fun name hmem => ?_
    have hused : name ≠ label := by
      rintro rfl
      exact h.operands inst (List.mem_reverse.mp hinst) hmem
    exact h.boundary?_close hpending hpending' hused stop

end

end Draft

section

variable {label : Bytes} {offset : UInt32} {s s' t : State} {line : Bytes} {ls : List Bytes}

def State.Shadows (label : Bytes) (offset : UInt32) (s s' : State) : Prop :=
  ∃ d d', s.draft = some d ∧ s' = { s with draft := some d' } ∧
    d.Shadows label offset s.addr d'

theorem State.Shadows.next (h : s.Shadows label offset s') (hread : Reads s line t)
    (hopen : closing? line = none) (hfresh : ∀ e ∈ entryOf? line, ¬ e.Uses label) :
    ∃ t', Reads s' line t' ∧ t.Shadows label offset t' := by
  obtain ⟨d, d', hs, rfl, hd⟩ := h
  have hdraft {x : Draft} (hx : s.draft = some x) : d = x := Option.some_inj.mp (hs.symm.trans hx)
  cases hread with
  | blank tokens => exact ⟨_, .blank tokens, d, d', hs, rfl, hd⟩
  | includes outside | opened outside =>
    rw [hs] at outside
    cases outside
  | @label name x inside entry =>
    obtain rfl := hdraft inside
    have hname : name ≠ label := hfresh _ entry
    exact ⟨_, .label rfl entry, _, _, rfl, rfl, hd.addLabel hname⟩
  | @instruction x e op args size inside entry hsize binds =>
    obtain rfl := hdraft inside
    obtain ⟨e', he', hshadows⟩ := hd.bindPending binds (s.addr + size)
    exact ⟨_, .instruction rfl entry hsize he', _, _, rfl, rfl, hshadows.addCode (hfresh _ entry)⟩
  | closed inside closing =>
    rw [hopen] at closing
    cases closing

theorem State.Shadows.close (h : s.Shadows label offset s') (hread : Reads s line t)
    (hclosing : (closing? line).isSome) :
    ∃ fn fn', t = { s with functions := fn :: s.functions, draft := none } ∧
      Reads s' line { s with functions := fn' :: s.functions, draft := none } ∧
      fn.Relabels fn' := by
  obtain ⟨d, d', hs, rfl, hd⟩ := h
  have hdraft {x : Draft} (hx : s.draft = some x) : d = x := Option.some_inj.mp (hs.symm.trans hx)
  have hnone {e : Entry} (he : entryOf? line = some e) : False := by
    rw [closing?_eq_none_of_entryOf? he] at hclosing
    cases hclosing
  cases hread with
  | blank tokens =>
    rw [closing?, tokens] at hclosing
    cases hclosing
  | includes outside | opened outside =>
    rw [hs] at outside
    cases outside
  | label _ entry | instruction _ entry => exact (hnone entry).elim
  | @closed x e inside closing binds =>
    obtain rfl := hdraft inside
    obtain ⟨e', he', hshadows⟩ := hd.bindPending binds s.addr
    have hname : d'.name = d.name := by rw [hd.frame]
    refine ⟨_, _, rfl, .closed rfl (closing.trans (congrArg some hname.symm)) he', ?_⟩
    exact hshadows.relabels_close (hd.isBound.pending_bindPending binds)
      (hd.isBound'.pending_bindPending he') s.addr

/-- The functions read before have no part in what a line does. -/
theorem Reads.functions (h : Reads s line t) :
    ∃ more, t.functions = more ++ s.functions ∧
      ∀ fns, Reads { s with functions := fns } line { t with functions := more ++ fns } := by
  cases h with
  | blank tokens => exact ⟨[], rfl, fun _ => .blank tokens⟩
  | includes outside tokens => exact ⟨[], rfl, fun _ => .includes outside tokens⟩
  | opened outside tokens hp hf => exact ⟨[], rfl, fun _ => .opened outside tokens hp hf⟩
  | label inside entry => exact ⟨[], rfl, fun _ => .label inside entry⟩
  | instruction inside entry hsize binds =>
    exact ⟨[], rfl, fun _ => .instruction inside entry hsize binds⟩
  | closed inside closing binds => exact ⟨[_], rfl, fun _ => .closed inside closing binds⟩

theorem functions_of_readLines (h : readLines s ls = .ok t) :
    ∃ more, t.functions = more ++ s.functions ∧ ∀ fns,
      readLines { s with functions := fns } ls = .ok { t with functions := more ++ fns } := by
  induction ls generalizing s with
  | nil =>
    cases h
    exact ⟨[], rfl, fun _ => rfl⟩
  | cons line ls ih =>
    obtain ⟨u, hu, hrest⟩ := readLines_cons_eq_ok_iff.mp h
    obtain ⟨first, hfirst, hline⟩ := hu.functions
    obtain ⟨more, hmore, hlines⟩ := ih hrest
    refine ⟨more ++ first, by rw [hmore, hfirst, List.append_assoc], ?_⟩
    intro fns
    rw [List.append_assoc]
    exact readLines_cons_eq_ok_iff.mpr ⟨_, hline fns, hlines (first ++ fns)⟩

end

/-- A name that can stand on a line by itself. -/
structure IsPlainName (name : Bytes) : Prop where
  length : name.length ≤ 1000
  bytes : ∀ b ∈ name, b ≠ 0x20 ∧ b ≠ 0x09 ∧ b ≠ 0x0D ∧ b ≠ 0x0A
  quote : ¬ [0x22] <+: name
  comment : ¬ [0x2F, 0x2F] <+: name

instance (name : Bytes) : Decidable (IsPlainName name) :=
  have : Decidable (∀ b ∈ name, b ≠ 0x20 ∧ b ≠ 0x09 ∧ b ≠ 0x0D ∧ b ≠ 0x0A) :=
    List.decidableBAll _ _
  decidable_of_iff (_ ∧ _ ∧ _ ∧ _)
    ⟨fun h => ⟨h.1, h.2.1, h.2.2.1, h.2.2.2⟩, fun h => ⟨h.length, h.bytes, h.quote, h.comment⟩⟩

theorem IsPlainName.isLabelName {name : Bytes} (h : IsPlainName name) (hend : ¬ endMark <+: name) :
    IsLabelName name := by
  refine isLabelName_of_bare ?_ h.quote h.comment hend
  intro b hb
  obtain ⟨hspace, htab, hreturn, hline⟩ := h.bytes b hb
  exact ⟨by simp [isBlank, hspace, htab, hreturn], hline⟩

def untilClosed (ls : List Bytes) : List Bytes := ls.takeWhile fun line => (closing? line).isNone

section

variable {label : Bytes} {offset : UInt32} {s s' t : State} {ls : List Bytes}

theorem untilClosed_cons (line : Bytes) (ls : List Bytes) :
    untilClosed (line :: ls) = if (closing? line).isNone then line :: untilClosed ls else [] := by
  rw [untilClosed, List.takeWhile_cons]
  rfl

/-- Reading on to the end, the function that is open changes in names only and no other does. -/
theorem State.Shadows.readLines (h : s.Shadows label offset s')
    (hread : Listing.readLines s ls = .ok t) (hdone : t.draft = none)
    (hunused : ∀ e ∈ entries (untilClosed ls), ¬ e.Uses label) :
    ∃ fns, Listing.readLines s' ls = .ok { t with functions := fns } ∧
      t.functions.Forall₂ Function.Relabels fns := by
  induction ls generalizing s s' with
  | nil =>
    cases hread
    obtain ⟨d, -, hs, -⟩ := h
    rw [hs] at hdone
    cases hdone
  | cons line ls ih =>
    obtain ⟨u, hu, hrest⟩ := readLines_cons_eq_ok_iff.mp hread
    rw [untilClosed_cons] at hunused
    cases hclosing : closing? line with
    | none =>
      rw [hclosing, Option.isNone_none, if_pos rfl, entries_cons, List.forall_mem_append] at hunused
      obtain ⟨hline, hunused⟩ := hunused
      obtain ⟨u', hu', hshadows⟩ :=
        h.next hu hclosing fun e he => hline e (Option.mem_toList.mpr he)
      obtain ⟨fns, hfns, hrelabels⟩ := ih hshadows hrest hunused
      exact ⟨fns, readLines_cons_eq_ok_iff.mpr ⟨u', hu', hfns⟩, hrelabels⟩
    | some name =>
      obtain ⟨fn, fn', rfl, hclose, hrelabels⟩ := h.close hu (Option.isSome_of_mem hclosing)
      obtain ⟨more, hmore, hlines⟩ := functions_of_readLines hrest
      refine ⟨more ++ fn' :: s.functions, ?_, ?_⟩
      · exact readLines_cons_eq_ok_iff.mpr ⟨_, hclose, hlines _⟩
      · rw [hmore]
        have hrefl (fns : List Function) : fns.Forall₂ Function.Relabels fns :=
          List.forall₂_same.mpr fun fn _ => Function.Relabels.refl fn
        exact List.rel_append (hrefl more) (.cons hrelabels (hrefl s.functions))

end

section

variable {before front : List Bytes} {rest name : Bytes} {m : Module}

theorem lines_insert (hbefore : ∀ line ∈ before, 0x0A ∉ line) (hline : 0x0A ∉ name ++ [0x3A])
    (rest : Bytes) : lines (unlines before ++ (name ++ [0x3A, 0x0A]) ++ rest) =
      before ++ (name ++ [0x3A]) :: lines rest := by
  have htext : unlines before ++ (name ++ [0x3A, 0x0A]) =
      unlines (before ++ [name ++ [0x3A]]) := by
    simp [unlines]
  rw [htext, lines_unlines_append, List.append_assoc]
  · rfl
  · exact List.forall_mem_append.mpr ⟨hbefore, List.forall_mem_singleton.mpr hline⟩

/-- Only the function that is open at the new line changes, and it changes in names only. -/
theorem parse_insert_label (hbefore : ∀ line ∈ before, 0x0A ∉ line)
    (hinside : (outline before).current = some front) (hname : IsPlainName name)
    (hend : ¬ endMark <+: name)
    (hunused : ∀ e ∈ entries (front ++ untilClosed (lines rest)), ¬ e.Uses name)
    (h : parse .builtIn (unlines before ++ rest) = .ok m) :
    ∃ m', parse .builtIn (unlines before ++ (name ++ [0x3A, 0x0A]) ++ rest) = .ok m' ∧
      m.Relabels m' := by
  have hlabel := hname.isLabelName hend
  have hlines := lines_insert hbefore hlabel.1.1 rest
  rw [parse_eq_ok_iff, lines_unlines_append hbefore] at h
  obtain ⟨hlimit, t, ht, hdone, rfl⟩ := h
  obtain ⟨s, hs, hrest⟩ := readLines_append_eq_ok_iff.mp ht
  obtain ⟨d, hd, hfollows⟩ := (tracks_readLines hs).exists_draft hinside
  rw [entries_append, List.forall_mem_append] at hunused
  have hshadows : s.Shadows name s.addr { s with draft := some (d.addLabel name) } :=
    ⟨d, d.addLabel name, hd, rfl, hfollows.shadows hunused.1⟩
  obtain ⟨fns, hfns, hrelabels⟩ := hshadows.readLines hrest hdone hunused.2
  have hdeclared : Reads s (name ++ [0x3A]) { s with draft := some (d.addLabel name) } :=
    .label hd (entryOf?_label hlabel)
  refine ⟨_, parse_eq_ok_iff.mpr ⟨?_, { t with functions := fns }, ?_, hdone, rfl⟩, ?_⟩
  · rw [hlines, List.forall_mem_append, List.forall_mem_cons]
    rw [List.forall_mem_append] at hlimit
    refine ⟨hlimit.1, ?_, hlimit.2⟩
    have hshort := hname.length
    rw [List.length_append, List.length_singleton, lineLimit]
    omega
  · rw [hlines, readLines_append_eq_ok_iff]
    exact ⟨s, hs, readLines_cons_eq_ok_iff.mpr ⟨_, hdeclared, hfns⟩⟩
  · refine ⟨rfl, rfl, rfl, ?_⟩
    rw [State.functions_module, State.functions_module, List.forall₂_map_left_iff,
      List.forall₂_map_right_iff]
    exact (List.rel_reverse hrelabels).imp fun _ _ hfn => .some hfn

/-- A label that its function does not use can be declared anywhere in it. -/
theorem assemble_insert_label (hbefore : ∀ line ∈ before, 0x0A ∉ line)
    (hinside : (outline before).current = some front) (hname : IsPlainName name)
    (hend : ¬ endMark <+: name)
    (hunused : ∀ e ∈ entries (front ++ untilClosed (lines rest)), ¬ e.Uses name)
    (h : parse .builtIn (unlines before ++ rest) = .ok m) {t : OpcodeTable} {flags : UInt8}
    {script : Bytes} {a : Assembled} (ha : assemble t flags { m with name := script } = .ok a) :
    ∃ m', parse .builtIn (unlines before ++ (name ++ [0x3A, 0x0A]) ++ rest) = .ok m' ∧
      assemble t flags { m' with name := script } = .ok a := by
  obtain ⟨m', hm', hrelabels⟩ := parse_insert_label hbefore hinside hname hend hunused h
  refine ⟨m', hm', ?_⟩
  have hsame : Module.Relabels { m with name := script } { m' with name := script } :=
    ⟨rfl, hrelabels.includes, hrelabels.imports, hrelabels.functions⟩
  refine hsame.assemble ?_ ha
  intro fn hfn
  obtain ⟨body, -, kept, hread⟩ := (isReadFrom_of_parse hm').exists_left hfn
  exact hread.bindsLabels

end

def loopHead : List Bytes := [text "sub_run 0 0"]

def loopTail : Bytes := text "again:\n\tJMP again\nend_run\n"

theorem exists_assemble_loop : ∃ m a, parse .builtIn (unlines loopHead ++ loopTail) = .ok m ∧
    assemble .builtIn 0 { m with name := text "m" } = .ok a := by
  obtain ⟨m, hm, hassembles⟩ : ∃ m, parse .builtIn (unlines loopHead ++ loopTail) = .ok m ∧
      (assemble .builtIn 0 { m with name := text "m" }).toOption.any (fun _ => true) = true :=
    Except.exists_of_any (by decide +kernel)
  obtain ⟨a, ha, -⟩ := Except.exists_of_any hassembles
  exact ⟨m, a, hm, ha⟩

/-- A label before another one takes its place, and the branch names it from then on. -/
theorem assemble_insert_label_loop :
    (∀ line ∈ loopHead, 0x0A ∉ line) ∧ (outline loopHead).current = some [] ∧
      IsPlainName (text "first") ∧ ¬ endMark <+: text "first" ∧
      (∀ e ∈ entries ([] ++ untilClosed (lines loopTail)), ¬ e.Uses (text "first")) ∧
      ∃ m m' a, parse .builtIn (unlines loopHead ++ loopTail) = .ok m ∧
        assemble .builtIn 0 { m with name := text "m" } = .ok a ∧
        parse .builtIn (unlines loopHead ++ (text "first" ++ [0x3A, 0x0A]) ++ loopTail) = .ok m' ∧
        assemble .builtIn 0 { m' with name := text "m" } = .ok a := by
  have hhead : ∀ line ∈ loopHead, 0x0A ∉ line := by decide
  have hinside : (outline loopHead).current = some [] := by decide +kernel
  have hname : IsPlainName (text "first") := by decide +kernel
  have hend : ¬ endMark <+: text "first" := by decide
  have hunused : ∀ e ∈ entries ([] ++ untilClosed (lines loopTail)), ¬ e.Uses (text "first") := by
    decide +kernel
  obtain ⟨m, a, hm, ha⟩ := exists_assemble_loop
  obtain ⟨m', hm', ha'⟩ := assemble_insert_label hhead hinside hname hend hunused hm ha
  exact ⟨hhead, hinside, hname, hend, hunused, m, m', a, hm, ha, hm', ha'⟩

/-- A line that starts as the end of a function does is taken for one, whatever follows. -/
theorem not_parse_insert_ending :
    (∀ line ∈ loopHead, 0x0A ∉ line) ∧ (outline loopHead).current = some [] ∧
      IsPlainName (text "end_x") ∧
      (∀ e ∈ entries ([] ++ untilClosed (lines loopTail)), ¬ e.Uses (text "end_x")) ∧
      (∃ m a, parse .builtIn (unlines loopHead ++ loopTail) = .ok m ∧
        assemble .builtIn 0 { m with name := text "m" } = .ok a) ∧
      ∀ m', parse .builtIn (unlines loopHead ++ (text "end_x" ++ [0x3A, 0x0A]) ++ loopTail) ≠
        .ok m' := by
  refine ⟨by decide, by decide +kernel, by decide +kernel, by decide +kernel,
    exists_assemble_loop, ?_⟩
  intro m' hm'
  have hrefused : (parse .builtIn
      (unlines loopHead ++ (text "end_x" ++ [0x3A, 0x0A]) ++ loopTail)).toOption = none := by
    decide +kernel
  rw [Except.toOption_eq_some_iff.mpr hm'] at hrefused
  cases hrefused

end Listing
end ScriptCodec
