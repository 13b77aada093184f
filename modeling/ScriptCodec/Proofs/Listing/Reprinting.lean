import Mathlib.Data.List.Sort
import ScriptCodec.Proofs.Listing.LabelMeaning
import ScriptCodec.Proofs.Listing.Legibility

/-!
Printing a module that was read and reading it again. Below `2 ^ 32` the offsets given while
reading ascend, so every label is printed before the instruction whose offset it has, and laying
the functions out anew from address zero gives the offsets they have.
-/
namespace ScriptCodec

namespace OperandKind

theorem afterAligned_le {n : Nat} (hn : n = 2 ∨ n = 4) (width pos : Nat) :
    afterAligned n width pos ≤ pos + (n - 1) + width := by
  unfold afterAligned Word.padding
  rcases hn with rfl | rfl
  · omega
  · omega

theorem localsStop_le (count pos : Nat) :
    (List.range count).foldl (fun pos _ => afterAligned 2 2 pos) pos ≤ pos + 3 * count := by
  induction count with
  | zero => exact Nat.le_refl pos
  | succ count ih =>
    rw [List.range_succ, List.foldl_append]
    have hlast := afterAligned_le (.inl rfl) 2
      ((List.range count).foldl (fun pos _ => afterAligned 2 2 pos) pos)
    simp only [List.foldl_cons, List.foldl_nil]
    omega

theorem stop_le (kind : OperandKind) (count pos : Nat) :
    kind.stop count pos ≤ pos + 4 * count + 16 := by
  cases kind with
  | none | byte => simp only [stop]; omega
  | short | string | field | jump =>
    have h := afterAligned_le (.inl rfl) 2 pos
    simp only [stop]
    omega
  | integer | float | animation | hash | function | longJump =>
    have h := afterAligned_le (.inr rfl) 4 pos
    simp only [stop]
    omega
  | vector =>
    have h := afterAligned_le (.inr rfl) 12 pos
    simp only [stop]
    omega
  | call =>
    have h := afterAligned_le (.inr rfl) 4 (pos + 1)
    simp only [stop]
    omega
  | locals =>
    have h := localsStop_le count (pos + 1)
    simp only [stop]
    omega
  | cases =>
    have h := afterAligned_le (.inr rfl) 4 pos
    simp only [stop]
    omega

end OperandKind

theorem exists_kind_of_instructionSize {op : Opcode} {addr size : UInt32} {args : List Bytes}
    (h : instructionSize op addr args = .ok size) : ∃ kind, op.kind? = some kind := by
  cases hkind : op.kind? with
  | none =>
    unfold instructionSize at h
    split at h
    · cases h
    · rename_i hsome
      rw [hkind] at hsome
      cases hsome
  | some kind => exact ⟨kind, rfl⟩

theorem instructionSize_pos {op : Opcode} {addr size : UInt32} {args : List Bytes}
    (h : instructionSize op addr args = .ok size) (hargs : args.length ≤ Listing.lineLimit) :
    0 < size.toNat := by
  obtain ⟨kind, hkind⟩ := exists_kind_of_instructionSize h
  rw [instructionSize_eq hkind] at h
  split at h
  · cases h
  · have hlow := kind.le_stop args.length (addr.toNat + 1)
    have hhigh := kind.stop_le args.length (addr.toNat + 1)
    have haddr := addr.toNat_lt
    rw [Listing.lineLimit] at hargs
    rw [← Except.ok.inj h, UInt32.toNat_ofNat', Nat.mod_eq_of_lt]
    · omega
    · omega

def Instruction.placed (inst : Instruction) : Placed := ⟨inst, inst.offset, inst.size⟩

def laidLength (code : List Instruction) : Nat := (code.map fun inst => inst.size.toNat).sum

namespace Listing.Laid

variable {start stop : UInt32} {code : List Instruction}

theorem size_eq (h : Laid start code stop) :
    ∀ inst ∈ code, instructionSize inst.opcode inst.offset inst.args = .ok inst.size := by
  induction h with
  | nil => simp
  | cons size _ ih => exact List.forall_mem_cons.mpr ⟨size, ih⟩

theorem places (h : Laid start code stop) :
    Layout.Places start code (code.map Instruction.placed) stop := by
  induction h with
  | nil => exact .nil _
  | cons size _ ih => exact .cons size ih

theorem ascends (h : Laid start code stop) (hpos : ∀ inst ∈ code, 0 < inst.size.toNat)
    (hfit : start.toNat + laidLength code < 2 ^ 32) :
    (code.map Instruction.offset ++ [stop]).Pairwise (· < ·) ∧
      stop.toNat = start.toNat + laidLength code ∧
      ∀ a ∈ code.map Instruction.offset ++ [stop], start.toNat ≤ a.toNat := by
  induction h with
  | nil addr => exact ⟨List.pairwise_singleton _ _, rfl, by simp⟩
  | @cons inst code stop size _ ih =>
    obtain ⟨hinst, hpos⟩ := List.forall_mem_cons.mp hpos
    have hlength : laidLength (inst :: code) = inst.size.toNat + laidLength code := by
      simp [laidLength]
    have hnext : (inst.offset + inst.size).toNat = inst.offset.toNat + inst.size.toNat := by
      rw [UInt32.toNat_add, Nat.mod_eq_of_lt (by omega)]
    obtain ⟨hascends, hstop, hfrom⟩ := ih hpos (by omega)
    refine ⟨List.pairwise_cons.mpr ⟨?_, hascends⟩, by omega, ?_⟩
    · intro a ha
      have hle := hfrom a ha
      exact UInt32.lt_iff_toNat_lt.mpr (show inst.offset.toNat < a.toNat by omega)
    · refine List.forall_mem_cons.mpr ⟨Nat.le_refl _, ?_⟩
      intro a ha
      have hle := hfrom a ha
      exact (show inst.offset.toNat ≤ a.toNat by omega)

end Listing.Laid

theorem Labels.moved_self {labels : Labels} (h : labels.Ascends)
    (hnames : (labels.map Prod.snd).Nodup) {offsets : List UInt32}
    (hoffsets : offsets.Pairwise (· < ·)) (hmem : ∀ e ∈ labels, e.1 ∈ offsets) :
    labels.moved (offsets.zip offsets) = labels := by
  have hmoved : (labels.moved (offsets.zip offsets)).Ascends :=
    (separate_moved hnames rfl hoffsets hoffsets).imp And.left
  have hirrefl : Std.Irrefl fun a b : UInt32 × Bytes => a.1 < b.1 :=
    ⟨fun a => UInt32.lt_irrefl a.1⟩
  have hantisymm : Std.Antisymm fun a b : UInt32 × Bytes => a.1 < b.1 :=
    ⟨fun a b hab hba => absurd (UInt32.lt_trans hab hba) (UInt32.lt_irrefl a.1)⟩
  refine List.Pairwise.eq_of_mem_iff hmoved h ?_
  rintro ⟨offset, name⟩
  rw [mem_moved]
  constructor
  · rintro ⟨offset', hzip, hname⟩
    obtain ⟨k, hk, hk'⟩ := mem_zip_iff.mp hzip
    obtain rfl := Option.some_inj.mp (hk.symm.trans hk')
    exact mem_of_nameAt? hname
  · intro hlabel
    obtain ⟨k, hk⟩ := List.mem_iff_getElem?.mp (hmem _ hlabel)
    exact ⟨offset, mem_zip_iff.mpr ⟨k, hk, hk⟩, (nameAt?_eq_some_iff h).mpr hlabel⟩

/-- The function as its listing shows it: without instructions it has no labels. -/
def Function.shown (fn : Function) : Function :=
  if fn.code.isEmpty then { fn with labels := some [] } else fn

def Module.shown (m : Module) : Module :=
  { m with functions := m.functions.map fun fns => fns.map fun fn => fn.map Function.shown }

def Module.laidLength (m : Module) : Nat :=
  (m.functionList.map fun fn => ScriptCodec.laidLength fn.code).sum

namespace Function

variable {fn : Function}

@[simp] theorem code_shown : fn.shown.code = fn.code := by
  unfold shown
  split
  · rfl
  · rfl

@[simp] theorem offset_shown : fn.shown.offset = fn.offset := by
  unfold shown
  split
  · rfl
  · rfl

@[simp] theorem stop_shown : fn.shown.stop = fn.stop := by
  unfold shown
  split
  · rfl
  · rfl

@[simp] theorem boundaryOffsets_shown : fn.shown.boundaryOffsets = fn.boundaryOffsets := by
  unfold shown
  split
  · rfl
  · rfl

theorem functionLines_shown : Listing.functionLines fn.shown = Listing.functionLines fn := by
  unfold shown
  split
  · rename_i hempty
    have hcode := List.isEmpty_iff.mp hempty
    have hbody (g : Function) (hg : g.code = []) : Listing.bodyLines g = [] := by
      rw [Listing.bodyLines, hg]
      rfl
    have hshown : Listing.bodyLines { fn with labels := some [] } = [] := hbody _ hcode
    rw [Listing.functionLines, Listing.functionLines, hbody fn hcode, hshown]
    rfl
  · rfl

structure IsReadable (fn : Function) : Prop where
  laid : fn.IsLaid
  name : ∀ b ∈ fn.name, Listing.isBlank b = false ∧ b ≠ 0x0A
  args : ∀ inst ∈ fn.code, ∀ a ∈ inst.args, Listing.IsToken a
  short : ∀ inst ∈ fn.code, inst.args.length ≤ Listing.lineLimit
  labels : fn.labelMap.Ascends
  names : (fn.labelMap.map Prod.snd).Nodup
  declared : ∀ e ∈ fn.labelMap, Listing.IsLabelName e.2
  offsets : ∀ e ∈ fn.labelMap, e.1 ∈ fn.boundaryOffsets

theorem IsReadable.size_pos (h : fn.IsReadable) : ∀ inst ∈ fn.code, 0 < inst.size.toNat :=
  fun inst hinst => instructionSize_pos (h.laid.laid.size_eq inst hinst) (h.short inst hinst)

theorem IsReadable.shown (h : fn.IsReadable) : fn.shown.IsReadable := by
  unfold Function.shown
  split
  · obtain ⟨⟨laid, size, instructions, operands, -⟩, name, args, short, -⟩ := h
    exact ⟨⟨laid, size, instructions, operands, rfl⟩, name, args, short, .nil, .nil, nofun, nofun⟩
  · exact h

theorem labelMap_shown (h : fn.code = []) : fn.shown.labelMap = [] := by
  unfold Function.shown
  rw [if_pos (List.isEmpty_iff.mpr h)]
  rfl

theorem IsReadable.isListed (h : fn.IsReadable) (hascends : fn.boundaryOffsets.Pairwise (· < ·))
    (hunused : fn.code = [] → fn.labelMap = []) : fn.IsListed where
  name := h.name
  code inst hinst :=
    ⟨exists_kind_of_instructionSize (h.laid.laid.size_eq inst hinst), h.args inst hinst⟩
  ascends := hascends
  labels := h.labels
  names := h.names
  declared := h.declared
  unused := hunused

theorem map_addr_placed (fn : Function) :
    (fn.code.map Instruction.placed).map Placed.addr ++ [fn.stop] = fn.boundaryOffsets := by
  rw [List.map_map, boundaryOffsets]
  rfl

/-- A function that was read comes back when it is laid out from its own offset. -/
theorem IsReadable.relaid_self (h : fn.IsReadable)
    (hascends : fn.boundaryOffsets.Pairwise (· < ·)) :
    fn.relaid fn.offset (fn.code.map Instruction.placed) fn.stop = fn := by
  have hrelaid : ∀ inst ∈ fn.code, some inst.placed.relaid = some inst := by
    intro inst hinst
    rw [Instruction.placed, Placed.relaid, ← h.laid.operands inst hinst]
  have hinstructions : (if (fn.code.map Instruction.placed).isEmpty then none else
      some ((fn.code.map Instruction.placed).map fun x => some x.relaid)) = fn.instructions := by
    rw [h.laid.instructions, Listing.listed, List.isEmpty_map, List.map_map]
    exact congrArg _ (congrArg some (List.map_congr_left hrelaid))
  have hlabels := Labels.moved_self h.labels h.names hascends h.offsets
  rw [relaid, map_addr_placed, hlabels, hinstructions, ← h.laid.size, ← h.laid.labels]

end Function

namespace Listing

theorem Stacked.relaid {start stop : UInt32} {fns : List Function} (h : Stacked start fns stop)
    (hfns : ∀ fn ∈ fns, fn.IsReadable)
    (hfit : start.toNat + (fns.map fun fn => laidLength fn.code).sum < 2 ^ 32) :
    Relaid start (fns.map Function.shown) (fns.map Function.shown) stop ∧
      ∀ fn ∈ fns, fn.boundaryOffsets.Pairwise (· < ·) := by
  induction h with
  | nil => exact ⟨.nil _, by simp⟩
  | @cons fn fns stop laid _ ih =>
    obtain ⟨hfn, hfns⟩ := List.forall_mem_cons.mp hfns
    rw [List.map_cons, List.sum_cons] at hfit
    obtain ⟨hascends, hstop, -⟩ := laid.laid.ascends hfn.size_pos (by omega)
    obtain ⟨hrelaid, hrest⟩ := ih hfns (by omega)
    refine ⟨?_, List.forall_mem_cons.mpr ⟨hascends, hrest⟩⟩
    have hshown : fn.shown.boundaryOffsets.Pairwise (· < ·) := by
      rwa [Function.boundaryOffsets_shown]
    have hself := hfn.shown.relaid_self hshown
    rw [Function.offset_shown, Function.stop_shown] at hself
    have hplaces := hfn.shown.laid.laid.places
    rw [Function.offset_shown, Function.stop_shown] at hplaces
    have haddrs := fn.shown.map_addr_placed
    rw [Function.stop_shown] at haddrs
    have hhead := Relaid.cons hplaces (haddrs ▸ hshown) hrelaid
    rwa [hself] at hhead

end Listing

namespace Module

variable {m : Module}

theorem functionList_shown (m : Module) :
    m.shown.functionList = m.functionList.map Function.shown := by
  unfold functionList Module.shown
  cases m.functions with
  | none => rfl
  | some fns =>
    change (fns.map _).filterMap id = (fns.filterMap id).map Function.shown
    rw [List.filterMap_map, List.map_filterMap]
    rfl

theorem moduleLines_shown (m : Module) : Listing.moduleLines m.shown = Listing.moduleLines m := by
  rw [Listing.moduleLines, Listing.moduleLines, functionList_shown, List.flatMap_map]
  simp only [Function.functionLines_shown]
  rfl

end Module

namespace Listing

theorem State.shown_module (s : State) :
    s.module.shown = State.module { s with functions := s.functions.map Function.shown } := by
  unfold State.module Module.shown
  cases s.functions with
  | nil => rfl
  | cons fn fns => simp

theorem Stacked.isLaid {start stop : UInt32} {fns : List Function} (h : Stacked start fns stop) :
    ∀ fn ∈ fns, fn.IsLaid := by
  induction h with
  | nil => simp
  | cons laid _ ih => exact List.forall_mem_cons.mpr ⟨laid, ih⟩

section

variable {source : Bytes} {m : Module} {t : State}

theorem isLegible_of_readLines (h : readLines {} (lines source) = .ok t) : t.IsLegible := by
  have hnothing : State.IsLegible {} := ⟨nofun, nofun, nofun⟩
  exact hnothing.readLines tracks_initial h fun line hline => not_mem_of_mem_lines hline

theorem isReadable_of_readLines (h : readLines {} (lines source) = .ok t)
    (hlimit : ∀ line ∈ lines source, line.length + 1 ≤ lineLimit)
    (hnames : ∀ fn ∈ t.functions.reverse, ∀ e ∈ fn.labelMap, e.2 ≠ []) :
    ∀ fn ∈ t.functions.reverse, fn.IsReadable := by
  have htracks := tracks_readLines h
  intro fn hfn
  obtain ⟨body, hbody, kept, hread⟩ := htracks.closed.exists_left hfn
  obtain ⟨bound, hlabels, -⟩ := hread.labels
  have hlines : ∀ line ∈ body, 0x0A ∉ line ∧ line.length ≤ lineLimit := by
    intro line hline
    have hmem := mem_of_mem_outline hbody line hline
    exact ⟨not_mem_of_mem_lines hmem, Nat.le_of_succ_le (hlimit line hmem)⟩
  have hplain : ∀ line ∈ body, 0x0A ∉ line := fun line hline => (hlines line hline).1
  exact {
    laid := htracks.stacked.isLaid fn hfn
    name := (isLegible_of_readLines h).functions fn (List.mem_reverse.mp hfn)
    args := hread.isToken_args hplain (hnames fn hfn)
    short := hread.length_args_le fun line hline => (hlines line hline).2
    labels := hlabels.ascends
    names := hlabels.nodup
    declared := hread.isLabelName hplain
    offsets := fun e he => hread.offset_mem he }

theorem isListed_of_readLines (h : readLines {} (lines source) = .ok t)
    (hreadable : ∀ fn ∈ t.functions.reverse, fn.IsReadable)
    (hascends : ∀ fn ∈ t.functions.reverse, fn.boundaryOffsets.Pairwise (· < ·)) :
    t.module.shown.IsListed := by
  have hincludes : t.module.shown.includeList = t.includes.reverse := t.includeList_module
  refine ⟨?_, ?_⟩
  · rw [hincludes]
    exact fun path hpath =>
      (isLegible_of_readLines h).includes path (List.mem_reverse.mp hpath)
  · rw [Module.functionList_shown, State.functionList_module]
    intro g hg
    obtain ⟨fn, hfn, rfl⟩ := List.mem_map.mp hg
    refine (hreadable fn hfn).shown.isListed ?_ ?_
    · rw [Function.boundaryOffsets_shown]
      exact hascends fn hfn
    · rw [Function.code_shown]
      exact Function.labelMap_shown

/-- A module that was read is read again from its listing. -/
theorem parse_print_of_parse (h : parse .builtIn source = .ok m)
    (hnames : ∀ fn ∈ m.functionList, ∀ e ∈ fn.labelMap, e.2 ≠ [])
    (hsize : m.laidLength < 2 ^ 32) :
    ∃ printed, print .builtIn none m = .ok printed ∧
      ((∀ line ∈ lines printed, line.length + 1 ≤ lineLimit) →
        parse .builtIn printed = .ok m.shown) := by
  obtain ⟨hlimit, t, ht, hdone, rfl⟩ := parse_eq_ok_iff.mp h
  rw [Module.laidLength] at hsize
  rw [State.functionList_module] at hsize hnames
  have hreadable := isReadable_of_readLines ht hlimit hnames
  have hstacked := (tracks_readLines ht).stacked
  obtain ⟨hrelaid, hascends⟩ := hstacked.relaid hreadable (by simpa using hsize)
  have hfns : t.module.shown.functionList = t.functions.reverse.map Function.shown := by
    rw [Module.functionList_shown, State.functionList_module]
  have hincludes : t.module.shown.includeList = t.includes.reverse := t.includeList_module
  have hlisted := isListed_of_readLines ht hreadable hascends
  have hprint : print .builtIn none t.module = .ok (unlines (moduleLines t.module)) := by
    refine print_eq fun fn hfn inst hinst => ?_
    rw [State.functionList_module] at hfn
    exact exists_kind_of_instructionSize ((hreadable fn hfn).laid.laid.size_eq inst hinst)
  refine ⟨_, hprint, ?_⟩
  rw [← Module.moduleLines_shown]
  intro hprinted
  rw [← hfns] at hrelaid
  rw [parse_unlines hlisted hrelaid hprinted, hincludes, hfns, State.shown_module,
    List.reverse_reverse, ← List.map_reverse, List.reverse_reverse]
  rfl

end

def mixedListing : Bytes :=
  text "#include common\nsub_run 1 2\n\tJMP b\na:\nb:\n" ++
    text "\tGET_STRING \"// a b\" // a string\nend_run\n" ++
    text "sub_none 0 0\nunused:\nend_none"

theorem parse_print_of_parse_mixedListing :
    ∃ m printed, parse .builtIn mixedListing = .ok m ∧
      (∀ fn ∈ m.functionList, ∀ e ∈ fn.labelMap, e.2 ≠ []) ∧ m.laidLength < 2 ^ 32 ∧
      print .builtIn none m = .ok printed ∧
      (∀ line ∈ lines printed, line.length + 1 ≤ lineLimit) ∧
      parse .builtIn printed = .ok m.shown ∧ m.shown ≠ m := by
  obtain ⟨m, hm, hrest⟩ : ∃ m, parse .builtIn mixedListing = .ok m ∧
      (decide (∀ fn ∈ m.functionList, ∀ e ∈ fn.labelMap, e.2 ≠ []) &&
        decide (m.laidLength < 2 ^ 32) && decide (m.shown ≠ m) &&
        (print .builtIn none m).toOption.all fun printed =>
          (lines printed).all fun line => decide (line.length + 1 ≤ lineLimit)) = true :=
    Except.exists_of_any (by decide +kernel)
  simp only [Bool.and_eq_true, decide_eq_true_eq] at hrest
  obtain ⟨⟨⟨hnames, hsize⟩, hchanged⟩, hlimit⟩ := hrest
  obtain ⟨printed, hprint, hparse⟩ := parse_print_of_parse hm hnames hsize
  rw [Except.toOption_eq_some_iff.mpr hprint] at hlimit
  have hlines : ∀ line ∈ lines printed, line.length + 1 ≤ lineLimit :=
    fun line hline => of_decide_eq_true (List.all_eq_true.mp hlimit line hline)
  exact ⟨m, printed, hm, hnames, hsize, hprint, hlines, hparse hlines, hchanged⟩

end Listing

end ScriptCodec
