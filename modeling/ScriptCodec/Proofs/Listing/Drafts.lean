import ScriptCodec.Proofs.Listing.Binding
import ScriptCodec.Proofs.Listing.Entries

/-!
What a function becomes when its body has been read. While it is open its draft follows the
entries of the body: the instructions stand back to back, and a label is declared for the offset
of the instruction after it. Closing it keeps both, up to the names that are replaced.
-/
namespace ScriptCodec

/-- The instruction of a text, in which the labels of a branch are replaced by those kept. -/
structure Instruction.IsReadFrom (kept : Bytes → Bytes) (source : Opcode × List Bytes)
    (inst : Instruction) : Prop where
  opcode : inst.opcode = source.1
  operands : ¬ inst.IsBranch → inst.args = source.2
  targets : inst.IsBranch → inst.args = source.2.map kept

theorem Instruction.isBranch_iff {inst : Instruction} :
    inst.IsBranch ↔ (inst.opcode.kind?.map OperandKind.isBranch).getD false = true := by
  unfold IsBranch
  cases inst.opcode.kind? with
  | none => simp
  | some kind => simp

namespace Listing

/-- Instructions that stand back to back from one address up to another. -/
inductive Laid : UInt32 → List Instruction → UInt32 → Prop
  | nil (addr : UInt32) : Laid addr [] addr
  | cons {inst : Instruction} {code : List Instruction} {stop : UInt32}
    (size : instructionSize inst.opcode inst.offset inst.args = .ok inst.size)
    (rest : Laid (inst.offset + inst.size) code stop) : Laid inst.offset (inst :: code) stop

/-- A label among the entries of a body, with the offset of the instruction after it out of the
offsets of the instructions and of the end. -/
def LabelledAt (es : List Entry) (offsets : List UInt32) (name : Bytes) (offset : UInt32) : Prop :=
  ∃ front back, es = front ++ .label name :: back ∧
    offsets[(instructions front).length]? = some offset

namespace Laid

variable {start mid stop : UInt32} {code code' : List Instruction}

theorem append (h : Laid start code mid) (h' : Laid mid code' stop) :
    Laid start (code ++ code') stop := by
  induction h with
  | nil => exact h'
  | cons size _ ih => exact .cons size (ih h')

theorem map {f : Instruction → Instruction} (hoffset : ∀ inst, (f inst).offset = inst.offset)
    (hsize : ∀ inst, (f inst).size = inst.size)
    (hmeasure : ∀ inst, instructionSize (f inst).opcode inst.offset (f inst).args =
      instructionSize inst.opcode inst.offset inst.args) (h : Laid start code stop) :
    Laid start (code.map f) stop := by
  induction h with
  | nil => exact .nil _
  | @cons inst code stop size _ ih =>
    rw [List.map_cons, ← hoffset inst]
    refine .cons ?_ ?_
    · rw [hoffset, hsize, hmeasure, size]
    · rwa [hoffset, hsize]

theorem stop_eq (h : Laid start code stop) :
    stop = match code.getLast? with
      | some last => last.offset + last.size
      | none => start := by
  induction h with
  | nil => rfl
  | @cons inst code stop _ _ ih =>
    rw [ih]
    cases code using List.reverseRecOn with
    | nil => rfl
    | append_singleton code last =>
      rw [List.getLast?_concat, ← List.cons_append, List.getLast?_concat]

end Laid

section

variable {es : List Entry} {offsets : List UInt32} {addr : UInt32} {name : Bytes} {offset : UInt32}

theorem labelledAt_append {e : Entry} :
    LabelledAt (es ++ [e]) offsets name offset ↔ LabelledAt es offsets name offset ∨
      e = .label name ∧ offsets[(instructions es).length]? = some offset := by
  constructor
  · rintro ⟨front, back, hsplit, hoffset⟩
    cases back using List.reverseRecOn with
    | nil =>
      obtain ⟨rfl, hlast⟩ := List.append_inj' hsplit rfl
      exact .inr ⟨List.singleton_inj.mp hlast, hoffset⟩
    | append_singleton back last =>
      rw [← List.cons_append, ← List.append_assoc] at hsplit
      obtain ⟨rfl, -⟩ := List.append_inj' hsplit rfl
      exact .inl ⟨front, back, rfl, hoffset⟩
  · rintro (⟨front, back, rfl, hoffset⟩ | ⟨rfl, hoffset⟩)
    · exact ⟨front, back ++ [e], by simp, hoffset⟩
    · exact ⟨es, [], rfl, hoffset⟩

theorem labelledAt_addLabel {label : Bytes} (hlength : (instructions es).length = offsets.length) :
    LabelledAt (es ++ [.label label]) (offsets ++ [addr]) name offset ↔
      LabelledAt es (offsets ++ [addr]) name offset ∨ name = label ∧ offset = addr := by
  rw [labelledAt_append, hlength, List.getElem?_concat_length]
  simp [eq_comm]

theorem labelledAt_addInstruction {op : Opcode} {args : List Bytes} {addr' : UInt32}
    (hlength : (instructions es).length = offsets.length) :
    LabelledAt (es ++ [.instruction op args]) (offsets ++ [addr, addr']) name offset ↔
      LabelledAt es (offsets ++ [addr]) name offset := by
  rw [labelledAt_append]
  simp only [reduceCtorEq, false_and, or_false]
  refine exists_congr fun front => exists_congr fun back => and_congr_right ?_
  rintro rfl
  -- The label stands before the end, so the new last offset is not its own.
  have hfront : (instructions front).length < (offsets ++ [addr]).length := by
    rw [instructions_append, List.length_append] at hlength
    rw [List.length_append, List.length_singleton]
    omega
  rw [List.append_cons offsets addr [addr'], List.getElem?_append_left hfront]

end

def listed (code : List Instruction) : Option (List (Option Instruction)) :=
  if code.isEmpty then none else some (code.map some)

theorem getD_listed (code : List Instruction) : (listed code).getD [] = code.map some := by
  cases code with
  | nil => rfl
  | cons inst code => rfl

theorem code_of_listed {fn : Function} {code : List Instruction}
    (h : fn.instructions = listed code) : fn.code = code := by
  rw [Function.code, h, getD_listed]
  simp

end Listing

structure Function.IsReadFrom (fn : Function) (es : List Listing.Entry) (kept : Bytes → Bytes) :
    Prop where
  code : (Listing.instructions es).Forall₂ (Instruction.IsReadFrom kept) fn.code
  labels : ∃ bound, Labels.Represents fn.labelMap kept bound ∧
    ∀ name offset, (name, offset) ∈ bound ↔ Listing.LabelledAt es fn.boundaryOffsets name offset

structure Function.IsLaid (fn : Function) : Prop where
  laid : Listing.Laid fn.offset fn.code fn.stop
  size : fn.size = fn.stop - fn.offset
  instructions : fn.instructions = Listing.listed fn.code
  operands : ∀ inst ∈ fn.code, inst.operands = some inst.args
  labels : fn.labels = some fn.labelMap

namespace Listing

namespace Draft

/-- The draft of a function whose entries so far are these, at the address reached. -/
structure Follows (d : Draft) (addr : UInt32) (es : List Entry) : Prop where
  isBound : d.IsBound
  laid : Laid d.offset d.code.reverse addr
  code : d.code.reverse.map (fun inst => (inst.opcode, inst.args)) = instructions es
  operands : ∀ inst ∈ d.code, inst.operands = some inst.args
  declares : ∀ {name offset}, d.Declares addr name offset ↔
    LabelledAt es (d.code.reverse.map Instruction.offset ++ [addr]) name offset

theorem follows_opened {addr : UInt32} {params flags : UInt8} {name : Bytes} :
    Follows { offset := addr, params, flags, name } addr [] where
  isBound := ⟨.nil, fun _ _ _ h => absurd h List.not_mem_nil, fun h => absurd h List.not_mem_nil,
    fun _ => rfl, fun h => absurd h List.not_mem_nil⟩
  laid := .nil addr
  code := rfl
  operands := by simp
  declares := by simp [Declares, LabelledAt]

variable {d d' : Draft} {addr : UInt32} {es : List Entry}

theorem Follows.length_instructions (h : d.Follows addr es) :
    (instructions es).length = (d.code.reverse.map Instruction.offset).length := by
  rw [← h.code, List.length_map, List.length_map]

theorem Follows.addLabel (h : d.Follows addr es) (name : Bytes) :
    (d.addLabel name).Follows addr (es ++ [.label name]) where
  isBound := h.isBound
  laid := h.laid
  code := by
    rw [instructions_append]
    exact h.code.trans (List.append_nil _).symm
  operands := h.operands
  declares := by
    intro n o
    change _ ↔ LabelledAt _ (d.code.reverse.map Instruction.offset ++ [addr]) n o
    rw [labelledAt_addLabel h.length_instructions, ← h.declares]
    exact declares_addLabel

theorem Follows.addInstruction (h : d.Follows addr es) {op : Opcode} {args : List Bytes}
    {size : UInt32} (hsize : instructionSize op addr args = .ok size)
    (hd : d.bindPending addr = .ok d') :
    Follows { d' with code := ⟨addr, size, op, some args⟩ :: d'.code } (addr + size)
      (es ++ [.instruction op args]) := by
  have hbinds := h.isBound.bindPending hd
  have hcode : d'.code = d.code := hbinds.code_eq
  have hoffset : d'.offset = d.offset := hbinds.offset_eq
  have hpending := h.isBound.pending_bindPending hd
  refine ⟨hbinds.isBound, ?_, ?_, ?_, ?_⟩
  · rw [hcode, List.reverse_cons]
    change Laid d'.offset _ _
    rw [hoffset]
    have hlast : Laid addr [⟨addr, size, op, some args⟩] (addr + size) :=
      @Laid.cons ⟨addr, size, op, some args⟩ [] _ hsize (.nil _)
    exact h.laid.append hlast
  · rw [hcode, List.reverse_cons, List.map_append, h.code, instructions_append]
    rfl
  · rw [hcode]
    exact List.forall_mem_cons.mpr ⟨rfl, h.operands⟩
  · intro name offset
    simp only [hcode, List.reverse_cons, List.map_append, List.map_singleton, List.append_assoc,
      List.singleton_append]
    rw [labelledAt_addInstruction h.length_instructions, ← h.declares, declares_iff_mem_bound]
    · exact hbinds.mem_bound
    · exact hpending

section

variable (d : Draft) (inst : Instruction)

@[simp] theorem offset_replaceAliases : (d.replaceAliases inst).offset = inst.offset := by
  unfold replaceAliases
  split
  · rfl
  · rfl

@[simp] theorem size_replaceAliases : (d.replaceAliases inst).size = inst.size := by
  unfold replaceAliases
  split
  · rfl
  · rfl

@[simp] theorem opcode_replaceAliases : (d.replaceAliases inst).opcode = inst.opcode := by
  unfold replaceAliases
  split
  · rfl
  · rfl

theorem isReadFrom_replaceAliases :
    (d.replaceAliases inst).IsReadFrom d.keptName (inst.opcode, inst.args) := by
  have hsame : (d.replaceAliases inst).IsBranch ↔ inst.IsBranch := by
    rw [Instruction.IsBranch, Instruction.IsBranch, opcode_replaceAliases]
  refine ⟨d.opcode_replaceAliases inst, ?_, ?_⟩
  · intro hbranch
    rw [hsame, Instruction.isBranch_iff] at hbranch
    rw [replaceAliases, if_neg hbranch]
  · intro hbranch
    rw [hsame, Instruction.isBranch_iff] at hbranch
    rw [replaceAliases, if_pos hbranch, Instruction.args, Instruction.args]
    cases inst.operands with
    | none => rfl
    | some args => rfl

theorem length_args_replaceAliases :
    (d.replaceAliases inst).args.length = inst.args.length := by
  have hread := d.isReadFrom_replaceAliases inst
  by_cases hbranch : (d.replaceAliases inst).IsBranch
  · rw [hread.targets hbranch, List.length_map]
  · rw [hread.operands hbranch]

theorem operands_replaceAliases (h : inst.operands = some inst.args) :
    (d.replaceAliases inst).operands = some (d.replaceAliases inst).args := by
  unfold replaceAliases
  split
  · rw [h]
    rfl
  · exact h

end

theorem instructionSize_replaceAliases (inst : Instruction) :
    instructionSize (d.replaceAliases inst).opcode inst.offset (d.replaceAliases inst).args =
      instructionSize inst.opcode inst.offset inst.args := by
  rw [opcode_replaceAliases]
  unfold instructionSize
  rw [length_args_replaceAliases]

theorem replaceAliases_of_isEmpty (h : d.aliases.isEmpty) (inst : Instruction) :
    d.replaceAliases inst = inst := by
  have hkept : d.keptName = id := by
    funext name
    rw [keptName, List.isEmpty_iff.mp h]
    rfl
  unfold replaceAliases
  split
  · simp [hkept]
  · rfl

/-- A closed function without the distinction of drafts that have no aliases. -/
theorem close_eq (stop : UInt32) :
    d.close stop = {
      offset := d.offset
      size := stop - d.offset
      params := d.params
      flags := d.flags
      name := d.name
      instructions := listed (d.code.reverse.map d.replaceAliases)
      labels := some d.labels } := by
  have hcode : (if d.aliases.isEmpty then d.code.reverse else
      d.code.reverse.map d.replaceAliases) = d.code.reverse.map d.replaceAliases := by
    split
    · rename_i hempty
      rw [List.map_congr_left fun inst _ => replaceAliases_of_isEmpty hempty inst, List.map_id']
    · rfl
  unfold close
  rw [hcode]
  rfl

theorem instructions_close (stop : UInt32) :
    (d.close stop).instructions = listed (d.code.reverse.map d.replaceAliases) := by
  rw [close_eq]

theorem code_close (stop : UInt32) : (d.close stop).code = d.code.reverse.map d.replaceAliases :=
  code_of_listed (d.instructions_close stop)

theorem offsets_close (stop : UInt32) :
    (d.close stop).code.map Instruction.offset = d.code.reverse.map Instruction.offset := by
  rw [code_close, List.map_map]
  exact List.map_congr_left fun inst _ => d.offset_replaceAliases inst

theorem boundaryOffsets_close (stop : UInt32) :
    (d.close stop).boundaryOffsets = d.code.reverse.map Instruction.offset ++
      [match d.code.head? with
        | some last => last.offset + last.size
        | none => d.offset] := by
  have hstop : (d.close stop).stop = match d.code.head? with
      | some last => last.offset + last.size
      | none => d.offset := by
    rw [Function.stop, code_close, List.getLast?_map, List.getLast?_reverse]
    cases d.code.head? with
    | none => rfl
    | some last => simp
  rw [Function.boundaryOffsets, offsets_close, hstop]

theorem Follows.mem_bound (h : d.Follows addr es) (hd : d.bindPending addr = .ok d')
    {name : Bytes} {offset : UInt32} :
    (name, offset) ∈ d'.bound ↔
      LabelledAt es (d.code.reverse.map Instruction.offset ++ [addr]) name offset := by
  rw [(h.isBound.bindPending hd).mem_bound]
  exact h.declares

section

variable (h : d.Follows addr es) (hd : d.bindPending addr = .ok d')

include h hd

theorem Follows.isLaid_close :
    (d'.close addr).IsLaid ∧ (d'.close addr).offset = d.offset ∧ (d'.close addr).stop = addr := by
  have hbinds := h.isBound.bindPending hd
  have hcode : (d'.close addr).code = d.code.reverse.map d'.replaceAliases := by
    rw [code_close, hbinds.code_eq]
  have hoffset : (d'.close addr).offset = d.offset := hbinds.offset_eq
  have hlaid : Laid d.offset (d'.close addr).code addr := by
    rw [hcode]
    exact h.laid.map d'.offset_replaceAliases d'.size_replaceAliases
      fun inst => instructionSize_replaceAliases inst
  have hstop : (d'.close addr).stop = addr := by
    rw [← hoffset] at hlaid
    exact hlaid.stop_eq.symm
  refine ⟨⟨?_, ?_, ?_, ?_, ?_⟩, hoffset, hstop⟩
  · rwa [hoffset, hstop]
  · rw [hstop]
    rfl
  · rw [code_close, instructions_close]
  · rw [hcode]
    intro inst hinst
    obtain ⟨source, hsource, rfl⟩ := List.mem_map.mp hinst
    exact d'.operands_replaceAliases source (h.operands source (List.mem_reverse.mp hsource))
  · rfl

theorem Follows.boundaryOffsets_close :
    (d'.close addr).boundaryOffsets = d.code.reverse.map Instruction.offset ++ [addr] := by
  rw [Function.boundaryOffsets, (h.isLaid_close hd).2.2, offsets_close,
    (h.isBound.bindPending hd).code_eq]

theorem Follows.isReadFrom_close : (d'.close addr).IsReadFrom es d'.keptName := by
  have hbinds := h.isBound.bindPending hd
  refine ⟨?_, d'.bound, hbinds.isBound, ?_⟩
  · rw [code_close, hbinds.code_eq, ← h.code, List.forall₂_map_left_iff, List.forall₂_map_right_iff,
      List.forall₂_same]
    exact fun inst _ => d'.isReadFrom_replaceAliases inst
  · intro name offset
    rw [h.boundaryOffsets_close hd]
    exact h.mem_bound hd

end

end Draft

inductive Stacked : UInt32 → List Function → UInt32 → Prop
  | nil (addr : UInt32) : Stacked addr [] addr
  | cons {fn : Function} {fns : List Function} {stop : UInt32} (laid : fn.IsLaid)
    (rest : Stacked fn.stop fns stop) : Stacked fn.offset (fn :: fns) stop

theorem Stacked.concat {fn : Function} {fns : List Function} {start stop : UInt32}
    (h : Stacked start fns stop) (hfn : fn.IsLaid) (hoffset : fn.offset = stop) :
    Stacked start (fns ++ [fn]) fn.stop := by
  induction h with
  | nil =>
    rw [← hoffset]
    exact .cons hfn (.nil _)
  | cons laid _ ih => exact .cons laid (ih hoffset)

structure State.Tracks (s : State) (o : Outline) : Prop where
  closed : o.closed.Forall₂ (fun body fn => ∃ kept, fn.IsReadFrom (entries body) kept)
    s.functions.reverse
  current : Option.Rel (fun body d => d.Follows s.addr (entries body)) o.current s.draft
  stacked : Stacked 0 s.functions.reverse ((s.draft.map Draft.offset).getD s.addr)

section

variable {s t : State} {o : Outline} {line : Bytes}

theorem closing?_eq_none_of_entryOf? {e : Entry} (h : entryOf? line = some e) :
    closing? line = none := by
  unfold entryOf? at h
  split at h
  · assumption
  · cases h

theorem opens_of_lineTokens? {head : Bytes} {args : List Bytes}
    (h : lineTokens? line = some (head :: args)) : opens line = subMark.isPrefixOf head := by
  rw [opens, h]

theorem Outline.next_outside (ho : o.current = none) (hopens : opens line = false) :
    o.next line = o := by
  rw [next, ho]
  simp [hopens]

theorem Outline.next_inside {body : List Bytes} (ho : o.current = some body)
    (hopen : closing? line = none) : o.next line = { o with current := some (body ++ [line]) } := by
  rw [next, ho]
  simp [hopen]

theorem State.Tracks.outside (h : s.Tracks o) (hs : s.draft = none) : o.current = none := by
  have hcurrent := h.current
  rw [hs] at hcurrent
  generalize o.current = current at hcurrent
  cases hcurrent
  rfl

theorem State.Tracks.inside (h : s.Tracks o) {d : Draft} (hs : s.draft = some d) :
    ∃ body, o.current = some body ∧ d.Follows s.addr (entries body) := by
  have hcurrent := h.current
  rw [hs] at hcurrent
  generalize o.current = current at hcurrent
  cases hcurrent with
  | some hfollows => exact ⟨_, rfl, hfollows⟩

theorem State.Tracks.exists_draft (h : s.Tracks o) {body : List Bytes}
    (ho : o.current = some body) : ∃ d, s.draft = some d ∧ d.Follows s.addr (entries body) := by
  cases hs : s.draft with
  | none =>
    rw [h.outside hs] at ho
    cases ho
  | some d =>
    obtain ⟨body', hbody, hfollows⟩ := h.inside hs
    obtain rfl := Option.some_inj.mp (ho.symm.trans hbody)
    exact ⟨d, rfl, hfollows⟩

theorem State.Tracks.next (h : s.Tracks o) (hread : Reads s line t) : t.Tracks (o.next line) := by
  cases hread with
  | blank tokens =>
    cases hs : s.draft with
    | none =>
      have hopens : opens line = false := by rw [opens, tokens]
      rwa [Outline.next_outside (h.outside hs) hopens]
    | some d =>
      obtain ⟨body, ho, hfollows⟩ := h.inside hs
      have hopen : closing? line = none := by rw [closing?, tokens]
      have hnone : entryOf? line = none := by simp [entryOf?, tokens]
      rw [Outline.next_inside ho hopen]
      refine ⟨h.closed, ?_, h.stacked⟩
      rw [hs]
      refine .some ?_
      rwa [entries_concat, hnone, Option.toList_none, List.append_nil]
  | includes hs tokens =>
    have hopens : opens line = false := by
      rw [opens_of_lineTokens? tokens]
      decide
    rw [Outline.next_outside (h.outside hs) hopens]
    exact ⟨h.closed, h.current, h.stacked⟩
  | @opened name _ _ _ _ hs tokens _ _ =>
    have hopens : opens line = true := by
      rw [opens_of_lineTokens? tokens, List.isPrefixOf_iff_prefix]
      exact List.prefix_append subMark name
    have hstacked := h.stacked
    rw [hs] at hstacked
    rw [Outline.next, h.outside hs]
    simp only [hopens, if_true]
    exact ⟨h.closed, .some Draft.follows_opened, hstacked⟩
  | label hs entry =>
    obtain ⟨body, ho, hfollows⟩ := h.inside hs
    have hstacked := h.stacked
    rw [hs] at hstacked
    rw [Outline.next_inside ho (closing?_eq_none_of_entryOf? entry)]
    refine ⟨h.closed, .some ?_, hstacked⟩
    rw [entries_concat, entry]
    exact hfollows.addLabel _
  | @instruction d d' op args size hs entry hsize binds =>
    obtain ⟨body, ho, hfollows⟩ := h.inside hs
    have hoffset : d'.offset = d.offset := (hfollows.isBound.bindPending binds).offset_eq
    have hstacked := h.stacked
    rw [hs, Option.map_some, ← hoffset] at hstacked
    rw [Outline.next_inside ho (closing?_eq_none_of_entryOf? entry)]
    refine ⟨h.closed, .some ?_, hstacked⟩
    rw [entries_concat, entry]
    exact hfollows.addInstruction hsize binds
  | @closed d d' hs closing binds =>
    obtain ⟨body, ho, hfollows⟩ := h.inside hs
    obtain ⟨hlaid, hoffset, hstop⟩ := hfollows.isLaid_close binds
    have hstacked := h.stacked
    rw [hs, Option.map_some] at hstacked
    have hdone := hstacked.concat hlaid hoffset
    rw [hstop] at hdone
    rw [Outline.next, ho]
    simp only [closing, Option.isSome_some, if_true]
    refine ⟨?_, .none, ?_⟩
    · rw [List.reverse_cons]
      exact List.rel_append h.closed (.cons ⟨_, hfollows.isReadFrom_close binds⟩ .nil)
    · rw [List.reverse_cons]
      exact hdone

theorem State.Tracks.readLines {ls : List Bytes} (h : s.Tracks o)
    (hread : Listing.readLines s ls = .ok t) : t.Tracks (ls.foldl Outline.next o) := by
  induction ls generalizing s o with
  | nil =>
    cases hread
    exact h
  | cons line ls ih =>
    obtain ⟨u, hu, hrest⟩ := readLines_cons_eq_ok_iff.mp hread
    exact ih (h.next hu) hrest

theorem tracks_initial : State.Tracks {} {} := ⟨.nil, .none, .nil 0⟩

theorem tracks_readLines {ls : List Bytes} (h : readLines {} ls = .ok t) : t.Tracks (outline ls) :=
  tracks_initial.readLines h

end

/-- The functions of a module that was read are those of the bodies in the text. -/
theorem isReadFrom_of_parse {text : Bytes} {m : Module} (h : parse .builtIn text = .ok m) :
    (outline (lines text)).closed.Forall₂
      (fun body fn => ∃ kept, fn.IsReadFrom (entries body) kept) m.functionList := by
  obtain ⟨-, t, ht, -, rfl⟩ := parse_eq_ok_iff.mp h
  rw [State.functionList_module]
  exact (tracks_readLines ht).closed

end Listing
end ScriptCodec
