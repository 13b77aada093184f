import ScriptCodec.Listing.Printer
import ScriptCodec.Proofs.Listing.Spelling
import ScriptCodec.Proofs.Operand.Emission

/-!
A listing line by line. What is printed for a module is a list of lines, each closed by a line
feed; no line has one inside when every printed text is a token, so reading finds the same lines.
-/
namespace ScriptCodec

theorem find?_eq_some_of_nodup {α β : Type} [BEq β] [LawfulBEq β] {f : α → β} {xs : List α}
    (h : (xs.map f).Nodup) {a : α} (ha : a ∈ xs) : xs.find? (fun e => f e == f a) = some a := by
  cases hfind : xs.find? fun e => f e == f a with
  | none =>
    rw [List.find?_eq_none] at hfind
    exact absurd (beq_self_eq_true _) (hfind a ha)
  | some e =>
    have hkey : f e = f a := by simpa using List.find?_some hfind
    rw [List.inj_on_of_nodup_map h (List.mem_of_find?_eq_some hfind) ha hkey]

namespace OpcodeTable

variable {op : Opcode} {kind : OperandKind}

theorem name_builtIn (h : op.kind? = some kind) : builtIn.name op = .ok op.display := by
  have hfind := find?_eq_some_of_nodup builtIn.opcodes_nodup (mem_builtIn h)
  rw [name, hfind]

theorem opcode_builtIn (h : op.kind? = some kind) : builtIn.opcode op.display = .ok op := by
  have hfind := find?_eq_some_of_nodup builtIn.names_nodup (mem_builtIn h)
  rw [opcode, hfind]

end OpcodeTable

namespace Listing

theorem afterLead_append (mark s : Bytes) : Text.afterLead mark (mark ++ s) = some s := by
  have hlead : mark.isPrefixOf (mark ++ s) = true :=
    List.isPrefixOf_iff_prefix.mpr (List.prefix_append _ _)
  rw [Text.afterLead, if_pos hlead, List.drop_left]

theorem beforeTrail_append (s trail : Bytes) : Text.beforeTrail trail (s ++ trail) = some s := by
  have htrail : trail.isSuffixOf (s ++ trail) = true :=
    List.isSuffixOf_iff_suffix.mpr (List.suffix_append _ _)
  rw [Text.beforeTrail, if_pos htrail]
  simp

theorem afterLead_eq_some_iff {mark s rest : Bytes} :
    Text.afterLead mark s = some rest ↔ s = mark ++ rest := by
  constructor
  · intro h
    unfold Text.afterLead at h
    split at h
    · rename_i hlead
      obtain ⟨back, rfl⟩ := List.isPrefixOf_iff_prefix.mp hlead
      rw [List.drop_left, Option.some_inj] at h
      rw [h]
    · cases h
  · rintro rfl
    exact afterLead_append mark rest

theorem beforeTrail_eq_some_iff {trail s front : Bytes} :
    Text.beforeTrail trail s = some front ↔ s = front ++ trail := by
  constructor
  · intro h
    unfold Text.beforeTrail at h
    split at h
    · rename_i htrail
      obtain ⟨before, rfl⟩ := List.isSuffixOf_iff_suffix.mp htrail
      rw [List.length_append, Nat.add_sub_cancel, List.take_left, Option.some_inj] at h
      rw [h]
    · cases h
  · rintro rfl
    exact beforeTrail_append front trail

/-- A word that is taken neither for the end of a function nor for a label. -/
def IsMnemonic (s : Bytes) : Prop :=
  IsWord s ∧ Text.afterLead endMark s = none ∧ Text.beforeTrail [0x3A] s = none

instance (s : Bytes) : Decidable (IsMnemonic s) := inferInstanceAs (Decidable (_ ∧ _))

def IsLabelName (name : Bytes) : Prop :=
  IsToken (name ++ [0x3A]) ∧ Text.afterLead endMark (name ++ [0x3A]) = none

theorem not_prefix_colon {mark name : Bytes} (hmark : mark.getLast? ≠ some 0x3A)
    (h : ¬ mark <+: name) : ¬ mark <+: name ++ [0x3A] := by
  rw [List.prefix_concat_iff]
  rintro (rfl | hname)
  · exact hmark (by simp)
  · exact h hname

theorem isLabelName_of_bare {name : Bytes}
    (hbytes : ∀ b ∈ name, isBlank b = false ∧ b ≠ 0x0A) (hquote : ¬ [0x22] <+: name)
    (hcomment : ¬ [0x2F, 0x2F] <+: name) (hend : ¬ endMark <+: name) : IsLabelName name := by
  have hcolon : ∀ b ∈ name ++ [0x3A], isBlank b = false ∧ b ≠ 0x0A :=
    List.forall_mem_append.mpr ⟨hbytes, List.forall_mem_singleton.mpr (by decide)⟩
  refine ⟨isToken_of_bare (by simp) hcolon ?_ ?_, ?_⟩
  · exact not_prefix_colon (by decide) hquote
  · exact not_prefix_colon (by decide) hcomment
  · rw [Text.afterLead, if_neg]
    rw [List.isPrefixOf_iff_prefix]
    exact not_prefix_colon (by decide) hend

theorem isLabelName_of_locMark {name : Bytes} (h : IsToken name) (hloc : locMark <+: name) :
    IsLabelName name := by
  have hother {mark : Bytes} (hle : mark.length ≤ locMark.length) (hmark : ¬ mark <+: locMark) :
      ¬ mark <+: name :=
    fun hlead => hmark (List.prefix_of_prefix_length_le hlead hloc hle)
  have hquote : ¬ [0x22] <+: name := hother (by decide) (by decide)
  refine isLabelName_of_bare ?_ hquote h.shape.not_comment (hother (by decide) (by decide))
  intro b hb
  refine ⟨h.shape.isBlank_eq_false hquote b hb, ?_⟩
  rintro rfl
  exact h.1 hb

theorem isLabelName_nameOf (t : UInt32) : IsLabelName (Labels.nameOf t) :=
  isLabelName_of_locMark (isWord_nameOf t).isToken (List.prefix_append locMark _)

theorem IsLabelName.isToken {name : Bytes} (h : IsLabelName name) (hne : name ≠ []) :
    IsToken name := by
  obtain ⟨htoken, -⟩ := h
  have hquote : ¬ [0x22] <+: name ++ [0x3A] := by
    intro hlead
    have hlast := htoken.shape.getLast?_of_quote hlead
    rw [List.getLast?_concat] at hlast
    exact absurd hlast (by decide)
  have hblank := htoken.shape.isBlank_eq_false hquote
  have hname : name <+: name ++ [0x3A] := List.prefix_append _ _
  refine isToken_of_bare hne ?_ ?_ ?_
  · intro b hb
    have hmem : b ∈ name ++ [0x3A] := List.mem_append_left _ hb
    refine ⟨hblank b hmem, ?_⟩
    rintro rfl
    exact htoken.1 hmem
  · exact fun hlead => hquote (hlead.trans hname)
  · exact fun hlead => htoken.shape.not_comment (hlead.trans hname)

theorem isMnemonic_of_mem : ∀ e ∈ OpcodeTable.builtIn.entries, IsMnemonic e.2 := by decide +kernel

theorem isMnemonic_display {op : Opcode} {kind : OperandKind} (h : op.kind? = some kind) :
    IsMnemonic op.display := by
  have hmem := OpcodeTable.mem_builtIn h
  generalize op.display = name at hmem
  exact isMnemonic_of_mem _ hmem

theorem isMnemonic_of_name {op : Opcode} {name : Bytes}
    (h : OpcodeTable.builtIn.name op = .ok name) : IsMnemonic name := by
  unfold OpcodeTable.name at h
  split at h
  · rename_i e hfind
    rw [← Except.ok.inj h]
    exact isMnemonic_of_mem e (List.mem_of_find?_eq_some hfind)
  · cases h

def unlines (ls : List Bytes) : Bytes := ls.flatMap fun line => line ++ [0x0A]

theorem unlines_append (ls ls' : List Bytes) : unlines (ls ++ ls') = unlines ls ++ unlines ls' :=
  List.flatMap_append

theorem unlines_flatMap {α : Type} (xs : List α) (f : α → List Bytes) :
    unlines (xs.flatMap f) = xs.flatMap fun x => unlines (f x) :=
  List.flatMap_assoc

theorem splitOn_unlines_append {ls : List Bytes} (h : ∀ line ∈ ls, 0x0A ∉ line) (rest : Bytes) :
    Text.splitOn 0x0A (unlines ls ++ rest) = ls ++ Text.splitOn 0x0A rest := by
  induction ls with
  | nil => rfl
  | cons line ls ih =>
    obtain ⟨hline, hls⟩ := List.forall_mem_cons.mp h
    have hplain : ∀ b ∈ line, (b == 0x0A) = false := by
      intro b hb
      rw [beq_eq_false_iff_ne]
      rintro rfl
      exact hline hb
    have hunlines : unlines (line :: ls) ++ rest = line ++ 0x0A :: (unlines ls ++ rest) := by
      simp [unlines]
    rw [hunlines, Text.splitOn, List.splitOnP_append_cons_of_forall_mem hplain _ rfl]
    exact congrArg (line :: ·) (ih hls)

theorem lines_unlines_append {ls : List Bytes} (h : ∀ line ∈ ls, 0x0A ∉ line) (rest : Bytes) :
    lines (unlines ls ++ rest) = ls ++ lines rest := by
  have hne : Text.splitOn 0x0A rest ≠ [] := List.splitOnP_ne_nil _ _
  simp only [lines, splitOn_unlines_append h, List.getLast?_append_of_ne_nil _ hne,
    List.dropLast_append_of_ne_nil hne]
  split
  · rfl
  · rfl

theorem lines_unlines {ls : List Bytes} (h : ∀ line ∈ ls, 0x0A ∉ line) :
    lines (unlines ls) = ls := by
  have hrest := lines_unlines_append h []
  rw [List.append_nil] at hrest
  exact hrest.trans (List.append_nil ls)

theorem not_mem_tokenLine {lead head : Bytes} {args : List Bytes} (hlead : 0x0A ∉ lead)
    (h : ∀ t ∈ head :: args, IsToken t) : 0x0A ∉ tokenLine lead head args := by
  obtain ⟨hhead, hargs⟩ := List.forall_mem_cons.mp h
  rw [tokenLine, List.mem_append, List.mem_append, List.mem_flatMap]
  rintro ((hmem | hmem) | ⟨a, ha, hmem⟩)
  · exact hlead hmem
  · exact hhead.1 hmem
  · exact (hargs a ha).1 ((List.mem_cons.mp hmem).resolve_left (by decide))

def labelLines (labels : Labels) (offset : UInt32) : List Bytes :=
  (labels.nameAt? offset).toList.map fun name => tokenLine [0x09] (name ++ [0x3A]) []

def instructionLines (labels : Labels) (inst : Instruction) : List Bytes :=
  labelLines labels inst.offset ++ [tokenLine [0x09, 0x09] inst.opcode.display inst.args]

def headerLine (fn : Function) : Bytes :=
  tokenLine [] (subMark ++ fn.name) [Text.decimal fn.params.toNat, Text.decimal fn.flags.toNat]

def bodyLines (fn : Function) : List Bytes :=
  fn.code.flatMap (instructionLines fn.labelMap) ++
    if fn.code.isEmpty then [] else labelLines fn.labelMap fn.stop

def functionLines (fn : Function) : List Bytes :=
  headerLine fn :: bodyLines fn ++ [tokenLine [] (endMark ++ fn.name) [], []]

def moduleLines (m : Module) : List Bytes :=
  defaultBanner ++ (m.includeList.map fun path => tokenLine [] includeMark [path]) ++ [[]] ++
    m.functionList.flatMap functionLines

theorem unlines_labelLines (labels : Labels) (offset : UInt32) :
    unlines (labelLines labels offset) = labelLine labels offset := by
  rw [labelLines, labelLine]
  cases labels.nameAt? offset with
  | none => rfl
  | some name => simp [unlines, tokenLine]

section

variable {fn : Function} (hops : ∀ inst ∈ fn.code, ∃ kind, inst.opcode.kind? = some kind)

include hops

theorem printInstruction_eq {inst : Instruction} (hinst : inst ∈ fn.code) :
    printInstruction .builtIn fn inst = .ok (unlines (instructionLines fn.labelMap inst)) := by
  obtain ⟨kind, hkind⟩ := hops inst hinst
  rw [printInstruction, OpcodeTable.name_builtIn hkind, instructionLines, unlines_append,
    unlines_labelLines]
  simp [unlines, tokenLine, instructionText]

theorem printFunction_eq : printFunction .builtIn fn = .ok (unlines (functionLines fn)) := by
  have hbody : fn.code.mapM (printInstruction .builtIn fn) =
      .ok (fn.code.map fun inst => unlines (instructionLines fn.labelMap inst)) := by
    rw [List.mapM_eq_ok_iff, List.forall₂_map_right_iff, List.forall₂_same]
    exact fun inst hinst => printInstruction_eq hops hinst
  have hend : unlines (if fn.code.isEmpty then [] else labelLines fn.labelMap fn.stop) =
      if fn.code.isEmpty then [] else labelLine fn.labelMap fn.stop := by
    split
    · rfl
    · exact unlines_labelLines _ _
  have hlines : unlines (functionLines fn) = unlines [headerLine fn] ++
      (fn.code.flatMap fun inst => unlines (instructionLines fn.labelMap inst)) ++
      (if fn.code.isEmpty then [] else labelLine fn.labelMap fn.stop) ++
      unlines [tokenLine [] (endMark ++ fn.name) [], []] := by
    rw [functionLines, bodyLines, unlines_append, ← List.singleton_append, unlines_append,
      unlines_append, unlines_flatMap, hend]
    simp only [List.append_assoc]
  rw [printFunction, hbody, hlines]
  simp [Except.map, List.flatMap_def, unlines, headerLine, tokenLine, subMark, endMark]

end

theorem print_eq {m : Module}
    (hops : ∀ fn ∈ m.functionList, ∀ inst ∈ fn.code, ∃ kind, inst.opcode.kind? = some kind) :
    print .builtIn none m = .ok (unlines (moduleLines m)) := by
  have hfns : m.functionList.mapM (printFunction .builtIn) =
      .ok (m.functionList.map fun fn => unlines (functionLines fn)) := by
    rw [List.mapM_eq_ok_iff, List.forall₂_map_right_iff, List.forall₂_same]
    exact fun fn hfn => printFunction_eq (hops fn hfn)
  have hbanner : defaultBanner.flatMap bannerLine = unlines defaultBanner := by decide +kernel
  have hmark : text "#include " = includeMark ++ [0x20] := by decide
  rw [print, hfns, moduleLines, unlines_append, unlines_append, unlines_append, unlines_flatMap]
  simp [Except.map, hbanner, hmark, List.flatMap_def, unlines, tokenLine, Function.comp_def]

def readLines (s : State) (ls : List Bytes) : Except LineFault State :=
  ls.foldlM (fun s line => parseLine .builtIn s (dropReturn line)) s

theorem readLines_append {s t : State} {ls : List Bytes} (h : readLines s ls = .ok t)
    (ls' : List Bytes) : readLines s (ls ++ ls') = readLines t ls' := by
  rw [readLines, List.foldlM_append]
  change (readLines s ls >>= fun t => readLines t ls') = _
  rw [h]
  rfl

theorem readLines_cons {s t : State} {line : Bytes}
    (h : parseLine .builtIn s (dropReturn line) = .ok t) (ls : List Bytes) :
    readLines s (line :: ls) = readLines t ls := by
  rw [readLines, List.foldlM_cons, h]
  rfl

def State.module (s : State) : Module where
  name := []
  includes := if s.includes.isEmpty then none else some s.includes.reverse
  functions := if s.functions.isEmpty then none else some (s.functions.reverse.map some)
  imports := none

namespace State

theorem includeList_module (s : State) : s.module.includeList = s.includes.reverse := by
  unfold State.module Module.includeList
  cases s.includes with
  | nil => rfl
  | cons path paths => rfl

theorem functions_module (s : State) :
    s.module.functions.getD [] = s.functions.reverse.map some := by
  unfold State.module
  cases s.functions with
  | nil => rfl
  | cons fn fns => rfl

theorem functionList_module (s : State) : s.module.functionList = s.functions.reverse := by
  rw [Module.functionList, functions_module, List.filterMap_map]
  exact List.filterMap_some

end State

theorem parseLines_of_readLines {s t : State} {ls : List Bytes} (h : readLines s ls = .ok t)
    (hlimit : ∀ line ∈ ls, line.length + 1 ≤ lineLimit) (hclosed : t.draft = none) (number : Nat) :
    parseLines .builtIn number s ls = .ok t.module := by
  induction ls generalizing s number with
  | nil =>
    obtain rfl : s = t := by simpa [readLines, pure, Except.pure] using h
    rw [parseLines, hclosed]
    rfl
  | cons line ls ih =>
    obtain ⟨hline, hls⟩ := List.forall_mem_cons.mp hlimit
    rw [readLines, List.foldlM_cons, Except.andThen_eq_ok_iff] at h
    obtain ⟨next, hnext, hrest⟩ := h
    rw [parseLines, if_neg (by omega), hnext]
    exact ih hrest hls (number + 1)

end Listing
end ScriptCodec
