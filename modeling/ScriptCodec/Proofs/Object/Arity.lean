import ScriptCodec.Proofs.Object.Consistency
import ScriptCodec.Proofs.Object.Relabelling

/-!
How many operands an instruction may have. Every kind takes the operands it encodes and refuses
any other number of them, but for string literals: these are looked up by their index, so what
stands behind the first operand is never looked at. A module that assembles assembles to the same
file without such operands.
-/
namespace ScriptCodec

/-- The numbers of operands that an instruction with operands of a kind encodes. -/
def OperandKind.Takes (kind : OperandKind) (count : Nat) : Prop :=
  match kind with
  | .none => count = 0
  | .byte | .short | .integer | .float | .hash | .string | .field | .jump | .longJump => count = 1
  | .animation => count = 2
  | .vector => count = 3
  | .call | .function => count = 1 ∨ count = 2
  | .locals => count ≤ 255
  | .cases => count % 2 = 0

namespace Instruction

/-- A string literal with operands behind it. -/
def HasSurplus (inst : Instruction) : Prop :=
  inst.opcode.kind? = some .string ∧ 1 < inst.args.length

/-- Of the steps that every instruction goes through, one fails on this instruction with a bad
operand, wherever it stands. -/
def IsRefused (inst : Instruction) (kind : OperandKind) : Prop :=
  (∃ e, Mention.ofInstruction .builtIn inst = .error e ∧ e.categories = [.badOperand]) ∨
  (∀ addr, ∃ e, instructionSize inst.opcode addr inst.args = .error e ∧
    e.categories = [.badOperand]) ∨
  ∀ ctx lay start dev, ∃ e, Code.operandBytes ctx lay inst.opcode kind start dev inst.args =
    .error e ∧ e.categories = [.badOperand]

end Instruction

namespace Operand

variable {args : List Bytes}

theorem single_of_length_ne (h : args.length ≠ 1) :
    single args = .error (.wantCount 1 args.length) := by
  unfold single
  split
  · exact absurd rfl h
  · rfl

theorem unsigned_of_length_ne (h : args.length ≠ 1) (base : Nat) (bits : Int) :
    unsigned base bits args = .error (.wantCount 1 args.length) := by
  rw [unsigned, single_of_length_ne h]
  rfl

theorem animation_of_length_ne (h : args.length ≠ 2) :
    animation args = .error (.wantCount 2 args.length) := by
  unfold animation
  split
  · exact absurd rfl h
  · rfl

theorem callee_of_length_ne (h : ¬ (args.length = 1 ∨ args.length = 2)) :
    callee args = .error (.callee args.length) := by
  unfold callee
  split
  · exact absurd (.inl rfl) h
  · exact absurd (.inr rfl) h
  · rfl

end Operand

section Refusal

variable {inst : Instruction} {kind : OperandKind}

theorem Instruction.isRefused_mention {fault : OperandFault}
    (h : Mention.ofInstruction .builtIn inst = .error ⟨[], .operand fault⟩) :
    inst.IsRefused kind :=
  .inl ⟨_, h, rfl⟩

theorem Instruction.isRefused_emission {fault : OperandFault}
    (h : ∀ ctx lay start dev, Code.operandBytes ctx lay inst.opcode kind start dev inst.args =
      .error ⟨[], .operand fault⟩) : inst.IsRefused kind :=
  .inr (.inr fun ctx lay start dev => ⟨_, h ctx lay start dev, rfl⟩)

theorem Instruction.isRefused_of_not_takes (hkind : inst.opcode.kind? = some kind)
    (htakes : ¬ kind.Takes inst.args.length) (hsurplus : ¬ inst.HasSurplus) :
    inst.IsRefused kind := by
  have hknown : OpcodeTable.kind .builtIn inst.opcode = .ok kind :=
    OpcodeTable.kind_builtIn.mpr hkind
  -- Names are counted where they are collected, case values where the code is laid out, and
  -- everything else where its bytes are emitted.
  cases kind with
  | none =>
    apply isRefused_emission
    intro ctx lay start dev
    have hempty : inst.args.isEmpty = false := by
      simpa [OperandKind.Takes] using htakes
    simp only [Code.operandBytes, hempty]
    rfl
  | byte | short | hash =>
    apply isRefused_emission
    intro ctx lay start dev
    simp only [Code.operandBytes, Operand.unsigned_of_length_ne htakes]
    rfl
  | integer | float =>
    apply isRefused_emission
    intro ctx lay start dev
    simp only [Code.operandBytes, Operand.single_of_length_ne htakes]
    rfl
  | jump | longJump =>
    apply isRefused_emission
    intro ctx lay start dev
    simp only [Code.operandBytes, Code.branchBytes, Operand.single_of_length_ne htakes]
    rfl
  | vector =>
    apply isRefused_emission
    intro ctx lay start dev
    have hlength : inst.args.length ≠ 3 := htakes
    simp only [Code.operandBytes, if_pos hlength]
    rfl
  | locals =>
    apply isRefused_emission
    intro ctx lay start dev
    rw [Code.operandBytes, if_pos (Nat.not_le.mp htakes)]
    rfl
  | cases =>
    refine .inr (.inl fun addr => ⟨.operand (.unpairedCases inst.opcode inst.args.length), ?_, rfl⟩)
    rw [instructionSize_eq hkind, if_pos ⟨rfl, htakes⟩]
  | string =>
    have hle : ¬ 1 < inst.args.length := fun h => hsurplus ⟨hkind, h⟩
    have hne : inst.args.length ≠ 1 := htakes
    have hnil : inst.args = [] := List.length_eq_zero_iff.mp (by omega)
    apply isRefused_mention
    rw [Mention.ofInstruction, hknown, hnil]
    rfl
  | field =>
    apply isRefused_mention
    rw [Mention.ofInstruction, hknown]
    simp only [Except.bind, Operand.single_of_length_ne htakes]
    rfl
  | animation =>
    apply isRefused_mention
    rw [Mention.ofInstruction, hknown]
    simp only [Except.bind, Operand.animation_of_length_ne htakes]
    rfl
  | call | function =>
    apply isRefused_mention
    rw [Mention.ofInstruction, hknown]
    simp only [Except.bind, Operand.callee_of_length_ne htakes]
    rfl

end Refusal

def Instruction.IsAccepted (inst : Instruction) : Prop :=
  ∃ kind, inst.opcode.kind? = some kind ∧ ¬ inst.IsRefused kind

theorem Instruction.IsAccepted.takes {inst : Instruction} (h : inst.IsAccepted) :
    ∃ kind, inst.opcode.kind? = some kind ∧ (kind.Takes inst.args.length ∨ inst.HasSurplus) := by
  obtain ⟨kind, hkind, haccepted⟩ := h
  refine ⟨kind, hkind, ?_⟩
  by_contra hno
  rw [not_or] at hno
  exact haccepted (isRefused_of_not_takes hkind hno.1 hno.2)

namespace Code

variable {ctx : Context}

theorem EncodesAll.exists_encodes {lay : Layout} {ends : List UInt32} {xs : List Placed}
    {es : List Emitted} (h : EncodesAll ctx lay ends xs es) :
    ∀ x ∈ xs, ∃ dev e, Encodes ctx lay dev x e := by
  induction h with
  | nil => simp
  | cons hhead _ ih => exact List.forall_mem_cons.mpr ⟨⟨_, _, hhead⟩, ih⟩

theorem isAccepted_of_body {fn : Function} {start : UInt32} {b : Body}
    (h : EncodesBody ctx fn start b) {inst : Instruction} (hinst : inst ∈ fn.code)
    {found : Mention} (hfound : Mention.ofInstruction .builtIn inst = .ok found) :
    inst.IsAccepted := by
  obtain ⟨lay, es, hlay, hes, -⟩ := h
  have hplaces := (Layout.ofFunction_eq_ok_iff.mp hlay).1
  rw [← hplaces.map_inst] at hinst
  obtain ⟨x, hx, rfl⟩ := List.mem_map.mp hinst
  obtain ⟨dev, e, kind, v, operand, hkind, hread, hemits, -⟩ := hes.exists_encodes x hx
  refine ⟨kind, hkind, ?_⟩
  rintro (⟨_, hfail, -⟩ | hfail | hfail)
  · rw [hfound] at hfail
    cases hfail
  · obtain ⟨_, hfail, -⟩ := hfail x.addr
    rw [hplaces.size_eq x hx] at hfail
    cases hfail
  · obtain ⟨_, hfail, -⟩ := hfail ctx lay x.addr dev
    rw [operandBytes_of_emits hread hemits] at hfail
    cases hfail

theorem Lays.exists_body {codeOffset : UInt32} {before : Nat} {fns : List Function}
    {bs : List Body} (h : Lays ctx codeOffset before fns bs) :
    ∀ fn ∈ fns, ∃ start b, EncodesBody ctx fn start b := by
  induction h with
  | nil => simp
  | cons hhead _ ih => exact List.forall_mem_cons.mpr ⟨⟨_, _, hhead⟩, ih⟩

end Code

theorem isAccepted_of_assemble {flags : UInt8} {m : Module} {out : Assembled}
    (h : assemble .builtIn flags m = .ok out) :
    ∀ fn ∈ m.functionList, ∀ inst ∈ fn.code, inst.IsAccepted := by
  obtain ⟨ms, bs, hms, hlays, -⟩ := Assembly.assemble_eq_ok_iff.mp h
  intro fn hfn inst hinst
  obtain ⟨r, -, -, -, hcollects⟩ := (Mentions.ofModule_eq_ok_iff.mp hms).2.exists_right hfn
  obtain ⟨found, -, hfound⟩ := hcollects.exists_right hinst
  obtain ⟨start, b, hbody⟩ := hlays.exists_body fn hfn
  exact Code.isAccepted_of_body hbody hinst hfound

/-- The instruction without the operands that are never looked at. -/
def Instruction.trimmed (inst : Instruction) : Instruction :=
  if inst.opcode.kind? = some .string then { inst with operands := some (inst.args.take 1) }
  else inst

def Function.trimmed (fn : Function) : Function :=
  { fn with instructions := fn.instructions.map (List.map (Option.map Instruction.trimmed)) }

def Module.trimmed (m : Module) : Module :=
  { m with functions := m.functions.map (List.map (Option.map Function.trimmed)) }

theorem filterMap_id_map_map {α : Type} (f : α → α) (xs : List (Option α)) :
    (xs.map (Option.map f)).filterMap id = (xs.filterMap id).map f := by
  rw [List.filterMap_map, List.map_filterMap]
  rfl

theorem getD_map_map {α : Type} (f : α → α) (list : Option (List (Option α))) :
    (list.map (List.map (Option.map f))).getD [] = (list.getD []).map (Option.map f) := by
  cases list <;> rfl

theorem whole_trimmed {α : Type} (f : α → α) {list : Option (List (Option α))}
    (h : list.getD [] = ((list.getD []).filterMap id).map some) :
    (list.map (List.map (Option.map f))).getD [] =
      (((list.map (List.map (Option.map f))).getD []).filterMap id).map some := by
  rw [getD_map_map, filterMap_id_map_map, h]
  simp

namespace Instruction

theorem opcode_trimmed (inst : Instruction) : inst.trimmed.opcode = inst.opcode := by
  unfold trimmed
  split <;> rfl

theorem offset_trimmed (inst : Instruction) : inst.trimmed.offset = inst.offset := by
  unfold trimmed
  split <;> rfl

theorem size_trimmed (inst : Instruction) : inst.trimmed.size = inst.size := by
  unfold trimmed
  split <;> rfl

theorem read_trimmed {inst : Instruction} {kind : OperandKind}
    (hkind : inst.opcode.kind? = some kind) :
    kind.read inst.trimmed.args = kind.read inst.args := by
  unfold trimmed
  by_cases hstring : inst.opcode.kind? = some .string
  · rw [if_pos hstring]
    obtain rfl : kind = .string := Option.some_inj.mp (hkind.symm.trans hstring)
    have hhead : (inst.args.take 1)[0]? = inst.args[0]? := List.getElem?_take_of_lt Nat.zero_lt_one
    change (Operand.quoted (inst.args.take 1) 0).map _ = (Operand.quoted inst.args 0).map _
    rw [Operand.quoted, Operand.quoted, hhead]
  · rw [if_neg hstring]

end Instruction

namespace Function

theorem code_trimmed (fn : Function) : fn.trimmed.code = fn.code.map Instruction.trimmed := by
  rw [code, trimmed, getD_map_map, filterMap_id_map_map, code]

theorem stop_trimmed (fn : Function) : fn.trimmed.stop = fn.stop := by
  rw [stop, stop, code_trimmed, List.getLast?_map]
  cases fn.code.getLast? with
  | none => rfl
  | some last => simp only [Option.map_some, Instruction.offset_trimmed, Instruction.size_trimmed]

theorem boundaryOffsets_trimmed (fn : Function) :
    fn.trimmed.boundaryOffsets = fn.boundaryOffsets := by
  have hoffsets : Instruction.offset ∘ Instruction.trimmed = Instruction.offset :=
    funext Instruction.offset_trimmed
  rw [boundaryOffsets, boundaryOffsets, stop_trimmed, code_trimmed, List.map_map, hoffsets]

theorem boundaryAt?_trimmed (fn : Function) : fn.trimmed.boundaryAt? = fn.boundaryAt? :=
  boundaryAt?_congr fn.boundaryOffsets_trimmed

theorem boundary?_trimmed (fn : Function) : fn.trimmed.boundary? = fn.boundary? := by
  funext name
  rw [boundary?, boundary?, boundaryAt?_trimmed]
  rfl

theorem bindsLabels_trimmed {fn : Function} (h : fn.BindsLabels) : fn.trimmed.BindsLabels := by
  rw [BindsLabels, boundaryAt?_trimmed]
  exact h

theorem agrees_trimmed {fn : Function} (hwhole : fn.IsWhole) (hlabels : fn.BindsLabels)
    (hreads : ∀ inst ∈ fn.code, inst.IsReadIn fn) : fn.Agrees fn.trimmed where
  name := rfl
  params := rfl
  flags := rfl
  whole := whole_trimmed Instruction.trimmed hwhole
  labels := bindsLabels_trimmed hlabels
  code := by
    rw [code_trimmed, List.forall₂_map_right_iff, List.forall₂_same]
    intro inst hinst
    obtain ⟨kind, v, hkind, hread, hbound⟩ := hreads inst hinst
    refine ⟨inst.opcode_trimmed, kind, v, v, hkind, hread, ?_, ?_⟩
    · rw [Instruction.read_trimmed hkind, hread]
    · by_cases hlabel : ∃ name, v = .label name
      · obtain ⟨name, rfl⟩ := hlabel
        obtain ⟨k, hk⟩ := hbound name rfl
        exact .label hk (by rw [boundary?_trimmed, hk])
      · exact .same (not_exists.mp hlabel)

end Function

theorem Code.bindsLabels_of_body {ctx : Context} {fn : Function} {start : UInt32} {b : Body}
    (h : EncodesBody ctx fn start b) : fn.BindsLabels := by
  obtain ⟨lay, es, hlay, -⟩ := h
  exact Function.ResolvesLabels.binds
    ⟨_, _, _, Layout.length_placed hlay, (Layout.ofFunction_eq_ok_iff.mp hlay).2⟩

theorem Module.functionList_trimmed (m : Module) :
    m.trimmed.functionList = m.functionList.map Function.trimmed := by
  rw [functionList, trimmed, getD_map_map, filterMap_id_map_map, functionList]

/-- Dropping the operands that are never looked at leaves the assembled file alone. -/
theorem assemble_trimmed {flags : UInt8} {m : Module} {out : Assembled}
    (h : assemble .builtIn flags m = .ok out) : assemble .builtIn flags m.trimmed = .ok out := by
  obtain ⟨ms, bs, hms, hlays, -⟩ := Assembly.assemble_eq_ok_iff.mp h
  obtain ⟨hwhole, hcollects⟩ := Mentions.ofModule_eq_ok_iff.mp hms
  have hagrees : m.Agrees m.trimmed := by
    refine ⟨rfl, rfl, whole_trimmed Function.trimmed hwhole, ?_⟩
    rw [Module.functionList_trimmed, List.forall₂_map_right_iff, List.forall₂_same]
    intro fn hfn
    obtain ⟨r, -, -, hfnWhole, -⟩ := hcollects.exists_right hfn
    obtain ⟨start, b, hbody⟩ := hlays.exists_body fn hfn
    exact Function.agrees_trimmed hfnWhole (Code.bindsLabels_of_body hbody)
      (hlays.isReadIn fn hfn)
  have hparams : ∀ c, m.trimmed.calleeParams c = m.calleeParams c := by
    apply Module.calleeParams_eq_of
    · rfl
    · rw [Module.functionList_trimmed, List.forall₂_map_right_iff, List.forall₂_same]
      exact fun fn _ => ⟨rfl, rfl⟩
  exact hagrees.assemble (fun _ _ c _ => hparams c) h

/-- The operands of a module that assembles are those that its instructions encode, but for what
stands behind a string literal, which might as well not be there. An instruction with any other
number of operands is refused, and so is its module. -/
theorem operand_counts (flags : UInt8) (m : Module) :
    (∀ out, assemble .builtIn flags m = .ok out →
      (∀ fn ∈ m.functionList, ∀ inst ∈ fn.code, ∃ kind, inst.opcode.kind? = some kind ∧
        (kind.Takes inst.args.length ∨ inst.HasSurplus)) ∧
      assemble .builtIn flags m.trimmed = .ok out) ∧
    ∀ fn ∈ m.functionList, ∀ inst ∈ fn.code, ∀ kind, inst.opcode.kind? = some kind →
      ¬ kind.Takes inst.args.length → ¬ inst.HasSurplus →
        inst.IsRefused kind ∧ ∃ e, assemble .builtIn flags m = .error e := by
  constructor
  · intro out hout
    refine ⟨?_, assemble_trimmed hout⟩
    intro fn hfn inst hinst
    exact (isAccepted_of_assemble hout fn hfn inst hinst).takes
  · intro fn hfn inst hinst kind hkind htakes hsurplus
    have hrefused := Instruction.isRefused_of_not_takes hkind htakes hsurplus
    refine ⟨hrefused, ?_⟩
    cases hresult : assemble .builtIn flags m with
    | error e => exact ⟨e, rfl⟩
    | ok out =>
      obtain ⟨kind', hkind', haccepted⟩ := isAccepted_of_assemble hresult fn hfn inst hinst
      rw [← Option.some_inj.mp (hkind.symm.trans hkind')] at haccepted
      exact absurd hrefused haccepted

def singleModule (op : Opcode) (args : List Bytes) : Module where
  name := text "m"
  includes := none
  functions := some [some ⟨0, 5, 0, 0, text "f", some [
    some ⟨0, 4, op, some args⟩,
    some ⟨4, 1, 0, none⟩], none⟩]
  imports := none

theorem assemble_singleModule_surplus :
    ∃ out, assemble .builtIn 0 (singleModule 10 [text "\"a\"", text "\"b\""]) = .ok out ∧
      ∃ fn ∈ (singleModule 10 [text "\"a\"", text "\"b\""]).functionList, ∃ inst ∈ fn.code,
        inst.opcode.kind? = some .string ∧ ¬ OperandKind.string.Takes inst.args.length := by
  obtain ⟨out, hout, -⟩ : ∃ out, assemble .builtIn 0
      (singleModule 10 [text "\"a\"", text "\"b\""]) = .ok out ∧ true = true :=
    Except.exists_of_any (by decide +kernel)
  refine ⟨out, hout, _, List.mem_singleton_self _, _, List.mem_cons_self, ?_, ?_⟩
  · decide +kernel
  · exact Nat.succ_ne_self 1

theorem operand_counts_singleModule :
    (∃ out, assemble .builtIn 0 (singleModule 10 [text "\"a\"", text "\"b\""]) = .ok out ∧
      assemble .builtIn 0 (singleModule 10 [text "\"a\"", text "\"b\""]).trimmed = .ok out) ∧
    ∃ e, assemble .builtIn 0 (singleModule 1 [text "b"]) = .error e := by
  constructor
  · obtain ⟨out, hout, -⟩ : ∃ out, assemble .builtIn 0
        (singleModule 10 [text "\"a\"", text "\"b\""]) = .ok out ∧ true = true :=
      Except.exists_of_any (by decide +kernel)
    exact ⟨out, hout, ((operand_counts 0 _).1 out hout).2⟩
  · have hrefused := (operand_counts 0 (singleModule 1 [text "b"])).2 _ (List.mem_singleton_self _)
      _ List.mem_cons_self .none (by decide +kernel) (Nat.succ_ne_self 0)
    exact (hrefused fun hsurplus => absurd hsurplus.2 (Nat.lt_irrefl 1)).2

end ScriptCodec
