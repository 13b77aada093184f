import ScriptCodec.Proofs.Object.File

/-!
What an opcode table decides. A table enters assembly only through the opcodes it names, so a
module assembles with a table exactly when it assembles with the built-in one and every opcode in
it is named; the object is the same.
-/
namespace ScriptCodec

namespace OpcodeTable

variable {t : OpcodeTable}

theorem kind_eq_ok_iff {op : Opcode} {kind : OperandKind} :
    t.kind op = .ok kind ↔ t.knows op = true ∧ op.kind? = some kind := by
  have hknows : t.knows op = (t.entries.find? fun e => e.1 == op).isSome := by
    rw [knows, Bool.eq_iff_iff, List.any_eq_true, List.find?_isSome]
  rw [OpcodeTable.kind, name, hknows]
  cases t.entries.find? fun e => e.1 == op with
  | none => simp
  | some e =>
    cases op.kind? with
    | none => simp
    | some k => simp

end OpcodeTable

def Function.NamedBy (t : OpcodeTable) (fn : Function) : Prop :=
  ∀ inst ∈ fn.code, t.knows inst.opcode = true

def Module.NamedBy (t : OpcodeTable) (m : Module) : Prop := ∀ fn ∈ m.functionList, fn.NamedBy t

namespace Mention

variable {t : OpcodeTable}

theorem ofInstruction_eq_ok_iff {inst : Instruction} {found : Mention} :
    ofInstruction t inst = .ok found ↔
      t.knows inst.opcode = true ∧ ofInstruction .builtIn inst = .ok found := by
  simp only [ofInstruction, Except.bind_eq_ok_iff, OpcodeTable.kind_eq_ok_iff (t := t),
    OpcodeTable.kind_builtIn, and_assoc, exists_and_left]

theorem ofEntry_eq_ok_iff {lost : Callee → Bool} {entry : Option Instruction} {found : Mention} :
    ofEntry t lost entry = .ok found ↔
      (∀ inst ∈ entry, t.knows inst.opcode = true) ∧ ofEntry .builtIn lost entry = .ok found := by
  cases entry with
  | none => simp [ofEntry]
  | some inst =>
    simp only [ofEntry, Except.bind_eq_ok_iff, Assembling.within_eq_ok_iff,
      ofInstruction_eq_ok_iff (t := t), Option.mem_some_iff, forall_eq', and_assoc, exists_and_left]

theorem ofFunction_eq_ok_iff {lost : Callee → Bool} {fn : Function} {found : List Mention} :
    ofFunction t lost fn = .ok found ↔
      fn.NamedBy t ∧ ofFunction .builtIn lost fn = .ok found := by
  have hnamed : fn.NamedBy t ↔
      ∀ entry ∈ fn.instructions.getD [], ∀ inst ∈ entry, t.knows inst.opcode = true := by
    simp only [Function.NamedBy, Function.code, List.mem_filterMap, id_eq, Option.mem_def]
    constructor
    · intro h entry hentry inst hinst
      exact h inst ⟨entry, hentry, hinst⟩
    · rintro h inst ⟨entry, hentry, hinst⟩
      exact h entry hentry inst hinst
  rw [hnamed, ofFunction, ofFunction]
  apply List.mapM_eq_ok_iff_of
  intro entry found
  rw [Assembling.within_eq_ok_iff, Assembling.within_eq_ok_iff, ofEntry_eq_ok_iff]

end Mention

theorem Mentions.ofModule_eq_ok_iff_named {t : OpcodeTable} {m : Module} {ms : Mentions} :
    ofModule t m = .ok ms ↔ m.NamedBy t ∧ ofModule .builtIn m = .ok ms := by
  have hnamed : m.NamedBy t ↔
      ∀ entry ∈ m.functions.getD [], ∀ fn ∈ entry, fn.NamedBy t := by
    simp only [Module.NamedBy, Module.functionList, List.mem_filterMap, id_eq, Option.mem_def]
    constructor
    · intro h entry hentry fn hfn
      exact h fn ⟨entry, hentry, hfn⟩
    · rintro h fn ⟨entry, hentry, hfn⟩
      exact h entry hentry fn hfn
  simp only [ofModule, Except.map_eq_ok_iff, hnamed]
  rw [← exists_and_left]
  refine exists_congr fun found => ?_
  rw [← and_assoc]
  refine and_congr_left fun _ => ?_
  apply List.mapM_eq_ok_iff_of
  intro entry r
  cases entry with
  | none => simp
  | some fn =>
    simp only [Except.map_eq_ok_iff, Mention.ofFunction_eq_ok_iff (t := t), Option.mem_some_iff,
      forall_eq', and_assoc, exists_and_left]

namespace Code

variable {t : OpcodeTable} {pool : StringPool} {imports : List ImportDecl} {lay : Layout}

theorem localsFrom_rename (t' : OpcodeTable) (names : List Bytes) (pos : Nat) :
    localsFrom ⟨t, pool, imports⟩ pos names = localsFrom ⟨t', pool, imports⟩ pos names := by
  induction names generalizing pos with
  | nil => rfl
  | cons name names ih =>
    simp only [localsFrom, ih]
    rfl

/-- What operands are emitted as does not depend on the names of opcodes. -/
theorem operandBytes_rename (t' : OpcodeTable) (op : Opcode) (kind : OperandKind)
    (start : UInt32) (dev : Bool) (args : List Bytes) :
    operandBytes ⟨t, pool, imports⟩ lay op kind start dev args =
      operandBytes ⟨t', pool, imports⟩ lay op kind start dev args := by
  cases kind with
  | locals => simp only [operandBytes, localsFrom_rename t']
  | _ => rfl

theorem instruction_eq_ok_iff_named {dev : Bool} {x : Placed} {e : Emitted} :
    instruction ⟨t, pool, imports⟩ lay dev x = .ok e ↔
      t.knows x.inst.opcode = true ∧ instruction ⟨.builtIn, pool, imports⟩ lay dev x = .ok e := by
  simp only [instruction, Except.bind_eq_ok_iff, OpcodeTable.kind_eq_ok_iff (t := t),
    OpcodeTable.kind_builtIn, operandBytes_rename .builtIn, and_assoc, exists_and_left]

theorem body_eq_ok_iff_named {fn : Function} {start : UInt32} {b : Body} :
    body ⟨t, pool, imports⟩ fn start = .ok b ↔
      fn.NamedBy t ∧ body ⟨.builtIn, pool, imports⟩ fn start = .ok b := by
  simp only [body, Except.bind_eq_ok_iff, Assembling.within_eq_ok_iff, Except.map_eq_ok_iff]
  rw [← exists_and_left]
  refine exists_congr fun lay => ?_
  rw [← and_assoc, and_comm (a := fn.NamedBy t), and_assoc]
  refine and_congr_right fun hlay => ?_
  rw [← exists_and_left]
  refine exists_congr fun p => ?_
  rw [← and_assoc]
  refine and_congr_left fun _ => ?_
  have hnamed : fn.NamedBy t ↔ ∀ x ∈ lay.placed, t.knows x.inst.opcode = true := by
    rw [Function.NamedBy, ← (Layout.ofFunction_eq_ok_iff.mp hlay).1.map_inst]
    simp only [List.forall_mem_map]
  rw [hnamed]
  apply List.foldlM_eq_ok_iff_of
  intro p x q
  simp only [step, Except.map_eq_ok_iff, Assembling.within_eq_ok_iff,
    instruction_eq_ok_iff_named (t := t), and_assoc, exists_and_left]

theorem emitFrom_eq_ok_iff_named {codeOffset : UInt32} {fns : List Function} {s : Segments}
    {code : Code} :
    emitFrom ⟨t, pool, imports⟩ codeOffset s fns = .ok code ↔
      (∀ fn ∈ fns, fn.NamedBy t) ∧
        emitFrom ⟨.builtIn, pool, imports⟩ codeOffset s fns = .ok code := by
  induction fns generalizing s with
  | nil => simp [emitFrom]
  | cons fn fns ih =>
    simp only [emitFrom, Except.bind_eq_ok_iff, body_eq_ok_iff_named (t := t), ih,
      List.forall_mem_cons]
    constructor
    · rintro ⟨b, ⟨hfn, hb⟩, hfns, hcode⟩
      exact ⟨⟨hfn, hfns⟩, b, hb, hcode⟩
    · rintro ⟨⟨hfn, hfns⟩, b, hb, hcode⟩
      exact ⟨b, ⟨hfn, hb⟩, hfns, hcode⟩

end Code

/-- A table only refuses modules: what it lets through assembles as with the built-in table. -/
theorem Assembly.assemble_eq_ok_iff_named {t : OpcodeTable} {flags : UInt8} {m : Module}
    {a : Assembled} :
    assemble t flags m = .ok a ↔ m.NamedBy t ∧ assemble .builtIn flags m = .ok a := by
  simp only [assemble, run, Assembling.within_eq_ok_iff, Except.andThen_eq_ok_iff,
    Mentions.ofModule_eq_ok_iff_named (t := t), Code.emit, Code.emitFrom_eq_ok_iff_named (t := t)]
  constructor
  · rintro ⟨ms, ⟨hnamed, hms⟩, code, ⟨-, hcode⟩, hstack⟩
    exact ⟨hnamed, ms, hms, code, hcode, hstack⟩
  · rintro ⟨hnamed, ms, hms, code, hcode, hstack⟩
    exact ⟨ms, ⟨hnamed, hms⟩, code, ⟨hnamed, hcode⟩, hstack⟩

end ScriptCodec
