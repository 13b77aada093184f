import ScriptCodec.Proofs.Object.Naming
import ScriptCodec.Proofs.Object.RoundTrip
import ScriptCodec.Proofs.Operand.Decoded

/-!
Callees between decoding and assembling. The operands of a decoded call name its namespace only if
it is not empty. They are read as the callee of the import they come from, except where a name
without a namespace has `::` in it: such a name is taken apart, and from then on the call refers to
another import.
-/
namespace ScriptCodec

namespace Text

/-- The converse of `cutLoop_eq_none`. -/
theorem cutLoop_of_infix {sep s : Bytes} (hsep : sep ≠ []) (h : sep <:+: s) (before : Bytes) :
    ∃ front back, cutLoop sep before s = some (before.reverse ++ front, back) ∧
      s = front ++ sep ++ back := by
  induction s generalizing before with
  | nil => exact absurd (List.infix_nil.mp h) hsep
  | cons b rest ih =>
    by_cases hhead : sep <+: b :: rest
    · obtain ⟨back, hback⟩ := hhead
      refine ⟨[], back, ?_, hback.symm⟩
      rw [cutLoop, if_pos (List.isPrefixOf_iff_prefix.mpr ⟨back, hback⟩), ← hback,
        List.drop_left, List.append_nil]
    · have hrest : sep <:+: rest := (List.infix_cons_iff.mp h).resolve_left hhead
      obtain ⟨front, back, hcut, hsplit⟩ := ih hrest (b :: before)
      refine ⟨b :: front, back, ?_, by rw [hsplit]; rfl⟩
      rw [cutLoop, if_neg (by simpa using hhead), hcut, List.reverse_cons, List.append_assoc]
      rfl

end Text

namespace Disassembly

variable {t : DecodeTables} {img : Image} {pos : Nat} {op : Opcode} {entry : Import} {name : Bytes}

/-- Where the name key of an instruction with a callee stands; calls have a byte before it. -/
def keyPlace (kind : OperandKind) (pos : Nat) : Nat :=
  let after := if kind = .call then pos + 2 else pos + 1
  after + Word.padding 4 after

/-- At `pos` stands an instruction with a callee, whose key is that of `name` and whose import is
`entry`. -/
structure RefersTo (t : DecodeTables) (img : Image) (pos : Nat) (op : Opcode) (entry : Import)
    (name : Bytes) : Prop where
  opcode : img.u8 pos = .ok op
  known : t.opcodes.knows op = true
  key : ∃ kind key, op.kind? = some kind ∧ (kind = .call ∨ kind = .function) ∧
    img.u32 (keyPlace kind pos) = .ok key ∧ t.strings.lookup key = .ok name
  imported : t.importAt[UInt32.ofNat pos]? = some entry

theorem RefersTo.kind (h : RefersTo t img pos op entry name) :
    op.kind? = some .call ∨ op.kind? = some .function := by
  obtain ⟨kind, key, hkind, rfl | rfl, -⟩ := h.key
  · exact .inl hkind
  · exact .inr hkind

theorem aligned_of_u32 {place : Nat} {key : UInt32}
    (h : img.u32 (place + Word.padding 4 place) = .ok key) :
    ∃ v extra next, aligned img 4 place = .ok (v, extra, next) ∧ UInt32.ofNat v = key := by
  rw [Image.u32, Except.map_eq_ok_iff] at h
  obtain ⟨v, hv, rfl⟩ := h
  exact ⟨v, _, _, by rw [aligned, hv]; rfl, rfl⟩

theorem RefersTo.instruction (h : RefersTo t img pos op entry name) :
    ∃ step, instruction t img pos = .ok step ∧ step.inst.opcode = op ∧
      step.inst.args = calleeOperands entry.space name := by
  obtain ⟨kind, key, hkind, hcallee, hkey, hname⟩ := h.key
  obtain ⟨v, extra, next, haligned, rfl⟩ := aligned_of_u32 hkey
  have hreads : Reads t img (UInt32.ofNat pos) (pos + 1) kind
      ⟨some (calleeOperands entry.space name), extra, next, none⟩ := by
    rcases hcallee with rfl | rfl
    · exact .call haligned h.imported hname
    · exact .function haligned h.imported hname
  obtain ⟨step, hstep, hreadAs⟩ := instruction_of_reads h.opcode h.known hkind hreads
  refine ⟨step, hstep, ?_, ?_⟩
  · rw [hreadAs.inst_eq]
  · rw [hreadAs.inst_eq]
    rfl

end Disassembly

/-- The operands of a decoded callee are read as that callee or, where a name alone has `::` in it,
as the two parts it falls into. -/
theorem Operand.callee_calleeOperands (space name : Bytes) :
    (callee (Disassembly.calleeOperands space name) = .ok (space, name) ∧
        (space = [] → ¬ text "::" <:+: name)) ∨
      ∃ front back, callee (Disassembly.calleeOperands space name) = .ok (front, back) ∧
        space = [] ∧ name = front ++ text "::" ++ back := by
  have hsep : text "::" ≠ [] := by decide
  cases space with
  | cons b space => exact .inl ⟨rfl, fun h => nomatch h⟩
  | nil =>
    by_cases hcut : text "::" <:+: name
    · obtain ⟨front, back, hfound, hname⟩ := Text.cutLoop_of_infix hsep hcut []
      refine .inr ⟨front, back, ?_, rfl, hname⟩
      have hfound' : Text.cut (text "::") name = some (front, back) := hfound
      simp [Disassembly.calleeOperands, callee, hfound']
    · refine .inl ⟨?_, fun _ => hcut⟩
      simp [Disassembly.calleeOperands, callee, Text.cut_eq_none hsep hcut]

theorem Mention.ofInstruction_of_callee {t : OpcodeTable} {inst : Instruction} {space name : Bytes}
    (hknown : t.knows inst.opcode = true)
    (hkind : inst.opcode.kind? = some .call ∨ inst.opcode.kind? = some .function)
    (hcallee : Operand.callee inst.args = .ok (space, name)) :
    ofInstruction t inst =
      .ok ⟨[name, space], some ⟨space, name, inst.opcode.importKind⟩, none⟩ := by
  rcases hkind with hkind | hkind
  · rw [ofInstruction, OpcodeTable.kind_eq_ok_iff.mpr ⟨hknown, hkind⟩, Except.bind, hcallee]
    rfl
  · rw [ofInstruction, OpcodeTable.kind_eq_ok_iff.mpr ⟨hknown, hkind⟩, Except.bind, hcallee]
    rfl

open Disassembly in
/-- A decoded instruction keeps its callee unless its name was written without a namespace and has
`::` in it. What it mentions is the import it will be assembled with. -/
theorem callee_of_refersTo {t : DecodeTables} {img : Image} {pos : Nat} {op : Opcode}
    {entry : Import} {name : Bytes} (h : RefersTo t img pos op entry name) :
    ∃ step space' name', instruction t img pos = .ok step ∧
      Operand.callee step.inst.args = .ok (space', name') ∧
      (Mention.ofInstruction t.opcodes step.inst).map (·.callee) =
        .ok (some ⟨space', name', op.importKind⟩) ∧
      ((space', name') = (entry.space, name) ↔ (entry.space = [] → ¬ text "::" <:+: name)) ∧
      ((space', name') ≠ (entry.space, name) → name = space' ++ text "::" ++ name') := by
  obtain ⟨step, hstep, hop, hargs⟩ := h.instruction
  have hmention : ∀ space' name', Operand.callee step.inst.args = .ok (space', name') →
      (Mention.ofInstruction t.opcodes step.inst).map (·.callee) =
        .ok (some ⟨space', name', op.importKind⟩) := by
    intro space' name' hcallee
    rw [Mention.ofInstruction_of_callee (hop ▸ h.known) (hop ▸ h.kind) hcallee, hop]
    rfl
  rcases Operand.callee_calleeOperands entry.space name with
    ⟨hcallee, hplain⟩ | ⟨front, back, hcallee, hspace, hname⟩
  · rw [← hargs] at hcallee
    exact ⟨step, entry.space, name, hstep, hcallee, hmention _ _ hcallee,
      ⟨fun _ => hplain, fun _ => rfl⟩, fun hne => absurd rfl hne⟩
  · rw [← hargs] at hcallee
    -- what follows the separator is shorter than the whole name
    have hback : back ≠ name := by
      intro heq
      have hlength := congrArg List.length hname
      have hsep : (text "::").length = 2 := by decide
      rw [List.length_append, List.length_append, heq, hsep] at hlength
      omega
    have hcut : text "::" <:+: name := ⟨front, back, hname.symm⟩
    refine ⟨step, front, back, hstep, hcallee, hmention _ _ hcallee, ⟨?_, ?_⟩, fun _ => hname⟩
    · intro heq
      exact absurd (Prod.mk.inj heq).2 hback
    · intro hplain
      exact absurd hcut (hplain hspace)

theorem callee_of_refersTo_namespaced :
    let entry : Import := ⟨text "b::c", text "a", 0, ImportKind.call, false, [0]⟩
    let t : DecodeTables := ⟨.builtIn, (∅ : StringTable).insert 64 (text "b::c"), ∅,
      Disassembly.importIndex [entry]⟩
    ∃ step, Disassembly.instruction t #[46, 0, 0, 0, 64, 0, 0, 0] 0 = .ok step ∧
      Operand.callee step.inst.args = .ok (text "a", text "b::c") := by
  intro entry t
  have h : Disassembly.RefersTo t #[46, 0, 0, 0, 64, 0, 0, 0] 0 Opcode.scriptCall entry
      (text "b::c") :=
    ⟨rfl, by decide +kernel, ⟨.call, 64, by decide +kernel, .inl rfl, rfl, rfl⟩, by decide +kernel⟩
  obtain ⟨step, space, name, hstep, hcallee, -, hsame, -⟩ := callee_of_refersTo h
  rw [hsame.mpr (by decide)] at hcallee
  exact ⟨step, hstep, hcallee⟩

def plainCall (name : Bytes) : Module where
  name := text "m"
  includes := none
  functions := some [some ⟨0, 5, 0, 0, text "f", some [
    some ⟨0, 4, Opcode.scriptCall, some [[], name]⟩,
    some ⟨4, 1, 0, none⟩], none⟩]
  imports := none

def importedNames (file : Bytes) : Option (List (Bytes × Bytes)) :=
  (disassemble .builtIn file.toArray).toOption.map fun obj => obj.imports.map fun i => (i.space, i.name)

/-- Decoding the call and assembling it again links it to `b` in the namespace `a`. -/
theorem assemble_disassemble_plainCall :
    ∃ a obj a', assemble .builtIn 0 (plainCall (text "a::b")) = .ok a ∧
      disassemble .builtIn a.file.toArray = .ok obj ∧ assemble .builtIn 0 obj.body = .ok a' ∧
      importedNames a.file = some [([], text "a::b")] ∧
      importedNames a'.file = some [(text "a", text "b")] := by
  obtain ⟨a, ha, hrest⟩ : ∃ a, assemble .builtIn 0 (plainCall (text "a::b")) = .ok a ∧
      (decide (importedNames a.file = some [([], text "a::b")]) &&
        (disassemble .builtIn a.file.toArray).toOption.any fun obj =>
          (assemble .builtIn 0 obj.body).toOption.any fun a' =>
            decide (importedNames a'.file = some [(text "a", text "b")])) = true :=
    Except.exists_of_any (by decide +kernel)
  rw [Bool.and_eq_true, decide_eq_true_eq] at hrest
  obtain ⟨obj, hobj, hagain⟩ := Except.exists_of_any hrest.2
  obtain ⟨a', ha', hnames⟩ := Except.exists_of_any hagain
  exact ⟨a, obj, a', ha, hobj, ha', hrest.1, of_decide_eq_true hnames⟩

end ScriptCodec
