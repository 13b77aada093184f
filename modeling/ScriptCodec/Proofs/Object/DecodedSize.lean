import ScriptCodec.Proofs.Listing.Drafts
import ScriptCodec.Proofs.Object.Decoded

/-!
The size of a decoded instruction. Decoding counts it while reading: the base size of the kind,
the padding and the list entries met on the way. Laying out an instruction computes it from its
address and its operands. The two agree on every instruction that is decoded, whatever names the
labels in scope have; so a decoded function that is laid out at its own offset stays as it is.
-/
namespace ScriptCodec

namespace Labels

def reference (scope : Labels) (target : UInt32) : Bytes × Labels :=
  match scope.nameAt? target with
  | some name => (name, scope)
  | none => (nameOf target, scope.set target (nameOf target))

theorem set_eq_self {labels : Labels} (h : labels.Ascends) {offset : UInt32} {name : Bytes}
    (hmem : (offset, name) ∈ labels) : labels.set offset name = labels := by
  induction labels with
  | nil => cases hmem
  | cons e labels ih =>
    obtain ⟨hhead, htail⟩ := List.pairwise_cons.mp h
    rcases List.mem_cons.mp hmem with rfl | hmem
    · rw [set, if_neg (UInt32.lt_irrefl _), if_pos rfl]
    · have hlt := hhead _ hmem
      rw [set, if_neg (UInt32.not_lt.mpr (UInt32.le_of_lt hlt)), if_neg (UInt32.ne_of_lt hlt).symm,
        ih htail hmem]

theorem reference_ofTargets (targets : List UInt32) (target : UInt32) :
    (ofTargets targets).reference target = (nameOf target, ofTargets (target :: targets)) := by
  change _ = (nameOf target, (ofTargets targets).set target (nameOf target))
  unfold reference
  cases hname : (ofTargets targets).nameAt? target with
  | none => rfl
  | some name =>
    have hmem := mem_of_nameAt? hname
    obtain ⟨t, -, heq⟩ := mem_ofTargets.mp hmem
    obtain ⟨rfl, rfl⟩ := Prod.mk.inj heq
    rw [set_eq_self (ascends_ofTargets targets) hmem]

end Labels

namespace Disassembly

def Step.named (step : Step) (name : Bytes) : Step :=
  { step with inst := { step.inst with operands := some [name] } }

/-- Decodes an instruction where some branch targets have names already. -/
def instructionIn (t : DecodeTables) (img : Image) (scope : Labels) (pos : Nat) :
    Decoding (Step × Labels) :=
  (instruction t img pos).map fun step =>
    match step.target with
    | none => (step, scope)
    | some target =>
      let (name, scope) := scope.reference target
      (step.named name, scope)

variable {t : DecodeTables} {img : Image} {scope scope' : Labels} {pos : Nat}

section

variable {op : Opcode} {kind : OperandKind} {start : UInt32} {r : OperandRead}

theorem next_of_localsFrom {count extra extra' next : Nat} {done keys : List UInt32}
    (h : localsFrom img extra pos done count = .ok (keys, extra', next)) :
    next = (List.range count).foldl (fun pos _ => OperandKind.afterAligned 2 2 pos) pos := by
  induction count generalizing pos extra done with
  | zero =>
    simp only [localsFrom, Except.ok.injEq, Prod.mk.injEq] at h
    exact h.2.2.symm
  | succ count ih =>
    simp only [localsFrom, Except.bind_eq_ok_iff] at h
    obtain ⟨⟨key, pad, after⟩, hkey, h⟩ := h
    obtain ⟨-, rfl, rfl, -⟩ := aligned_eq_ok hkey
    rw [ih h, List.range_succ_eq_map, List.foldl_cons, List.foldl_map, OperandKind.afterAligned]

theorem Reads.cases_length (h : Reads t img start pos .cases r) :
    (r.operands.getD []).length % 2 = 0 := by
  cases h with
  | cases hcount hwords =>
    have hlength := (Tables.words_eq_ok (aligned_eq_ok hcount).2.2.2 hwords).1
    rw [getD_listed, caseValues, List.length_map, hlength, Nat.mul_mod_right]

theorem Reads.next_eq_stop (h : Reads t img start pos kind r) :
    r.next = kind.stop (r.operands.getD []).length pos := by
  cases h with
  | nothing | byte | vector => rfl
  | short h | hash h | integer h | float h | string h | field h | animation h
  | call h | function h | jump h | longJump h =>
    obtain ⟨-, rfl, rfl, -⟩ := aligned_eq_ok h
    rfl
  | locals hcount hkeys hnames =>
    have hkeyCount := (localsFrom_eq_ok (Image.u8_eq_ok hcount) hkeys).1
    rw [getD_listed, ← hnames.length_eq, hkeyCount, List.length_nil, Nat.zero_add]
    exact next_of_localsFrom hkeys
  | cases hcount hwords =>
    obtain ⟨-, rfl, rfl, hle⟩ := aligned_eq_ok hcount
    have hlength := (Tables.words_eq_ok hle hwords).1
    rw [getD_listed, caseValues, List.length_map, hlength, OperandKind.stop,
      Nat.mul_div_cancel_left _ (by decide)]
    rfl

end

theorem instructionSize_of_instruction (hsize : img.size < 2 ^ 32) {step : Step}
    (h : instruction t img pos = .ok step) :
    step.inst.offset.toNat = pos ∧ step.next = pos + step.inst.size.toNat ∧
      instructionSize step.inst.opcode step.inst.offset step.inst.args = .ok step.inst.size := by
  obtain ⟨hoffset, hstep, hnext, hle, -⟩ := instruction_eq_ok h
  obtain ⟨op, kind, r, hread⟩ := exists_readAs h
  have hpositive := step.size_pos
  have hstart : step.inst.offset.toNat = pos := by
    rw [hoffset, toNat_ofNat_of_lt (by omega)]
  have hlength : step.inst.size.toNat = step.size := by
    rw [hstep, toNat_ofNat_of_lt (by omega)]
  have hop : step.inst.opcode = op := by rw [hread.inst_eq]
  have hargs : step.inst.args = r.operands.getD [] := by rw [hread.inst_eq, Instruction.args]
  have hstop : step.next = kind.stop step.inst.args.length (pos + 1) := by
    rw [hread.next_eq, hread.reads.next_eq_stop, hargs]
  have heven : ¬ (kind = .cases ∧ step.inst.args.length % 2 ≠ 0) := by
    rintro ⟨rfl, hodd⟩
    rw [hargs] at hodd
    exact hodd hread.reads.cases_length
  refine ⟨hstart, by rw [hlength, hnext], ?_⟩
  rw [hop, instructionSize_eq hread.kind_eq, if_neg heven, hstart, ← hstop, hnext,
    Nat.add_sub_cancel_left, ← hstep]

theorem instructionSize_congr {op : Opcode} {addr : UInt32} {args args' : List Bytes}
    (h : args.length = args'.length) :
    instructionSize op addr args = instructionSize op addr args' := by
  unfold instructionSize
  rw [h]

theorem operands_of_step_target {step : Step} (h : instruction t img pos = .ok step)
    {target : UInt32} (htarget : step.target = some target) :
    step.inst.operands = some [Labels.nameOf target] := by
  obtain ⟨op, kind, r, hread⟩ := exists_readAs h
  rw [hread.inst_eq]
  exact (hread.reads.operands_of_target (hread.target_eq.symm.trans htarget)).2

/-- With the labels of the targets before it an instruction is decoded as it is without. -/
theorem instructionIn_ofTargets (targets : List UInt32) :
    instructionIn t img (.ofTargets targets) pos = (instruction t img pos).map fun step =>
      (step, .ofTargets (step.target.toList ++ targets)) := by
  unfold instructionIn
  cases hstep : instruction t img pos with
  | error e => rfl
  | ok step =>
    simp only [Except.map]
    cases htarget : step.target with
    | none => rfl
    | some target =>
      have hnamed : step.named (Labels.nameOf target) = step := by
        rw [Step.named, ← operands_of_step_target hstep htarget]
      simp only [Labels.reference_ofTargets, hnamed]
      rfl

theorem instructionIn_sized (hsize : img.size < 2 ^ 32) {step : Step}
    (h : instructionIn t img scope pos = .ok (step, scope')) :
    step.inst.offset.toNat = pos ∧ step.next = pos + step.inst.size.toNat ∧
      instructionSize step.inst.opcode step.inst.offset step.inst.args = .ok step.inst.size := by
  simp only [instructionIn, Except.map_eq_ok_iff] at h
  obtain ⟨found, hfound, h⟩ := h
  obtain ⟨hoffset, hnext, hfits⟩ := instructionSize_of_instruction hsize hfound
  cases htarget : found.target with
  | none =>
    simp only [htarget, Prod.mk.injEq] at h
    rw [← h.1]
    exact ⟨hoffset, hnext, hfits⟩
  | some target =>
    simp only [htarget, Prod.mk.injEq] at h
    rw [← h.1]
    -- A branch has one operand under any name.
    have hone : [(scope.reference target).1].length = found.inst.args.length := by
      rw [Instruction.args, operands_of_step_target hfound htarget]
      rfl
    exact ⟨hoffset, hnext, (instructionSize_congr hone).trans hfits⟩

theorem instructionIn_sized_branch :
    let t : DecodeTables := ⟨.builtIn, ∅, ∅, ∅⟩
    let img : Image := #[63, 0, 4, 0]
    img.size < 2 ^ 32 ∧ ∃ step scope,
      instructionIn t img [(8, text "done")] 0 = .ok (step, scope) ∧
        step.inst.args = [text "done"] ∧ step.next = step.inst.size.toNat ∧
        instructionSize 63 0 [text "done"] = .ok step.inst.size := by
  intro t img
  have hsize : img.size < 2 ^ 32 := by decide
  obtain ⟨⟨step, scope⟩, hstep, hread⟩ : ∃ r, instructionIn t img [(8, text "done")] 0 = .ok r ∧
      decide (r.1.inst.args = [text "done"] ∧ r.1.inst.opcode = 63) = true :=
    Except.exists_of_any (by decide +kernel)
  obtain ⟨hargs, hop⟩ := of_decide_eq_true hread
  obtain ⟨hoffset, hnext, hfits⟩ := instructionIn_sized hsize hstep
  have hzero : step.inst.offset = 0 := UInt32.toNat_inj.mp hoffset
  rw [hargs, hop, hzero] at hfits
  exact ⟨hsize, step, scope, hstep, hargs, by rw [hnext, Nat.zero_add], hfits⟩

theorem laid_of_codeFrom (hsize : img.size < 2 ^ 32) {stop : UInt32} {remaining : Nat}
    {done code : List Instruction} {before targets : List UInt32}
    (h : codeFrom t img stop pos remaining done before = .ok (code, targets)) :
    ∃ rest, code = done.reverse ++ rest ∧
      Listing.Laid (UInt32.ofNat pos) rest (UInt32.ofNat (pos + remaining)) := by
  fun_induction codeFrom t img stop pos remaining done before with
  | case1 =>
    obtain ⟨rfl, rfl⟩ := Prod.mk.inj (Except.ok.inj h)
    exact ⟨[], by simp, .nil _⟩
  | case2 => cases h
  | case3 => exact absurd h Decoding.fail_ne_ok
  | case4 pos remaining done before _ step hstep hle ih =>
    obtain ⟨rest, hcode, hlaid⟩ := ih h
    obtain ⟨hoffset, hlength, hnext, -⟩ := instruction_eq_ok hstep
    obtain ⟨-, -, hfits⟩ := instructionSize_of_instruction hsize hstep
    have hend : step.next + (remaining - step.size) = pos + remaining := by omega
    have hafter : step.inst.offset + step.inst.size = UInt32.ofNat step.next := by
      rw [hoffset, hlength, hnext, UInt32.ofNat_add]
    refine ⟨step.inst :: rest, by simp [hcode], ?_⟩
    rw [hend, ← hafter] at hlaid
    rw [← hoffset]
    exact .cons hfits hlaid

theorem laid_of_function (hsize : img.size < 2 ^ 32) {e : Export} {fn : Function}
    (h : function t img e = .ok fn) :
    Listing.Laid fn.offset fn.code (fn.offset + fn.size) := by
  obtain ⟨targets, hfn⟩ := exists_decodedAt h
  obtain ⟨rest, hcode, hlaid⟩ := laid_of_codeFrom hsize hfn.code
  rw [List.reverse_nil, List.nil_append] at hcode
  rw [hcode, hfn.offset, hfn.size]
  rwa [UInt32.ofNat_add, UInt32.ofNat_toNat, UInt32.ofNat_toNat] at hlaid

end Disassembly
end ScriptCodec
