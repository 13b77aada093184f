import ScriptCodec.Proofs.Machine.Operands
import ScriptCodec.Proofs.Object.Decoded

/-!
Functions as the machine decodes them: one instruction after the other as long as bytes of the
function remain. Only the decoding itself shows that this comes to an end, since an instruction
takes at least one byte of the input; the machine counts its rounds and would say if they run out.
-/
namespace ScriptCodec.Machine

open Pass

section

variable (l : Lookups) (img : Image)

def dispatch (op : Opcode) (start : UInt32) : Pass (Instruction × Option UInt32) :=
  if !l.opcodes.knows op then fail (.unhandledOpcode op start)
  else match op.kind? with
    | none => fail (.unhandledOpcode op start)
    | some kind => operands l img op kind start

def instruction : Pass (Instruction × Option UInt32) := do
  let start ← ofReading here
  let op ← within (.opcode start) (checked (u8 img))
  dispatch l img op start

/-- Goes on while bytes remain. The last instruction may take more than there are. -/
def code (stop : UInt32) (fuel : Nat) (remaining : Int) (insts : List Instruction)
    (targets : List UInt32) : Pass (List Instruction × List UInt32) :=
  if 0 < remaining then
    match fuel with
    | 0 => ofGuarded (.error .endless)
    | fuel + 1 => do
      let (inst, target) ← instruction l img
      code stop fuel (remaining - inst.size.toNat) (insts ++ [inst]) (targets ++ target.toList)
  else if remaining < 0 then do
    let last ← ofGuarded (element insts (insts.length - 1))
    fail (.overrun last.opcode last.offset (-remaining).toNat stop)
  else return (insts, targets)

def function (e : Export) : Pass Function := fresh do
  checked (moveTo img e.offset.toNat)
  let (insts, targets) ← code l img (e.offset + e.size) (img.size + 1) e.size.toNat [] []
  return {
    offset := e.offset
    size := e.size
    params := e.params
    flags := e.flags
    name := e.name
    instructions := if insts.isEmpty then none else some (insts.map some)
    labels := some (Labels.ofTargets targets) }

end

section

variable {l : Lookups} {t : DecodeTables} (h : Matches l t) {img : Image}

theorem decodes_here : Decodes (ofReading here) fun pos => .ok (UInt32.ofNat pos, pos) where
  ok := by
    intro pos v next hv
    obtain ⟨rfl, rfl⟩ := Prod.mk.inj (Except.ok.inj hv)
    rfl
  error := nofun

include h

theorem decodes_dispatch (op : Opcode) (start : UInt32) :
    Decodes (dispatch l img op start) fun pos =>
      if !t.opcodes.knows op then Decoding.fail (.unhandledOpcode op start)
      else match op.kind? with
        | none => Decoding.fail (.unhandledOpcode op start)
        | some kind => (Disassembly.operands t img op kind start pos).map (seen op start kind) := by
  rw [dispatch, h.opcodes]
  split
  · exact Decodes.ofDecoding _
  · cases op.kind? with
    | none => exact Decodes.ofDecoding _
    | some kind => exact agrees_operands h kind

theorem decodes_instruction :
    Decodes (instruction l img) fun pos => (Disassembly.instruction t img pos).map fun step =>
      ((step.inst, step.target), step.next) := by
  refine (decodes_here.bind fun start => ((Decodes.checked (reads_u8 img)).within _).bind fun op =>
    decodes_dispatch h op start).of_eq fun pos => ?_
  simp only [Disassembly.instruction, Except.ok_bind]
  cases img.u8 pos with
  | error fault => rfl
  | ok op =>
    simp only [Except.map_eq_bind, Except.ok_bind, Decoding.ofRange_ok, Decoding.within_ok]
    split
    · rfl
    · cases Opcode.kind? op with
      | none => rfl
      | some kind =>
        simp only [Except.bind_bind, Except.ok_bind, UInt32.ofNat_add]
        rfl

omit h in
theorem code_overrun (stop : UInt32) (fuel : Nat) {remaining : Int} (hneg : remaining < 0)
    (insts : List Instruction) (last : Instruction) (targets : List UInt32) (r : Reader) :
    code l img stop fuel remaining (insts ++ [last]) targets r =
      .ok (Decoding.fail (.overrun last.opcode last.offset (-remaining).toNat stop), r) := by
  have hlast : element (insts ++ [last]) ((insts ++ [last]).length - 1) = .ok last := by
    rw [element, List.length_append, List.length_singleton, Nat.add_sub_cancel,
      List.getElem?_concat_length]
  rw [code.eq_def, if_neg (by omega), if_pos hneg, hlast]
  rfl

theorem code_eq (hsize : img.size < 2 ^ 32) (stop : UInt32) (fuel : Nat) {pos : Nat}
    (hpos : pos ≤ img.size) (hfuel : img.size < pos + fuel) (remaining : Nat)
    (insts : List Instruction) (targets : List UInt32) :
    ∃ r, code l img stop fuel remaining insts targets ⟨pos, none⟩ =
      .ok (Disassembly.codeFrom t img stop pos remaining insts.reverse targets.reverse, r) := by
  -- The fuel covers the bytes up to the end of the input, of which each round takes at least one.
  induction fuel generalizing pos remaining insts targets with
  | zero => omega
  | succ fuel ih =>
    rw [code, Disassembly.codeFrom]
    by_cases hdone : remaining = 0
    · rw [if_neg (by omega), if_neg (by omega), if_pos hdone, List.reverse_reverse,
        List.reverse_reverse]
      exact ⟨_, rfl⟩
    rw [if_pos (by omega), if_neg hdone]
    change ∃ r, (instruction l img ⟨pos, none⟩).bind _ = _
    cases hstep : Disassembly.instruction t img pos with
    | error e =>
      obtain ⟨r, hr⟩ := (decodes_instruction h).error_map hstep
      rw [hr]
      exact ⟨r, rfl⟩
    | ok step =>
      rw [(decodes_instruction h).ok_map hstep]
      change ∃ r, code l img stop fuel (remaining - step.inst.size.toNat) (insts ++ [step.inst])
        (targets ++ step.target.toList) ⟨step.next, none⟩ = _
      obtain ⟨-, hlength, hnext, hle, -⟩ := Disassembly.instruction_eq_ok hstep
      have hnat : step.inst.size.toNat = step.size := by
        rw [hlength]
        exact toNat_ofNat_of_lt (by omega)
      have hpositive := step.size_pos
      rw [hnat]
      simp only
      by_cases hover : remaining < step.size
      · -- The machine finds out in the next round, with the instruction already on its list.
        have hexcess : (-((remaining : Int) - step.size)).toNat = step.size - remaining := by omega
        rw [if_pos hover, code_overrun stop fuel (by omega), hexcess]
        exact ⟨_, rfl⟩
      · rw [if_neg hover, ← Int.ofNat_sub (by omega)]
        have hlow : step.next ≤ img.size := by omega
        obtain ⟨r, hr⟩ := ih hlow (by omega) (remaining - step.size) (insts ++ [step.inst])
          (targets ++ step.target.toList)
        rw [hr]
        refine ⟨r, ?_⟩
        rw [List.reverse_append, List.reverse_append, Disassembly.reverse_toList]
        rfl

theorem gives_function (hsize : img.size < 2 ^ 32) (e : Export) :
    Gives (function l img e) (Disassembly.function t img e) := by
  refine Gives.fresh ?_
  change ∃ r, (((moveTo img e.offset.toNat ⟨0, none⟩).map _).bind _).bind _ = _
  rw [Disassembly.function]
  cases hseek : img.seek e.offset.toNat with
  | error fault =>
    rw [moveTo_of_fault img hseek]
    exact ⟨_, rfl⟩
  | ok pos =>
    obtain ⟨rfl, hpos⟩ := Image.seek_eq_ok hseek
    rw [moveTo_of_seek img hseek]
    change ∃ r, (code l img (e.offset + e.size) (img.size + 1) e.size.toNat [] []
      ⟨e.offset.toNat, none⟩).bind _ = _
    obtain ⟨r, hr⟩ := code_eq h hsize (e.offset + e.size) (img.size + 1) hpos (by omega)
      e.size.toNat [] []
    rw [hr]
    simp only [Except.andThen_eq_bind, Except.ok_bind, Decoding.ofRange_ok, List.reverse_nil]
    cases Disassembly.codeFrom t img (e.offset + e.size) e.offset.toNat e.size.toNat [] [] with
    | error e => exact ⟨_, rfl⟩
    | ok found => exact ⟨_, rfl⟩

end
end ScriptCodec.Machine
