import ScriptCodec.Proofs.Object.Schedule

/-!
Branch targets in the bytes. A branch stores the distance to its target in its last bytes, counted
from the byte after it. The labels of a decoded function are the targets found this way: one label
for each target, named after it, and carried by the branches that lead there.
-/
namespace ScriptCodec

/-- The one branch that stores a long distance. -/
def Opcode.switch : Opcode := 0x59

theorem Opcode.eq_switch_iff {op : Opcode} : op.kind? = some .longJump ↔ op = switch := by
  have hall : ∀ n < 256,
      Opcode.kind? (UInt8.ofNat n) = some .longJump ↔ UInt8.ofNat n = switch := by
    decide +kernel
  have hop := hall op.toNat op.toNat_lt
  rwa [UInt8.ofNat_toNat] at hop

namespace Instruction

def distanceWidth (inst : Instruction) : Nat := if inst.opcode = Opcode.switch then 4 else 2

def next (inst : Instruction) : Nat := inst.offset.toNat + inst.size.toNat

/-- The last bytes of a branch as a signed little-endian number. -/
def distanceIn (img : Image) (inst : Instruction) : Int :=
  Int.bmod (Word.ofBytes (img.extract (inst.next - inst.distanceWidth) inst.next).toList)
    (256 ^ inst.distanceWidth)

/-- Where a branch leads by its bytes; addresses wrap. -/
def targetIn (img : Image) (inst : Instruction) : UInt32 :=
  UInt32.ofInt (inst.next + inst.distanceIn img)

def StoresDistance (img : Image) (inst : Instruction) : Prop :=
  inst.distanceWidth < inst.size.toNat ∧ inst.next ≤ img.size

end Instruction

/-- The labels of the function are the targets that its branches have in the image. -/
structure Function.LabelsTargets (img : Image) (fn : Function) : Prop where
  keys : ∀ addr, (∃ name, (addr, name) ∈ fn.labelMap) ↔
    ∃ inst ∈ fn.code, inst.IsBranch ∧ inst.targetIn img = addr
  names : ∀ e ∈ fn.labelMap, e.2 = text "loc_" ++ Text.hex e.1.toNat
  stored : ∀ inst ∈ fn.code, inst.IsBranch → inst.StoresDistance img
  operands : ∀ inst ∈ fn.code, inst.IsBranch →
    ∃ name, inst.operands = some [name] ∧ (inst.targetIn img, name) ∈ fn.labelMap
  same : ∀ i ∈ fn.code, ∀ j ∈ fn.code, i.IsBranch → j.IsBranch →
    (i.operands = j.operands ↔ i.targetIn img = j.targetIn img)

theorem Image.eq_ofBytes_of_word {img : Image} {width pos v : Nat}
    (h : img.word width pos = .ok v) :
    v = Word.ofBytes (img.extract pos (pos + width)).toList := by
  simp only [word, slice, Except.map_eq_ok_iff] at h
  obtain ⟨bs, hbs, rfl⟩ := h
  split at hbs
  · rw [← Except.ok.inj hbs]
  · cases hbs

namespace Disassembly

variable {t : DecodeTables} {img : Image} {pos : Nat}

theorem eq_ofBytes_of_aligned {width v pad next : Nat}
    (h : aligned img width pos = .ok (v, pad, next)) :
    v = Word.ofBytes (img.extract (next - width) next).toList := by
  simp only [aligned, Except.map_eq_ok_iff, Prod.mk.injEq] at h
  obtain ⟨v, hv, rfl, rfl, rfl⟩ := h
  rw [Nat.add_sub_cancel]
  exact Image.eq_ofBytes_of_word hv

theorem operands_of_branch (hsize : img.size < 2 ^ 32) {step : Step}
    (h : instruction t img pos = .ok step) (hbranch : step.inst.IsBranch) :
    step.inst.StoresDistance img ∧
      step.inst.operands = some [Labels.nameOf (step.inst.targetIn img)] := by
  obtain ⟨op, kind, r, hstep⟩ := exists_readAs h
  have hkind := hstep.kind_eq
  rw [hstep.inst_eq] at hbranch ⊢
  obtain ⟨kind', hkind', hisBranch⟩ := hbranch
  obtain rfl : kind = kind' := Option.some_inj.mp (hkind.symm.trans hkind')
  have hread : ∃ width v next, kind.baseSize = width + 1 ∧
      (if op = Opcode.switch then 4 else 2) = width ∧
      aligned img width (pos + 1) = .ok (v, r.extra, next) ∧
      r.operands = some [Labels.nameOf (Branch.target (UInt32.ofNat pos)
        (UInt32.ofNat (kind.baseSize + r.extra)) (signedWord width v))] := by
    cases hstep.reads with
    | jump hv htarget =>
      have hop : op ≠ Opcode.switch := by
        rw [Ne, ← Opcode.eq_switch_iff, hkind]
        decide
      exact ⟨2, _, _, rfl, if_neg hop, hv, by rw [htarget]⟩
    | longJump hv htarget =>
      have hop : op = Opcode.switch := Opcode.eq_switch_iff.mp hkind
      exact ⟨4, _, _, rfl, if_pos hop, hv, by rw [htarget]⟩
    | _ => cases hisBranch
  obtain ⟨width, v, next, hbase, hwidth, hread, hoperands⟩ := hread
  obtain ⟨-, -, hnext, hle⟩ := aligned_eq_ok hread
  have hstop : next = pos + (kind.baseSize + r.extra) := by omega
  rw [eq_ofBytes_of_aligned hread, hstop] at hoperands
  have hoffset : (UInt32.ofNat pos).toNat = pos := toNat_ofNat_of_lt (by omega)
  have hlength : (UInt32.ofNat (kind.baseSize + r.extra)).toNat = kind.baseSize + r.extra :=
    toNat_ofNat_of_lt (by omega)
  constructor
  · simp only [Instruction.StoresDistance, Instruction.distanceWidth, Instruction.next, hwidth,
      hoffset, hlength]
    omega
  · simp only [hoperands, Branch.target, Instruction.targetIn, Instruction.distanceIn,
      Instruction.distanceWidth, Instruction.next, hwidth, hoffset, hlength, Nat.cast_add]
    rfl

/-- What every decoded instruction satisfies holds of all the code of a function. -/
theorem codeFrom_forall {P : Instruction → Prop}
    (hstep : ∀ pos step, instruction t img pos = .ok step → P step.inst) {stop : UInt32}
    {remaining : Nat} {done code : List Instruction} {before targets : List UInt32}
    (hdone : ∀ inst ∈ done, P inst)
    (h : codeFrom t img stop pos remaining done before = .ok (code, targets)) :
    ∀ inst ∈ code, P inst := by
  fun_induction codeFrom t img stop pos remaining done before with
  | case1 =>
    obtain ⟨rfl, rfl⟩ := Prod.mk.inj (Except.ok.inj h)
    intro inst hinst
    exact hdone inst (List.mem_reverse.mp hinst)
  | case2 => cases h
  | case3 => exact absurd h Decoding.fail_ne_ok
  | case4 pos remaining done before _ step hok _ ih =>
    apply ih _ h
    exact List.forall_mem_cons.mpr ⟨hstep pos step hok, hdone⟩

theorem DecodedAt.labelsTargets (hsize : img.size < 2 ^ 32) {e : Export} {targets : List UInt32}
    {fn : Function} (h : DecodedAt t img e targets fn) : fn.LabelsTargets img := by
  have hcode : ∀ inst ∈ fn.code, inst.IsBranch → inst.StoresDistance img ∧
      inst.operands = some [Labels.nameOf (inst.targetIn img)] :=
    codeFrom_forall (fun _ _ hok hbranch => operands_of_branch hsize hok hbranch)
      (List.forall_mem_nil _) h.code
  have hargs {inst : Instruction} (hinst : inst ∈ fn.code) (hbranch : inst.IsBranch) :
      inst.args = [Labels.nameOf (inst.targetIn img)] := by
    rw [Instruction.args, (hcode inst hinst hbranch).2]
    rfl
  have hlabels := h.labelsItsBranches
  refine ⟨?_, ?_, ?_, ?_, ?_⟩
  · intro addr
    constructor
    · intro hkey
      obtain ⟨name, hmem⟩ := hkey
      obtain ⟨rfl, inst, hinst, hbranch, hname⟩ := (hlabels addr name).mp hmem
      rw [hargs hinst hbranch] at hname
      exact ⟨inst, hinst, hbranch, Labels.nameOf_injective (List.singleton_inj.mp hname)⟩
    · intro htarget
      obtain ⟨inst, hinst, hbranch, rfl⟩ := htarget
      exact ⟨_, (hlabels _ _).mpr ⟨rfl, inst, hinst, hbranch, hargs hinst hbranch⟩⟩
  · intro e he
    exact ((hlabels e.1 e.2).mp he).1
  · intro inst hinst hbranch
    exact (hcode inst hinst hbranch).1
  · intro inst hinst hbranch
    refine ⟨_, (hcode inst hinst hbranch).2, (hlabels _ _).mpr ⟨rfl, ?_⟩⟩
    exact ⟨inst, hinst, hbranch, hargs hinst hbranch⟩
  · intro i hi j hj hibranch hjbranch
    rw [(hcode i hi hibranch).2, (hcode j hj hjbranch).2]
    constructor
    · intro hsame
      exact Labels.nameOf_injective (List.singleton_inj.mp (Option.some_inj.mp hsame))
    · intro hsame
      rw [hsame]

end Disassembly

theorem disassemble_labels {opcodes : OpcodeTable} {img : Image} {obj : ScriptObject}
    (hsize : img.size < 2 ^ 32) (h : disassemble opcodes img = .ok obj) :
    ∀ fn ∈ obj.body.functionList, fn.LabelsTargets img := by
  obtain ⟨s, fns, -, rfl, hfns⟩ := exists_sections_of_disassemble h
  have hlist : (s.object fns).body.functionList = fns := Module.functionList_eq rfl
  intro fn hfn
  rw [hlist] at hfn
  obtain ⟨e, -, targets, hdecoded⟩ := hfns.exists_left hfn
  exact hdecoded.labelsTargets hsize

def loopingModule : Module where
  name := text "main"
  includes := none
  functions := some [some ⟨0, 4, 0, 0, text "run", some [
    some ⟨0, 1, 59, some [text "out"]⟩,
    some ⟨1, 1, Opcode.switch, some [text "top"]⟩,
    some ⟨2, 1, 64, some [text "top"]⟩,
    some ⟨3, 1, 0, none⟩], some [(0, text "top"), (3, text "out")]⟩]
  imports := none

theorem disassemble_labels_loopingModule :
    ∃ a obj, assemble .builtIn 0 loopingModule = .ok a ∧ a.file.toArray.size < 2 ^ 32 ∧
      disassemble .builtIn a.file.toArray = .ok obj ∧
      obj.body.functionList.map (fun fn => fn.labelMap.map Prod.fst) = [[76, 92]] ∧
      ∀ fn ∈ obj.body.functionList, fn.LabelsTargets a.file.toArray := by
  obtain ⟨a, ha, hrest⟩ : ∃ a, assemble .builtIn 0 loopingModule = .ok a ∧
      (decide (a.file.toArray.size < 2 ^ 32) &&
        (disassemble .builtIn a.file.toArray).toOption.any fun obj =>
          decide (obj.body.functionList.map (fun fn => fn.labelMap.map Prod.fst) =
            [[76, 92]])) = true :=
    Except.exists_of_any (by decide +kernel)
  rw [Bool.and_eq_true, decide_eq_true_eq] at hrest
  obtain ⟨obj, hobj, hkeys⟩ := Except.exists_of_any hrest.2
  have hlabels := disassemble_labels hrest.1 hobj
  exact ⟨a, obj, ha, hrest.1, hobj, of_decide_eq_true hkeys, hlabels⟩

end ScriptCodec
