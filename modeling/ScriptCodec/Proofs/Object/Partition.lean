import ScriptCodec.Proofs.Object.Decoded
import ScriptCodec.Proofs.Object.Extents

/-!
What successful decoding says about the bytes. The instructions of a function fill its extent
without gaps, and an extent ends at least four bytes before the next one starts. The sizes of
functions come from the offsets of their neighbours by arithmetic modulo `2^32`; no sum wraps,
because a function whose offset lies past the input is not decoded at all.
-/
namespace ScriptCodec

namespace Instruction

/-- Instructions of at least one byte each, one after the other from `pos` to `stop`. -/
inductive Fill (stop : Nat) : Nat → List Instruction → Prop
  | nil : Fill stop stop []
  | cons {pos : Nat} {inst : Instruction} {code : List Instruction}
    (offset : inst.offset.toNat = pos) (size_pos : 0 < inst.size.toNat)
    (rest : Fill stop (pos + inst.size.toNat) code) : Fill stop pos (inst :: code)

variable {pos stop : Nat} {code : List Instruction}

theorem Fill.le (h : Fill stop pos code) : pos ≤ stop := by
  induction h with
  | nil => exact Nat.le_refl _
  | cons _ _ _ ih => omega

theorem Fill.stop_le (h : Fill stop pos code) {inst : Instruction} (hinst : inst ∈ code) :
    0 < inst.size.toNat ∧ inst.offset.toNat + inst.size.toNat ≤ stop := by
  induction h with
  | nil => cases hinst
  | cons hoffset hsize hrest ih =>
    rcases List.mem_cons.mp hinst with rfl | hinst
    · rw [hoffset]
      exact ⟨hsize, hrest.le⟩
    · exact ih hinst

theorem Fill.stop_eq (h : Fill stop pos code) (hstop : stop < 2 ^ 32) {start : UInt32}
    (hstart : start.toNat = pos) :
    (match code.getLast? with
      | some last => last.offset + last.size
      | none => start).toNat = stop := by
  induction h generalizing start with
  | nil => exact hstart
  | @cons pos inst code hoffset _ hrest ih =>
    have hle := hrest.le
    have hnext : (inst.offset + inst.size).toNat = pos + inst.size.toNat := by
      rw [UInt32.toNat_add, hoffset, Nat.mod_eq_of_lt (by omega)]
    have hrun := ih hnext
    cases code with
    | nil => exact hrun
    | cons next code => exact hrun

end Instruction

/-- A function whose instructions fill its extent, inside the first `limit` bytes. -/
structure Function.FillsExtent (limit : Nat) (fn : Function) : Prop where
  whole : fn.IsWhole
  code : Instruction.Fill (fn.offset.toNat + fn.size.toNat) fn.offset.toNat fn.code
  stop : fn.stop.toNat = fn.offset.toNat + fn.size.toNat
  inside : ∀ inst ∈ fn.code, 0 < inst.size.toNat ∧ inst.offset.toNat + inst.size.toNat ≤ limit

namespace Disassembly

variable {t : DecodeTables} {img : Image}

/-- Decoding stops exactly where the bytes it was given are used up. -/
theorem codeFrom_fills (hsize : img.size < 2 ^ 32) {stop : UInt32} {pos remaining : Nat}
    {done code : List Instruction} {before targets : List UInt32} (hpos : pos ≤ img.size)
    (h : codeFrom t img stop pos remaining done before = .ok (code, targets)) :
    pos + remaining ≤ img.size ∧
      ∃ rest, code = done.reverse ++ rest ∧ Instruction.Fill (pos + remaining) pos rest := by
  fun_induction codeFrom t img stop pos remaining done before with
  | case1 =>
    obtain ⟨rfl, rfl⟩ := Prod.mk.inj (Except.ok.inj h)
    exact ⟨hpos, [], (List.append_nil _).symm, .nil⟩
  | case2 => cases h
  | case3 => exact absurd h Decoding.fail_ne_ok
  | case4 pos remaining done before _ step hstep hle ih =>
    obtain ⟨hoffset, hlength, hnext, hinside, -⟩ := instruction_eq_ok hstep
    have hsizePos := step.size_pos
    have hoffset' : step.inst.offset.toNat = pos := by
      rw [hoffset]
      exact toNat_ofNat_of_lt (by omega)
    have hlength' : step.inst.size.toNat = step.size := by
      rw [hlength]
      exact toNat_ofNat_of_lt (by omega)
    have hstop : step.next + (remaining - step.size) = pos + remaining := by omega
    obtain ⟨hend, rest, hcode, hfill⟩ := ih (by omega) h
    rw [hstop] at hend hfill
    rw [hnext, ← hlength'] at hfill
    refine ⟨hend, step.inst :: rest, ?_, .cons hoffset' (by omega) hfill⟩
    rw [hcode, List.reverse_cons, List.append_assoc, List.singleton_append]

theorem DecodedAt.fillsExtent (hsize : img.size < 2 ^ 32) {e : Export} {targets : List UInt32}
    {fn : Function} (h : DecodedAt t img e targets fn) : fn.FillsExtent img.size := by
  obtain ⟨hend, rest, hrest, hfill⟩ := codeFrom_fills hsize h.offset_le h.code
  rw [List.reverse_nil, List.nil_append] at hrest
  rw [← hrest, ← h.offset, ← h.size] at hfill
  rw [← h.offset, ← h.size] at hend
  refine ⟨h.whole, hfill, hfill.stop_eq (by omega) rfl, ?_⟩
  intro inst hinst
  obtain ⟨hpos, hle⟩ := hfill.stop_le hinst
  exact ⟨hpos, Nat.le_trans hle hend⟩

end Disassembly

theorem exports_of_disassemble {opcodes : OpcodeTable} {img : Image} {obj : ScriptObject}
    (hsize : img.size < 2 ^ 32 - 4) (h : disassemble opcodes img = .ok obj) :
    obj.exports.Pairwise ExportSizes.Precede ∧
      ∀ e ∈ obj.exports, e.offset.toNat + e.size.toNat ≤ img.size := by
  obtain ⟨s, fns, hs, rfl, hfns⟩ := exists_sections_of_disassemble h
  have hinside : ∀ e ∈ s.exports, e.offset.toNat + e.size.toNat ≤ img.size := by
    intro e he
    obtain ⟨fn, -, targets, hfn⟩ := hfns.exists_right he
    exact (Disassembly.codeFrom_fills (by omega) hfn.offset_le hfn.code).1
  refine ⟨?_, hinside⟩
  simp only [Disassembly.sections, Except.andThen_eq_ok_iff, Decoding.within_eq_ok_iff,
    Except.pure_eq_ok_iff, Tables.exports] at hs
  obtain ⟨header, -, strings, -, includes, -, trees, -, fixups, -, imports, -, exports,
    ⟨entries, -, hderive⟩, rfl⟩ := hs
  have hoffset : ∀ e ∈ exports, e.offset.toNat + 4 < 2 ^ 32 := by
    intro e he
    have hle := hinside e he
    omega
  obtain ⟨rest, hrest, -, hchain⟩ := ExportSizes.deriveLoop_precede hderive hoffset
  change exports.Pairwise ExportSizes.Precede
  rw [hrest]
  exact List.isChain_iff_pairwise.mp hchain

theorem disassemble_partitions {opcodes : OpcodeTable} {img : Image} {obj : ScriptObject}
    (hsize : img.size < 2 ^ 32 - 4) (h : disassemble opcodes img = .ok obj) :
    ∃ fns, obj.body.functions = some (fns.map some) ∧
      obj.exports.Forall₂ (fun e fn => fn.name = e.name ∧ fn.offset = e.offset ∧ fn.size = e.size)
        fns ∧
      (∀ fn ∈ fns, fn.FillsExtent img.size) ∧
      fns.Pairwise fun f g => f.offset.toNat + f.size.toNat + 4 ≤ g.offset.toNat := by
  have hprecede := (exports_of_disassemble hsize h).1
  obtain ⟨s, fns, -, rfl, hdecoded⟩ := exists_sections_of_disassemble h
  have hstands : s.exports.Forall₂
      (fun e fn => fn.name = e.name ∧ fn.offset = e.offset ∧ fn.size = e.size) fns := by
    refine hdecoded.imp fun e fn hfn => ?_
    obtain ⟨targets, hfn⟩ := hfn
    exact ⟨hfn.name, hfn.offset, hfn.size⟩
  refine ⟨fns, rfl, hstands, ?_, ?_⟩
  · intro fn hfn
    obtain ⟨e, -, targets, hfn⟩ := hdecoded.exists_left hfn
    exact hfn.fillsExtent (by omega)
  · have hextents : s.exports.map (fun e => (e.offset, e.size)) =
        fns.map fun fn => (fn.offset, fn.size) := by
      rw [← List.forall₂_eq_eq_eq, List.forall₂_map_left_iff, List.forall₂_map_right_iff]
      refine hstands.imp fun e fn hfn => ?_
      rw [hfn.2.1, hfn.2.2]
    have hpairs : (s.exports.map fun e => (e.offset, e.size)).Pairwise
        fun a b => a.1.toNat + a.2.toNat + 4 ≤ b.1.toNat := List.pairwise_map.mpr hprecede
    rw [hextents] at hpairs
    exact List.pairwise_map.mp hpairs

theorem disassemble_partitions_callingModule :
    ∃ a obj fns, assemble .builtIn 1 callingModule = .ok a ∧ a.file.toArray.size < 2 ^ 32 - 4 ∧
      disassemble .builtIn a.file.toArray = .ok obj ∧ obj.body.functions = some (fns.map some) ∧
      obj.exports.Forall₂ (fun e fn => fn.name = e.name ∧ fn.offset = e.offset ∧ fn.size = e.size)
        fns ∧
      (∀ fn ∈ fns, fn.FillsExtent a.file.toArray.size) ∧
      fns.Pairwise fun f g => f.offset.toNat + f.size.toNat + 4 ≤ g.offset.toNat := by
  obtain ⟨a, ha, hrest⟩ : ∃ a, assemble .builtIn 1 callingModule = .ok a ∧
      (decide (a.file.toArray.size < 2 ^ 32 - 4) &&
        (disassemble .builtIn a.file.toArray).toOption.any fun _ => true) = true :=
    Except.exists_of_any (by decide +kernel)
  rw [Bool.and_eq_true, decide_eq_true_eq] at hrest
  obtain ⟨obj, hobj, -⟩ := Except.exists_of_any hrest.2
  obtain ⟨fns, hfns⟩ := disassemble_partitions hrest.1 hobj
  exact ⟨a, obj, fns, ha, hrest.1, hobj, hfns⟩

end ScriptCodec
