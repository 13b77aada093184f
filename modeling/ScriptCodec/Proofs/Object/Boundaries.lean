import ScriptCodec.Object.Code
import ScriptCodec.Proofs.Outcome

/-!
Placement and label resolution. A label stands for an instruction boundary of its function,
counted from the front, and resolving it gives the address this boundary has in the layout. So a
layout depends on the offsets of the function it lays out only through the boundaries its labels
stand for.
-/
namespace ScriptCodec

namespace Function

def boundaryIndices (fn : Function) : List (UInt32 × Nat) :=
  (fn.stop, fn.code.length) :: (fn.code.map Instruction.offset).zipIdx.reverse

def boundaryAt? (fn : Function) (offset : UInt32) : Option Nat :=
  (fn.boundaryIndices.find? fun e => e.1 == offset).map Prod.snd

def boundary? (fn : Function) (name : Bytes) : Option Nat :=
  (List.find? (fun e => e.2 == name) fn.labelMap).bind fun e => fn.boundaryAt? e.1

theorem boundaryIndices_le {fn : Function} {e : UInt32 × Nat} (he : e ∈ fn.boundaryIndices) :
    e.2 ≤ fn.code.length := by
  rcases List.mem_cons.mp he with rfl | he
  · exact Nat.le_refl _
  · have hmem := List.mem_zipIdx' (List.mem_reverse.mp he)
    rw [List.length_map] at hmem
    exact Nat.le_of_lt hmem.1

theorem boundaries_eq (fn : Function) {addrs : List UInt32} (hlength : addrs.length = fn.code.length)
    (stop : UInt32) :
    fn.boundaries addrs stop =
      fn.boundaryIndices.map fun e => (e.1, (addrs ++ [stop]).getD e.2 0) := by
  have hzip : (fn.code.map Instruction.offset).zip addrs =
      (fn.code.map Instruction.offset).zipIdx.map fun e => (e.1, (addrs ++ [stop]).getD e.2 0) := by
    apply List.ext_getElem
    · simp [hlength]
    · intro i h₁ h₂
      have hi : i < addrs.length := by
        rw [List.length_zip] at h₁
        omega
      simp [List.getElem?_append_left hi, hi]
  rw [boundaries, boundaryIndices, List.map_cons, List.map_reverse, ← hzip]
  simp [← hlength]

theorem address?_boundaries (fn : Function) {addrs : List UInt32}
    (hlength : addrs.length = fn.code.length) (stop offset : UInt32) :
    (fn.boundaries addrs stop).address? offset =
      (fn.boundaryAt? offset).bind fun k => (addrs ++ [stop])[k]? := by
  rw [boundaries_eq fn hlength, Boundaries.address?, boundaryAt?, List.find?_map, Function.comp_def]
  cases hfind : fn.boundaryIndices.find? fun e => e.1 == offset with
  | none => rfl
  | some e =>
    have hle := boundaryIndices_le (List.mem_of_find?_eq_some hfind)
    have hlt : e.2 < (addrs ++ [stop]).length := by
      rw [List.length_append, hlength]
      exact Nat.lt_succ_of_le hle
    simp only [Option.map_some, Option.bind_some, List.getD_eq_getElem?_getD]
    rw [List.getElem?_eq_getElem hlt, Option.getD_some]

theorem exists_address? {fn : Function} {addrs : List UInt32}
    (hlength : addrs.length = fn.code.length) (stop : UInt32) {offset : UInt32} {k : Nat}
    (h : fn.boundaryAt? offset = some k) :
    ∃ addr, (fn.boundaries addrs stop).address? offset = some addr := by
  have hle : k ≤ fn.code.length := by
    rw [boundaryAt?, Option.map_eq_some_iff] at h
    obtain ⟨e, he, rfl⟩ := h
    exact boundaryIndices_le (List.mem_of_find?_eq_some he)
  rw [address?_boundaries fn hlength, h, Option.bind_some]
  refine ⟨_, List.getElem?_eq_getElem ?_⟩
  rw [List.length_append, hlength]
  exact Nat.lt_succ_of_le hle

end Function

namespace Labels

def ResolvesTo (boundaries : Boundaries) (e : UInt32 × Bytes) (r : ResolvedLabel) : Prop :=
  r.name = e.2 ∧ r.offset = e.1 ∧ boundaries.address? e.1 = some r.addr

theorem resolveLoop_eq_ok_iff {function : Bytes} {boundaries : Boundaries}
    {done resolved : List ResolvedLabel} {labels : Labels} :
    resolveLoop function boundaries done labels = .ok resolved ↔
      ∃ rest, resolved = done.reverse ++ rest ∧ List.Forall₂ (ResolvesTo boundaries) labels rest ∧
        (labels.map Prod.snd).Nodup ∧ ∀ d ∈ done, d.name ∉ labels.map Prod.snd := by
  induction labels generalizing done with
  | nil => simp [resolveLoop, eq_comm]
  | cons e labels ih =>
    obtain ⟨offset, name⟩ := e
    rw [resolveLoop]
    cases hfind : done.find? fun d => d.name == name with
    | some d =>
      have hname : d.name = name := by simpa using List.find?_some hfind
      have hmem := List.mem_of_find?_eq_some hfind
      simp only [reduceCtorEq, false_iff]
      rintro ⟨rest, -, -, -, hdone⟩
      exact hdone d hmem (by simp [hname])
    | none =>
      have hfresh : ∀ d ∈ done, d.name ≠ name := by simpa using hfind
      cases haddr : boundaries.address? offset with
      | none =>
        simp only [reduceCtorEq, false_iff]
        rintro ⟨_, -, _ | ⟨hr, -⟩, -⟩
        rw [hr.2.2] at haddr
        cases haddr
      | some addr =>
        simp only [ih]
        constructor
        · rintro ⟨rest, rfl, hrest, hnodup, hdone⟩
          have hname : name ∉ labels.map Prod.snd := hdone ⟨name, offset, addr⟩ List.mem_cons_self
          refine ⟨⟨name, offset, addr⟩ :: rest, by simp, .cons ⟨rfl, rfl, haddr⟩ hrest, ?_, ?_⟩
          · exact List.nodup_cons.mpr ⟨hname, hnodup⟩
          · intro d hd
            rw [List.map_cons, List.mem_cons, not_or]
            exact ⟨hfresh d hd, hdone d (List.mem_cons_of_mem _ hd)⟩
        · rintro ⟨_, rfl, _ | @⟨_, r, _, rest, hr, hrest⟩, hnodup, hdone⟩
          have hr' : r = ⟨name, offset, addr⟩ := by
            obtain ⟨rname, roffset, raddr⟩ := r
            obtain ⟨rfl, rfl, hraddr⟩ := hr
            rw [haddr] at hraddr
            rw [Option.some_inj.mp hraddr]
          rw [List.map_cons, List.nodup_cons] at hnodup
          refine ⟨rest, by simp [hr'], hrest, hnodup.2, ?_⟩
          intro d hd
          rcases List.mem_cons.mp hd with rfl | hd
          · exact hnodup.1
          · exact fun h => hdone d hd (List.mem_cons_of_mem _ h)

theorem resolve_eq_ok_iff {function : Bytes} {boundaries : Boundaries}
    {resolved : List ResolvedLabel} {labels : Labels} :
    resolve labels function boundaries = .ok resolved ↔
      List.Forall₂ (ResolvesTo boundaries) labels resolved ∧ (labels.map Prod.snd).Nodup := by
  simp [resolve, resolveLoop_eq_ok_iff]

theorem find?_resolved {boundaries : Boundaries} {labels : Labels} {resolved : List ResolvedLabel}
    (h : List.Forall₂ (ResolvesTo boundaries) labels resolved) (name : Bytes) :
    (resolved.find? fun l => l.name == name).map ResolvedLabel.addr =
      (List.find? (fun e => e.2 == name) labels).bind fun e => boundaries.address? e.1 := by
  induction h with
  | nil => rfl
  | @cons e r labels resolved hr _ ih =>
    rw [List.find?_cons, List.find?_cons, hr.1]
    cases hname : e.2 == name with
    | true => exact hr.2.2.symm
    | false => exact ih

end Labels

namespace Layout

inductive Places : UInt32 → List Instruction → List Placed → UInt32 → Prop
  | nil (addr : UInt32) : Places addr [] [] addr
  | cons {inst : Instruction} {code : List Instruction} {addr size stop : UInt32}
    {placed : List Placed} (h : instructionSize inst.opcode addr inst.args = .ok size)
    (rest : Places (addr + size) code placed stop) :
    Places addr (inst :: code) (⟨inst, addr, size⟩ :: placed) stop

theorem placeFrom_eq_ok_iff {done placed : List Placed} {addr stop : UInt32}
    {code : List Instruction} :
    placeFrom done addr code = .ok (placed, stop) ↔
      ∃ rest, placed = done.reverse ++ rest ∧ Places addr code rest stop := by
  induction code generalizing done addr with
  | nil =>
    simp only [placeFrom, Except.ok.injEq, Prod.mk.injEq]
    constructor
    · rintro ⟨rfl, rfl⟩
      exact ⟨[], by simp, .nil addr⟩
    · rintro ⟨_, rfl, _ | _⟩
      simp
  | cons inst code ih =>
    simp only [placeFrom, Except.bind_eq_ok_iff, ih]
    constructor
    · rintro ⟨size, hsize, rest, rfl, hrest⟩
      exact ⟨⟨inst, addr, size⟩ :: rest, by simp, .cons hsize hrest⟩
    · rintro ⟨_, rfl, _ | ⟨hsize, hrest⟩⟩
      exact ⟨_, hsize, _, by simp, hrest⟩

theorem Places.map_inst {addr stop : UInt32} {code : List Instruction} {placed : List Placed}
    (h : Places addr code placed stop) : placed.map Placed.inst = code := by
  induction h with
  | nil => rfl
  | cons _ _ ih => rw [List.map_cons, ih]

def addresses (lay : Layout) : List UInt32 := lay.placed.map Placed.addr ++ [lay.stop]

theorem ofFunction_eq_ok_iff {fn : Function} {start : UInt32} {lay : Layout} :
    ofFunction fn start = .ok lay ↔
      Places start fn.code lay.placed lay.stop ∧
        fn.resolveLabels (lay.placed.map Placed.addr) lay.stop = .ok lay.labels := by
  unfold ofFunction
  constructor
  · intro h
    split at h
    · exact absurd h Assembling.fail_ne_ok
    · rename_i placed stop hplace
      obtain ⟨_, rfl, hplaces⟩ := placeFrom_eq_ok_iff.mp hplace
      split at h
      · exact absurd h Assembling.fail_ne_ok
      · rename_i labels hlabels
        rw [← Except.ok.inj h]
        exact ⟨hplaces, hlabels⟩
  · rintro ⟨hplaces, hlabels⟩
    have hplace : place start fn.code = .ok (lay.placed, lay.stop) :=
      placeFrom_eq_ok_iff.mpr ⟨lay.placed, rfl, hplaces⟩
    simp only [hplace, hlabels]

theorem length_placed {fn : Function} {start : UInt32} {lay : Layout}
    (h : ofFunction fn start = .ok lay) : (lay.placed.map Placed.addr).length = fn.code.length := by
  have hinst := (ofFunction_eq_ok_iff.mp h).1.map_inst
  rw [← hinst, List.length_map, List.length_map]

theorem addressOf?_eq {fn : Function} {start : UInt32} {lay : Layout}
    (h : ofFunction fn start = .ok lay) (name : Bytes) :
    lay.addressOf? name = (fn.boundary? name).bind fun k => lay.addresses[k]? := by
  have hresolve := Labels.resolve_eq_ok_iff.mp (ofFunction_eq_ok_iff.mp h).2
  rw [addressOf?, Labels.find?_resolved hresolve.1, Function.boundary?, Option.bind_assoc]
  simp only [Function.address?_boundaries fn (length_placed h)]
  rfl

end Layout
end ScriptCodec
