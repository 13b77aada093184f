import ScriptCodec.Object.Assembly
import ScriptCodec.Proofs.Object.Boundaries
import ScriptCodec.Proofs.Operand.Emission

/-!
Emission as relations without accumulators: an instruction, the code of a function, and the
functions of a module one after the other. While the code ends below `2^32` every address counts
the bytes before it, so the sites of a module stand in ascending order.
-/
namespace ScriptCodec

def Function.IsCounted (fn : Function) : Prop := ∀ inst ∈ fn.code, inst.IsCounted

namespace Code

def Encodes (ctx : Context) (lay : Layout) (dev : Bool) (x : Placed) (e : Emitted) : Prop :=
  ∃ kind v operand, x.inst.opcode.kind? = some kind ∧ kind.read x.inst.args = .ok v ∧
    Emits ctx lay x.inst.opcode x.addr dev kind v operand ∧
    e = ⟨x.inst.opcode :: operand.bytes, operand.sites, operand.region⟩ ∧
    x.size = UInt32.ofNat e.bytes.length

theorem Encodes.isCounted {ctx : Context} {lay : Layout} {dev : Bool} {x : Placed} {e : Emitted}
    (h : Encodes ctx lay dev x e) : x.inst.IsCounted := by
  obtain ⟨kind, v, -, hkind, hread, -⟩ := h
  exact Mention.isCounted_of_ofInstruction (Mention.ofInstruction_of_read hkind hread)

theorem instruction_eq_ok_iff {ctx : Context} (hctx : ctx.opcodes = .builtIn) {lay : Layout}
    {dev : Bool} {x : Placed} (hcounted : x.inst.IsCounted) {e : Emitted} :
    instruction ctx lay dev x = .ok e ↔ Encodes ctx lay dev x e := by
  simp only [instruction, hctx, Except.bind_eq_ok_iff, OpcodeTable.kind_builtIn]
  constructor
  · rintro ⟨kind, hkind, operand, hoperand, h⟩
    obtain ⟨v, hread, hemits⟩ := exists_emits (fun hanim => hcounted (hanim ▸ hkind)) hoperand
    split at h
    · rename_i hsize
      rw [← Except.ok.inj h]
      exact ⟨kind, v, operand, hkind, hread, hemits, rfl, hsize.symm⟩
    · exact absurd h Assembling.fail_ne_ok
  · rintro ⟨kind, v, operand, hkind, hread, hemits, rfl, hsize⟩
    refine ⟨kind, hkind, operand, operandBytes_of_emits hread hemits, ?_⟩
    rw [if_pos hsize.symm]

/-- Instructions emitted in order, given the ends of the development blocks they stand in. -/
inductive EncodesAll (ctx : Context) (lay : Layout) :
    List UInt32 → List Placed → List Emitted → Prop
  | nil (regions : List UInt32) : EncodesAll ctx lay regions [] []
  | cons {regions : List UInt32} {x : Placed} {xs : List Placed} {e : Emitted} {es : List Emitted}
    (head : Encodes ctx lay (!(regions.dropWhile (· ≤ x.addr)).isEmpty) x e)
    (tail : EncodesAll ctx lay (e.region.toList ++ regions.dropWhile (· ≤ x.addr)) xs es) :
    EncodesAll ctx lay regions (x :: xs) (e :: es)

def EncodesBody (ctx : Context) (fn : Function) (start : UInt32) (b : Body) : Prop :=
  ∃ lay es, Layout.ofFunction fn start = .ok lay ∧ EncodesAll ctx lay [] lay.placed es ∧
    b = ⟨(es.map Emitted.bytes).flatten, (es.map Emitted.sites).flatten, lay.stop⟩

section

variable {ctx : Context} (hctx : ctx.opcodes = .builtIn) {lay : Layout} {fn : Function}

include hctx

theorem encodesAll_of_foldlM {xs : List Placed} (hcounted : ∀ x ∈ xs, x.inst.IsCounted)
    {p q : Progress} (h : xs.foldlM (step ctx fn lay) p = .ok q) :
    ∃ es, EncodesAll ctx lay p.regions xs es ∧
      q.chunks = (es.map Emitted.bytes).reverse ++ p.chunks ∧
      q.sites = (es.map Emitted.sites).reverse ++ p.sites := by
  induction xs generalizing p with
  | nil =>
    rw [List.foldlM_nil, Except.pure_eq_ok_iff] at h
    subst h
    exact ⟨[], .nil _, rfl, rfl⟩
  | cons x xs ih =>
    obtain ⟨hx, hxs⟩ := List.forall_mem_cons.mp hcounted
    simp only [List.foldlM_cons, Except.andThen_eq_ok_iff, step, Except.map_eq_ok_iff,
      Assembling.within_eq_ok_iff, instruction_eq_ok_iff hctx hx] at h
    obtain ⟨_, ⟨e, he, rfl⟩, h⟩ := h
    obtain ⟨es, hes, hchunks, hsites⟩ := ih hxs h
    refine ⟨e :: es, .cons he hes, ?_, ?_⟩
    · simp [hchunks]
    · simp [hsites]

theorem foldlM_of_encodesAll (fn : Function) {xs : List Placed} {es : List Emitted} {p : Progress}
    (h : EncodesAll ctx lay p.regions xs es) :
    ∃ q, xs.foldlM (step ctx fn lay) p = .ok q ∧
      q.chunks = (es.map Emitted.bytes).reverse ++ p.chunks ∧
      q.sites = (es.map Emitted.sites).reverse ++ p.sites := by
  induction xs generalizing p es with
  | nil =>
    cases h
    exact ⟨p, rfl, rfl, rfl⟩
  | cons x xs ih =>
    obtain _ | ⟨head, tail⟩ := h
    rename_i e es
    have hhead := (instruction_eq_ok_iff hctx head.isCounted).mpr head
    obtain ⟨q, hq, hchunks, hsites⟩ := ih (p := ⟨e.region.toList ++ p.regions.dropWhile (· ≤ x.addr),
      e.bytes :: p.chunks, e.sites :: p.sites⟩) tail
    refine ⟨q, ?_, ?_, ?_⟩
    · simp only [List.foldlM_cons, Except.andThen_eq_ok_iff, step, Except.map_eq_ok_iff,
        Assembling.within_eq_ok_iff]
      exact ⟨_, ⟨e, hhead, rfl⟩, hq⟩
    · simp [hchunks]
    · simp [hsites]

theorem body_eq_ok_iff (hcounted : fn.IsCounted) {start : UInt32} {b : Body} :
    body ctx fn start = .ok b ↔ EncodesBody ctx fn start b := by
  simp only [body, Except.bind_eq_ok_iff, Assembling.within_eq_ok_iff, Except.map_eq_ok_iff]
  constructor
  · rintro ⟨lay, hlay, q, hq, rfl⟩
    have hplaced : ∀ x ∈ lay.placed, x.inst.IsCounted := by
      intro x hx
      apply hcounted
      rw [← (Layout.ofFunction_eq_ok_iff.mp hlay).1.map_inst]
      exact List.mem_map_of_mem hx
    obtain ⟨es, hes, hchunks, hsites⟩ := encodesAll_of_foldlM hctx hplaced hq
    refine ⟨lay, es, hlay, hes, ?_⟩
    simp [hchunks, hsites]
  · rintro ⟨lay, es, hlay, hes, rfl⟩
    obtain ⟨q, hq, hchunks, hsites⟩ := foldlM_of_encodesAll hctx fn (p := {}) hes
    refine ⟨lay, hlay, q, hq, ?_⟩
    simp [hchunks, hsites]

end

/-- Functions emitted from `codeOffset` on, after `before` bytes of code. -/
inductive Lays (ctx : Context) (codeOffset : UInt32) : Nat → List Function → List Body → Prop
  | nil (before : Nat) : Lays ctx codeOffset before [] []
  | cons {before : Nat} {fn : Function} {fns : List Function} {b : Body} {bs : List Body}
    (head : EncodesBody ctx fn (codeOffset + UInt32.ofNat before) b)
    (tail : Lays ctx codeOffset (before + (b.bytes ++ gapBytes b).length) fns bs) :
    Lays ctx codeOffset before (fn :: fns) (b :: bs)

def joined : List Body → Bytes
  | [] => []
  | b :: bs => if bs.isEmpty then b.bytes else b.bytes ++ gapBytes b ++ joined bs

def exportsFrom (codeOffset : UInt32) : Nat → List Function → List Body → List Export
  | before, fn :: fns, b :: bs =>
    exportOf fn (codeOffset + UInt32.ofNat before) b.bytes ::
      exportsFrom codeOffset (before + (b.bytes ++ gapBytes b).length) fns bs
  | _, _, _ => []

def ofBodies (codeOffset : UInt32) (fns : List Function) (bs : List Body) : Code :=
  ⟨joined bs, exportsFrom codeOffset 0 fns bs, (bs.map Body.sites).flatten⟩

theorem Lays.length_eq {ctx : Context} {codeOffset : UInt32} {before : Nat} {fns : List Function}
    {bs : List Body} (h : Lays ctx codeOffset before fns bs) : fns.length = bs.length := by
  induction h with
  | nil => rfl
  | cons _ _ ih => rw [List.length_cons, List.length_cons, ih]

theorem map_name_exportsFrom {ctx : Context} {codeOffset : UInt32} {before : Nat}
    {fns : List Function} {bs : List Body} (h : Lays ctx codeOffset before fns bs) :
    (exportsFrom codeOffset before fns bs).map Export.name = fns.map Function.name := by
  induction h with
  | nil => rfl
  | cons _ _ ih =>
    rw [exportsFrom, List.map_cons, List.map_cons, ih]
    rfl

theorem isEmpty_eq {α β : Type} {xs : List α} {ys : List β} (h : xs.length = ys.length) :
    xs.isEmpty = ys.isEmpty := by
  cases xs with
  | nil => rw [List.length_eq_zero_iff.mp h.symm, List.isEmpty_nil, List.isEmpty_nil]
  | cons x xs =>
    cases ys with
    | nil => cases h
    | cons y ys => rfl

theorem emitFrom_nil {ctx : Context} {codeOffset : UInt32} {s : Segments} {code : Code} :
    emitFrom ctx codeOffset s [] = .ok code ↔
      code = ⟨s.chunks.reverse.flatten, s.exports.reverse, s.sites.reverse.flatten⟩ := by
  rw [emitFrom, inOrder_eq, inOrder_eq, Except.ok.injEq, eq_comm]

theorem emitFrom_eq_ok_iff {ctx : Context} (hctx : ctx.opcodes = .builtIn) {codeOffset : UInt32}
    {fns : List Function} (hcounted : ∀ fn ∈ fns, fn.IsCounted) {s : Segments} {code : Code} :
    emitFrom ctx codeOffset s fns = .ok code ↔
      ∃ bs, Lays ctx codeOffset s.length fns bs ∧
        code = ⟨s.chunks.reverse.flatten ++ joined bs,
          s.exports.reverse ++ exportsFrom codeOffset s.length fns bs,
          s.sites.reverse.flatten ++ (bs.map Body.sites).flatten⟩ := by
  induction fns generalizing s with
  | nil =>
    rw [emitFrom_nil]
    constructor
    · intro h
      exact ⟨[], .nil _, by simp [h, joined, exportsFrom]⟩
    · intro h
      obtain ⟨_, _ | _, h⟩ := h
      simpa [joined, exportsFrom] using h
  | cons fn fns ih =>
    obtain ⟨hfn, hfns⟩ := List.forall_mem_cons.mp hcounted
    simp only [emitFrom, Except.bind_eq_ok_iff, body_eq_ok_iff hctx hfn]
    cases fns with
    | nil =>
      simp only [List.isEmpty_nil, if_true, emitFrom_nil]
      constructor
      · intro h
        obtain ⟨b, hb, h⟩ := h
        exact ⟨[b], .cons hb (.nil _), by simp [h, joined, exportsFrom]⟩
      · intro h
        obtain ⟨_, _ | ⟨hb, _ | _⟩, h⟩ := h
        exact ⟨_, hb, by simpa [joined, exportsFrom] using h⟩
    | cons fn' fns =>
      simp only [List.isEmpty_cons, Bool.false_eq_true, if_false, ih hfns]
      constructor
      · intro h
        obtain ⟨b, hb, bs, hbs, h⟩ := h
        have hempty : bs.isEmpty = false := (isEmpty_eq hbs.length_eq).symm
        refine ⟨b :: bs, .cons hb hbs, ?_⟩
        rw [h, joined, hempty, exportsFrom]
        simp
      · intro h
        obtain ⟨_, _ | ⟨hb, hbs⟩, h⟩ := h
        rename_i b bs
        have hempty : bs.isEmpty = false := (isEmpty_eq hbs.length_eq).symm
        refine ⟨b, hb, bs, hbs, ?_⟩
        rw [h, joined, hempty, exportsFrom]
        simp

theorem emit_eq_ok_iff {ctx : Context} (hctx : ctx.opcodes = .builtIn) {codeOffset : UInt32}
    {fns : List Function} (hcounted : ∀ fn ∈ fns, fn.IsCounted) {code : Code} :
    emit ctx codeOffset fns = .ok code ↔
      ∃ bs, Lays ctx codeOffset 0 fns bs ∧ code = ofBodies codeOffset fns bs :=
  emitFrom_eq_ok_iff hctx hcounted

theorem toNat_add_ofNat {a : UInt32} {n : Nat} (h : a.toNat + n < 2 ^ 32) :
    (a + UInt32.ofNat n).toNat = a.toNat + n := by
  rw [UInt32.toNat_add, UInt32.toNat_ofNat', Nat.mod_eq_of_lt (show n < 2 ^ 32 by omega),
    Nat.mod_eq_of_lt h]

theorem Encodes.toNat_next {ctx : Context} {lay : Layout} {dev : Bool} {x : Placed} {e : Emitted}
    (h : Encodes ctx lay dev x e) (hfit : x.addr.toNat + e.bytes.length < 2 ^ 32) :
    (x.addr + x.size).toNat = x.addr.toNat + e.bytes.length := by
  obtain ⟨_, _, _, -, -, -, -, hsize⟩ := h
  rw [hsize, toNat_add_ofNat hfit]

theorem EncodesAll.within_sites {ctx : Context} {lay : Layout} {start stop : UInt32}
    {code : List Instruction} {xs : List Placed} (hplaces : Layout.Places start code xs stop)
    {regions : List UInt32} {es : List Emitted} (h : EncodesAll ctx lay regions xs es)
    (hfit : start.toNat + (es.map Emitted.bytes).flatten.length < 2 ^ 32) :
    stop.toNat = start.toNat + (es.map Emitted.bytes).flatten.length ∧
      Site.Within start.toNat stop.toNat (es.map Emitted.sites).flatten := by
  induction hplaces generalizing regions es with
  | nil start =>
    cases h
    exact ⟨rfl, Site.within_nil _ _⟩
  | @cons inst code start size stop xs _ _ ih =>
    obtain _ | @⟨_, _, _, e, es, hhead, htail⟩ := h
    simp only [List.map_cons, List.flatten_cons, List.length_append] at hfit ⊢
    have hnext : (start + size).toNat = start.toNat + e.bytes.length :=
      hhead.toNat_next (show start.toNat + e.bytes.length < 2 ^ 32 by omega)
    obtain ⟨kind, v, operand, -, -, hemits, he, -⟩ := hhead
    have hlength : e.bytes.length = operand.bytes.length + 1 := by rw [he]; rfl
    have hsites : e.sites = operand.sites := by rw [he]
    obtain ⟨hstop, hrest⟩ := ih htail (by omega)
    have hfirst : Site.Within start.toNat (start.toNat + (operand.bytes.length + 1)) operand.sites :=
      hemits.within_sites (show start.toNat + (operand.bytes.length + 1) < 2 ^ 32 by omega)
    rw [← hlength, ← hsites, ← hnext] at hfirst
    exact ⟨by omega, hfirst.append hrest (by omega) (by omega)⟩

theorem length_joined_cons (b : Body) (bs : List Body) :
    (joined (b :: bs)).length =
      b.bytes.length + if bs.isEmpty then 0 else (gapBytes b).length + (joined bs).length := by
  rw [joined]
  cases bs.isEmpty with
  | true => simp
  | false =>
    simp only [Bool.false_eq_true, if_false, List.length_append]
    omega

theorem length_chunk (b : Body) :
    (b.bytes ++ gapBytes b).length =
      b.bytes.length + ExportSizes.gapPadding b.bytes b.stop + 4 := by
  simp only [gapBytes, List.length_append, List.length_replicate]
  exact (Nat.add_assoc _ _ _).symm

theorem joined_cons_cons (b b' : Body) (bs : List Body) :
    joined (b :: b' :: bs) =
      b.bytes ++ List.replicate (ExportSizes.gapPadding b.bytes b.stop) 0xFF ++
        (List.replicate 4 0 ++ joined (b' :: bs)) := by
  rw [joined, List.isEmpty_cons, if_neg (by decide), gapBytes]
  simp only [List.append_assoc]
  rfl

theorem Lays.within_sites {ctx : Context} {codeOffset : UInt32} {before : Nat}
    {fns : List Function} {bs : List Body} (h : Lays ctx codeOffset before fns bs)
    (hfit : codeOffset.toNat + before + (joined bs).length < 2 ^ 32) :
    Site.Within (codeOffset.toNat + before) (codeOffset.toNat + before + (joined bs).length)
      (bs.map Body.sites).flatten := by
  induction h with
  | nil => exact Site.within_nil _ _
  | @cons before fn fns b bs hhead htail ih =>
    rw [length_joined_cons] at hfit ⊢
    obtain ⟨lay, es, hlay, hes, rfl⟩ := hhead
    simp only at hfit ⊢
    have hstart : (codeOffset + UInt32.ofNat before).toNat = codeOffset.toNat + before :=
      toNat_add_ofNat (by omega)
    obtain ⟨hstop, hfirst⟩ := hes.within_sites (Layout.ofFunction_eq_ok_iff.mp hlay).1 (by omega)
    rw [hstop, hstart] at hfirst
    by_cases hempty : bs.isEmpty = true
    · obtain rfl := List.isEmpty_iff.mp hempty
      simpa using hfirst
    · simp only [List.length_append, if_neg hempty] at hfit ih ⊢
      have hrest := ih (by omega)
      exact hfirst.append (hrest.mono (by omega) (by omega)) (by omega) (by omega)

end Code
end ScriptCodec
