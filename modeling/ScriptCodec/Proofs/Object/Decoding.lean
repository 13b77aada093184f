import ScriptCodec.Proofs.Object.Sizes
import ScriptCodec.Proofs.Operand.Decoding

/-!
Emitted code decodes to the canonical form of the functions it was emitted from: the same opcodes
at the addresses of the layout, with the canonical text of their operands and a label for every
branch target.
-/
namespace ScriptCodec

namespace Layout

def canonical? (lay : Layout) (inst : Instruction) : Option (List Bytes) :=
  inst.opcode.kind?.bind fun kind =>
    (kind.read inst.args).toOption.bind fun v => v.spellAt kind lay.addressOf?

def target? (lay : Layout) (inst : Instruction) : Option UInt32 :=
  inst.opcode.kind?.bind fun kind =>
    (kind.read inst.args).toOption.bind fun v => v.target? lay.addressOf?

def canonicalInstruction (lay : Layout) (x : Placed) : Instruction :=
  ⟨x.addr, x.size, x.inst.opcode, Disassembly.listed ((lay.canonical? x.inst).getD [])⟩

def canonicalCode (lay : Layout) : List Instruction := lay.placed.map lay.canonicalInstruction

def targets (lay : Layout) : List UInt32 := lay.placed.filterMap fun x => lay.target? x.inst

def canonicalFunction (lay : Layout) (fn : Function) (start size : UInt32) : Function where
  offset := start
  size := size
  params := fn.params
  flags := fn.flags
  name := fn.name
  instructions :=
    if lay.canonicalCode.isEmpty then none else some (lay.canonicalCode.map some)
  labels := some (Labels.ofTargets lay.targets)

end Layout

/-- A function in the canonical form that its layout at some address gives it. -/
def Function.ReadsBackAs (fn g : Function) : Prop :=
  ∃ lay, Layout.ofFunction fn g.offset = .ok lay ∧
    (∀ inst ∈ fn.code, (lay.canonical? inst).isSome = true) ∧
    g = lay.canonicalFunction fn g.offset g.size

namespace Disassembly

variable {img : Image} {t : DecodeTables} {ctx : Code.Context} {sites : List Site} {lay : Layout}

/-- The layout refuses case values that are not pairs. -/
theorem even_of_read {op : Opcode} {kind : OperandKind} {args : List Bytes} {v : OperandValue}
    {addr size : UInt32} (hkind : op.kind? = some kind) (hread : kind.read args = .ok v)
    (hsize : instructionSize op addr args = .ok size) :
    ∀ values, v = .cases values → values.length % 2 = 0 := by
  intro values hv
  rw [hv] at hread
  obtain ⟨hcases, hlength⟩ := OperandValue.read_cases hread
  rw [instructionSize_eq hkind, hlength] at hsize
  by_contra hodd
  rw [if_pos ⟨hcases, hodd⟩] at hsize
  cases hsize

theorem instruction_of_encodes (hlinked : t.Linked ctx.pool sites) {dev : Bool} {x : Placed}
    {e : Code.Emitted} (h : Code.Encodes ctx lay dev x e)
    (hsize : instructionSize x.inst.opcode x.addr x.inst.args = .ok x.size)
    (hsites : ∀ s ∈ e.sites, s ∈ sites) (hheld : img.Holds x.addr.toNat e.bytes)
    (hfit : x.addr.toNat + e.bytes.length < 2 ^ 32) :
    (lay.canonical? x.inst).isSome = true ∧
      ∃ step, instruction t img x.addr.toNat = .ok step ∧
        step.inst = lay.canonicalInstruction x ∧ step.target = lay.target? x.inst ∧
        step.size = e.bytes.length ∧ step.next = x.addr.toNat + e.bytes.length := by
  obtain ⟨kind, v, operand, hkind, hread, hemits, rfl, hxsize⟩ := h
  have heven := even_of_read hkind hread hsize
  obtain ⟨hop, hrest⟩ := Image.holds_cons.mp hheld
  have hstart : UInt32.ofNat x.addr.toNat = x.addr := UInt32.ofNat_toNat
  have hknown : t.opcodes.knows x.inst.opcode = true := by
    rw [hlinked.opcodes, OpcodeTable.knows_builtIn hkind]
  obtain ⟨r, hreads, hspec⟩ :=
    reads_of_emits hlinked (OperandValue.fits_of_read hread) heven hemits hsites hrest hfit
  have hplaced : Reads t img (UInt32.ofNat x.addr.toNat) (x.addr.toNat + 1) kind r := by
    rw [hstart]
    exact hreads
  obtain ⟨step, hstep, hreadAs⟩ := instruction_of_reads hop.u8 hknown hkind hplaced
  have hcanonical : lay.canonical? x.inst = some (r.operands.getD []) := by
    rw [Layout.canonical?, hkind, Option.bind_some, hread]
    exact hspec.operands
  have htarget : lay.target? x.inst = r.target := by
    rw [Layout.target?, hkind, Option.bind_some, hread]
    exact hspec.target.symm
  have hlength : x.size = UInt32.ofNat (kind.baseSize + r.extra) := by
    rw [hxsize, hspec.size]
    rfl
  refine ⟨by rw [hcanonical]; rfl, step, hstep, ?_, ?_, ?_, ?_⟩
  · rw [hreadAs.inst_eq, hstart, Layout.canonicalInstruction, hcanonical, Option.getD_some,
      ← hspec.listed, hlength]
  · rw [hreadAs.target_eq, htarget]
  · rw [hreadAs.size_eq]
    exact hspec.size
  · rw [hreadAs.next_eq]
    exact hspec.next

theorem filterMap_cons_toList {α β : Type} (f : α → Option β) (x : α) (xs : List α) :
    (x :: xs).filterMap f = (f x).toList ++ xs.filterMap f := by
  rw [List.filterMap_cons]
  cases f x with
  | none => rfl
  | some y => rfl

theorem reverse_toList {α : Type} (o : Option α) : o.toList.reverse = o.toList := by
  cases o with
  | none => rfl
  | some a => rfl

theorem codeFrom_of_encodesAll (hlinked : t.Linked ctx.pool sites) (limit : UInt32)
    {start stop : UInt32} {code : List Instruction} {xs : List Placed}
    (hplaces : Layout.Places start code xs stop) {regions : List UInt32}
    {es : List Code.Emitted} (hes : Code.EncodesAll ctx lay regions xs es)
    (hsites : ∀ s ∈ (es.map Code.Emitted.sites).flatten, s ∈ sites)
    (hheld : img.Holds start.toNat (es.map Code.Emitted.bytes).flatten)
    (hfit : start.toNat + (es.map Code.Emitted.bytes).flatten.length < 2 ^ 32)
    (done : List Instruction) (targets : List UInt32) :
    (∀ x ∈ xs, (lay.canonical? x.inst).isSome = true) ∧
      codeFrom t img limit start.toNat (es.map Code.Emitted.bytes).flatten.length done targets =
        .ok (done.reverse ++ xs.map lay.canonicalInstruction,
          targets.reverse ++ xs.filterMap fun x => lay.target? x.inst) := by
  induction hplaces generalizing regions es done targets with
  | nil start =>
    cases hes
    refine ⟨by simp, ?_⟩
    rw [codeFrom]
    simp
  | @cons inst code start size stop xs hsize _ ih =>
    obtain _ | @⟨_, _, _, e, es, hhead, htail⟩ := hes
    simp only [List.map_cons, List.flatten_cons, List.length_append, List.mem_append,
      Image.holds_append] at hsites hheld hfit ⊢
    have hlength : size = UInt32.ofNat e.bytes.length := by
      obtain ⟨_, _, _, -, -, -, -, hsize⟩ := hhead
      exact hsize
    have hnext : (start + size).toNat = start.toNat + e.bytes.length := by
      rw [hlength, Code.toNat_add_ofNat (by omega)]
    obtain ⟨hcanonical, step, hstep, hinst, htarget, hstepSize, hstepNext⟩ :=
      instruction_of_encodes hlinked hhead hsize (fun s hs => hsites s (Or.inl hs)) hheld.1
        (show start.toNat + e.bytes.length < 2 ^ 32 by omega)
    obtain ⟨hrest, hrun⟩ := ih htail (fun s hs => hsites s (Or.inr hs)) (by rw [hnext]; exact hheld.2)
      (by omega) (step.inst :: done) (step.target.toList ++ targets)
    refine ⟨?_, ?_⟩
    · intro x hx
      rcases List.mem_cons.mp hx with rfl | hx
      · exact hcanonical
      · exact hrest x hx
    · have hpos := step.size_pos
      rw [codeFrom, if_neg (by omega)]
      simp only [hstep]
      rw [if_neg (by omega), hstepNext, hstepSize, Nat.add_sub_cancel_left]
      rw [hnext] at hrun
      rw [hrun, hinst, htarget]
      simp [filterMap_cons_toList, reverse_toList]

theorem function_of_body (hlinked : t.Linked ctx.pool sites) {fn : Function} {start : UInt32}
    {b : Code.Body} (hbody : Code.EncodesBody ctx fn start b)
    (hsites : ∀ s ∈ b.sites, s ∈ sites) (hheld : img.Holds start.toNat b.bytes)
    (hfit : start.toNat + b.bytes.length < 2 ^ 32) :
    ∃ g, exportedFunction t img (Code.exportOf fn start b.bytes) = .ok g ∧ fn.ReadsBackAs g := by
  obtain ⟨lay, es, hlay, hes, rfl⟩ := hbody
  have hplaces := (Layout.ofFunction_eq_ok_iff.mp hlay).1
  simp only at hfit hheld hsites ⊢
  have hlength : (UInt32.ofNat (es.map Code.Emitted.bytes).flatten.length).toNat =
      (es.map Code.Emitted.bytes).flatten.length := toNat_ofNat_of_lt (by omega)
  obtain ⟨hcanonical, hrun⟩ := codeFrom_of_encodesAll hlinked
    (start + UInt32.ofNat (es.map Code.Emitted.bytes).flatten.length) hplaces hes hsites hheld hfit
    [] []
  refine ⟨lay.canonicalFunction fn start (UInt32.ofNat (es.map Code.Emitted.bytes).flatten.length),
    ?_, lay, hlay, ?_, rfl⟩
  · simp only [exportedFunction, function, Decoding.within_eq_ok_iff, Except.andThen_eq_ok_iff,
      Decoding.ofRange_eq_ok_iff, Except.pure_eq_ok_iff]
    refine ⟨start.toNat, hheld.seek, (lay.canonicalCode, lay.targets), ?_, rfl⟩
    simp only [Code.exportOf, hlength]
    exact hrun
  · intro inst hinst
    rw [← hplaces.map_inst] at hinst
    obtain ⟨x, hx, rfl⟩ := List.mem_map.mp hinst
    exact hcanonical x hx

theorem functions_of_lays (hlinked : t.Linked ctx.pool sites) {codeOffset : UInt32}
    {before : Nat} {fns : List Function} {bs : List Code.Body}
    (h : Code.Lays ctx codeOffset before fns bs)
    (hsites : ∀ s ∈ (bs.map Code.Body.sites).flatten, s ∈ sites)
    (hheld : img.Holds (codeOffset.toNat + before) (Code.joined bs))
    (hfit : codeOffset.toNat + before + (Code.joined bs).length < 2 ^ 32) :
    ∃ gs, (Code.exportsFrom codeOffset before fns bs).mapM (exportedFunction t img) = .ok gs ∧
      fns.Forall₂ Function.ReadsBackAs gs := by
  induction h with
  | nil => exact ⟨[], rfl, .nil⟩
  | @cons before fn fns b bs hhead htail ih =>
    rw [List.map_cons, List.flatten_cons] at hsites
    have hstart : (codeOffset + UInt32.ofNat before).toNat = codeOffset.toNat + before :=
      Code.toNat_add_ofNat (by omega)
    obtain ⟨hfirst, hrest⟩ := Code.holds_joined_cons hheld
    rw [Nat.add_assoc] at hrest
    have hlengths := Code.length_joined_cons b bs
    rw [hlengths] at hfit
    obtain ⟨g, hg, hback⟩ := function_of_body hlinked hhead
      (fun s hs => hsites s (List.mem_append_left _ hs)) (by rw [hstart]; exact hfirst) (by omega)
    obtain ⟨gs, hgs, hbacks⟩ : ∃ gs, (Code.exportsFrom codeOffset
        (before + (b.bytes ++ Code.gapBytes b).length) fns bs).mapM (exportedFunction t img) =
          .ok gs ∧ fns.Forall₂ Function.ReadsBackAs gs := by
      cases htail with
      | nil => exact ⟨[], rfl, .nil⟩
      | cons _ _ =>
        refine ih (fun s hs => hsites s (List.mem_append_right _ hs)) (hrest (List.cons_ne_nil _ _)) ?_
        simp only [List.isEmpty_cons, Bool.false_eq_true, if_false, List.length_append] at hfit ⊢
        omega
    refine ⟨g :: gs, ?_, .cons hback hbacks⟩
    rw [List.mapM_eq_ok_iff] at hgs ⊢
    exact .cons hg hgs

end Disassembly
end ScriptCodec
