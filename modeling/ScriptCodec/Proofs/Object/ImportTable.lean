import Mathlib.Data.List.TakeWhile
import ScriptCodec.Proofs.Object.Tiling

/-!
The import table of an assembled file. It has one entry for each callee that an instruction names,
in the order of first use, and the entry lists the instructions that name it. Whether these stand
in development blocks is decided with a stack of block ends of which only the top is ever left, so
ends that have been passed can lie below one that has not; what counts is that some end is still
ahead.
-/
namespace ScriptCodec

namespace Instruction

def callee? (inst : Instruction) : Option Callee :=
  if inst.opcode.kind? = some .call ∨ inst.opcode.kind? = some .function then
    (Operand.callee inst.args).toOption.map fun c => ⟨c.1, c.2, inst.opcode.importKind⟩
  else none

theorem callee?_of_mention {inst : Instruction} {found : Mention}
    (h : Mention.ofInstruction .builtIn inst = .ok found) : found.callee = inst.callee? := by
  simp only [Mention.ofInstruction, Except.bind_eq_ok_iff, OpcodeTable.kind_builtIn] at h
  obtain ⟨kind, hkind, h⟩ := h
  cases kind with
  | call | function =>
    simp only [Except.map_eq_ok_iff, Assembling.ofOperand_eq_ok_iff] at h
    obtain ⟨c, hc, rfl⟩ := h
    rw [callee?, hkind, if_pos (by decide), hc]
    rfl
  | string | field | animation =>
    simp only [Except.map_eq_ok_iff] at h
    obtain ⟨_, -, rfl⟩ := h
    rw [callee?, hkind, if_neg (by decide)]
  | _ => rw [callee?, hkind, if_neg (by decide), ← Except.ok.inj h]

end Instruction

theorem Opcode.eq_getFunction_of_kind {op : Opcode} (h : op.kind? = some .function) :
    op = getFunction := by
  have hall : ∀ n < 256, Opcode.kind? (UInt8.ofNat n) = some .function →
      UInt8.ofNat n = getFunction := by decide +kernel
  have hop := hall op.toNat op.toNat_lt
  rw [UInt8.ofNat_toNat] at hop
  exact hop h

theorem Opcode.kind_devBlockBegin : devBlockBegin.kind? = some .jump := by decide +kernel

namespace Layout

def devBlockEnd? (lay : Layout) (y : Placed) : Option UInt32 :=
  if y.inst.opcode = Opcode.devBlockBegin then y.inst.args.head?.bind lay.addressOf? else none

/-- Whether one of the instructions before `x` begins a development block that ends behind `x`. -/
def inDevBlock (lay : Layout) (before : List Placed) (x : Placed) : Bool :=
  before.any fun y => (lay.devBlockEnd? y).any fun stop => decide (x.addr < stop)

def usesFrom (lay : Layout) (c : Callee) : List Placed → List Placed → List (UInt32 × Bool)
  | _, [] => []
  | before, x :: rest =>
    (if x.inst.callee? = some c then [(x.addr, lay.inDevBlock before x)] else []) ++
      usesFrom lay c (before ++ [x]) rest

/-- The uses of a callee, each with whether it stands in a development block. -/
def uses (lay : Layout) (c : Callee) : List (UInt32 × Bool) := lay.usesFrom c [] lay.placed

theorem map_fst_usesFrom (lay : Layout) (c : Callee) (before xs : List Placed) :
    (lay.usesFrom c before xs).map Prod.fst =
      (xs.filter fun x => x.inst.callee? == some c).map Placed.addr := by
  induction xs generalizing before with
  | nil => rfl
  | cons x xs ih =>
    rw [usesFrom, List.map_append, ih, List.filter_cons]
    by_cases hc : x.inst.callee? = some c
    · simp [hc]
    · simp [hc]

theorem all_usesFrom (lay : Layout) (c : Callee) (before xs : List Placed) :
    (lay.usesFrom c before xs).all Prod.snd = true ↔
      ∀ front x rest, xs = front ++ x :: rest → x.inst.callee? = some c →
        lay.inDevBlock (before ++ front) x = true := by
  induction xs generalizing before with
  | nil => simp [usesFrom]
  | cons y ys ih =>
    rw [usesFrom, List.all_append, Bool.and_eq_true, ih]
    constructor
    · rintro ⟨hhead, htail⟩ front x rest hsplit hc
      cases front with
      | nil =>
        obtain ⟨rfl, rfl⟩ := List.cons.inj hsplit
        rw [if_pos hc] at hhead
        simpa using hhead
      | cons f front =>
        obtain ⟨rfl, rfl⟩ := List.cons.inj hsplit
        have hx := htail front x rest rfl hc
        rwa [List.append_assoc, List.singleton_append] at hx
    · intro h
      refine ⟨?_, ?_⟩
      · split
        · rename_i hc
          have hy := h [] y ys rfl hc
          simpa using hy
        · rfl
      · intro front x rest hsplit hc
        have hx := h (y :: front) x rest (by rw [hsplit, List.cons_append]) hc
        rwa [List.append_assoc, List.singleton_append]

/-- From `addr` on, the stack of block ends has one ahead exactly when an instruction before began
a block that ends ahead. -/
def Covers (lay : Layout) (before : List Placed) (ends : List UInt32) (addr : UInt32) : Prop :=
  ∀ a, addr ≤ a →
    ((∃ stop ∈ ends, a < stop) ↔ ∃ y ∈ before, ∃ stop, lay.devBlockEnd? y = some stop ∧ a < stop)

theorem covers_nil (lay : Layout) (addr : UInt32) : lay.Covers [] [] addr := by
  intro a _
  simp

theorem exists_dropWhile {ends : List UInt32} {addr a : UInt32} (hle : addr ≤ a) :
    (∃ stop ∈ ends.dropWhile (· ≤ addr), a < stop) ↔ ∃ stop ∈ ends, a < stop := by
  constructor
  · rintro ⟨stop, hstop, hlt⟩
    exact ⟨stop, (List.dropWhile_sublist _).subset hstop, hlt⟩
  · rintro ⟨stop, hstop, hlt⟩
    rw [← List.takeWhile_append_dropWhile (p := (· ≤ addr)) (l := ends), List.mem_append] at hstop
    rcases hstop with hstop | hstop
    · have hpassed : stop ≤ addr := by simpa using List.mem_takeWhile_imp hstop
      exact absurd (UInt32.le_trans hpassed hle) (UInt32.not_le.mpr hlt)
    · exact ⟨stop, hstop, hlt⟩

theorem Covers.inDevBlock_eq {lay : Layout} {before : List Placed} {ends : List UInt32} {x : Placed}
    (h : lay.Covers before ends x.addr) :
    (!(ends.dropWhile (· ≤ x.addr)).isEmpty) = lay.inDevBlock before x := by
  rw [Bool.eq_iff_iff, Bool.not_eq_true', List.isEmpty_eq_false_iff, ne_eq,
    List.dropWhile_eq_nil_iff]
  have hahead := h x.addr (UInt32.le_refl _)
  simp only [decide_eq_true_eq, not_forall, UInt32.not_le, exists_prop, hahead, inDevBlock,
    List.any_eq_true, Option.any_eq_true]

theorem Covers.step {lay : Layout} {before : List Placed} {ends : List UInt32} {x : Placed}
    (h : lay.Covers before ends x.addr) {next : UInt32} (hnext : x.addr ≤ next) :
    lay.Covers (before ++ [x]) ((lay.devBlockEnd? x).toList ++ ends.dropWhile (· ≤ x.addr)) next := by
  intro a ha
  have hle : x.addr ≤ a := UInt32.le_trans hnext ha
  have hends := (exists_dropWhile hle).trans (h a hle)
  simp only [List.mem_append, or_and_right, exists_or, hends, List.mem_singleton,
    exists_eq_left, Option.mem_toList]
  exact or_comm

end Layout

namespace Code

open Assembly (refsTo)

theorem refsTo_append (a b : List Site) (c : Callee) :
    refsTo (a ++ b) c = refsTo a c ++ refsTo b c := List.filterMap_append

theorem refsTo_call (d c : Callee) (addr : UInt32) (dev : Bool) :
    refsTo [.call d addr dev] c = if d = c then [(addr, dev)] else [] := by
  by_cases hc : d = c
  · simp [refsTo, hc]
  · simp [refsTo, hc]

theorem refsTo_localSites (pos : Nat) (names : List Bytes) (c : Callee) :
    refsTo (localSites pos names) c = [] := by
  induction names generalizing pos with
  | nil => rfl
  | cons name names ih => exact ih _

variable {ctx : Context} {lay : Layout} {dev : Bool} {x : Placed} {e : Emitted}

theorem Emits.refsTo_sites {op : Opcode} {start : UInt32} {kind : OperandKind} {v : OperandValue}
    (h : Emits ctx lay op start dev kind v e) (c : Callee) :
    refsTo e.sites c = if (v.mention op).callee = some c then [(start, dev)] else [] := by
  cases h with
  | call | function =>
    rw [refsTo_call, OperandValue.mention]
    simp only [Option.some_inj]
  | locals => exact refsTo_localSites _ _ c
  | _ => rfl

theorem Encodes.refsTo_sites (h : Encodes ctx lay dev x e) (c : Callee) :
    refsTo e.sites c = if x.inst.callee? = some c then [(x.addr, dev)] else [] := by
  obtain ⟨kind, v, operand, hkind, hread, hemits, rfl, -⟩ := h
  rw [← Instruction.callee?_of_mention (Mention.ofInstruction_of_read hkind hread)]
  exact hemits.refsTo_sites c

theorem Encodes.region_eq (h : Encodes ctx lay dev x e) : e.region = lay.devBlockEnd? x := by
  obtain ⟨kind, v, operand, hkind, hread, hemits, rfl, -⟩ := h
  have hother (hne : kind ≠ .jump) : x.inst.opcode ≠ Opcode.devBlockBegin := by
    intro hop
    rw [hop, Opcode.kind_devBlockBegin, Option.some_inj] at hkind
    exact hne hkind.symm
  cases hemits with
  | jump haddr _ =>
    simp only [OperandKind.read, Except.map_eq_ok_iff, Operand.single_eq_ok_iff] at hread
    obtain ⟨name, hargs, hname⟩ := hread
    cases hname
    rw [Layout.devBlockEnd?, hargs, List.head?_cons, Option.bind_some, haddr]
  | longJump => rw [Layout.devBlockEnd?, if_neg (hother (by decide)), if_neg (hother (by decide))]
  | _ => rw [Layout.devBlockEnd?, if_neg (hother (by decide))]

theorem EncodesAll.refsTo_sites {start stop : UInt32} {code : List Instruction} {xs : List Placed}
    (hplaces : Layout.Places start code xs stop) {ends : List UInt32} {es : List Emitted}
    (h : EncodesAll ctx lay ends xs es)
    (hfit : start.toNat + (es.map Emitted.bytes).flatten.length < 2 ^ 32) {before : List Placed}
    (hcovers : lay.Covers before ends start) (c : Callee) :
    refsTo (es.map Emitted.sites).flatten c = lay.usesFrom c before xs := by
  induction hplaces generalizing ends es before with
  | nil start =>
    cases h
    rfl
  | @cons inst code start size stop xs _ _ ih =>
    obtain _ | @⟨_, _, _, e, es, hhead, htail⟩ := h
    simp only [List.map_cons, List.flatten_cons, List.length_append] at hfit ⊢
    have hnext : (start + size).toNat = start.toNat + e.bytes.length :=
      hhead.toNat_next (show start.toNat + e.bytes.length < 2 ^ 32 by omega)
    have hle : start ≤ start + size := by
      rw [UInt32.le_iff_toNat_le, hnext]
      exact Nat.le_add_right _ _
    have hstep := hcovers.step (x := ⟨inst, start, size⟩) hle
    rw [hhead.region_eq] at htail
    rw [refsTo_append, ih htail (by omega) hstep, hhead.refsTo_sites, Layout.usesFrom,
      Layout.Covers.inDevBlock_eq (x := ⟨inst, start, size⟩) hcovers]

theorem EncodesAll.exists_held {img : Image} {start stop : UInt32} {code : List Instruction}
    {xs : List Placed} (hplaces : Layout.Places start code xs stop) {ends : List UInt32}
    {es : List Emitted} (h : EncodesAll ctx lay ends xs es)
    (hheld : img.Holds start.toNat (es.map Emitted.bytes).flatten)
    (hfit : start.toNat + (es.map Emitted.bytes).flatten.length < 2 ^ 32) :
    ∀ x ∈ xs, ∃ dev e, Encodes ctx lay dev x e ∧ img.Holds x.addr.toNat e.bytes := by
  induction hplaces generalizing ends es with
  | nil start => simp
  | @cons inst code start size stop xs _ _ ih =>
    obtain _ | @⟨_, _, _, e, es, hhead, htail⟩ := h
    simp only [List.map_cons, List.flatten_cons, List.length_append, Image.holds_append]
      at hfit hheld
    have hnext : (start + size).toNat = start.toNat + e.bytes.length :=
      hhead.toNat_next (show start.toNat + e.bytes.length < 2 ^ 32 by omega)
    rw [← hnext] at hheld
    intro x hx
    rcases List.mem_cons.mp hx with rfl | hx
    · exact ⟨_, e, hhead, hheld.1⟩
    · exact ih htail hheld.2 (by omega) x hx

theorem Encodes.opcode_byte {img : Image} (h : Encodes ctx lay dev x e)
    (hheld : img.Holds x.addr.toNat e.bytes) : img.u8 x.addr.toNat = .ok x.inst.opcode := by
  obtain ⟨kind, v, operand, -, -, -, rfl, -⟩ := h
  exact ((Image.holds_append (a := [x.inst.opcode])).mp hheld).1.u8

theorem Encodes.params_byte {img : Image} (h : Encodes ctx lay dev x e)
    (hheld : img.Holds x.addr.toNat e.bytes) {c : Callee} (hc : x.inst.callee? = some c)
    (hcall : x.inst.opcode ≠ Opcode.getFunction) :
    img.u8 (x.addr.toNat + 1) = .ok (ctx.params c) := by
  obtain ⟨kind, v, operand, hkind, hread, hemits, rfl, -⟩ := h
  have hcallee := Instruction.callee?_of_mention (Mention.ofInstruction_of_read hkind hread)
  rw [hc] at hcallee
  cases hemits with
  | call =>
    rw [← Option.some_inj.mp hcallee]
    have hbytes := (Image.holds_append (a := [x.inst.opcode])).mp hheld
    exact ((Image.holds_append (a := [_])).mp hbytes.2).1.u8
  | function => exact absurd (Opcode.eq_getFunction_of_kind hkind) hcall
  | _ => cases hcallee

structure ShowsCalls (img : Image) (ctx : Context) (lay : Layout) (b : Body) : Prop where
  refs : ∀ c, refsTo b.sites c = lay.uses c
  opcodes : ∀ x ∈ lay.placed, img.u8 x.addr.toNat = .ok x.inst.opcode
  params : ∀ x ∈ lay.placed, ∀ c, x.inst.callee? = some c → x.inst.opcode ≠ Opcode.getFunction →
    img.u8 (x.addr.toNat + 1) = .ok (ctx.params c)

theorem exists_showsCalls {img : Image} {fn : Function} {start : UInt32} {b : Body}
    (hbody : EncodesBody ctx fn start b) (hheld : img.Holds start.toNat b.bytes)
    (hfit : start.toNat + b.bytes.length < 2 ^ 32) :
    ∃ lay, Layout.ofFunction fn start = .ok lay ∧ ShowsCalls img ctx lay b := by
  obtain ⟨lay, es, hlay, hes, rfl⟩ := hbody
  have hplaces := (Layout.ofFunction_eq_ok_iff.mp hlay).1
  refine ⟨lay, hlay, ?_, ?_, ?_⟩
  · intro c
    exact hes.refsTo_sites hplaces hfit (lay.covers_nil start) c
  · intro x hx
    obtain ⟨dev, e, he, hheld⟩ := hes.exists_held hplaces hheld hfit x hx
    exact he.opcode_byte hheld
  · intro x hx c hc hcall
    obtain ⟨dev, e, he, hheld⟩ := hes.exists_held hplaces hheld hfit x hx
    exact he.params_byte hheld hc hcall

theorem Lays.exists_layouts {img : Image} {P : Layout → Body → Prop}
    (hshow : ∀ fn start b, EncodesBody ctx fn start b → img.Holds start.toNat b.bytes →
      start.toNat + b.bytes.length < 2 ^ 32 → ∃ lay, Layout.ofFunction fn start = .ok lay ∧ P lay b)
    {codeOffset : UInt32} {before : Nat} {fns : List Function} {bs : List Body}
    (h : Lays ctx codeOffset before fns bs)
    (hheld : img.Holds (codeOffset.toNat + before) (joined bs))
    (hfit : codeOffset.toNat + before + (joined bs).length < 2 ^ 32) :
    ∃ lays, (fns.zip (exportsFrom codeOffset before fns bs)).Forall₂
        (fun p lay => Layout.ofFunction p.1 p.2.offset = .ok lay) lays ∧
      lays.Forall₂ P bs := by
  induction h with
  | nil => exact ⟨[], .nil, .nil⟩
  | @cons before fn fns b bs hhead htail ih =>
    have hlengths := length_joined_cons b bs
    have hstart : (codeOffset + UInt32.ofNat before).toNat = codeOffset.toNat + before :=
      toNat_add_ofNat (by omega)
    obtain ⟨hfirst, hrest⟩ := holds_joined_cons hheld
    rw [← hstart] at hfirst
    obtain ⟨lay, hlay, hshows⟩ := hshow fn _ b hhead hfirst (by omega)
    obtain ⟨lays, hlays, hall⟩ : ∃ lays, (fns.zip (exportsFrom codeOffset
        (before + (b.bytes ++ gapBytes b).length) fns bs)).Forall₂
          (fun p lay => Layout.ofFunction p.1 p.2.offset = .ok lay) lays ∧
        lays.Forall₂ P bs := by
      cases htail with
      | nil => exact ⟨[], .nil, .nil⟩
      | cons =>
        rw [List.isEmpty_cons, if_neg (by decide)] at hlengths
        refine ih ?_ ?_
        · rw [← Nat.add_assoc]
          exact hrest (List.cons_ne_nil _ _)
        · rw [List.length_append]
          omega
    exact ⟨lay :: lays, .cons hlay hlays, .cons hshows hall⟩

theorem refsTo_flatten {img : Image} {lays : List Layout} {bs : List Body}
    (h : lays.Forall₂ (ShowsCalls img ctx) bs) (c : Callee) :
    refsTo (bs.map Body.sites).flatten c = lays.flatMap fun lay => lay.uses c := by
  induction h with
  | nil => rfl
  | cons hshows _ ih =>
    rw [List.map_cons, List.flatten_cons, refsTo_append, hshows.refs, ih, List.flatMap_cons]

end Code

namespace FileOf

variable {flags : UInt8} {m : Module} {ms : Mentions} {bs : List Code.Body} {r : Assembly.Rows}
  {file : Bytes} {P : Layout → Code.Body → Prop}

/-- The functions of a file have layouts at the offsets of their exports, with whatever the bytes of
a body show of its layout. -/
theorem exists_layouts (hfile : FileOf flags m ms bs r file)
    (hshow : ∀ fn start b, Code.EncodesBody (Assembly.context m ms) fn start b →
      Image.Holds file.toArray start.toNat b.bytes → start.toNat + b.bytes.length < 2 ^ 32 →
        ∃ lay, Layout.ofFunction fn start = .ok lay ∧ P lay b) :
    ∃ lays, (m.functionList.zip (Assembly.codeOf m ms bs).exports).Forall₂
        (fun p lay => Layout.ofFunction p.1 p.2.offset = .ok lay) lays ∧ lays.Forall₂ P bs := by
  obtain ⟨hcode, hfit⟩ := hfile.holds_code
  exact hfile.lays.exists_layouts hshow hcode hfit

/-- Decoding the file gives exports by the names of the functions, at the offsets they were laid out
at. -/
theorem exists_exports (hfile : FileOf flags m ms bs r file) (hnul : ∀ s ∈ ms.strings m, 0 ∉ s)
    (hshow : ∀ fn start b, Code.EncodesBody (Assembly.context m ms) fn start b →
      Image.Holds file.toArray start.toNat b.bytes → start.toNat + b.bytes.length < 2 ^ 32 →
        ∃ lay, Layout.ofFunction fn start = .ok lay ∧ P lay b) :
    ∃ s gs lays, ScriptCodec.disassemble .builtIn file.toArray =
        .ok (Disassembly.Sections.object s gs) ∧
      Disassembly.ReadsSections m ms bs (r.header flags m ms (Assembly.codeOf m ms bs)) s ∧
      s.exports.map Export.name = m.functionList.map Function.name ∧
      (m.functionList.zip s.exports).Forall₂
        (fun p lay => Layout.ofFunction p.1 p.2.offset = .ok lay) lays ∧ lays.Forall₂ P bs := by
  obtain ⟨s, gs, hobj, hs, -⟩ := hfile.exists_object hnul
  obtain ⟨lays, hlays, hshows⟩ := hfile.exists_layouts hshow
  refine ⟨s, gs, lays, hobj, hs, ?_, ?_, hshows⟩
  · rw [hs.exports]
    exact Code.map_name_exportsFrom hfile.lays
  · rw [hs.exports]
    exact hlays

theorem within_sites (hfile : FileOf flags m ms bs r file) :
    ∃ low high, Site.Within low high (Assembly.codeOf m ms bs).sites :=
  ⟨_, _, hfile.lays.within_sites hfile.holds_code.2⟩

end FileOf

namespace Mentions

/-- What the mentions say of a module is what its instructions say, one by one. -/
theorem filterMap_all {α : Type} {g : Mention → Option α} {f : Instruction → Option α}
    (hgf : ∀ {inst found}, Mention.ofInstruction .builtIn inst = .ok found → g found = f inst)
    {m : Module} {ms : Mentions} (hms : ofModule .builtIn m = .ok ms) :
    ms.all.filterMap g = (m.functionList.flatMap Function.code).filterMap f := by
  have hinstructions {code : List Instruction} {found : List Mention}
      (h : code.Forall₂ (fun inst found => Mention.ofInstruction .builtIn inst = .ok found) found) :
      found.filterMap g = code.filterMap f := by
    induction h with
    | nil => rfl
    | cons hinst _ ih => rw [List.filterMap_cons, List.filterMap_cons, ih, hgf hinst]
  have hcollects := (ofModule_eq_ok_iff.mp hms).2
  rw [all]
  generalize m.functionList = fns at hcollects
  generalize ms.functions = rs at hcollects
  induction hcollects with
  | nil => rfl
  | cons hfn _ ih =>
    rw [List.flatMap_cons, List.filterMap_append, ih, hinstructions hfn.2.2, List.flatMap_cons,
      List.filterMap_append]

theorem callees_eq {m : Module} {ms : Mentions} (hms : ofModule .builtIn m = .ok ms) :
    ms.callees =
      ((m.functionList.flatMap Function.code).filterMap Instruction.callee?).eraseDups := by
  rw [callees, filterMap_all Instruction.callee?_of_mention hms]

theorem params_context {m : Module} {ms : Mentions} {c : Callee} (hc : c ∈ ms.callees) :
    (Assembly.context m ms).params c = m.calleeParams c := by
  have hfind : (ms.imports m).find? (fun d => d.callee == c) =
      some ⟨c.space, c.name, m.calleeParams c, c.kind⟩ := by
    have hself : ms.callees.find? (fun d => d == c) = some c := by
      have hsome : (ms.callees.find? fun d => d == c).isSome = true :=
        List.find?_isSome.mpr ⟨c, hc, beq_self_eq_true c⟩
      obtain ⟨d, hd⟩ := Option.isSome_iff_exists.mp hsome
      have hdc : d = c := by simpa using List.find?_some hd
      rw [hd, hdc]
    rw [imports, List.find?_map]
    exact congrArg (Option.map _) hself
  rw [Code.Context.params, Assembly.context, hfind]
  rfl

end Mentions

def Import.callee (entry : Import) : Callee := ⟨entry.space, entry.name, entry.kind⟩

/-- An entry that says of its callee what the laid out instructions and the bytes of the file say. -/
structure Import.Describes (img : Image) (lays : List Layout) (entry : Import) : Prop where
  refs : entry.refs = ((lays.flatMap Layout.placed).filter fun x =>
    x.inst.callee? == some entry.callee).map Placed.addr
  ascending : entry.refs.Pairwise (· < ·)
  params : ∀ lay ∈ lays, ∀ x ∈ lay.placed, x.inst.callee? = some entry.callee →
    x.inst.opcode ≠ Opcode.getFunction → img.u8 (x.addr.toNat + 1) = .ok entry.params
  devOnly : entry.devOnly = true ↔ ∀ lay ∈ lays, ∀ front x rest,
    lay.placed = front ++ x :: rest → x.inst.callee? = some entry.callee →
      lay.inDevBlock front x = true

theorem Layout.flatMap_placed {ps : List (Function × Export)} {lays : List Layout}
    (h : ps.Forall₂ (fun p lay => ofFunction p.1 p.2.offset = .ok lay) lays) :
    (lays.flatMap placed).map Placed.inst = (ps.map Prod.fst).flatMap Function.code := by
  induction h with
  | nil => rfl
  | cons hlay _ ih =>
    rw [List.flatMap_cons, List.map_append, ih, (ofFunction_eq_ok_iff.mp hlay).1.map_inst,
      List.map_cons, List.flatMap_cons]

theorem Layout.flatMap_code {ctx : Code.Context} {codeOffset : UInt32} {before : Nat}
    {fns : List Function} {bs : List Code.Body} (h : Code.Lays ctx codeOffset before fns bs)
    {lays : List Layout} (hlays : (fns.zip (Code.exportsFrom codeOffset before fns bs)).Forall₂
      (fun p lay => ofFunction p.1 p.2.offset = .ok lay) lays) :
    (lays.flatMap placed).map Placed.inst = fns.flatMap Function.code := by
  have hlengths := congrArg List.length (Code.map_name_exportsFrom h)
  rw [List.length_map, List.length_map] at hlengths
  rw [flatMap_placed hlays, List.map_fst_zip (Nat.le_of_eq hlengths.symm)]

theorem Assembly.addr_of_mem_refsTo {s : Site} {c : Callee} {r : UInt32 × Bool}
    (h : r ∈ refsTo [s] c) : r.1 = s.addr := by
  cases s with
  | call d addr dev =>
    by_cases hd : d = c
    · have hr : r = (addr, dev) := by simpa [refsTo, hd] using h
      rw [hr]
      rfl
    · simp [refsTo, hd] at h
  | _ => cases h

theorem Assembly.pairwise_refsTo {low high : Nat} {sites : List Site}
    (h : Site.Within low high sites) (c : Callee) :
    ((refsTo sites c).map Prod.fst).Pairwise (· < ·) := by
  rw [List.pairwise_map]
  refine h.1.filterMap _ ?_
  intro s t hlt r hr r' hr'
  have hs : r.1 = s.addr :=
    addr_of_mem_refsTo (List.mem_filterMap.mpr ⟨s, List.mem_singleton_self s, hr⟩)
  have ht : r'.1 = t.addr :=
    addr_of_mem_refsTo (List.mem_filterMap.mpr ⟨t, List.mem_singleton_self t, hr'⟩)
  rw [hs, ht, UInt32.lt_iff_toNat_lt]
  exact hlt

namespace Disassembly

theorem ImportedFrom.describes {img : Image} {m : Module} {ms : Mentions} {bs : List Code.Body}
    {lays : List Layout} (hshows : lays.Forall₂ (Code.ShowsCalls img (Assembly.context m ms)) bs)
    {low high : Nat} (hwithin : Site.Within low high (Assembly.codeOf m ms bs).sites)
    (hused : ∀ c ∈ ms.callees, ∃ x ∈ lays.flatMap Layout.placed, x.inst.callee? = some c)
    {d : ImportDecl} (hd : d ∈ ms.imports m) {entry : Import}
    (h : ImportedFrom (Assembly.codeOf m ms bs).sites d entry) : entry.Describes img lays := by
  obtain ⟨c, hc, rfl⟩ := List.mem_map.mp hd
  have hdecl := h.decl
  rw [declOf, ImportDecl.mk.injEq] at hdecl
  obtain ⟨hspace, hname, hparams, hkind⟩ := hdecl
  have hcallee : entry.callee = c := by rw [Import.callee, hspace, hname, hkind]
  have huses : Assembly.refsTo (Assembly.codeOf m ms bs).sites c = lays.flatMap fun lay => lay.uses c :=
    Code.refsTo_flatten hshows c
  have hrefs : entry.refs = ((lays.flatMap Layout.placed).filter fun x =>
      x.inst.callee? == some c).map Placed.addr := by
    rw [h.refs]
    refine (congrArg (List.map Prod.fst) huses).trans ?_
    simp only [List.map_flatMap, List.filter_flatMap, Layout.uses, Layout.map_fst_usesFrom]
  have hnonempty : (Assembly.refsTo (Assembly.codeOf m ms bs).sites c).isEmpty = false := by
    obtain ⟨x, hx, hxc⟩ := hused c hc
    have hmem : x.addr ∈ entry.refs := by
      rw [hrefs]
      exact List.mem_map_of_mem (List.mem_filter.mpr ⟨hx, by rw [hxc, beq_self_eq_true]⟩)
    rw [h.refs] at hmem
    rw [List.isEmpty_eq_false_iff]
    intro hnil
    change x.addr ∈ (Assembly.refsTo (Assembly.codeOf m ms bs).sites c).map Prod.fst at hmem
    rw [hnil] at hmem
    cases hmem
  constructor
  · rw [hcallee]
    exact hrefs
  · rw [h.refs]
    exact Assembly.pairwise_refsTo hwithin c
  · intro lay hlay x hx hxc hcall
    rw [hcallee] at hxc
    obtain ⟨b, -, hb⟩ := hshows.exists_right hlay
    rw [hb.params x hx c hxc hcall, Mentions.params_context hc, ← hparams]
  · have hdev : entry.devOnly =
        (Assembly.refsTo (Assembly.codeOf m ms bs).sites c).all Prod.snd := by
      rw [h.devOnly]
      change (!(Assembly.refsTo (Assembly.codeOf m ms bs).sites c).isEmpty && _) = _
      rw [hnonempty, Bool.not_false, Bool.true_and]
      rfl
    rw [hdev, huses, List.all_flatMap, List.all_eq_true, hcallee]
    simp only [Layout.uses, Layout.all_usesFrom, List.nil_append]

end Disassembly

theorem disassemble_imports {flags : UInt8} {m : Module} {a : Assembled}
    (h : assemble .builtIn flags m = .ok a) (hnul : m.IsNulFree)
    (hlength : a.file.length < 2 ^ 32) :
    ∃ obj lays, disassemble .builtIn a.file.toArray = .ok obj ∧
      obj.exports.map Export.name = m.functionList.map Function.name ∧
      (m.functionList.zip obj.exports).Forall₂
        (fun p lay => Layout.ofFunction p.1 p.2.offset = .ok lay) lays ∧
      (∀ lay ∈ lays, ∀ x ∈ lay.placed,
        Image.u8 a.file.toArray x.addr.toNat = .ok x.inst.opcode) ∧
      obj.imports.map Import.callee =
        ((m.functionList.flatMap Function.code).filterMap Instruction.callee?).eraseDups ∧
      ∀ entry ∈ obj.imports, entry.Describes a.file.toArray lays := by
  obtain ⟨ms, bs, r, hfile⟩ := exists_fileOf h hlength
  obtain ⟨s, gs, lays, hobj, hs, hnames, hlays, hshows⟩ :=
    hfile.exists_exports (hnul ms hfile.mentions)
      fun _ _ _ => Code.exists_showsCalls
  obtain ⟨low, high, hwithin⟩ := hfile.within_sites
  have hinsts := Layout.flatMap_code hfile.lays (hs.exports ▸ hlays)
  have hused : ∀ c ∈ ms.callees, ∃ x ∈ lays.flatMap Layout.placed, x.inst.callee? = some c := by
    intro c hc
    rw [Mentions.callees_eq hfile.mentions, List.mem_eraseDups] at hc
    obtain ⟨inst, hinst, hcallee⟩ := List.mem_filterMap.mp hc
    rw [← hinsts] at hinst
    obtain ⟨x, hx, rfl⟩ := List.mem_map.mp hinst
    exact ⟨x, hx, hcallee⟩
  refine ⟨s.object gs, lays, hobj, hnames, hlays, ?_, ?_, ?_⟩
  · intro lay hlay
    obtain ⟨b, -, hb⟩ := hshows.exists_right hlay
    exact hb.opcodes
  · rw [← Mentions.callees_eq hfile.mentions]
    have hsame : ms.callees.Forall₂ (fun c entry => c = Import.callee entry) s.imports := by
      have himports := hs.imports
      rw [Mentions.imports, List.forall₂_map_left_iff] at himports
      refine himports.imp ?_
      intro c entry hentry
      exact (congrArg ImportDecl.callee hentry.decl).symm
    rw [← List.forall₂_map_right_iff, List.forall₂_eq_eq_eq] at hsame
    exact hsame.symm
  · intro entry hentry
    obtain ⟨d, hd, himported⟩ := hs.imports.exists_left hentry
    exact himported.describes hshows hwithin hused hd

theorem disassemble_imports_callingModule :
    ∃ a obj lays, assemble .builtIn 1 callingModule = .ok a ∧ callingModule.IsNulFree ∧
      a.file.length < 2 ^ 32 ∧ disassemble .builtIn a.file.toArray = .ok obj ∧
      (callingModule.functionList.zip obj.exports).Forall₂
        (fun p lay => Layout.ofFunction p.1 p.2.offset = .ok lay) lays ∧
      ∀ entry ∈ obj.imports, entry.Describes a.file.toArray lays := by
  obtain ⟨a, ha, hlength⟩ : ∃ a, assemble .builtIn 1 callingModule = .ok a ∧
      decide (a.file.length < 2 ^ 32) = true := Except.exists_of_any (by decide +kernel)
  have hnul : callingModule.IsNulFree := by decide +kernel
  obtain ⟨obj, lays, hobj, -, hlays, -, -, himports⟩ :=
    disassemble_imports ha hnul (of_decide_eq_true hlength)
  exact ⟨a, obj, lays, ha, hnul, of_decide_eq_true hlength, hobj, hlays, himports⟩

end ScriptCodec
