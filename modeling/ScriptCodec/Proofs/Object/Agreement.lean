import ScriptCodec.Proofs.Object.File

/-!
Modules that agree. Two functions agree when their instructions say the same values, where labels
count by the instruction boundary they stand for and not by their names or offsets. Modules that
agree, also in the parameter counts of their callees, assemble to the same file.
-/
namespace ScriptCodec

/-- Values that are equal, or labels of two functions that stand for one boundary. -/
inductive OperandValue.Agrees (fn g : Function) : OperandValue → OperandValue → Prop
  | same {v : OperandValue} (h : ∀ name, v ≠ .label name) : Agrees fn g v v
  | label {a b : Bytes} {k : Nat} (ha : fn.boundary? a = some k) (hb : g.boundary? b = some k) :
    Agrees fn g (.label a) (.label b)

def Instruction.Agrees (fn g : Function) (i j : Instruction) : Prop :=
  j.opcode = i.opcode ∧ ∃ kind v w, i.opcode.kind? = some kind ∧ kind.read i.args = .ok v ∧
    kind.read j.args = .ok w ∧ v.Agrees fn g w

/-- The labels have names of their own and stand for instruction boundaries. -/
def Function.BindsLabels (g : Function) : Prop :=
  (g.labelMap.map Prod.snd).Nodup ∧ ∀ e ∈ g.labelMap, ∃ k, g.boundaryAt? e.1 = some k

structure Function.Agrees (fn g : Function) : Prop where
  name : g.name = fn.name
  params : g.params = fn.params
  flags : g.flags = fn.flags
  whole : g.IsWhole
  labels : g.BindsLabels
  code : fn.code.Forall₂ (Instruction.Agrees fn g) g.code

structure Module.Agrees (m d : Module) : Prop where
  name : d.name = m.name
  includes : d.includeList = m.includeList
  whole : d.IsWhole
  functions : m.functionList.Forall₂ Function.Agrees d.functionList

variable {fn g : Function}

theorem OperandValue.Agrees.mention {v w : OperandValue} (h : v.Agrees fn g w) (op : Opcode) :
    w.mention op = v.mention op := by
  cases h with
  | same => rfl
  | label => rfl

-- The size of an instruction depends on its operands only where they form a list of any length.
theorem OperandValue.Agrees.size_eq {kind : OperandKind} {args args' : List Bytes}
    {v w : OperandValue} (h : v.Agrees fn g w) (hread : kind.read args = .ok v)
    (hread' : kind.read args' = .ok w) {op : Opcode} (hkind : op.kind? = some kind)
    (addr : UInt32) : instructionSize op addr args' = instructionSize op addr args := by
  rw [instructionSize_eq hkind, instructionSize_eq hkind]
  cases h with
  | label =>
    cases fits_of_read hread with
    | jump => rfl
    | longJump => rfl
  | same =>
    cases fits_of_read hread with
    | locals =>
      simp only [OperandKind.read] at hread hread'
      split at hread
      · cases hread
      · split at hread'
        · cases hread'
        · rw [locals.inj (Except.ok.inj hread), locals.inj (Except.ok.inj hread')]
    | cases =>
      rw [(read_cases hread).2, (read_cases hread').2]
    | _ => rfl

namespace Layout

def SamePlace (fn g : Function) (x y : Placed) : Prop :=
  y.addr = x.addr ∧ y.size = x.size ∧ x.inst.Agrees fn g y.inst

theorem Places.agree {start stop : UInt32} {code code' : List Instruction} {xs : List Placed}
    (h : Places start code xs stop) (hcode : code.Forall₂ (Instruction.Agrees fn g) code') :
    ∃ ys, Places start code' ys stop ∧ xs.Forall₂ (SamePlace fn g) ys := by
  induction h generalizing code' with
  | nil =>
    cases hcode
    exact ⟨[], .nil _, .nil⟩
  | @cons inst code addr size stop xs hsize _ ih =>
    obtain _ | @⟨_, j, _, code', hj, hcode⟩ := hcode
    obtain ⟨ys, hplaces, hsame⟩ := ih hcode
    refine ⟨⟨j, addr, size⟩ :: ys, .cons ?_ hplaces, .cons ⟨rfl, rfl, hj⟩ hsame⟩
    obtain ⟨hop, kind, v, w, hkind, hread, hread', hvalue⟩ := hj
    rw [hop, hvalue.size_eq hread hread' hkind, hsize]

theorem SamePlace.addrs {xs ys : List Placed} (h : xs.Forall₂ (SamePlace fn g) ys) :
    ys.map Placed.addr = xs.map Placed.addr := by
  induction h with
  | nil => rfl
  | cons hxy _ ih => rw [List.map_cons, List.map_cons, hxy.1, ih]

end Layout

namespace Labels

theorem exists_resolved {boundaries : Boundaries} {labels : Labels}
    (h : ∀ e ∈ labels, ∃ addr, boundaries.address? e.1 = some addr) :
    ∃ resolved, labels.Forall₂ (ResolvesTo boundaries) resolved := by
  induction labels with
  | nil => exact ⟨[], .nil⟩
  | cons e labels ih =>
    obtain ⟨addr, haddr⟩ := h e List.mem_cons_self
    obtain ⟨resolved, hresolved⟩ := ih fun e he => h e (List.mem_cons_of_mem _ he)
    exact ⟨⟨e.2, e.1, addr⟩ :: resolved, .cons ⟨rfl, rfl, haddr⟩ hresolved⟩

end Labels

theorem Function.BindsLabels.exists_resolveLabels (h : g.BindsLabels) {addrs : List UInt32}
    (hlength : addrs.length = g.code.length) (stop : UInt32) :
    ∃ resolved, g.resolveLabels addrs stop = .ok resolved := by
  have hbound : ∀ e ∈ g.labelMap, ∃ addr, (g.boundaries addrs stop).address? e.1 = some addr := by
    intro e he
    obtain ⟨k, hk⟩ := h.2 e he
    exact exists_address? hlength stop hk
  obtain ⟨resolved, hresolved⟩ := Labels.exists_resolved hbound
  exact ⟨resolved, Labels.resolve_eq_ok_iff.mpr ⟨hresolved, h.1⟩⟩

namespace Layout

theorem exists_ofFunction {start stop : UInt32} {placed : List Placed}
    (hplaces : Places start g.code placed stop) (hlabels : g.BindsLabels) :
    ∃ lay, ofFunction g start = .ok lay ∧ lay.placed = placed ∧ lay.stop = stop := by
  have hlength : (placed.map Placed.addr).length = g.code.length := by
    rw [← hplaces.map_inst, List.length_map, List.length_map]
  obtain ⟨resolved, hresolved⟩ := hlabels.exists_resolveLabels hlength stop
  exact ⟨⟨placed, stop, resolved⟩, ofFunction_eq_ok_iff.mpr ⟨hplaces, hresolved⟩, rfl, rfl⟩

theorem ofFunction_agree (h : fn.Agrees g) {start : UInt32} {lay : Layout}
    (hlay : ofFunction fn start = .ok lay) :
    ∃ lay', ofFunction g start = .ok lay' ∧ lay'.stop = lay.stop ∧
      lay.placed.Forall₂ (SamePlace fn g) lay'.placed := by
  obtain ⟨ys, hplaces, hsame⟩ := (ofFunction_eq_ok_iff.mp hlay).1.agree h.code
  obtain ⟨lay', hlay', rfl, hstop⟩ := exists_ofFunction hplaces h.labels
  exact ⟨lay', hlay', hstop, hsame⟩

end Layout

namespace Code

variable {ctx : Context} {lay lay' : Layout}

theorem Emits.agree {op : Opcode} {start : UInt32} {dev : Bool} {kind : OperandKind}
    {v w : OperandValue} {e : Emitted} (h : Emits ctx lay op start dev kind v e)
    (hvalue : v.Agrees fn g w)
    (haddr : ∀ a b k, fn.boundary? a = some k → g.boundary? b = some k →
      lay'.addressOf? b = lay.addressOf? a) :
    Emits ctx lay' op start dev kind w e := by
  cases hvalue with
  | label ha hb => exact h.retarget (haddr _ _ _ ha hb)
  | same hne =>
    refine h.relabel ?_
    cases h with
    | jump => exact absurd rfl (hne _)
    | longJump => exact absurd rfl (hne _)
    | _ => rfl

theorem EncodesAll.agree {regions : List UInt32} {xs ys : List Placed} {es : List Emitted}
    (h : EncodesAll ctx lay regions xs es) (hsame : xs.Forall₂ (Layout.SamePlace fn g) ys)
    (haddr : ∀ a b k, fn.boundary? a = some k → g.boundary? b = some k →
      lay'.addressOf? b = lay.addressOf? a) :
    EncodesAll ctx lay' regions ys es := by
  induction h generalizing ys with
  | nil =>
    cases hsame
    exact .nil _
  | @cons regions x xs e es hhead _ ih =>
    obtain _ | @⟨_, y, _, ys, ⟨hyaddr, hysize, hop, kind, v, w, hkind, hread, hread', hvalue⟩, hsame⟩ :=
      hsame
    obtain ⟨kind', v', operand, hkind', hreadx, hemits, he, hsize⟩ := hhead
    obtain rfl : kind' = kind := Option.some_inj.mp (hkind'.symm.trans hkind)
    obtain rfl : v' = v := Except.ok.inj (hreadx.symm.trans hread)
    refine .cons ?_ ?_
    · rw [hyaddr]
      refine ⟨kind', w, operand, by rw [hop, hkind], hread', ?_, by rw [hop, he], by rw [hysize, hsize]⟩
      rw [hop, hyaddr]
      exact hemits.agree hvalue haddr
    · rw [hyaddr]
      exact ih hsame

theorem EncodesBody.agree {start : UInt32} {b : Body} (hbody : EncodesBody ctx fn start b)
    (h : fn.Agrees g) : EncodesBody ctx g start b := by
  obtain ⟨lay, es, hlay, hes, rfl⟩ := hbody
  obtain ⟨lay', hlay', hstop, hsame⟩ := Layout.ofFunction_agree h hlay
  have haddresses : lay'.addresses = lay.addresses := by
    rw [Layout.addresses, Layout.addresses, Layout.SamePlace.addrs hsame, hstop]
  refine ⟨lay', es, hlay', hes.agree hsame ?_, by rw [hstop]⟩
  intro a b k ha hb
  rw [Layout.addressOf?_eq hlay, Layout.addressOf?_eq hlay', ha, hb, haddresses]

theorem Lays.agree {codeOffset : UInt32} {before : Nat} {fns gs : List Function} {bs : List Body}
    (h : Lays ctx codeOffset before fns bs) (hfns : fns.Forall₂ Function.Agrees gs) :
    Lays ctx codeOffset before gs bs := by
  induction h generalizing gs with
  | nil =>
    cases hfns
    exact .nil _
  | cons hhead _ ih =>
    obtain _ | ⟨hfn, hfns⟩ := hfns
    exact .cons (hhead.agree hfn) (ih hfns)

theorem exportsFrom_agree {codeOffset : UInt32} {fns gs : List Function}
    (h : fns.Forall₂ Function.Agrees gs) (before : Nat) (bs : List Body) :
    exportsFrom codeOffset before gs bs = exportsFrom codeOffset before fns bs := by
  induction h generalizing before bs with
  | nil => rfl
  | cons hfn _ ih =>
    cases bs with
    | nil => rfl
    | cons b bs => rw [exportsFrom, exportsFrom, exportOf, hfn.name, hfn.params, hfn.flags, ih]; rfl

end Code

theorem Mentions.Collects.agree {r : Bytes × List Mention} (hr : Collects fn r) (h : fn.Agrees g) :
    Collects g r := by
  refine ⟨by rw [hr.1, h.name], h.whole, ?_⟩
  have hcode := h.code
  have hfound := hr.2.2
  clear h hr
  generalize fn.code = code at *
  generalize g.code = code' at *
  generalize r.2 = found at *
  induction hcode generalizing found with
  | nil =>
    cases hfound
    exact .nil
  | @cons i j code code' hij _ ih =>
    obtain _ | @⟨_, f, _, found, hf, hfound⟩ := hfound
    refine .cons ?_ (ih found hfound)
    obtain ⟨hop, kind, v, w, hkind, hread, hread', hvalue⟩ := hij
    rw [Mention.ofInstruction_of_read hkind hread] at hf
    rw [← hf, Mention.ofInstruction_of_read (by rw [hop, hkind]) hread', hop, hvalue.mention]

namespace Module

variable {m d : Module} {ms : Mentions}

theorem Agrees.mentions (h : m.Agrees d) (hms : Mentions.ofModule .builtIn m = .ok ms) :
    Mentions.ofModule .builtIn d = .ok ms := by
  rw [Mentions.ofModule_eq_ok_iff] at hms ⊢
  refine ⟨h.whole, ?_⟩
  have hcollects := hms.2
  have hfns := h.functions
  clear h hms
  generalize m.functionList = fns at *
  generalize d.functionList = gs at *
  generalize ms.functions = found at *
  induction hfns generalizing found with
  | nil =>
    cases hcollects
    exact .nil
  | cons hfn _ ih =>
    obtain _ | ⟨hr, hcollects⟩ := hcollects
    exact .cons (hr.agree hfn) (ih _ hcollects)

theorem Agrees.pool (h : m.Agrees d) (ms : Mentions) : ms.pool d = ms.pool m := by
  rw [Mentions.pool, Mentions.pool, Mentions.strings, Mentions.strings, h.name, h.includes]

theorem Agrees.assemble (h : m.Agrees d) {flags : UInt8} {a : Assembled}
    (hparams : ∀ ms, Mentions.ofModule .builtIn m = .ok ms →
      ∀ c ∈ ms.callees, d.calleeParams c = m.calleeParams c)
    (ha : ScriptCodec.assemble .builtIn flags m = .ok a) :
    ScriptCodec.assemble .builtIn flags d = .ok a := by
  rw [Assembly.assemble_eq_ok_iff] at ha ⊢
  obtain ⟨ms, bs, hms, hlays, hstack, hoffset, hscript⟩ := ha
  have hpool := h.pool ms
  have himports : ms.imports d = ms.imports m := by
    apply List.map_congr_left
    intro c hc
    rw [hparams ms hms c hc]
  have hctx : Assembly.context d ms = Assembly.context m ms := by
    rw [Assembly.context, Assembly.context, hpool, himports]
  have hcode : Assembly.codeOf d ms bs = Assembly.codeOf m ms bs := by
    rw [Assembly.codeOf, Assembly.codeOf, Code.ofBodies, Code.ofBodies, hpool, h.includes,
      Code.exportsFrom_agree h.functions]
  refine ⟨ms, bs, h.mentions hms, ?_, ?_, ?_, hscript⟩
  · rw [hctx, hpool, h.includes]
    exact hlays.agree h.functions
  · rw [hcode, ← hstack]
    simp only [Assembly.stack, hpool, himports, h.includes, h.name]
  · rw [hpool, h.includes, hoffset]

end Module
end ScriptCodec
