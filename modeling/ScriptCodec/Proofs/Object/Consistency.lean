import ScriptCodec.Proofs.Object.Naming
import ScriptCodec.Proofs.Object.Records

/-!
The passes of the assembler agree. Strings and trees are collected in one pass and looked up in
another, and instructions are measured in one and emitted in another; the errors by which a later
pass would report a disagreement never occur. Errors of other causes may, so consistency is a
property of results that is closed under everything the passes are built from.
-/
namespace ScriptCodec

/-- The causes by which one pass says that another one has failed it. -/
def AssembleError.Cause.IsInternal : AssembleError.Cause → Prop
  | .pool (.notCollected _) | .sizeMismatch .. | .misplacedCode .. => True
  | _ => False

namespace Assembling

variable {α β : Type}

def Consistent (r : Assembling α) : Prop := ∀ e, r = .error e → ¬ e.cause.IsInternal

theorem consistent_ok (a : α) : Consistent (.ok a) := by
  rintro e ⟨⟩

theorem consistent_fail {cause : AssembleError.Cause} (h : ¬ cause.IsInternal) :
    Consistent (fail cause : Assembling α) := by
  rintro e ⟨⟩
  exact h

theorem consistent_ofOperand (r : Except OperandFault α) : Consistent (ofOperand r) := by
  cases r with
  | error fault =>
    rintro e ⟨⟩
    exact id
  | ok a => exact consistent_ok a

variable {r : Assembling α} {f : α → Assembling β}

theorem Consistent.bind (hr : Consistent r) (hf : ∀ a, r = .ok a → Consistent (f a)) :
    Consistent (r.bind f) := by
  cases r with
  | error e =>
    rintro _ ⟨⟩
    exact hr e rfl
  | ok a => exact hf a rfl

theorem Consistent.andThen (hr : Consistent r) (hf : ∀ a, r = .ok a → Consistent (f a)) :
    Consistent (r >>= f) :=
  hr.bind hf

theorem consistent_fail_andThen {cause : AssembleError.Cause} (h : ¬ cause.IsInternal) :
    Consistent ((fail cause : Assembling α) >>= f) :=
  (consistent_fail h).andThen fun _ ha => absurd ha fail_ne_ok

theorem Consistent.map (hr : Consistent r) (f : α → β) : Consistent (r.map f) := by
  cases r with
  | error e =>
    rintro _ ⟨⟩
    exact hr e rfl
  | ok a => exact consistent_ok (f a)

theorem Consistent.within (hr : Consistent r) (p : AssembleError.Place) :
    Consistent (r.within p) := by
  cases r with
  | error e =>
    rintro _ ⟨⟩
    exact hr e rfl
  | ok a => exact consistent_ok a

theorem consistent_mapM {xs : List α} (h : ∀ x ∈ xs, Consistent (f x)) :
    Consistent (xs.mapM f) := by
  induction xs with
  | nil => exact consistent_ok []
  | cons x xs ih =>
    rw [List.mapM_cons]
    refine (h x List.mem_cons_self).andThen fun y _ => ?_
    refine (ih fun x hx => h x (List.mem_cons_of_mem _ hx)).andThen fun ys _ => ?_
    exact consistent_ok (y :: ys)

theorem consistent_foldlM {step : β → α → Assembling β} {xs : List α}
    (h : ∀ x ∈ xs, ∀ b, Consistent (step b x)) (b : β) : Consistent (xs.foldlM step b) := by
  induction xs generalizing b with
  | nil => exact consistent_ok b
  | cons x xs ih =>
    rw [List.foldlM_cons]
    refine (h x List.mem_cons_self b).andThen fun b' _ => ?_
    exact ih (fun x hx => h x (List.mem_cons_of_mem _ hx)) b'

theorem consistent_key32 {pool : StringPool} {s : Bytes} (h : s ∈ pool.strings) :
    Consistent (ofPool (pool.key32 s)) := by
  obtain ⟨key, hkey⟩ := StringPool.exists_offset h
  rw [StringPool.key32_eq_ok_iff.mpr hkey]
  exact consistent_ok key

theorem consistent_key16 {pool : StringPool} {s : Bytes} (h : s ∈ pool.strings) :
    Consistent (ofPool (pool.key16 s)) := by
  obtain ⟨key, hkey⟩ := StringPool.exists_offset h
  rw [StringPool.key16, StringPool.key32_eq_ok_iff.mpr hkey, Except.bind]
  split
  · rintro e ⟨⟩
    exact id
  · exact consistent_ok _

end Assembling

open Assembling

theorem OpcodeTable.consistent_kind (t : OpcodeTable) (op : Opcode) : Consistent (t.kind op) := by
  unfold OpcodeTable.kind
  split
  · exact consistent_fail id
  · split
    · exact consistent_fail id
    · exact consistent_ok _

namespace Mentions

theorem consistent_ofInstruction (t : OpcodeTable) (inst : Instruction) :
    Consistent (Mention.ofInstruction t inst) := by
  refine (t.consistent_kind inst.opcode).bind fun kind _ => ?_
  cases kind with
  | string | field | animation | call | function => exact (consistent_ofOperand _).map _
  | _ => exact consistent_ok _

theorem consistent_ofFunction (t : OpcodeTable) (lost : Callee → Bool) (fn : Function) :
    Consistent (Mention.ofFunction t lost fn) := by
  refine consistent_mapM fun entry _ => Consistent.within ?_ _
  cases entry with
  | none => exact consistent_fail id
  | some inst =>
    refine ((consistent_ofInstruction t inst).within _).bind fun found _ => ?_
    split
    · exact consistent_fail id
    · exact consistent_ok found

theorem consistent_ofModule (t : OpcodeTable) (m : Module) : Consistent (ofModule t m) := by
  refine (consistent_mapM fun entry _ => ?_).map _
  cases entry with
  | none => exact consistent_fail id
  | some fn => exact (consistent_ofFunction t _ fn).map _

end Mentions

namespace Code

variable {ctx : Context} {lay : Layout} {op : Opcode} {kind : OperandKind} {start : UInt32}
  {dev : Bool} {args : List Bytes}

theorem consistent_key16Bytes {s : Bytes} (h : s ∈ ctx.pool.strings) (pos : Nat) :
    Consistent (key16Bytes ctx s pos) :=
  (consistent_key16 h).map _

theorem consistent_localsFrom {names : List Bytes} (h : ∀ s ∈ names, s ∈ ctx.pool.strings)
    (pos : Nat) : Consistent (localsFrom ctx pos names) := by
  induction names generalizing pos with
  | nil => exact consistent_ok _
  | cons name names ih =>
    refine (consistent_key16Bytes (h name List.mem_cons_self) pos).bind fun e _ => ?_
    exact (ih (fun s hs => h s (List.mem_cons_of_mem _ hs)) _).map _

theorem consistent_branchBytes (width pos : Nat) :
    Consistent (branchBytes lay op start width pos args) := by
  refine (consistent_ofOperand _).bind fun name _ => ?_
  split
  · exact consistent_fail id
  · exact (consistent_ofOperand _).map _

theorem consistent_operandBytes (hcounted : kind = .animation → args.length = 2)
    (h : ∀ v, kind.read args = .ok v →
      ∀ s ∈ (v.mention op).strings, s ∈ ctx.pool.strings) :
    Consistent (operandBytes ctx lay op kind start dev args) := by
  cases kind with
  | none =>
    simp only [operandBytes]
    split
    · exact consistent_ok _
    · exact consistent_ofOperand _
  | byte | short | hash => exact (consistent_ofOperand _).andThen fun v _ => consistent_ok _
  | integer | float =>
    refine (consistent_ofOperand _).andThen fun a _ => ?_
    exact (consistent_ofOperand _).andThen fun v _ => consistent_ok _
  | vector =>
    simp only [operandBytes]
    split
    · exact consistent_ofOperand _
    · refine (consistent_mapM fun a _ => consistent_ofOperand _).andThen fun vs _ => ?_
      exact consistent_ok _
  | string =>
    refine (consistent_ofOperand _).andThen fun s hs => consistent_key16Bytes ?_ _
    rw [ofOperand_eq_ok_iff] at hs
    exact h (.word s) (Except.map_eq_ok_iff.mpr ⟨s, hs, rfl⟩) s List.mem_cons_self
  | field =>
    refine (consistent_ofOperand _).andThen fun s hs => consistent_key16Bytes ?_ _
    rw [ofOperand_eq_ok_iff] at hs
    exact h (.word s) (Except.map_eq_ok_iff.mpr ⟨s, hs, rfl⟩) s List.mem_cons_self
  | animation =>
    refine (consistent_ofOperand _).andThen fun anim hanim => ?_
    rw [ofOperand_eq_ok_iff] at hanim
    have hread := Operand.animation_of_quoted (hcounted rfl) hanim
    have hmem : anim ∈ ctx.pool.strings :=
      h (.animation _ anim) (Except.map_eq_ok_iff.mpr ⟨_, hread, rfl⟩) anim
        (by simp [OperandValue.mention])
    exact (consistent_key32 hmem).andThen fun key _ => consistent_ok _
  | locals =>
    simp only [operandBytes]
    split
    · exact consistent_ofOperand _
    · rename_i hcount
      exact (consistent_localsFrom (h (.locals args) (if_neg hcount)) _).map _
  | cases =>
    refine (consistent_mapM fun a _ => consistent_ofOperand _).andThen fun vs _ => ?_
    exact consistent_ok _
  | call | function =>
    refine (consistent_ofOperand _).andThen fun r hread => ?_
    obtain ⟨space, name⟩ := r
    rw [ofOperand_eq_ok_iff] at hread
    have hname : name ∈ ctx.pool.strings :=
      h (.callee space name) (Except.map_eq_ok_iff.mpr ⟨_, hread, rfl⟩) name List.mem_cons_self
    exact (consistent_key32 hname).andThen fun key _ => consistent_ok _
  | jump | longJump => exact consistent_branchBytes _ _

theorem length_caseBytes (values : List Int) :
    (values.flatMap (Word.intBytes 4)).length = 4 * values.length := by
  induction values with
  | nil => rfl
  | cons v values ih =>
    rw [List.flatMap_cons, List.length_append, Word.length_intBytes, ih, List.length_cons]
    omega

theorem length_localBytes (keys : List UInt16) (pos : Nat) :
    pos + (localBytes pos keys).length =
      (List.range keys.length).foldl (fun pos _ => OperandKind.afterAligned 2 2 pos) pos := by
  induction keys generalizing pos with
  | nil => rfl
  | cons key keys ih =>
    rw [List.length_cons, List.range_succ_eq_map, List.foldl_cons, List.foldl_map,
      OperandKind.afterAligned, ← ih, localBytes]
    simp only [List.length_append, length_pad, Word.length_u16]
    omega

theorem Emits.length_eq {v : OperandValue} {e : Emitted} (h : Emits ctx lay op start dev kind v e)
    (hread : kind.read args = .ok v) (heven : kind = .cases → args.length % 2 = 0) :
    start.toNat + 1 + e.bytes.length = kind.stop args.length (start.toNat + 1) := by
  cases h with
  | nothing | byte => rfl
  | short | hash | integer | float | string | field | animation | function | jump | longJump =>
    simp only [OperandKind.stop, OperandKind.afterAligned, List.length_append, length_pad,
      Word.length_toBytes, Word.length_intBytes, Word.length_u16, Word.length_u32]
    omega
  | call =>
    simp only [OperandKind.stop, OperandKind.afterAligned, List.length_append, List.length_cons,
      length_pad, Word.length_u32, Nat.add_assoc, Nat.reduceAdd]
    omega
  | vector bits =>
    have hcount : bits.length = 3 := by
      cases OperandValue.fits_of_read hread with
      | vector hcount => exact hcount
    simp only [OperandKind.stop, OperandKind.afterAligned, List.length_append, length_pad,
      Word.length_flatMap_u32, hcount]
    omega
  | locals hkeys =>
    simp only [OperandKind.read] at hread
    split at hread
    · cases hread
    · cases hread
      rw [OperandKind.stop, hkeys.length_eq]
      refine Eq.trans ?_ (length_localBytes _ (start.toNat + 2))
      rw [List.length_cons]
      omega
  | cases values =>
    obtain ⟨-, hcount⟩ := OperandValue.read_cases hread
    have hpairs := heven rfl
    simp only [OperandKind.stop, OperandKind.afterAligned, List.length_append, length_pad,
      Word.length_toBytes, length_caseBytes, hcount]
    omega

theorem Emits.size_eq {v : OperandValue} {e : Emitted} (h : Emits ctx lay op start dev kind v e)
    (hkind : op.kind? = some kind) (hread : kind.read args = .ok v) {size : UInt32}
    (hsize : instructionSize op start args = .ok size) :
    size = UInt32.ofNat (op :: e.bytes).length := by
  rw [instructionSize_eq hkind] at hsize
  split at hsize
  · cases hsize
  · rename_i hpairs
    have hlength := h.length_eq hread fun hcases => by
      by_contra hodd
      exact hpairs ⟨hcases, hodd⟩
    have hcount : start.toNat + 1 + e.bytes.length - start.toNat = e.bytes.length + 1 := by omega
    rw [← Except.ok.inj hsize, ← hlength, hcount, List.length_cons]

theorem consistent_instruction {x : Placed}
    (hsize : instructionSize x.inst.opcode x.addr x.inst.args = .ok x.size)
    (hcounted : x.inst.IsCounted)
    (h : ∀ kind v, x.inst.opcode.kind? = some kind → kind.read x.inst.args = .ok v →
      ∀ s ∈ (v.mention x.inst.opcode).strings, s ∈ ctx.pool.strings) :
    Consistent (instruction ctx lay dev x) := by
  refine (ctx.opcodes.consistent_kind _).bind fun kind hkind => ?_
  have hkind' := (OpcodeTable.kind_eq_ok_iff.mp hkind).2
  have hcounted' : kind = .animation → x.inst.args.length = 2 :=
    fun hanim => hcounted (hanim ▸ hkind')
  refine (consistent_operandBytes hcounted' (h kind · hkind')).bind fun e he => ?_
  -- The measured size is the emitted one, so the comparison succeeds.
  obtain ⟨v, hread, hemits⟩ := exists_emits hcounted' he
  rw [if_pos (hemits.size_eq hkind' hread hsize).symm]
  exact consistent_ok _

end Code

namespace Layout

theorem consistent_ofFunction (fn : Function) (start : UInt32) : Consistent (ofFunction fn start) := by
  unfold ofFunction
  split
  · exact consistent_fail id
  · split
    · exact consistent_fail id
    · exact consistent_ok _

theorem Places.size_eq {start stop : UInt32} {code : List Instruction} {xs : List Placed}
    (h : Places start code xs stop) :
    ∀ x ∈ xs, instructionSize x.inst.opcode x.addr x.inst.args = .ok x.size := by
  induction h with
  | nil => simp
  | cons hsize _ ih => exact List.forall_mem_cons.mpr ⟨hsize, ih⟩

end Layout

def Function.IsPooled (pool : StringPool) (fn : Function) : Prop :=
  ∀ inst ∈ fn.code, ∀ kind v, inst.opcode.kind? = some kind → kind.read inst.args = .ok v →
    ∀ s ∈ (v.mention inst.opcode).strings, s ∈ pool.strings

namespace Code

variable {ctx : Context}

theorem consistent_body {fn : Function} (hcounted : fn.IsCounted) (h : fn.IsPooled ctx.pool)
    (start : UInt32) :
    Consistent (body ctx fn start) := by
  refine ((Layout.consistent_ofFunction fn start).within _).bind fun lay hlay => ?_
  rw [within_eq_ok_iff] at hlay
  have hplaces := (Layout.ofFunction_eq_ok_iff.mp hlay).1
  refine (consistent_foldlM (fun x hx p => ?_) _).map _
  have hinst : x.inst ∈ fn.code := by
    rw [← hplaces.map_inst]
    exact List.mem_map_of_mem hx
  refine (((consistent_instruction ?_ (hcounted x.inst hinst) ?_).within _).within _).map _
  · exact hplaces.size_eq x hx
  · exact h x.inst hinst

theorem consistent_emitFrom {fns : List Function} (hcounted : ∀ fn ∈ fns, fn.IsCounted)
    (h : ∀ fn ∈ fns, fn.IsPooled ctx.pool) (codeOffset : UInt32) (s : Segments) :
    Consistent (emitFrom ctx codeOffset s fns) := by
  induction fns generalizing s with
  | nil => exact consistent_ok _
  | cons fn fns ih =>
    obtain ⟨hfn, hfns⟩ := List.forall_mem_cons.mp hcounted
    obtain ⟨hpooled, hrest⟩ := List.forall_mem_cons.mp h
    exact (consistent_body hfn hpooled _).bind fun b _ => ih hfns hrest _

end Code

namespace StringPool

theorem foldl_after_ofNat (ss : List Bytes) (n : Nat) :
    ss.foldl after (UInt32.ofNat n) = UInt32.ofNat (n + (terminated ss).length) := by
  induction ss generalizing n with
  | nil => rfl
  | cons s ss ih =>
    have hafter : after (UInt32.ofNat n) s = UInt32.ofNat (n + s.length + 1) := by
      rw [after, UInt32.ofNat_add, UInt32.ofNat_add]
      rfl
    rw [List.foldl_cons, hafter, ih, terminated_cons, List.length_append, List.length_append,
      List.length_singleton]
    simp only [Nat.add_assoc]

theorem stop_eq_ofNat (p : StringPool) : p.stop = UInt32.ofNat (Header.length + p.bytes.length) :=
  foldl_after_ofNat p.strings Header.length

end StringPool

namespace Assembly

-- The offsets wrap at `2^32`, which is a multiple of four, so the padding is the same.
theorem codeOffset_eq_ofNat (pool : StringPool) (names : List Bytes) :
    codeOffset pool names = UInt32.ofNat (Header.length + (frontBytes pool names).length) := by
  have hafter : pool.stop + 4 * UInt32.ofNat names.length =
      UInt32.ofNat (Header.length + pool.bytes.length + 4 * names.length) := by
    rw [StringPool.stop_eq_ofNat, UInt32.ofNat_add _ (4 * _), UInt32.ofNat_mul]
    rfl
  have hpadding (n : Nat) : Word.padding 4 (UInt32.ofNat n).toNat = Word.padding 4 n := by
    rw [UInt32.toNat_ofNat', Word.padding, Word.padding]
    omega
  rw [codeOffset, hafter, hpadding, frontBytes]
  simp only [List.length_append, length_includeTable, Code.length_pad]
  rw [← UInt32.ofNat_add]
  simp only [Nat.add_assoc]

structure IsPooled (m : Module) (ms : Mentions) (code : Code) : Prop where
  exports : ∀ e ∈ code.exports, e.name ∈ (ms.pool m).strings
  imports : ∀ d ∈ ms.imports m, d.name ∈ (ms.pool m).strings ∧ d.space ∈ (ms.pool m).strings
  trees : ∀ tree ∈ ms.trees, tree ∈ (ms.pool m).strings
  literals : ∀ s ∈ literals code.sites, s ∈ (ms.pool m).strings

theorem consistent_nameKey (m : Module) (ms : Mentions) : Consistent (nameKey (ms.pool m) m.name) := by
  unfold nameKey
  split
  · exact consistent_ok 0
  · rename_i hname
    refine consistent_key16 (Mentions.mem_pool.mpr (Mentions.name_mem_strings ?_))
    simpa using hname

theorem consistent_stack {m : Module} {ms : Mentions} {code : Code} (h : IsPooled m ms code)
    (flags : UInt8) : Consistent (stack flags m ms code) := by
  simp only [stack]
  split
  · exact consistent_fail_andThen id
  split
  · exact consistent_fail_andThen id
  split
  · exact consistent_fail_andThen id
  rw [if_neg (not_not.mpr (codeOffset_eq_ofNat (ms.pool m) m.includeList).symm)]
  refine (consistent_nameKey m ms).andThen fun name _ => ?_
  refine (consistent_mapM fun e he => (consistent_key16 (h.exports e he)).map _).andThen
    fun exports _ => ?_
  refine (consistent_mapM fun d hd => ?_).andThen fun imports _ => ?_
  · simp only [importBytes]
    split
    · exact consistent_fail id
    · refine (consistent_key16 (h.imports d hd).1).andThen fun nameKey _ => ?_
      exact (consistent_key16 (h.imports d hd).2).andThen fun spaceKey _ => consistent_ok _
  refine (consistent_mapM fun tree htree => ?_).andThen fun trees _ => ?_
  · simp only [treeBytes]
    split
    · exact consistent_fail id
    · exact (consistent_key16 (h.trees tree htree)).andThen fun key _ => consistent_ok _
  refine (consistent_mapM fun s hs => (consistent_key16 (h.literals s hs)).map _).andThen
    fun fixups _ => ?_
  exact consistent_ok _

end Assembly

namespace Mentions

variable {m : Module} {ms : Mentions}

theorem mem_pool_of_found {found : Mention} (hfound : found ∈ ms.all) {s : Bytes}
    (hs : s ∈ found.strings) : s ∈ (ms.pool m).strings := by
  obtain ⟨r, hr, hfound⟩ := List.mem_flatMap.mp hfound
  refine mem_pool.mpr (List.mem_append_right _ (List.mem_flatMap.mpr ⟨r, hr, ?_⟩))
  exact List.mem_cons_of_mem _ (List.mem_flatMap.mpr ⟨found, hfound, hs⟩)

variable (hms : ofModule .builtIn m = .ok ms)

include hms

theorem exists_found {fn : Function} (hfn : fn ∈ m.functionList) {inst : Instruction}
    (hinst : inst ∈ fn.code) :
    ∃ found ∈ ms.all, Mention.ofInstruction .builtIn inst = .ok found := by
  obtain ⟨r, hr, hcollects⟩ := (ofModule_eq_ok_iff.mp hms).2.exists_right hfn
  obtain ⟨found, hfound, hinst⟩ := hcollects.2.2.exists_right hinst
  exact ⟨found, List.mem_flatMap.mpr ⟨r, hr, hfound⟩, hinst⟩

theorem exists_instruction {found : Mention} (hfound : found ∈ ms.all) :
    ∃ inst, Mention.ofInstruction .builtIn inst = .ok found := by
  obtain ⟨r, hr, hfound⟩ := List.mem_flatMap.mp hfound
  obtain ⟨fn, -, hcollects⟩ := (ofModule_eq_ok_iff.mp hms).2.exists_left hr
  obtain ⟨inst, -, hinst⟩ := hcollects.2.2.exists_left hfound
  exact ⟨inst, hinst⟩

theorem isPooled_function {fn : Function} (hfn : fn ∈ m.functionList) : fn.IsPooled (ms.pool m) := by
  intro inst hinst kind v hkind hread s hs
  obtain ⟨found, hfound, hmention⟩ := exists_found hms hfn hinst
  rw [Mention.ofInstruction_of_read hkind hread] at hmention
  rw [Except.ok.inj hmention] at hs
  exact mem_pool_of_found hfound hs

theorem name_mem_pool {fn : Function} (hfn : fn ∈ m.functionList) :
    fn.name ∈ (ms.pool m).strings := by
  obtain ⟨r, hr, hcollects⟩ := (ofModule_eq_ok_iff.mp hms).2.exists_right hfn
  refine mem_pool.mpr (List.mem_append_right _ (List.mem_flatMap.mpr ⟨r, hr, ?_⟩))
  rw [← hcollects.1]
  exact List.mem_cons_self

end Mentions

theorem Mention.names_mem_strings {inst : Instruction} {found : Mention}
    (h : ofInstruction .builtIn inst = .ok found) :
    (∀ c, found.callee = some c → c.name ∈ found.strings ∧ c.space ∈ found.strings) ∧
      ∀ tree, found.tree = some tree → tree ∈ found.strings := by
  simp only [ofInstruction, Except.bind_eq_ok_iff] at h
  obtain ⟨kind, -, h⟩ := h
  cases kind with
  | string | field | animation | call | function =>
    simp only [Except.map_eq_ok_iff] at h
    obtain ⟨_, -, rfl⟩ := h
    simp
  | _ =>
    rw [← Except.ok.inj h]
    simp

namespace Assembly

variable {m : Module} {ms : Mentions}

theorem isPooled_codeOf (hms : Mentions.ofModule .builtIn m = .ok ms) {bs : List Code.Body}
    (hlays : Code.Lays (context m ms) (codeOffset (ms.pool m) m.includeList) 0 m.functionList bs) :
    IsPooled m ms (codeOf m ms bs) := by
  constructor
  · intro e he
    have hname := List.mem_map_of_mem (f := Export.name) he
    change e.name ∈ (Code.exportsFrom _ 0 m.functionList bs).map Export.name at hname
    rw [Code.map_name_exportsFrom hlays] at hname
    obtain ⟨fn, hfn, hname⟩ := List.mem_map.mp hname
    rw [← hname]
    exact Mentions.name_mem_pool hms hfn
  · intro d hd
    obtain ⟨c, hc, rfl⟩ := List.mem_map.mp hd
    obtain ⟨found, hfound, hcallee⟩ := List.mem_filterMap.mp (List.mem_eraseDups.mp hc)
    obtain ⟨inst, hinst⟩ := Mentions.exists_instruction hms hfound
    obtain ⟨hname, hspace⟩ := (Mention.names_mem_strings hinst).1 c hcallee
    exact ⟨Mentions.mem_pool_of_found hfound hname, Mentions.mem_pool_of_found hfound hspace⟩
  · intro tree htree
    obtain ⟨found, hfound, htree⟩ := List.mem_filterMap.mp (List.mem_eraseDups.mp htree)
    obtain ⟨inst, hinst⟩ := Mentions.exists_instruction hms hfound
    exact Mentions.mem_pool_of_found hfound ((Mention.names_mem_strings hinst).2 tree htree)
  · intro s hs
    obtain ⟨site, hsite, hliteral⟩ := List.mem_filterMap.mp (List.mem_eraseDups.mp hs)
    cases site with
    | literal t addr =>
      obtain ⟨found, hfound, hmentioned⟩ := hlays.mentioned
        (Mentions.ofModule_eq_ok_iff.mp hms).2 hsite
      rw [← Option.some_inj.mp hliteral]
      exact Mentions.mem_pool_of_found hfound hmentioned
    | call | animation => cases hliteral

theorem consistent_assemble (t : OpcodeTable) (flags : UInt8) (m : Module) :
    Consistent (assemble t flags m) := by
  refine Consistent.within ((Mentions.consistent_ofModule t m).andThen fun ms hms => ?_) _
  have hbuiltIn := (Mentions.ofModule_eq_ok_iff_named.mp hms).2
  refine (Code.consistent_emitFrom (Mentions.isCounted hbuiltIn)
    (fun fn hfn => Mentions.isPooled_function hbuiltIn hfn) _ _).andThen fun code hcode => ?_
  obtain ⟨bs, hlays, rfl⟩ :=
    (emit_eq_ok_iff hbuiltIn).mp (Code.emitFrom_eq_ok_iff_named.mp hcode).2
  refine (consistent_stack (isPooled_codeOf hbuiltIn hlays) flags).andThen fun stack _ => ?_
  exact consistent_ok _

end Assembly

theorem Mentions.tree_mem_trees {m : Module} {ms : Mentions} (hms : ofModule .builtIn m = .ok ms)
    {fn : Function} (hfn : fn ∈ m.functionList) {inst : Instruction} (hinst : inst ∈ fn.code)
    (hkind : inst.opcode.kind? = some .animation) :
    ∃ tree anim, inst.args = [tree, anim] ∧ tree ∈ ms.trees := by
  obtain ⟨found, hfound, hmention⟩ := exists_found hms hfn hinst
  simp only [Mention.ofInstruction, Except.bind_eq_ok_iff, OpcodeTable.kind_builtIn, hkind,
    Option.some_inj, exists_eq_left', Except.map_eq_ok_iff, ofOperand_eq_ok_iff] at hmention
  obtain ⟨⟨tree, s⟩, hread, rfl⟩ := hmention
  obtain ⟨anim, hargs, -⟩ := Operand.animation_eq_ok_iff.mp hread
  refine ⟨tree, anim, hargs, ?_⟩
  exact List.mem_eraseDups.mpr (List.mem_filterMap.mpr ⟨_, hfound, rfl⟩)

theorem Code.sites_of_animation {ctx : Context} {lay : Layout} {dev : Bool} {x : Placed}
    {e : Emitted} (h : instruction ctx lay dev x = .ok e)
    (hkind : x.inst.opcode.kind? = some .animation) {tree anim : Bytes}
    (hargs : x.inst.args = [tree, anim]) : ∃ name addr, e.sites = [.animation tree name addr] := by
  simp only [instruction, Except.bind_eq_ok_iff, OpcodeTable.kind_eq_ok_iff, hkind] at h
  obtain ⟨kind, ⟨-, hsame⟩, operand, hoperand, h⟩ := h
  obtain rfl := Option.some_inj.mp hsame
  split at h
  · rw [← Except.ok.inj h]
    obtain ⟨v, hread, hemits⟩ := exists_emits (fun _ => congrArg List.length hargs) hoperand
    cases hemits with
    | animation =>
      simp only [OperandKind.read, Except.map_eq_ok_iff] at hread
      obtain ⟨⟨_, _⟩, hread, hv⟩ := hread
      cases hv
      obtain ⟨_, hsame, -⟩ := Operand.animation_eq_ok_iff.mp hread
      rw [hargs] at hsame
      obtain ⟨rfl, -⟩ := List.cons.inj hsame
      exact ⟨_, _, rfl⟩
  · exact absurd h fail_ne_ok

theorem assemble_consistent (t : OpcodeTable) (flags : UInt8) (m : Module) :
    (∀ e, assemble t flags m = .error e → ¬ e.cause.IsInternal) ∧
      ∀ ms, Mentions.ofModule t m = .ok ms → ∀ fn ∈ m.functionList, ∀ inst ∈ fn.code,
        inst.opcode.kind? = some .animation →
          ∃ tree anim, inst.args = [tree, anim] ∧
            ms.trees[ms.trees.idxOf tree]? = some tree ∧
            ∀ ctx lay dev addr size e, Code.instruction ctx lay dev ⟨inst, addr, size⟩ = .ok e →
              ∃ name ref, e.sites = [.animation tree name ref] := by
  refine ⟨Assembly.consistent_assemble t flags m, ?_⟩
  intro ms hms fn hfn inst hinst hkind
  have hbuiltIn := (Mentions.ofModule_eq_ok_iff_named.mp hms).2
  obtain ⟨tree, anim, hargs, htree⟩ := Mentions.tree_mem_trees hbuiltIn hfn hinst hkind
  refine ⟨tree, anim, hargs, List.getElem?_idxOf htree, ?_⟩
  intro ctx lay dev addr size e he
  exact Code.sites_of_animation he hkind hargs

def danglingModule : Module where
  name := text "main"
  includes := none
  functions := some [some ⟨0, 0, 0, 0, text "run", some [
    some ⟨0, 8, 19, some [text "walk", text "\"step\""]⟩,
    some ⟨8, 4, 63, some [text "nowhere"]⟩], none⟩]
  imports := none

theorem assemble_consistent_danglingModule :
    (∃ e, assemble .builtIn 0 danglingModule = .error e ∧ ¬ e.cause.IsInternal) ∧
      ∃ ms, Mentions.ofModule .builtIn danglingModule = .ok ms ∧
        ms.trees[ms.trees.idxOf (text "walk")]? = some (text "walk") := by
  obtain ⟨hcauses, htrees⟩ := assemble_consistent .builtIn 0 danglingModule
  constructor
  · cases h : assemble .builtIn 0 danglingModule with
    | error e => exact ⟨e, rfl, hcauses e h⟩
    | ok a =>
      have hfails : (assemble .builtIn 0 danglingModule).toOption.isSome = false := by decide +kernel
      rw [h] at hfails
      cases hfails
  · obtain ⟨ms, hms, -⟩ : ∃ ms, Mentions.ofModule .builtIn danglingModule = .ok ms ∧ true = true :=
      Except.exists_of_any (by decide +kernel)
    obtain ⟨tree, anim, hargs, htree, -⟩ := htrees ms hms _ List.mem_cons_self
      ⟨0, 8, 19, some [text "walk", text "\"step\""]⟩ List.mem_cons_self (by decide +kernel)
    obtain ⟨rfl, -⟩ := List.cons.inj hargs
    exact ⟨ms, hms, htree⟩

end ScriptCodec
