import ScriptCodec.Object.Code
import ScriptCodec.Proofs.Binary.Holds
import ScriptCodec.Proofs.Operand.Value

/-!
What an instruction is emitted as, by the value of its operands. `Emits` says it once for all
operand kinds; emission succeeds exactly when the operands are read and `Emits` holds of their
value. What the instruction mentions depends on the value alone, too. Emission takes the operands
of an animation for counted, which they are wherever they could be mentioned.
-/
namespace ScriptCodec

namespace OpcodeTable

theorem mem_filterMap_range {α β : Type} {set : Array α} {f : Nat → α → β} {i : Nat} {entry : α}
    (h : set[i]? = some entry) :
    f i entry ∈ (List.range set.size).filterMap fun i => set[i]?.map (f i) := by
  have hlt : i < set.size := (Array.getElem?_eq_some_iff.mp h).1
  refine List.mem_filterMap.mpr ⟨i, List.mem_range.mpr hlt, ?_⟩
  rw [h, Option.map_some]

theorem mem_builtIn {op : Opcode} {kind : OperandKind} (h : op.kind? = some kind) :
    (op, op.display) ∈ builtIn.entries := by
  unfold Opcode.kind? at h
  obtain ⟨entry, hentry, -⟩ := Option.map_eq_some_iff.mp h
  have hname : op.display = text entry.1 := by
    rw [Opcode.display, Opcode.mnemonic?, hentry, Option.map_some, Option.getD_some]
  rw [hname]
  simp only [builtIn, builtInEntries]
  clear hname
  generalize instructionSet = set at *
  have hmem := mem_filterMap_range (f := fun i e => (UInt8.ofNat i, text e.1)) hentry
  rwa [UInt8.ofNat_toNat] at hmem

theorem knows_builtIn {op : Opcode} {kind : OperandKind} (h : op.kind? = some kind) :
    builtIn.knows op = true := by
  exact List.any_eq_true.mpr ⟨_, mem_builtIn h, beq_self_eq_true op⟩

theorem kind_builtIn {op : Opcode} {kind : OperandKind} :
    builtIn.kind op = .ok kind ↔ op.kind? = some kind := by
  constructor
  · intro h
    unfold OpcodeTable.kind at h
    split at h
    · exact absurd h Assembling.fail_ne_ok
    · split at h
      · exact absurd h Assembling.fail_ne_ok
      · rename_i hkind
        rw [hkind, Except.ok.inj h]
  · intro h
    have hfound : (builtIn.entries.find? fun e => e.1 == op).isSome := by
      rw [List.find?_isSome]
      exact ⟨_, mem_builtIn h, beq_self_eq_true op⟩
    obtain ⟨entry, hentry⟩ := Option.isSome_iff_exists.mp hfound
    simp only [OpcodeTable.kind, OpcodeTable.name, hentry, h]

end OpcodeTable

namespace Code

def localBytes (pos : Nat) : List UInt16 → Bytes
  | [] => []
  | key :: rest => pad 2 pos ++ Word.u16 key ++ localBytes (pos + Word.padding 2 pos + 2) rest

def localSites (pos : Nat) : List Bytes → List Site
  | [] => []
  | s :: rest => .literal s (operandAt 2 pos) :: localSites (pos + Word.padding 2 pos + 2) rest

@[simp] theorem length_pad (n pos : Nat) : (pad n pos).length = Word.padding n pos :=
  List.length_replicate

theorem key16Bytes_eq_ok_iff {ctx : Context} {s : Bytes} {pos : Nat} {e : Emitted} :
    key16Bytes ctx s pos = .ok e ↔ ∃ key, ctx.pool.key16 s = .ok key ∧
      ⟨pad 2 pos ++ Word.u16 key, [.literal s (operandAt 2 pos)], none⟩ = e := by
  simp [key16Bytes]

theorem localsFrom_eq_ok_iff {ctx : Context} {names : List Bytes} {pos : Nat} {e : Emitted} :
    localsFrom ctx pos names = .ok e ↔
      ∃ keys, names.Forall₂ (fun s key => ctx.pool.key16 s = .ok key) keys ∧
        ⟨localBytes pos keys, localSites pos names, none⟩ = e := by
  induction names generalizing pos e with
  | nil => simp [localsFrom, localBytes, localSites]
  | cons s rest ih =>
    simp only [localsFrom, Except.bind_eq_ok_iff, key16Bytes_eq_ok_iff, Except.map_eq_ok_iff, ih]
    constructor
    · rintro ⟨_, ⟨key, hkey, rfl⟩, _, ⟨keys, hkeys, rfl⟩, rfl⟩
      refine ⟨key :: keys, .cons hkey hkeys, ?_⟩
      simp [localBytes, localSites, Nat.add_assoc]
    · rintro ⟨_, _ | ⟨hkey, hkeys⟩, rfl⟩
      refine ⟨_, ⟨_, hkey, rfl⟩, _, ⟨_, hkeys, rfl⟩, ?_⟩
      simp [localBytes, localSites, Nat.add_assoc]

/-- The bytes, sites and region of an instruction at `start` whose operands say a value. -/
inductive Emits (ctx : Context) (lay : Layout) (op : Opcode) (start : UInt32) (dev : Bool) :
    OperandKind → OperandValue → Emitted → Prop
  | nothing : Emits ctx lay op start dev .none .nothing ⟨[], [], none⟩
  | byte (n : Nat) : Emits ctx lay op start dev .byte (.number n) ⟨[UInt8.ofNat n], [], none⟩
  | short (n : Nat) : Emits ctx lay op start dev .short (.number n)
      ⟨pad 2 (start.toNat + 1) ++ Word.toBytes 2 n, [], none⟩
  | hash (n : Nat) : Emits ctx lay op start dev .hash (.number n)
      ⟨pad 4 (start.toNat + 1) ++ Word.toBytes 4 n, [], none⟩
  | integer (n : Int) : Emits ctx lay op start dev .integer (.integer n)
      ⟨pad 4 (start.toNat + 1) ++ Word.intBytes 4 n, [], none⟩
  | float (bits : UInt32) : Emits ctx lay op start dev .float (.float bits)
      ⟨pad 4 (start.toNat + 1) ++ Word.u32 bits, [], none⟩
  | vector (bits : List UInt32) : Emits ctx lay op start dev .vector (.vector bits)
      ⟨pad 4 (start.toNat + 1) ++ bits.flatMap Word.u32, [], none⟩
  | string {s : Bytes} {key : UInt16} (h : ctx.pool.key16 s = .ok key) :
    Emits ctx lay op start dev .string (.word s)
      ⟨pad 2 (start.toNat + 1) ++ Word.u16 key, [.literal s (operandAt 2 (start.toNat + 1))], none⟩
  | field {s : Bytes} {key : UInt16} (h : ctx.pool.key16 s = .ok key) :
    Emits ctx lay op start dev .field (.word s)
      ⟨pad 2 (start.toNat + 1) ++ Word.u16 key, [.literal s (operandAt 2 (start.toNat + 1))], none⟩
  | animation {tree anim : Bytes} {key : UInt32} (h : ctx.pool.key32 anim = .ok key) :
    Emits ctx lay op start dev .animation (.animation tree anim)
      ⟨pad 4 (start.toNat + 1) ++ Word.u32 key,
        [.animation tree anim (operandAt 4 (start.toNat + 1))], none⟩
  | locals {names : List Bytes} {keys : List UInt16}
    (h : names.Forall₂ (fun s key => ctx.pool.key16 s = .ok key) keys) :
    Emits ctx lay op start dev .locals (.locals names)
      ⟨UInt8.ofNat names.length :: localBytes (start.toNat + 2) keys,
        localSites (start.toNat + 2) names, none⟩
  | cases (values : List Int) : Emits ctx lay op start dev .cases (.cases values)
      ⟨pad 4 (start.toNat + 1) ++ Word.toBytes 4 (values.length / 2) ++
        values.flatMap (Word.intBytes 4), [], none⟩
  | call {space name : Bytes} {key : UInt32} (h : ctx.pool.key32 name = .ok key) :
    Emits ctx lay op start dev .call (.callee space name)
      ⟨ctx.params ⟨space, name, op.importKind⟩ :: (pad 4 (start.toNat + 2) ++ Word.u32 key),
        [.call ⟨space, name, op.importKind⟩ start dev], none⟩
  | function {space name : Bytes} {key : UInt32} (h : ctx.pool.key32 name = .ok key) :
    Emits ctx lay op start dev .function (.callee space name)
      ⟨pad 4 (start.toNat + 1) ++ Word.u32 key,
        [.call ⟨space, name, op.importKind⟩ start dev], none⟩
  | jump {name : Bytes} {target : UInt32} {d : Int} (h : lay.addressOf? name = some target)
    (hd : Branch.distance target start
      (UInt32.ofNat (1 + Word.padding 2 (start.toNat + 1) + 2)) 2 = .ok d) :
    Emits ctx lay op start dev .jump (.label name)
      ⟨pad 2 (start.toNat + 1) ++ Word.intBytes 2 d, [],
        if op = Opcode.devBlockBegin then some target else none⟩
  | longJump {name : Bytes} {target : UInt32} {d : Int} (h : lay.addressOf? name = some target)
    (hd : Branch.distance target start
      (UInt32.ofNat (1 + Word.padding 4 (start.toNat + 1) + 4)) 4 = .ok d) :
    Emits ctx lay op start dev .longJump (.label name)
      ⟨pad 4 (start.toNat + 1) ++ Word.intBytes 4 d, [],
        if op = Opcode.devBlockBegin then some target else none⟩

section

variable {ctx : Context} {lay : Layout} {op : Opcode} {kind : OperandKind} {start : UInt32}
  {dev : Bool} {args : List Bytes} {v : OperandValue} {e : Emitted}

theorem branchBytes_eq_ok_iff {width pos : Nat} :
    branchBytes lay op start width pos args = .ok e ↔
      ∃ name target d, args = [name] ∧ lay.addressOf? name = some target ∧
        Branch.distance target start (UInt32.ofNat (1 + Word.padding width pos + width)) width =
          .ok d ∧
        ⟨pad width pos ++ Word.intBytes width d, [],
          if op = Opcode.devBlockBegin then some target else none⟩ = e := by
  simp only [branchBytes, Except.bind_eq_ok_iff, Assembling.ofOperand_eq_ok_iff,
    Operand.single_eq_ok_iff]
  constructor
  · rintro ⟨name, hargs, h⟩
    cases htarget : lay.addressOf? name with
    | none => simp [htarget] at h
    | some target =>
      simp only [htarget, Except.map_eq_ok_iff, Assembling.ofOperand_eq_ok_iff] at h
      obtain ⟨d, hd, he⟩ := h
      exact ⟨name, target, d, hargs, htarget, hd, he⟩
  · rintro ⟨name, target, d, hargs, htarget, hd, he⟩
    refine ⟨name, hargs, ?_⟩
    simp only [htarget, Except.map_eq_ok_iff, Assembling.ofOperand_eq_ok_iff]
    exact ⟨d, hd, he⟩

theorem mapM_ofOperand {α β : Type} {f : α → Except OperandFault β} {xs : List α} {ys : List β} :
    xs.mapM (fun x => Assembling.ofOperand (f x)) = .ok ys ↔ xs.mapM f = .ok ys := by
  simp only [List.mapM_eq_ok_iff, Assembling.ofOperand_eq_ok_iff]

theorem exists_emits (hcounted : kind = .animation → args.length = 2)
    (h : operandBytes ctx lay op kind start dev args = .ok e) :
    ∃ v, kind.read args = .ok v ∧ Emits ctx lay op start dev kind v e := by
  cases kind with
  | none =>
    simp only [operandBytes] at h
    split at h
    · rename_i hempty
      rw [← Except.ok.inj h]
      exact ⟨.nothing, if_pos hempty, .nothing⟩
    · simp at h
  | byte =>
    simp only [operandBytes, Except.andThen_eq_ok_iff, Assembling.ofOperand_eq_ok_iff,
      Except.pure_eq_ok_iff] at h
    obtain ⟨n, hn, rfl⟩ := h
    exact ⟨.number n, Except.map_eq_ok_iff.mpr ⟨n, hn, rfl⟩, .byte n⟩
  | short =>
    simp only [operandBytes, Except.andThen_eq_ok_iff, Assembling.ofOperand_eq_ok_iff,
      Except.pure_eq_ok_iff] at h
    obtain ⟨n, hn, rfl⟩ := h
    exact ⟨.number n, Except.map_eq_ok_iff.mpr ⟨n, hn, rfl⟩, .short n⟩
  | hash =>
    simp only [operandBytes, Except.andThen_eq_ok_iff, Assembling.ofOperand_eq_ok_iff,
      Except.pure_eq_ok_iff] at h
    obtain ⟨n, hn, rfl⟩ := h
    exact ⟨.number n, Except.map_eq_ok_iff.mpr ⟨n, hn, rfl⟩, .hash n⟩
  | integer =>
    simp only [operandBytes, Except.andThen_eq_ok_iff, Assembling.ofOperand_eq_ok_iff,
      Except.pure_eq_ok_iff] at h
    obtain ⟨a, ha, n, hn, rfl⟩ := h
    refine ⟨.integer n, ?_, .integer n⟩
    exact Except.bind_eq_ok_iff.mpr ⟨a, ha, Except.map_eq_ok_iff.mpr ⟨n, hn, rfl⟩⟩
  | float =>
    simp only [operandBytes, Except.andThen_eq_ok_iff, Assembling.ofOperand_eq_ok_iff,
      Except.pure_eq_ok_iff] at h
    obtain ⟨a, ha, bits, hbits, rfl⟩ := h
    refine ⟨.float bits, ?_, .float bits⟩
    exact Except.bind_eq_ok_iff.mpr ⟨a, ha, Except.map_eq_ok_iff.mpr ⟨bits, hbits, rfl⟩⟩
  | vector =>
    simp only [operandBytes] at h
    split at h
    · simp at h
    · rename_i hlength
      simp only [Except.andThen_eq_ok_iff, mapM_ofOperand, Except.pure_eq_ok_iff] at h
      obtain ⟨bits, hbits, rfl⟩ := h
      refine ⟨.vector bits, ?_, .vector bits⟩
      simp only [OperandKind.read, if_neg hlength]
      exact Except.map_eq_ok_iff.mpr ⟨bits, hbits, rfl⟩
  | string =>
    simp only [operandBytes, Except.andThen_eq_ok_iff, Assembling.ofOperand_eq_ok_iff,
      key16Bytes_eq_ok_iff] at h
    obtain ⟨s, hs, key, hkey, rfl⟩ := h
    exact ⟨.word s, Except.map_eq_ok_iff.mpr ⟨s, hs, rfl⟩, .string hkey⟩
  | field =>
    simp only [operandBytes, Except.andThen_eq_ok_iff, Assembling.ofOperand_eq_ok_iff,
      key16Bytes_eq_ok_iff] at h
    obtain ⟨s, hs, key, hkey, rfl⟩ := h
    exact ⟨.word s, Except.map_eq_ok_iff.mpr ⟨s, hs, rfl⟩, .field hkey⟩
  | animation =>
    simp only [operandBytes, Except.andThen_eq_ok_iff, Assembling.ofOperand_eq_ok_iff,
      Assembling.ofPool_eq_ok_iff, Except.pure_eq_ok_iff] at h
    obtain ⟨anim, hanim, key, hkey, rfl⟩ := h
    have hread := Operand.animation_of_quoted (hcounted rfl) hanim
    exact ⟨.animation _ anim, Except.map_eq_ok_iff.mpr ⟨_, hread, rfl⟩, .animation hkey⟩
  | locals =>
    simp only [operandBytes] at h
    split at h
    · simp at h
    · rename_i hcount
      simp only [Except.map_eq_ok_iff, localsFrom_eq_ok_iff] at h
      obtain ⟨_, ⟨keys, hkeys, rfl⟩, rfl⟩ := h
      exact ⟨.locals args, if_neg hcount, .locals hkeys⟩
  | cases =>
    simp only [operandBytes, Except.andThen_eq_ok_iff, mapM_ofOperand, Except.pure_eq_ok_iff] at h
    obtain ⟨values, hvalues, rfl⟩ := h
    have hlength := (List.mapM_eq_ok_iff.mp hvalues).length_eq
    refine ⟨.cases values, Except.map_eq_ok_iff.mpr ⟨values, hvalues, rfl⟩, ?_⟩
    rw [hlength]
    exact .cases values
  | call =>
    simp only [operandBytes, Except.andThen_eq_ok_iff, Assembling.ofOperand_eq_ok_iff,
      Assembling.ofPool_eq_ok_iff, Except.pure_eq_ok_iff] at h
    obtain ⟨⟨space, name⟩, hread, key, hkey, rfl⟩ := h
    exact ⟨.callee space name, Except.map_eq_ok_iff.mpr ⟨_, hread, rfl⟩, .call hkey⟩
  | function =>
    simp only [operandBytes, Except.andThen_eq_ok_iff, Assembling.ofOperand_eq_ok_iff,
      Assembling.ofPool_eq_ok_iff, Except.pure_eq_ok_iff] at h
    obtain ⟨⟨space, name⟩, hread, key, hkey, rfl⟩ := h
    exact ⟨.callee space name, Except.map_eq_ok_iff.mpr ⟨_, hread, rfl⟩, .function hkey⟩
  | jump =>
    simp only [operandBytes, branchBytes_eq_ok_iff] at h
    obtain ⟨name, target, d, hargs, htarget, hd, rfl⟩ := h
    refine ⟨.label name, Except.map_eq_ok_iff.mpr ⟨name, ?_, rfl⟩, .jump htarget hd⟩
    exact Operand.single_eq_ok_iff.mpr hargs
  | longJump =>
    simp only [operandBytes, branchBytes_eq_ok_iff] at h
    obtain ⟨name, target, d, hargs, htarget, hd, rfl⟩ := h
    refine ⟨.label name, Except.map_eq_ok_iff.mpr ⟨name, ?_, rfl⟩, .longJump htarget hd⟩
    exact Operand.single_eq_ok_iff.mpr hargs

theorem operandBytes_of_emits (hread : kind.read args = .ok v)
    (h : Emits ctx lay op start dev kind v e) :
    operandBytes ctx lay op kind start dev args = .ok e := by
  cases h with
  | nothing =>
    simp only [OperandKind.read] at hread
    split at hread
    · rename_i hempty
      exact if_pos hempty
    · cases hread
  | byte n | short n | hash n =>
    simp only [OperandKind.read, Except.map_eq_ok_iff, OperandValue.number.injEq,
      exists_eq_right] at hread
    simp only [operandBytes, Except.andThen_eq_ok_iff, Assembling.ofOperand_eq_ok_iff,
      Except.pure_eq_ok_iff]
    exact ⟨n, hread, rfl⟩
  | integer n | float bits =>
    simp only [OperandKind.read, Except.bind_eq_ok_iff, Except.map_eq_ok_iff,
      OperandValue.integer.injEq, OperandValue.float.injEq, exists_eq_right] at hread
    obtain ⟨a, ha, hn⟩ := hread
    simp only [operandBytes, Except.andThen_eq_ok_iff, Assembling.ofOperand_eq_ok_iff,
      Except.pure_eq_ok_iff]
    exact ⟨a, ha, _, hn, rfl⟩
  | vector bits =>
    simp only [OperandKind.read] at hread
    split at hread
    · cases hread
    · rename_i hlength
      simp only [Except.map_eq_ok_iff, OperandValue.vector.injEq, exists_eq_right] at hread
      simp only [operandBytes, if_neg hlength, Except.andThen_eq_ok_iff, mapM_ofOperand,
        Except.pure_eq_ok_iff]
      exact ⟨bits, hread, rfl⟩
  | string hkey | field hkey =>
    simp only [OperandKind.read, Except.map_eq_ok_iff, OperandValue.word.injEq,
      exists_eq_right] at hread
    simp only [operandBytes, Except.andThen_eq_ok_iff, Assembling.ofOperand_eq_ok_iff,
      key16Bytes_eq_ok_iff]
    exact ⟨_, hread, _, hkey, rfl⟩
  | animation hkey =>
    simp only [OperandKind.read, Except.map_eq_ok_iff, OperandValue.animation.injEq] at hread
    obtain ⟨⟨tree, anim⟩, hread, rfl, rfl⟩ := hread
    obtain ⟨a, rfl, hanim⟩ := Operand.animation_eq_ok_iff.mp hread
    simp only [operandBytes, Except.andThen_eq_ok_iff, Assembling.ofOperand_eq_ok_iff,
      Assembling.ofPool_eq_ok_iff, Except.pure_eq_ok_iff]
    exact ⟨anim, Operand.quoted_eq_ok_iff.mpr ⟨a, rfl, hanim⟩, _, hkey, rfl⟩
  | locals hkeys =>
    simp only [OperandKind.read] at hread
    split at hread
    · cases hread
    · rename_i hcount
      obtain rfl : args = _ := OperandValue.locals.inj (Except.ok.inj hread)
      simp only [operandBytes, if_neg hcount, Except.map_eq_ok_iff, localsFrom_eq_ok_iff]
      exact ⟨_, ⟨_, hkeys, rfl⟩, rfl⟩
  | cases values =>
    simp only [OperandKind.read, Except.map_eq_ok_iff, OperandValue.cases.injEq,
      exists_eq_right] at hread
    have hlength := (List.mapM_eq_ok_iff.mp hread).length_eq
    simp only [operandBytes, Except.andThen_eq_ok_iff, mapM_ofOperand, Except.pure_eq_ok_iff]
    exact ⟨values, hread, by rw [hlength]⟩
  | call hkey | function hkey =>
    simp only [OperandKind.read, Except.map_eq_ok_iff, OperandValue.callee.injEq] at hread
    obtain ⟨⟨space, name⟩, hread, rfl, rfl⟩ := hread
    simp only [operandBytes, Except.andThen_eq_ok_iff, Assembling.ofOperand_eq_ok_iff,
      Assembling.ofPool_eq_ok_iff, Except.pure_eq_ok_iff]
    exact ⟨(space, name), hread, _, hkey, rfl⟩
  | jump htarget hd | longJump htarget hd =>
    simp only [OperandKind.read, Except.map_eq_ok_iff, OperandValue.label.injEq, exists_eq_right,
      Operand.single_eq_ok_iff] at hread
    simp only [operandBytes, branchBytes_eq_ok_iff]
    exact ⟨_, _, _, hread, htarget, hd, rfl⟩

/-- Only a branch looks at the layout, and only for the address of its label. -/
theorem Emits.relabel {lay' : Layout} (h : Emits ctx lay op start dev kind v e)
    (hbranch : kind.isBranch = false) : Emits ctx lay' op start dev kind v e := by
  cases h with
  | jump | longJump => cases hbranch
  | nothing => exact .nothing
  | byte n => exact .byte n
  | short n => exact .short n
  | hash n => exact .hash n
  | integer n => exact .integer n
  | float bits => exact .float bits
  | vector bits => exact .vector bits
  | string h => exact .string h
  | field h => exact .field h
  | animation h => exact .animation h
  | locals h => exact .locals h
  | cases values => exact .cases values
  | call h => exact .call h
  | function h => exact .function h

theorem Emits.retarget {lay' : Layout} {name name' : Bytes}
    (h : Emits ctx lay op start dev kind (.label name) e)
    (haddr : lay'.addressOf? name' = lay.addressOf? name) :
    Emits ctx lay' op start dev kind (.label name') e := by
  cases h with
  | jump h hd => exact .jump (haddr.trans h) hd
  | longJump h hd => exact .longJump (haddr.trans h) hd

end

end Code

namespace Site

def addr : Site → UInt32
  | literal _ addr => addr
  | call _ addr _ => addr
  | animation _ _ addr => addr

def Within (low high : Nat) (sites : List Site) : Prop :=
  sites.Pairwise (fun a b => a.addr.toNat < b.addr.toNat) ∧
    ∀ s ∈ sites, low ≤ s.addr.toNat ∧ s.addr.toNat < high

theorem within_nil (low high : Nat) : Within low high [] :=
  ⟨List.Pairwise.nil, fun _ h => absurd h List.not_mem_nil⟩

theorem within_singleton {low high : Nat} {s : Site} (hlow : low ≤ s.addr.toNat)
    (hhigh : s.addr.toNat < high) : Within low high [s] := by
  refine ⟨List.pairwise_singleton _ _, ?_⟩
  intro t ht
  obtain rfl := List.mem_singleton.mp ht
  exact ⟨hlow, hhigh⟩

theorem Within.append {low mid high : Nat} {a b : List Site} (ha : Within low mid a)
    (hb : Within mid high b) (hlow : low ≤ mid) (hhigh : mid ≤ high) : Within low high (a ++ b) := by
  refine ⟨List.pairwise_append.mpr ⟨ha.1, hb.1, ?_⟩, ?_⟩
  · intro s hs t ht
    exact Nat.lt_of_lt_of_le (ha.2 s hs).2 (hb.2 t ht).1
  · intro s hs
    rcases List.mem_append.mp hs with hs | hs
    · exact ⟨(ha.2 s hs).1, Nat.lt_of_lt_of_le (ha.2 s hs).2 hhigh⟩
    · exact ⟨Nat.le_trans hlow (hb.2 s hs).1, (hb.2 s hs).2⟩

theorem Within.mono {low low' high high' : Nat} {sites : List Site} (h : Within low high sites)
    (hlow : low' ≤ low) (hhigh : high ≤ high') : Within low' high' sites := by
  refine ⟨h.1, ?_⟩
  intro s hs
  exact ⟨Nat.le_trans hlow (h.2 s hs).1, Nat.lt_of_lt_of_le (h.2 s hs).2 hhigh⟩

theorem Within.unique {low high : Nat} {sites : List Site} (h : Within low high sites) {s t : Site}
    (hs : s ∈ sites) (ht : t ∈ sites) (haddr : s.addr = t.addr) : s = t := by
  by_contra hne
  have : Std.Symm fun a b : Site => a.addr ≠ b.addr := ⟨fun _ _ h => h.symm⟩
  have hdistinct : sites.Pairwise fun a b => a.addr ≠ b.addr := by
    refine h.1.imp ?_
    intro a b hlt heq
    rw [heq] at hlt
    exact Nat.lt_irrefl _ hlt
  exact hdistinct.forall hs ht hne haddr

end Site

namespace Code

theorem toNat_operandAt {n pos : Nat} (h : pos + Word.padding n pos < 2 ^ 32) :
    (operandAt n pos).toNat = pos + Word.padding n pos := by
  rw [operandAt, UInt32.toNat_ofNat', Nat.mod_eq_of_lt h]

theorem within_localSites {names : List Bytes} {keys : List UInt16} {R : Bytes → UInt16 → Prop}
    (h : names.Forall₂ R keys) {pos : Nat} (hfit : pos + (localBytes pos keys).length < 2 ^ 32) :
    Site.Within pos (pos + (localBytes pos keys).length) (localSites pos names) := by
  induction h generalizing pos with
  | nil => exact Site.within_nil _ _
  | @cons s key names keys _ _ ih =>
    simp only [localBytes, localSites, List.length_append, length_pad, Word.length_u16] at hfit ⊢
    have haddr : (operandAt 2 pos).toNat = pos + Word.padding 2 pos := toNat_operandAt (by omega)
    have hfirst : Site.Within pos (pos + Word.padding 2 pos + 2) [.literal s (operandAt 2 pos)] := by
      apply Site.within_singleton
      · rw [Site.addr, haddr]
        omega
      · rw [Site.addr, haddr]
        omega
    have hfit' : pos + Word.padding 2 pos + 2 +
        (localBytes (pos + Word.padding 2 pos + 2) keys).length < 2 ^ 32 := by omega
    exact hfirst.append ((ih hfit').mono (Nat.le_refl _) (by omega)) (by omega) (by omega)

theorem Emits.within_sites {ctx : Context} {lay : Layout} {op : Opcode} {kind : OperandKind}
    {start : UInt32} {dev : Bool} {v : OperandValue} {e : Emitted}
    (h : Emits ctx lay op start dev kind v e)
    (hfit : start.toNat + (e.bytes.length + 1) < 2 ^ 32) :
    Site.Within start.toNat (start.toNat + (e.bytes.length + 1)) e.sites := by
  have hoperand {n width : Nat} (hwidth : 0 < width) {s : Site}
      (hs : s.addr = operandAt n (start.toNat + 1))
      (hlt : start.toNat + (Word.padding n (start.toNat + 1) + width + 1) < 2 ^ 32) :
      Site.Within start.toNat
        (start.toNat + (Word.padding n (start.toNat + 1) + width + 1)) [s] := by
    have haddr : s.addr.toNat = start.toNat + 1 + Word.padding n (start.toNat + 1) := by
      rw [hs, toNat_operandAt (by omega)]
    exact Site.within_singleton (by omega) (by omega)
  cases h with
  | string | field | animation =>
    simp only [List.length_append, length_pad, Word.length_u16, Word.length_u32] at hfit ⊢
    exact hoperand (by decide) rfl hfit
  | locals hkeys =>
    simp only [List.length_cons] at hfit ⊢
    exact (within_localSites hkeys (by omega)).mono (by omega) (by omega)
  | call | function => exact Site.within_singleton (Nat.le_refl _) (by rw [Site.addr]; omega)
  | _ => exact Site.within_nil _ _

end Code

namespace OperandValue

def mention (op : Opcode) : OperandValue → Mention
  | word s => { strings := [s] }
  | locals names => { strings := names }
  | animation tree anim => { strings := [tree, anim], tree := some tree }
  | callee space name =>
    { strings := [name, space], callee := some ⟨space, name, op.importKind⟩ }
  | _ => {}

end OperandValue

/-- An animation has as many operands as its emission takes for granted. -/
def Instruction.IsCounted (inst : Instruction) : Prop :=
  inst.opcode.kind? = some .animation → inst.args.length = 2

theorem Mention.isCounted_of_ofInstruction {inst : Instruction} {found : Mention}
    (h : ofInstruction .builtIn inst = .ok found) : inst.IsCounted := by
  intro hkind
  simp only [ofInstruction, Except.bind_eq_ok_iff, OpcodeTable.kind_builtIn, hkind,
    Option.some_inj, exists_eq_left', Except.map_eq_ok_iff, Assembling.ofOperand_eq_ok_iff] at h
  obtain ⟨⟨tree, anim⟩, hread, -⟩ := h
  obtain ⟨a, hargs, -⟩ := Operand.animation_eq_ok_iff.mp hread
  rw [hargs]
  rfl

theorem Mention.ofInstruction_of_read {inst : Instruction} {kind : OperandKind} {v : OperandValue}
    (hkind : inst.opcode.kind? = some kind) (hread : kind.read inst.args = .ok v) :
    Mention.ofInstruction .builtIn inst = .ok (v.mention inst.opcode) := by
  simp only [Mention.ofInstruction, Except.bind_eq_ok_iff, OpcodeTable.kind_builtIn]
  refine ⟨kind, hkind, ?_⟩
  have hfits := OperandValue.fits_of_read hread
  cases hfits with
  | string | field | animation | call | function =>
    simp only [OperandKind.read, Except.map_eq_ok_iff] at hread
    obtain ⟨_, hread, hv⟩ := hread
    cases hv
    simp only [Except.map_eq_ok_iff, Assembling.ofOperand_eq_ok_iff]
    exact ⟨_, hread, rfl⟩
  | locals =>
    simp only [OperandKind.read] at hread
    split at hread
    · cases hread
    · cases hread
      rfl
  | _ => rfl

end ScriptCodec
