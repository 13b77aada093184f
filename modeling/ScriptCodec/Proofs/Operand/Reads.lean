import ScriptCodec.Object.Disassembly
import ScriptCodec.Proofs.Binary.Holds

/-!
What the operands of an instruction are read as, by their kind. `Reads` says it once for all kinds:
the bytes that were read and the entries that were found. Operands are read exactly when it holds,
and after a known opcode they make an instruction. What holds of every decoded instruction is a
case analysis on `Reads`.
-/
namespace ScriptCodec

namespace Image

variable {img : Image} {pos : Nat}

theorem word_eq_ok {width v : Nat} (h : img.word width pos = .ok v) :
    v < Word.modulus width ∧ pos + width ≤ img.size := by
  simp only [word, slice, Except.map_eq_ok_iff] at h
  obtain ⟨bs, hbs, rfl⟩ := h
  split at hbs
  · rename_i hle
    rw [← Except.ok.inj hbs]
    have hlength : (img.extract pos (pos + width)).toList.length = width := by
      rw [Array.length_toList, Array.size_extract]
      omega
    have hlt := Word.ofBytes_lt (img.extract pos (pos + width)).toList
    rw [hlength] at hlt
    exact ⟨hlt, hle⟩
  · cases hbs

theorem u8_eq_ok {v : UInt8} (h : img.u8 pos = .ok v) : pos + 1 ≤ img.size := by
  simp only [u8, Except.map_eq_ok_iff] at h
  obtain ⟨n, hn, -⟩ := h
  exact (word_eq_ok hn).2

theorem u32_eq_ok {v : UInt32} (h : img.u32 pos = .ok v) : pos + 4 ≤ img.size := by
  simp only [u32, Except.map_eq_ok_iff] at h
  obtain ⟨n, hn, -⟩ := h
  exact (word_eq_ok hn).2

theorem seek_eq_ok {next : Nat} (h : img.seek pos = .ok next) : next = pos ∧ pos ≤ img.size := by
  unfold seek at h
  split at h
  · rename_i hle
    exact ⟨(Except.ok.inj h).symm, hle⟩
  · cases h

end Image

namespace Tables

variable {img : Image} {pos : Nat}

theorem wordsFrom_eq_ok {count : Nat} {done ws : List UInt32} (hpos : pos ≤ img.size)
    (h : wordsFrom img pos done count = .ok ws) :
    ws.length = done.length + count ∧ pos + 4 * count ≤ img.size := by
  induction count generalizing pos done with
  | zero =>
    rw [← Except.ok.inj h, List.length_reverse]
    exact ⟨rfl, hpos⟩
  | succ count ih =>
    simp only [wordsFrom, Except.bind_eq_ok_iff] at h
    obtain ⟨w, hw, h⟩ := h
    obtain ⟨hlength, hle⟩ := ih (Image.u32_eq_ok hw) h
    rw [List.length_cons] at hlength
    omega

theorem words_eq_ok {count : Nat} {ws : List UInt32} (hpos : pos ≤ img.size)
    (h : words img pos count = .ok ws) : ws.length = count ∧ pos + 4 * count ≤ img.size := by
  have hwords := wordsFrom_eq_ok hpos h
  rw [List.length_nil, Nat.zero_add] at hwords
  exact hwords

end Tables

namespace Disassembly

variable {img : Image} {pos : Nat}

theorem aligned_eq_ok {width v pad next : Nat} (h : aligned img width pos = .ok (v, pad, next)) :
    v < Word.modulus width ∧ pad = Word.padding width pos ∧ next = pos + pad + width ∧
      next ≤ img.size := by
  simp only [aligned, Except.map_eq_ok_iff, Prod.mk.injEq] at h
  obtain ⟨n, hn, rfl, rfl, rfl⟩ := h
  exact ⟨(Image.word_eq_ok hn).1, rfl, rfl, (Image.word_eq_ok hn).2⟩

theorem localsFrom_eq_ok {count extra extra' next : Nat} {done keys : List UInt32}
    (hpos : pos ≤ img.size) (h : localsFrom img extra pos done count = .ok (keys, extra', next)) :
    keys.length = done.length + count ∧ next + extra = pos + extra' ∧ next ≤ img.size := by
  induction count generalizing pos extra done with
  | zero =>
    simp only [localsFrom, Except.ok.injEq, Prod.mk.injEq] at h
    obtain ⟨rfl, rfl, rfl⟩ := h
    exact ⟨List.length_reverse, rfl, hpos⟩
  | succ count ih =>
    simp only [localsFrom, Except.bind_eq_ok_iff] at h
    obtain ⟨⟨key, pad, after⟩, hkey, h⟩ := h
    obtain ⟨-, hpad, hafter, hle⟩ := aligned_eq_ok hkey
    obtain ⟨hlength, hspan, hnext⟩ := ih hle h
    simp only [List.length_cons] at hlength hspan
    omega

variable {t : DecodeTables} {op : Opcode} {kind : OperandKind} {start : UInt32} {r : OperandRead}

theorem calleeRead_eq_ok_iff {key : UInt32} {extra next : Nat} :
    calleeRead t op start key extra next = .ok r ↔
      ∃ entry name, t.importAt[start]? = some entry ∧ t.strings.lookup key = .ok name ∧
        ⟨some (calleeOperands entry.space name), extra, next, none⟩ = r := by
  unfold calleeRead
  cases t.importAt[start]? with
  | none => simp
  | some entry => simp

/-- What the operands of the instruction at `start` that stand from `pos` on are read as. -/
inductive Reads (t : DecodeTables) (img : Image) (start : UInt32) (pos : Nat) :
    OperandKind → OperandRead → Prop
  | nothing : Reads t img start pos .none ⟨none, 0, pos, none⟩
  | byte {v : UInt8} (h : img.u8 pos = .ok v) :
    Reads t img start pos .byte ⟨some [Text.decimal v.toNat], 0, pos + 1, none⟩
  | short {v pad next : Nat} (h : aligned img 2 pos = .ok (v, pad, next)) :
    Reads t img start pos .short ⟨some [Text.decimal v], pad, next, none⟩
  | hash {v pad next : Nat} (h : aligned img 4 pos = .ok (v, pad, next)) :
    Reads t img start pos .hash ⟨some [Text.hex v], pad, next, none⟩
  | integer {v pad next : Nat} (h : aligned img 4 pos = .ok (v, pad, next)) :
    Reads t img start pos .integer ⟨some [Text.decimalInt (signedWord 4 v)], pad, next, none⟩
  | float {v pad next : Nat} (h : aligned img 4 pos = .ok (v, pad, next)) :
    Reads t img start pos .float ⟨some [FloatText.scalar (UInt32.ofNat v)], pad, next, none⟩
  | vector {bits : List UInt32} (h : Tables.words img (pos + Word.padding 4 pos) 3 = .ok bits) :
    Reads t img start pos .vector ⟨some (bits.map FloatText.component), Word.padding 4 pos,
      pos + Word.padding 4 pos + 12, none⟩
  | string {key pad next : Nat} {s : Bytes} (h : aligned img 2 pos = .ok (key, pad, next))
    (hs : t.strings.lookup (UInt32.ofNat key) = .ok s) :
    Reads t img start pos .string ⟨some [Text.quote s], pad, next, none⟩
  | field {key pad next : Nat} {s : Bytes} (h : aligned img 2 pos = .ok (key, pad, next))
    (hs : t.strings.lookup (UInt32.ofNat key) = .ok s) :
    Reads t img start pos .field ⟨some [s], pad, next, none⟩
  | animation {key pad next : Nat} {tree : AnimTree} (h : aligned img 4 pos = .ok (key, pad, next))
    (htree : t.treeAt[UInt32.ofNat (pos + pad)]? = some tree) :
    Reads t img start pos .animation
      ⟨some [tree.name, Text.quote (t.strings.lookupAnim (UInt32.ofNat key))], pad, next, none⟩
  | locals {count : UInt8} {keys : List UInt32} {extra next : Nat} {names : List Bytes}
    (hcount : img.u8 pos = .ok count)
    (hkeys : localsFrom img 0 (pos + 1) [] count.toNat = .ok (keys, extra, next))
    (hnames : keys.Forall₂ (fun key s => t.strings.lookup key = .ok s) names) :
    Reads t img start pos .locals ⟨listed names, extra, next, none⟩
  | cases {count pad next : Nat} {words : List UInt32}
    (h : aligned img 4 pos = .ok (count, pad, next))
    (hwords : Tables.words img next (2 * count) = .ok words) :
    Reads t img start pos .cases
      ⟨listed (caseValues words), pad + 8 * count, next + 8 * count, none⟩
  | call {key pad next : Nat} {entry : Import} {name : Bytes}
    (h : aligned img 4 (pos + 1) = .ok (key, pad, next)) (hentry : t.importAt[start]? = some entry)
    (hname : t.strings.lookup (UInt32.ofNat key) = .ok name) :
    Reads t img start pos .call ⟨some (calleeOperands entry.space name), pad, next, none⟩
  | function {key pad next : Nat} {entry : Import} {name : Bytes}
    (h : aligned img 4 pos = .ok (key, pad, next)) (hentry : t.importAt[start]? = some entry)
    (hname : t.strings.lookup (UInt32.ofNat key) = .ok name) :
    Reads t img start pos .function ⟨some (calleeOperands entry.space name), pad, next, none⟩
  | jump {v pad next : Nat} {target : UInt32} (h : aligned img 2 pos = .ok (v, pad, next))
    (htarget : Branch.target start (UInt32.ofNat (OperandKind.jump.baseSize + pad))
      (signedWord 2 v) = target) :
    Reads t img start pos .jump ⟨some [Labels.nameOf target], pad, next, some target⟩
  | longJump {v pad next : Nat} {target : UInt32} (h : aligned img 4 pos = .ok (v, pad, next))
    (htarget : Branch.target start (UInt32.ofNat (OperandKind.longJump.baseSize + pad))
      (signedWord 4 v) = target) :
    Reads t img start pos .longJump ⟨some [Labels.nameOf target], pad, next, some target⟩

theorem reads_of_operands (h : operands t img op kind start pos = .ok r) :
    Reads t img start pos kind r := by
  cases kind <;>
    simp only [operands, Except.andThen_eq_ok_iff, Decoding.within_eq_ok_iff,
      Decoding.ofRange_eq_ok_iff, Except.pure_eq_ok_iff, Except.ok.injEq] at h
  case none =>
    obtain rfl := h
    exact .nothing
  case byte =>
    obtain ⟨v, hv, rfl⟩ := h
    exact .byte hv
  case short =>
    obtain ⟨⟨v, pad, next⟩, hv, rfl⟩ := h
    exact .short hv
  case hash =>
    obtain ⟨⟨v, pad, next⟩, hv, rfl⟩ := h
    exact .hash hv
  case integer =>
    obtain ⟨⟨v, pad, next⟩, hv, rfl⟩ := h
    exact .integer hv
  case float =>
    obtain ⟨⟨v, pad, next⟩, hv, rfl⟩ := h
    exact .float hv
  case vector =>
    obtain ⟨bits, hbits, rfl⟩ := h
    exact .vector hbits
  case string =>
    obtain ⟨⟨key, pad, next⟩, hkey, s, hs, rfl⟩ := h
    exact .string hkey hs
  case field =>
    obtain ⟨⟨key, pad, next⟩, hkey, s, hs, rfl⟩ := h
    exact .field hkey hs
  case animation =>
    obtain ⟨⟨key, pad, next⟩, hkey, h⟩ := h
    split at h
    · exact absurd h Decoding.fail_ne_ok
    · rename_i tree htree
      obtain rfl := Except.pure_eq_ok_iff.mp h
      exact .animation hkey htree
  case locals =>
    obtain ⟨count, hcount, ⟨keys, extra, next⟩, hkeys, names, hnames, rfl⟩ := h
    simp only [List.mapM_eq_ok_iff, Decoding.within_eq_ok_iff] at hnames
    exact .locals hcount hkeys hnames
  case cases =>
    obtain ⟨⟨count, pad, next⟩, hcount, h⟩ := h
    split at h
    · exact absurd h Decoding.fail_ne_ok
    · simp only [Except.andThen_eq_ok_iff, Decoding.within_eq_ok_iff, Decoding.ofRange_eq_ok_iff,
        Except.pure_eq_ok_iff] at h
      obtain ⟨words, hwords, rfl⟩ := h
      exact .cases hcount hwords
  case call =>
    obtain ⟨after, hafter, ⟨key, pad, next⟩, hkey, h⟩ := h
    obtain ⟨rfl, -⟩ := Image.seek_eq_ok hafter
    obtain ⟨entry, name, hentry, hname, rfl⟩ := calleeRead_eq_ok_iff.mp h
    exact .call hkey hentry hname
  case function =>
    obtain ⟨⟨key, pad, next⟩, hkey, h⟩ := h
    obtain ⟨entry, name, hentry, hname, rfl⟩ := calleeRead_eq_ok_iff.mp h
    exact .function hkey hentry hname
  case jump =>
    simp only [branch, Except.map_eq_ok_iff] at h
    obtain ⟨⟨v, pad, next⟩, hv, rfl⟩ := h
    exact .jump hv rfl
  case longJump =>
    simp only [branch, Except.map_eq_ok_iff] at h
    obtain ⟨⟨v, pad, next⟩, hv, rfl⟩ := h
    exact .longJump hv rfl

/-- Calls and lists of cases ask for the room of what they read before they read it. -/
theorem Reads.operands (h : Reads t img start pos kind r) (op : Opcode) :
    operands t img op kind start pos = .ok r := by
  cases h <;>
    simp only [Disassembly.operands, Except.andThen_eq_ok_iff, Decoding.within_eq_ok_iff,
      Decoding.ofRange_eq_ok_iff, Except.pure_eq_ok_iff]
  case byte h => exact ⟨_, h, rfl⟩
  case short h | hash h | integer h | float h | vector h => exact ⟨_, h, rfl⟩
  case string h hs | field h hs => exact ⟨_, h, _, hs, rfl⟩
  case animation h htree =>
    refine ⟨_, h, ?_⟩
    rw [htree]
    rfl
  case locals names hcount hkeys hnames =>
    refine ⟨_, hcount, _, hkeys, names, ?_, rfl⟩
    simpa only [List.mapM_eq_ok_iff, Decoding.within_eq_ok_iff] using hnames
  case cases count pad next words h hwords =>
    have hroom := (Tables.words_eq_ok (aligned_eq_ok h).2.2.2 hwords).2
    refine ⟨_, h, ?_⟩
    rw [if_neg (by simp only; omega)]
    simp only [Except.andThen_eq_ok_iff, Decoding.within_eq_ok_iff, Decoding.ofRange_eq_ok_iff,
      Except.pure_eq_ok_iff]
    exact ⟨_, hwords, rfl⟩
  case call h hentry hname =>
    obtain ⟨-, -, hnext, hle⟩ := aligned_eq_ok h
    have hseek : img.seek (pos + 1) = .ok (pos + 1) := if_pos (by omega)
    refine ⟨_, hseek, _, h, ?_⟩
    exact calleeRead_eq_ok_iff.mpr ⟨_, _, hentry, hname, rfl⟩
  case function h hentry hname =>
    exact ⟨_, h, calleeRead_eq_ok_iff.mpr ⟨_, _, hentry, hname, rfl⟩⟩
  case jump h htarget | longJump h htarget =>
    rw [branch, h, ← htarget]
    rfl

/-- Operands are read exactly when `Reads` holds; the opcode only stands in errors. -/
theorem operands_eq_ok_iff :
    operands t img op kind start pos = .ok r ↔ Reads t img start pos kind r :=
  ⟨reads_of_operands, fun h => h.operands op⟩

structure ReadAs (t : DecodeTables) (img : Image) (pos : Nat) (step : Step) (op : Opcode)
    (kind : OperandKind) (r : OperandRead) : Prop where
  opcode_eq : img.u8 pos = .ok op
  kind_eq : op.kind? = some kind
  operands_eq : operands t img op kind (UInt32.ofNat pos) (pos + 1) = .ok r
  inst_eq : step.inst = ⟨UInt32.ofNat pos, UInt32.ofNat (kind.baseSize + r.extra), op, r.operands⟩
  size_eq : step.size = kind.baseSize + r.extra
  next_eq : step.next = r.next
  target_eq : step.target = r.target

theorem exists_readAs {step : Step} (h : instruction t img pos = .ok step) :
    ∃ op kind r, ReadAs t img pos step op kind r := by
  simp only [instruction, Except.bind_eq_ok_iff, Decoding.within_eq_ok_iff,
    Decoding.ofRange_eq_ok_iff] at h
  obtain ⟨op, hop, h⟩ := h
  split at h
  · exact absurd h Decoding.fail_ne_ok
  · generalize hkind : Opcode.kind? op = k at h
    cases k with
    | none => exact absurd h Decoding.fail_ne_ok
    | some kind =>
      simp only [Except.map_eq_ok_iff] at h
      obtain ⟨r, hr, rfl⟩ := h
      exact ⟨op, kind, r, hop, hkind, hr, rfl, rfl, rfl, rfl⟩

theorem ReadAs.reads {step : Step} (h : ReadAs t img pos step op kind r) :
    Reads t img (UInt32.ofNat pos) (pos + 1) kind r :=
  operands_eq_ok_iff.mp h.operands_eq

theorem instruction_of_reads (hop : img.u8 pos = .ok op) (hknown : t.opcodes.knows op = true)
    (hkind : op.kind? = some kind) (h : Reads t img (UInt32.ofNat pos) (pos + 1) kind r) :
    ∃ step, instruction t img pos = .ok step ∧ ReadAs t img pos step op kind r := by
  have hoperands := h.operands op
  have hunknown : (!t.opcodes.knows op) = false := by rw [hknown]; rfl
  refine ⟨⟨⟨UInt32.ofNat pos, UInt32.ofNat (kind.baseSize + r.extra), op, r.operands⟩,
    kind.baseSize + r.extra, Nat.lt_of_lt_of_le kind.baseSize_pos (Nat.le_add_right ..), r.next,
    r.target⟩, ?_, hop, hkind, hoperands, rfl, rfl, rfl, rfl⟩
  simp only [instruction, Except.bind_eq_ok_iff, Decoding.within_eq_ok_iff,
    Decoding.ofRange_eq_ok_iff]
  refine ⟨op, hop, ?_⟩
  simp only [hunknown, hkind, Bool.false_eq_true, if_false, hoperands, Except.map]

end Disassembly
end ScriptCodec
