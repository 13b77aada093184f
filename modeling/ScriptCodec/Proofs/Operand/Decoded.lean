import ScriptCodec.Proofs.Operand.Decoding

/-!
What any decoding gives, whatever the bytes are. Operands that are read are the canonical text of
a value that fits their kind, they end where their size says, and their strings have no zero byte
if those of the tables have none.
-/
namespace ScriptCodec

namespace Disassembly

theorem signedWord_bounds (v : Nat) : -2 ^ 31 ≤ signedWord 4 v ∧ signedWord 4 v < 2 ^ 31 := by
  have hfour : Word.modulus 4 = 0x100000000 := rfl
  have hlow := Int.le_bmod (x := v) (m := Word.modulus 4) (by decide)
  have hhigh := Int.bmod_lt (x := v) (m := Word.modulus 4) (by decide)
  rw [hfour] at hlow hhigh
  rw [signedWord, hfour]
  omega

end Disassembly

structure DecodeTables.IsNulFree (t : DecodeTables) : Prop where
  strings : t.strings.IsNulFree
  imports : ∀ (ref : UInt32) entry, t.importAt[ref]? = some entry → 0 ∉ entry.space
  trees : ∀ (ref : UInt32) entry, t.treeAt[ref]? = some entry → 0 ∉ entry.name

namespace Disassembly

variable {img : Image} {pos : Nat}

structure DecodedAs (img : Image) (t : DecodeTables) (op : Opcode) (kind : OperandKind) (pos : Nat)
    (v : OperandValue) (r : OperandRead) : Prop where
  fits : v.Fits kind
  operands : r.operands.getD [] = v.spell kind
  next : r.next + 1 = pos + kind.baseSize + r.extra
  next_le : r.next ≤ img.size
  target : ∀ name, v = .label name → ∃ target, r.target = some target ∧ name = Labels.nameOf target
  nulFree : t.IsNulFree → ∀ s ∈ (v.mention op).strings, 0 ∉ s

section

variable {t : DecodeTables} {op : Opcode} {kind : OperandKind} {start : UInt32} {r : OperandRead}

theorem decodedAs_aligned {width pad next : Nat} {v : OperandValue} {shown : List Bytes}
    {target : Option UInt32} (hfits : v.Fits kind) (hshown : shown = v.spell kind)
    (hbase : kind.baseSize = width + 1) (hnext : next = pos + pad + width) (hle : next ≤ img.size)
    (htarget : ∀ name, v = .label name → ∃ addr, target = some addr ∧ name = Labels.nameOf addr)
    (hnul : t.IsNulFree → ∀ s ∈ (v.mention op).strings, 0 ∉ s) :
    DecodedAs img t op kind pos v ⟨some shown, pad, next, target⟩ where
  fits := hfits
  operands := hshown
  next := by
    simp only
    omega
  next_le := hle
  target := htarget
  nulFree := hnul

theorem decodedAs_callee {pad next : Nat} {entry : Import} {name : Bytes}
    (hfits : (OperandValue.callee entry.space name).Fits kind)
    (hspell : calleeOperands entry.space name =
      (OperandValue.callee entry.space name).spell kind)
    (hentry : t.importAt[start]? = some entry) {key : UInt32}
    (hname : t.strings.lookup key = .ok name) (hnext : next + 1 = pos + kind.baseSize + pad)
    (hle : next ≤ img.size) :
    DecodedAs img t op kind pos (.callee entry.space name)
      ⟨some (calleeOperands entry.space name), pad, next, none⟩ where
  fits := hfits
  operands := hspell
  next := hnext
  next_le := hle
  target := by simp
  nulFree := by
    intro hnul s hs
    rcases List.mem_cons.mp hs with rfl | hs
    · exact hnul.strings.lookup hname
    · rw [List.mem_singleton.mp hs]
      exact hnul.imports _ _ hentry

theorem exists_decodedAs (op : Opcode) (hpos : pos ≤ img.size) (h : Reads t img start pos kind r) :
    ∃ v, DecodedAs img t op kind pos v r := by
  have hnone : t.IsNulFree → ∀ s ∈ ([] : List Bytes), 0 ∉ s := fun _ => List.forall_mem_nil _
  cases h with
  | nothing => exact ⟨.nothing, .nothing, rfl, rfl, hpos, by simp, hnone⟩
  | @byte v hv =>
    exact ⟨.number v.toNat, .byte v.toNat_lt, rfl, rfl, Image.u8_eq_ok hv, by simp, hnone⟩
  | @short v pad next hv =>
    obtain ⟨hlt, -, hnext, hle⟩ := aligned_eq_ok hv
    exact ⟨.number v, decodedAs_aligned (.short hlt) rfl rfl hnext hle (by simp) hnone⟩
  | @hash v pad next hv =>
    obtain ⟨hlt, -, hnext, hle⟩ := aligned_eq_ok hv
    exact ⟨.number v, decodedAs_aligned (.hash hlt) rfl rfl hnext hle (by simp) hnone⟩
  | @integer v pad next hv =>
    obtain ⟨-, -, hnext, hle⟩ := aligned_eq_ok hv
    exact ⟨.integer (signedWord 4 v), decodedAs_aligned (.integer (signedWord_bounds v)) rfl rfl
      hnext hle (by simp) hnone⟩
  | @float v pad next hv =>
    obtain ⟨-, -, hnext, hle⟩ := aligned_eq_ok hv
    exact ⟨.float (UInt32.ofNat v), decodedAs_aligned (.float _) rfl rfl hnext hle (by simp) hnone⟩
  | @vector bits hbits =>
    have hfirst : pos + Word.padding 4 pos ≤ img.size := by
      rw [Tables.words] at hbits
      simp only [Tables.wordsFrom, Except.bind_eq_ok_iff] at hbits
      obtain ⟨w, hw, -⟩ := hbits
      exact Nat.le_of_add_right_le (Image.u32_eq_ok hw)
    obtain ⟨hlength, hle⟩ := Tables.words_eq_ok hfirst hbits
    exact ⟨.vector bits, decodedAs_aligned (.vector hlength) rfl rfl rfl hle (by simp) hnone⟩
  | @string key pad next s hkey hs =>
    obtain ⟨-, -, hnext, hle⟩ := aligned_eq_ok hkey
    refine ⟨.word s, decodedAs_aligned (.string s) rfl rfl hnext hle (by simp) ?_⟩
    intro hnul u hu
    rw [List.mem_singleton.mp hu]
    exact hnul.strings.lookup hs
  | @field key pad next s hkey hs =>
    obtain ⟨-, -, hnext, hle⟩ := aligned_eq_ok hkey
    refine ⟨.word s, decodedAs_aligned (.field s) rfl rfl hnext hle (by simp) ?_⟩
    intro hnul u hu
    rw [List.mem_singleton.mp hu]
    exact hnul.strings.lookup hs
  | @animation key pad next tree hkey htree =>
    obtain ⟨-, -, hnext, hle⟩ := aligned_eq_ok hkey
    refine ⟨.animation tree.name (t.strings.lookupAnim (UInt32.ofNat key)),
      decodedAs_aligned (.animation _ _) rfl rfl hnext hle (by simp) ?_⟩
    intro hnul u hu
    rcases List.mem_cons.mp hu with rfl | hu
    · exact hnul.trees _ _ htree
    · rw [List.mem_singleton.mp hu]
      exact hnul.strings.lookupAnim _
  | @locals count keys extra next names hcount hkeys hnames =>
    obtain ⟨hlength, hspan, hle⟩ := localsFrom_eq_ok (Image.u8_eq_ok hcount) hkeys
    have hcountLt := count.toNat_lt
    refine ⟨.locals names, .locals ?_, getD_listed names, ?_, hle, by simp, ?_⟩
    · rw [← hnames.length_eq, hlength, List.length_nil]
      omega
    · simp only [OperandKind.baseSize]
      omega
    · intro hnul s hs
      obtain ⟨key, -, hkey⟩ := hnames.exists_left hs
      exact hnul.strings.lookup hkey
  | @cases count pad next words hcount hwords =>
    obtain ⟨-, -, hnext, hle⟩ := aligned_eq_ok hcount
    have hstop := (Tables.words_eq_ok hle hwords).2
    refine ⟨.cases (words.map fun w => signedWord 4 w.toNat), .cases ?_, ?_, ?_, ?_, by simp,
      hnone⟩
    · intro n hn
      obtain ⟨w, -, rfl⟩ := List.mem_map.mp hn
      exact signedWord_bounds _
    · simp only [getD_listed, caseValues, OperandValue.spell, List.map_map, Function.comp_def]
    · simp only [OperandKind.baseSize]
      omega
    · simp only
      omega
  | call hkey hentry hname =>
    obtain ⟨-, -, hnext, hle⟩ := aligned_eq_ok hkey
    refine ⟨_, decodedAs_callee (.call _ _) rfl hentry hname ?_ hle⟩
    simp only [OperandKind.baseSize]
    omega
  | function hkey hentry hname =>
    obtain ⟨-, -, hnext, hle⟩ := aligned_eq_ok hkey
    refine ⟨_, decodedAs_callee (.function _ _) rfl hentry hname ?_ hle⟩
    simp only [OperandKind.baseSize]
    omega
  | jump hv =>
    obtain ⟨-, -, hnext, hle⟩ := aligned_eq_ok hv
    refine ⟨.label _, decodedAs_aligned (.jump _) rfl rfl hnext hle ?_ hnone⟩
    intro name hname
    exact ⟨_, rfl, (OperandValue.label.inj hname).symm⟩
  | longJump hv =>
    obtain ⟨-, -, hnext, hle⟩ := aligned_eq_ok hv
    refine ⟨.label _, decodedAs_aligned (.longJump _) rfl rfl hnext hle ?_ hnone⟩
    intro name hname
    exact ⟨_, rfl, (OperandValue.label.inj hname).symm⟩

/-- Only branches have a target, and their one operand is its name. -/
theorem Reads.operands_of_target (h : Reads t img start pos kind r) {target : UInt32}
    (htarget : r.target = some target) :
    kind.isBranch = true ∧ r.operands = some [Labels.nameOf target] := by
  cases h with
  | jump | longJump =>
    obtain rfl := Option.some_inj.mp htarget
    exact ⟨rfl, rfl⟩
  | _ => cases htarget

end

end Disassembly
end ScriptCodec
