import ScriptCodec.Proofs.Object.Records
import ScriptCodec.Proofs.Operand.Emission
import ScriptCodec.Proofs.Operand.Reads

/-!
Emitted operands decode to the canonical text of their value. The tables a decoder looks things
up in have to agree with the pool and with the sites of the code.
-/
namespace ScriptCodec

/-- Tables that agree with a string pool and with sites of the code. -/
structure DecodeTables.Linked (t : DecodeTables) (pool : StringPool) (sites : List Site) : Prop where
  opcodes : t.opcodes = .builtIn
  strings : t.strings.Holds pool
  imports : ∀ c addr dev, Site.call c addr dev ∈ sites →
    ∃ entry, t.importAt[addr]? = some entry ∧ entry.space = c.space
  trees : ∀ tree anim addr, Site.animation tree anim addr ∈ sites →
    ∃ entry, t.treeAt[addr]? = some entry ∧ entry.name = tree

namespace Disassembly

variable {img : Image}

theorem aligned_of_holds {width pos n : Nat}
    (h : img.Holds pos (Code.pad width pos ++ Word.toBytes width n)) :
    aligned img width pos =
      .ok (n % Word.modulus width, Word.padding width pos, pos + Word.padding width pos + width) := by
  rw [Image.holds_append, Code.length_pad] at h
  rw [aligned, h.2.toBytes]
  rfl

theorem aligned_of_lt {width pos n : Nat} (hn : n < Word.modulus width)
    (h : img.Holds pos (Code.pad width pos ++ Word.toBytes width n)) :
    aligned img width pos =
      .ok (n, Word.padding width pos, pos + Word.padding width pos + width) := by
  rw [aligned_of_holds h, Nat.mod_eq_of_lt hn]

/-- Two's complement at a width keeps the integers of that width. -/
theorem signedWord_emod {width : Nat} {n : Int} (hlow : -(Word.modulus width : Int) ≤ 2 * n)
    (hhigh : 2 * n < Word.modulus width) :
    signedWord width (n % (Word.modulus width : Int)).toNat = n := by
  have hpos : (0 : Int) < Word.modulus width := by omega
  have hnonneg := Int.emod_nonneg n (Int.ne_of_gt hpos)
  rw [signedWord, Int.toNat_of_nonneg hnonneg, Int.emod_bmod]
  exact Int.bmod_eq_of_le_mul_two (by omega) (by omega)

theorem emod_toNat_lt (width : Nat) (n : Int) :
    (n % (Word.modulus width : Int)).toNat < Word.modulus width := by
  have hpos : 0 < Word.modulus width := Nat.pow_pos (by decide)
  have hlt := Int.emod_lt_of_pos n (show (0 : Int) < Word.modulus width by omega)
  have hnonneg := Int.emod_nonneg n (show (Word.modulus width : Int) ≠ 0 by omega)
  omega

theorem ofNat_toNat16 (key : UInt16) : UInt32.ofNat key.toNat = key.toUInt32 := by
  have hlt := key.toNat_lt
  apply UInt32.toNat_inj.mp
  rw [toNat_ofNat_of_lt (by omega), UInt16.toNat_toUInt32]

theorem localsFrom_of_holds {keys : List UInt16} {pos : Nat}
    (h : img.Holds pos (Code.localBytes pos keys)) (extra : Nat) (done : List UInt32) :
    localsFrom img extra pos done keys.length =
      .ok (done.reverse ++ keys.map UInt16.toUInt32, extra + (Code.localBytes pos keys).length,
        pos + (Code.localBytes pos keys).length) := by
  induction keys generalizing pos extra done with
  | nil => simp [localsFrom, Code.localBytes]
  | cons key keys ih =>
    rw [Code.localBytes, Image.holds_append] at h
    obtain ⟨hhead, htail⟩ := h
    rw [List.length_append, Code.length_pad, Word.length_u16, ← Nat.add_assoc] at htail
    have hread := aligned_of_lt (show key.toNat < Word.modulus 2 from key.toNat_lt) hhead
    have hkey := ofNat_toNat16 key
    rw [List.length_cons, localsFrom, hread, Except.bind]
    simp only [ih htail, hkey, Code.localBytes, List.length_append, Code.length_pad,
      Word.length_u16, List.reverse_cons, List.map_cons, List.append_assoc, List.singleton_append,
      Except.ok.injEq, Prod.mk.injEq, true_and]
    omega

theorem target_distance {target start size : UInt32} {width : Nat} {d : Int}
    (h : Branch.distance target start size width = .ok d) :
    Branch.target start size d = target ∧
      -(if width = 2 then (0x8000 : Int) else 0x80000000) ≤ d ∧
      d < if width = 2 then (0x8000 : Int) else 0x80000000 := by
  simp only [Branch.distance] at h
  generalize (if width = 2 then (0x8000 : Int) else 0x80000000) = half at *
  split at h
  · cases h
  · rename_i hrange
    obtain rfl := Except.ok.inj h
    refine ⟨?_, by omega, by omega⟩
    have hsum : ((start.toNat : Int) + size.toNat + (target.toNat - start.toNat - size.toNat)) =
        target.toNat := by omega
    have hlt := target.toNat_lt
    apply UInt32.toNat_inj.mp
    rw [Branch.target, hsum, UInt32.ofInt, toNat_ofNat_of_lt (by omega)]
    omega

theorem branch_of_holds (kind : OperandKind) {start target : UInt32} {width : Nat} {d : Int}
    (hwidth : width = 2 ∨ width = 4) (hbase : kind.baseSize = 1 + width)
    (hd : Branch.distance target start
      (UInt32.ofNat (1 + Word.padding width (start.toNat + 1) + width)) width = .ok d)
    (h : img.Holds (start.toNat + 1)
      (Code.pad width (start.toNat + 1) ++ Word.intBytes width d)) :
    ∃ v, aligned img width (start.toNat + 1) = .ok (v, Word.padding width (start.toNat + 1),
        start.toNat + 1 + Word.padding width (start.toNat + 1) + width) ∧
      Branch.target start (UInt32.ofNat (kind.baseSize + Word.padding width (start.toNat + 1)))
        (signedWord width v) = target := by
  obtain ⟨htarget, hlow, hhigh⟩ := target_distance hd
  have hword : signedWord width (d % (Word.modulus width : Int)).toNat = d := by
    have htwo : Word.modulus 2 = 0x10000 := rfl
    have hfour : Word.modulus 4 = 0x100000000 := rfl
    apply signedWord_emod
    · rcases hwidth with rfl | rfl
      · rw [htwo]
        simp only [if_true] at hlow
        omega
      · rw [hfour]
        simp only [Nat.reduceEqDiff, if_false] at hlow
        omega
    · rcases hwidth with rfl | rfl
      · rw [htwo]
        simp only [if_true] at hhigh
        omega
      · rw [hfour]
        simp only [Nat.reduceEqDiff, if_false] at hhigh
        omega
  have hsize : kind.baseSize + Word.padding width (start.toNat + 1) =
      1 + Word.padding width (start.toNat + 1) + width := by omega
  exact ⟨_, aligned_of_lt (emod_toNat_lt width d) h, by rw [hword, hsize, htarget]⟩

def caseWords (values : List Int) : List UInt32 :=
  values.map fun n => UInt32.ofNat (n % (Word.modulus 4 : Int)).toNat

theorem flatMap_intBytes (values : List Int) :
    values.flatMap (Word.intBytes 4) = (caseWords values).flatMap Word.u32 := by
  rw [caseWords, List.flatMap_map]
  congr 1
  funext n
  rw [Word.u32, toNat_ofNat_of_lt (emod_toNat_lt 4 n), Word.intBytes]

theorem signedWord_int {n : Int} (h : -2 ^ 31 ≤ n ∧ n < 2 ^ 31) :
    signedWord 4 (n % (Word.modulus 4 : Int)).toNat = n := by
  have hfour : Word.modulus 4 = 0x100000000 := rfl
  apply signedWord_emod
  · rw [hfour]
    omega
  · rw [hfour]
    omega

theorem caseValues_caseWords {values : List Int} (h : ∀ n ∈ values, -2 ^ 31 ≤ n ∧ n < 2 ^ 31) :
    caseValues (caseWords values) = values.map Text.decimalInt := by
  rw [caseValues, caseWords, List.map_map]
  apply List.map_congr_left
  intro n hn
  rw [Function.comp_apply, toNat_ofNat_of_lt (emod_toNat_lt 4 n), signedWord_int (h n hn)]

theorem getD_listed (shown : List Bytes) : (listed shown).getD [] = shown := by
  unfold listed
  split
  · rename_i hempty
    exact (List.isEmpty_iff.mp hempty).symm
  · rfl

structure ReadsOperands (kind : OperandKind) (addressOf? : Bytes → Option UInt32) (start : UInt32)
    (v : OperandValue) (bytes : Bytes) (r : OperandRead) : Prop where
  operands : v.spellAt kind addressOf? = some (r.operands.getD [])
  listed : r.operands = listed (r.operands.getD [])
  target : r.target = v.target? addressOf?
  size : kind.baseSize + r.extra = bytes.length + 1
  next : r.next = start.toNat + (bytes.length + 1)

section

variable {t : DecodeTables} {ctx : Code.Context} {sites : List Site}
  {lay : Layout} {op : Opcode} {kind : OperandKind} {start : UInt32} {dev : Bool}
  {v : OperandValue} {e : Code.Emitted} {pool : StringPool} {addressOf? : Bytes → Option UInt32}

theorem lookup_key (hlinked : t.Linked pool sites) {s : Bytes} {key : UInt16}
    (hkey : pool.key16 s = .ok key) : t.strings.lookup (UInt32.ofNat key.toNat) = .ok s := by
  rw [ofNat_toNat16]
  exact hlinked.strings.lookup16 hkey

theorem readsOperands_aligned {bytes : Bytes} {shown : List Bytes} {target : Option UInt32}
    (n : Nat) {width : Nat}
    (hspell : v.spellAt kind addressOf? = some shown) (hne : shown ≠ [])
    (htarget : target = v.target? addressOf?) (hbase : kind.baseSize = width + 1)
    (hlength : bytes.length = Word.padding n (start.toNat + 1) + width) :
    ReadsOperands kind addressOf? start v bytes
      ⟨some shown, Word.padding n (start.toNat + 1),
        start.toNat + 1 + Word.padding n (start.toNat + 1) + width, target⟩ where
  operands := hspell
  listed := by rw [Option.getD_some, Disassembly.listed, if_neg (by simpa using hne)]
  target := htarget
  size := by
    simp only
    omega
  next := by
    simp only
    omega

theorem calleeOperands_ne_nil (space name : Bytes) : calleeOperands space name ≠ [] := by
  unfold calleeOperands
  split <;> simp

theorem exists_callee (hlinked : t.Linked pool sites) {space name : Bytes} {key : UInt32}
    (hkey : pool.key32 name = .ok key)
    (hsite : Site.call ⟨space, name, op.importKind⟩ start dev ∈ sites) :
    ∃ entry, t.importAt[start]? = some entry ∧ entry.space = space ∧
      t.strings.lookup (UInt32.ofNat key.toNat) = .ok name := by
  obtain ⟨entry, hentry, hspace⟩ := hlinked.imports _ _ _ hsite
  rw [UInt32.ofNat_toNat]
  exact ⟨entry, hentry, hspace, hlinked.strings.lookup (StringPool.key32_eq_ok_iff.mp hkey)⟩

theorem reads_call (hlinked : t.Linked pool sites) {space name : Bytes} {key : UInt32}
    (hkey : pool.key32 name = .ok key)
    (hsite : Site.call ⟨space, name, op.importKind⟩ start dev ∈ sites) {params : UInt8}
    (hheld : img.Holds (start.toNat + 1)
      (params :: (Code.pad 4 (start.toNat + 2) ++ Word.u32 key))) :
    ∃ r, Reads t img start (start.toNat + 1) .call r ∧
      ReadsOperands .call addressOf? start (.callee space name)
        (params :: (Code.pad 4 (start.toNat + 2) ++ Word.u32 key)) r := by
  obtain ⟨entry, hentry, rfl, hname⟩ := exists_callee hlinked hkey hsite
  have hrest : img.Holds (start.toNat + 2) _ := (Image.holds_cons.mp hheld).2
  have haligned := aligned_of_lt key.toNat_lt hrest
  refine ⟨_, .call haligned hentry hname, rfl, ?_, rfl, ?_, ?_⟩
  · rw [Option.getD_some, listed, if_neg (by simpa using calleeOperands_ne_nil entry.space name)]
  · simp only [OperandKind.baseSize, List.length_cons, List.length_append, Code.length_pad,
      Word.length_u32]
    omega
  · simp only [List.length_cons, List.length_append, Code.length_pad, Word.length_u32]
    omega

theorem reads_locals (hlinked : t.Linked pool sites) {names : List Bytes} {keys : List UInt16}
    (hcount : names.length ≤ 255) (hkeys : names.Forall₂ (fun s key => pool.key16 s = .ok key) keys)
    (hheld : img.Holds (start.toNat + 1)
      (UInt8.ofNat names.length :: Code.localBytes (start.toNat + 2) keys)) :
    ∃ r, Reads t img start (start.toNat + 1) .locals r ∧
      ReadsOperands .locals addressOf? start (.locals names)
        (UInt8.ofNat names.length :: Code.localBytes (start.toNat + 2) keys) r := by
  have hfirst := (Image.holds_cons.mp hheld).1
  have hrest : img.Holds (start.toNat + 2) _ := (Image.holds_cons.mp hheld).2
  have hvalue : (UInt8.ofNat names.length).toNat = keys.length := by
    rw [UInt8.toNat_ofNat', Nat.mod_eq_of_lt (show names.length < 2 ^ 8 by omega),
      hkeys.length_eq]
  have hread := localsFrom_of_holds hrest 0 []
  rw [← hvalue] at hread
  have hnames : (keys.map UInt16.toUInt32).Forall₂ (fun key s => t.strings.lookup key = .ok s)
      names := by
    rw [List.forall₂_map_left_iff]
    exact hkeys.flip.imp fun _ _ hkey => hlinked.strings.lookup16 hkey
  refine ⟨_, .locals hfirst.u8 hread hnames, ?_, ?_, rfl, ?_, ?_⟩
  · rw [getD_listed]
    rfl
  · rw [getD_listed]
  · simp only [OperandKind.baseSize, List.length_cons]
    omega
  · simp only [List.length_cons]
    omega

theorem reads_cases {values : List Int} (hbounds : ∀ n ∈ values, -2 ^ 31 ≤ n ∧ n < 2 ^ 31)
    (heven : values.length % 2 = 0)
    (hheld : img.Holds (start.toNat + 1) (Code.pad 4 (start.toNat + 1) ++
      Word.toBytes 4 (values.length / 2) ++ values.flatMap (Word.intBytes 4)))
    (hfit : start.toNat + 4 * values.length < 2 ^ 32) :
    ∃ r, Reads t img start (start.toNat + 1) .cases r ∧
      ReadsOperands .cases addressOf? start (.cases values) (Code.pad 4 (start.toNat + 1) ++
        Word.toBytes 4 (values.length / 2) ++ values.flatMap (Word.intBytes 4)) r := by
  have htwo : 2 * (values.length / 2) = values.length := by omega
  have hwordCount : (caseWords values).length = values.length := List.length_map _
  rw [flatMap_intBytes] at hheld ⊢
  obtain ⟨hcount, hwords⟩ := Image.holds_append.mp hheld
  rw [List.length_append, Code.length_pad, Word.length_toBytes, ← Nat.add_assoc] at hwords
  have hread := aligned_of_lt (show values.length / 2 < Word.modulus 4 by
    rw [show Word.modulus 4 = 2 ^ 32 from rfl]; omega) hcount
  have hvalues := Tables.words_of_holds hwords
  rw [hwordCount, ← htwo] at hvalues
  refine ⟨_, .cases hread hvalues, ?_, ?_, rfl, ?_, ?_⟩
  · rw [getD_listed, caseValues_caseWords hbounds]
    rfl
  · rw [getD_listed]
  · simp only [OperandKind.baseSize, List.length_append, Code.length_pad, Word.length_toBytes,
      Word.length_flatMap_u32, hwordCount]
    omega
  · simp only [List.length_append, Code.length_pad, Word.length_toBytes, Word.length_flatMap_u32,
      hwordCount]
    omega

theorem reads_of_emits (hlinked : t.Linked ctx.pool sites) (hfits : v.Fits kind)
    (heven : ∀ values, v = .cases values → values.length % 2 = 0)
    (h : Code.Emits ctx lay op start dev kind v e) (hsites : ∀ s ∈ e.sites, s ∈ sites)
    (hheld : img.Holds (start.toNat + 1) e.bytes)
    (hfit : start.toNat + (e.bytes.length + 1) < 2 ^ 32) :
    ∃ r, Reads t img start (start.toNat + 1) kind r ∧
      ReadsOperands kind lay.addressOf? start v e.bytes r := by
  cases h with
  | nothing => exact ⟨_, .nothing, rfl, rfl, rfl, rfl, rfl⟩
  | byte n =>
    obtain _ | hn := hfits
    have hvalue : (UInt8.ofNat n).toNat = n := by
      rw [UInt8.toNat_ofNat', Nat.mod_eq_of_lt hn]
    refine ⟨_, .byte hheld.u8, ?_, rfl, rfl, rfl, rfl⟩
    rw [hvalue]
    rfl
  | short n =>
    obtain _ | _ | hn := hfits
    exact ⟨_, .short (aligned_of_lt hn hheld),
      readsOperands_aligned 2 rfl (List.cons_ne_nil _ _) rfl rfl (by simp)⟩
  | hash n =>
    obtain _ | _ | _ | hn := hfits
    exact ⟨_, .hash (aligned_of_lt hn hheld),
      readsOperands_aligned 4 rfl (List.cons_ne_nil _ _) rfl rfl (by simp)⟩
  | integer n =>
    obtain _ | _ | _ | _ | hn := hfits
    have hread : Reads t img start (start.toNat + 1) .integer _ :=
      .integer (aligned_of_lt (emod_toNat_lt 4 n) hheld)
    rw [signedWord_int hn] at hread
    exact ⟨_, hread, readsOperands_aligned 4 rfl (List.cons_ne_nil _ _) rfl rfl (by simp)⟩
  | float bits =>
    have hread : Reads t img start (start.toNat + 1) .float _ :=
      .float (aligned_of_lt bits.toNat_lt hheld)
    rw [UInt32.ofNat_toNat] at hread
    exact ⟨_, hread, readsOperands_aligned 4 rfl (List.cons_ne_nil _ _) rfl rfl (by simp)⟩
  | vector bits =>
    obtain _ | _ | _ | _ | _ | _ | hlength := hfits
    have hwords := Tables.words_of_holds (Image.holds_append.mp hheld).2
    rw [Code.length_pad, hlength] at hwords
    have hne : bits.map FloatText.component ≠ [] := by
      intro hnil
      rw [List.map_eq_nil_iff.mp hnil] at hlength
      cases hlength
    exact ⟨_, .vector hwords, readsOperands_aligned 4 rfl hne rfl rfl (by simp [hlength])⟩
  | @string s key hkey =>
    exact ⟨_, .string (aligned_of_lt key.toNat_lt hheld) (lookup_key hlinked hkey),
      readsOperands_aligned 2 rfl (List.cons_ne_nil _ _) rfl rfl (by simp)⟩
  | @field s key hkey =>
    exact ⟨_, .field (aligned_of_lt key.toNat_lt hheld) (lookup_key hlinked hkey),
      readsOperands_aligned 2 rfl (List.cons_ne_nil _ _) rfl rfl (by simp)⟩
  | @animation tree anim key hkey =>
    obtain ⟨entry, hentry, rfl⟩ := hlinked.trees _ _ _ (hsites _ (List.mem_singleton.mpr rfl))
    have hanim := hlinked.strings.lookupAnim (StringPool.key32_eq_ok_iff.mp hkey)
    have hread : Reads t img start (start.toNat + 1) .animation _ :=
      .animation (aligned_of_lt key.toNat_lt hheld) hentry
    rw [UInt32.ofNat_toNat, hanim] at hread
    exact ⟨_, hread, readsOperands_aligned 4 rfl (List.cons_ne_nil _ _) rfl rfl (by simp)⟩
  | @call space name key hkey =>
    exact reads_call hlinked hkey (hsites _ (List.mem_singleton.mpr rfl)) hheld
  | @function space name key hkey =>
    obtain ⟨entry, hentry, rfl, hname⟩ :=
      exists_callee hlinked hkey (hsites _ (List.mem_singleton.mpr rfl))
    exact ⟨_, .function (aligned_of_lt key.toNat_lt hheld) hentry hname,
      readsOperands_aligned 4 rfl (calleeOperands_ne_nil entry.space name) rfl rfl (by simp)⟩
  | @locals names keys hkeys =>
    have hcount : names.length ≤ 255 := by
      cases hfits
      assumption
    exact reads_locals hlinked hcount hkeys hheld
  | cases values =>
    have hbounds : ∀ n ∈ values, -2 ^ 31 ≤ n ∧ n < 2 ^ 31 := by
      cases hfits
      assumption
    have hroom : start.toNat + 4 * values.length < 2 ^ 32 := by
      simp only [flatMap_intBytes, List.length_append, Word.length_flatMap_u32, caseWords,
        List.length_map] at hfit
      omega
    exact reads_cases hbounds (heven values rfl) hheld hroom
  | @jump name target d haddr hd =>
    have hspell : OperandValue.spellAt .jump lay.addressOf? (.label name) =
        some [Labels.nameOf target] := by rw [OperandValue.spellAt, haddr, Option.map_some]
    obtain ⟨v, hv, htarget⟩ := branch_of_holds .jump (.inl rfl) rfl hd hheld
    exact ⟨_, .jump hv htarget,
      readsOperands_aligned 2 hspell (List.cons_ne_nil _ _) haddr.symm rfl (by simp)⟩
  | @longJump name target d haddr hd =>
    have hspell : OperandValue.spellAt .longJump lay.addressOf? (.label name) =
        some [Labels.nameOf target] := by rw [OperandValue.spellAt, haddr, Option.map_some]
    obtain ⟨v, hv, htarget⟩ := branch_of_holds .longJump (.inr rfl) rfl hd hheld
    exact ⟨_, .longJump hv htarget,
      readsOperands_aligned 4 hspell (List.cons_ne_nil _ _) haddr.symm rfl (by simp)⟩

end

end Disassembly
end ScriptCodec
