import ScriptCodec.Proofs.Listing.Tokens
import ScriptCodec.Proofs.Operand.Value

/-!
Canonical texts as tokens. Numerals, mnemonics and label names are words, and a quoted literal is
closed by its last byte and by no other. So of the operands of an instruction only names that are
written bare may fail to be tokens.
-/
namespace ScriptCodec

namespace Listing

/-- A visible ASCII byte that has no meaning of its own in a line or in a literal. -/
def IsWordByte (b : UInt8) : Prop := 0x23 ≤ b ∧ b ≤ 0x7E ∧ b ≠ 0x2F ∧ b ≠ 0x5C

instance (b : UInt8) : Decidable (IsWordByte b) := inferInstanceAs (Decidable (_ ∧ _))

def IsWord (s : Bytes) : Prop := s ≠ [] ∧ ∀ b ∈ s, IsWordByte b

instance (s : Bytes) : Decidable (IsWord s) :=
  -- Byte by byte of the word, not over all bytes that there are.
  have : Decidable (∀ b ∈ s, IsWordByte b) := List.decidableBAll _ _
  inferInstanceAs (Decidable (s ≠ [] ∧ ∀ b ∈ s, IsWordByte b))

theorem IsWordByte.ne {b c : UInt8} (h : IsWordByte b) (hc : ¬ IsWordByte c) : b ≠ c := by
  rintro rfl
  exact hc h

theorem IsWordByte.isBlank {b : UInt8} (h : IsWordByte b) : isBlank b = false := by
  have hspace := h.ne (c := 0x20) (by decide)
  have htab := h.ne (c := 0x09) (by decide)
  have hreturn := h.ne (c := 0x0D) (by decide)
  simp [Listing.isBlank, hspace, htab, hreturn]

/-- After a word there may be any bytes that do not end a token. -/
theorem IsWord.isToken_append {s t : Bytes} (hs : IsWord s)
    (ht : ∀ b ∈ t, isBlank b = false ∧ b ≠ 0x0A) : IsToken (s ++ t) := by
  obtain ⟨hne, hbytes⟩ := hs
  cases s with
  | nil => exact absurd rfl hne
  | cons b s =>
    have hb := hbytes b List.mem_cons_self
    refine isToken_of_bare (List.cons_ne_nil _ _) ?_ ?_ ?_
    · intro c hc
      rcases List.mem_append.mp hc with hc | hc
      · exact ⟨(hbytes c hc).isBlank, (hbytes c hc).ne (by decide)⟩
      · exact ht c hc
    · exact fun hlead => hb.ne (by decide) (List.cons_prefix_cons.mp hlead).1.symm
    · exact fun hlead => hb.ne (by decide) (List.cons_prefix_cons.mp hlead).1.symm

theorem IsWord.isToken {s : Bytes} (h : IsWord s) : IsToken s := by
  have htoken := h.isToken_append (List.forall_mem_nil _)
  rwa [List.append_nil] at htoken

theorem IsWord.append {s t : Bytes} (hs : IsWord s) (ht : ∀ b ∈ t, IsWordByte b) :
    IsWord (s ++ t) := by
  refine ⟨List.append_ne_nil_of_left_ne_nil hs.1 _, ?_⟩
  intro b hb
  rcases List.mem_append.mp hb with hb | hb
  · exact hs.2 b hb
  · exact ht b hb

theorem isWordByte_of_digitValue {b : UInt8} {d : Nat} (h : Number.digitValue b = some d) :
    IsWordByte b := by
  have hne (c : UInt8) : b.toNat ≠ c.toNat → b ≠ c := fun hbc heq => hbc (congrArg _ heq)
  have hslash := hne 0x2F
  have hescape := hne 0x5C
  simp only [Number.digitValue, UInt8.le_iff_toNat_le, UInt8.reduceToNat] at h
  simp only [UInt8.reduceToNat] at hslash hescape
  simp only [IsWordByte, UInt8.le_iff_toNat_le, UInt8.reduceToNat]
  refine ⟨?_, ?_, hslash ?_, hescape ?_⟩
  · grind
  · grind
  · grind
  · grind

section

variable {base bound : Nat}

theorem isWordByte_of_foldlM {s : Bytes} {v n : Nat}
    (h : s.foldlM (Number.addDigit base bound) v = .ok n) : ∀ b ∈ s, IsWordByte b := by
  induction s generalizing v with
  | nil => simp
  | cons b s ih =>
    simp only [List.foldlM_cons, Except.andThen_eq_ok_iff] at h
    obtain ⟨next, hnext, h⟩ := h
    refine List.forall_mem_cons.mpr ⟨?_, ih h⟩
    rw [Number.addDigit] at hnext
    split at hnext
    · cases hnext
    · rename_i d hd
      exact isWordByte_of_digitValue hd

theorem isWord_digits {write : Char → UInt8} (hwrite : Number.WritesDigits base write)
    (hbase : 1 < base) (n : Nat) : IsWord ((Nat.toDigits base n).map write) := by
  refine ⟨by simp [Nat.toDigits_ne_nil], ?_⟩
  exact isWordByte_of_foldlM (Number.foldlM_digits hwrite hbase (Nat.lt_succ_self n))

end

theorem isWord_decimal (n : Nat) : IsWord (Text.decimal n) :=
  isWord_digits Number.writesDigits_decimal (by decide) n

theorem isWord_hex (n : Nat) : IsWord (Text.hex n) :=
  isWord_digits Number.writesDigits_hex (by decide) n

theorem isWord_decimalInt (n : Int) : IsWord (Text.decimalInt n) := by
  have hdigits := isWord_decimal n.natAbs
  unfold Text.decimalInt
  split
  · exact IsWord.append (s := [0x2D]) (by decide) hdigits.2
  · exact hdigits

theorem isWord_nameOf (t : UInt32) : IsWord (Labels.nameOf t) :=
  IsWord.append (by decide) (isWord_hex t.toNat).2

section

open FloatText

theorem isWordByte_of_isNumeralByte {b : UInt8} (h : IsNumeralByte b) : IsWordByte b := by
  rcases h with ⟨hlow, hhigh⟩ | rfl | rfl | rfl | rfl
  · exact isWordByte_of_digitValue (by rw [Number.digitValue, if_pos ⟨hlow, hhigh⟩])
  · decide
  · decide
  · decide
  · decide

theorem isWord_of_spells {s : Bytes} {d : Decimal} (h : d.Spells s) (bits : UInt32) :
    IsWord (sign bits ++ s) := by
  obtain ⟨w, f, e, rfl, hw, hne, hf, -, -⟩ := h
  have hbytes : ∀ b ∈ numeralText w f e, IsWordByte b :=
    fun b hb => isWordByte_of_isNumeralByte (isNumeralByte_numeralText hw hf e b hb)
  refine ⟨by simp [numeralText, hne], ?_⟩
  intro b hb
  rcases List.mem_append.mp hb with hb | hb
  · unfold sign at hb
    split at hb
    · rw [List.mem_singleton.mp hb]
      decide
    · cases hb
  · exact hbytes b hb

theorem isWord_component (bits : UInt32) : IsWord (component bits) := by
  rw [component, general]
  by_cases hnan : Binary32.infinity < Binary32.magnitude bits
  · simp only [if_pos hnan]
    decide
  · simp only [if_neg hnan]
    by_cases hinf : Binary32.magnitude bits = Binary32.infinity
    · rw [if_pos hinf]
      split
      · decide
      · decide
    · rw [if_neg hinf]
      exact isWord_of_spells (spells_general (by omega)) bits

theorem isWord_scalar (bits : UInt32) : IsWord (scalar bits) := by
  rw [scalar]
  split
  · have hzero : IsWord (text ".0") := by decide
    exact (isWord_of_spells (Decimal.spells_positional _) bits).append hzero.2
  · exact isWord_component bits

end

inductive LiteralBody : Bytes → Prop
  | nil : LiteralBody []
  | byte {b : UInt8} {s : Bytes} (quote : b ≠ 0x22) (escape : b ≠ 0x5C) (line : b ≠ 0x0A)
    (rest : LiteralBody s) : LiteralBody (b :: s)
  | escape {c : UInt8} {s : Bytes} (line : c ≠ 0x0A) (rest : LiteralBody s) :
    LiteralBody (0x5C :: c :: s)

namespace LiteralBody

variable {s t : Bytes}

theorem append (hs : LiteralBody s) (ht : LiteralBody t) : LiteralBody (s ++ t) := by
  induction hs with
  | nil => exact ht
  | byte quote escape line _ ih => exact .byte quote escape line ih
  | escape line _ ih => exact .escape line ih

theorem line (hs : LiteralBody s) : 0x0A ∉ s := by
  induction hs with
  | nil => simp
  | byte _ _ line _ ih => simp [ih, line.symm]
  | escape line _ ih => simp [ih, line.symm]

theorem quotedToken (hs : LiteralBody s) (done tail : Bytes) :
    quotedToken done (s ++ tail) = Listing.quotedToken (s.reverse ++ done) tail := by
  induction hs generalizing done with
  | nil => rfl
  | byte quote escape _ _ ih =>
    rw [List.cons_append, quotedToken_plain quote escape, ih]
    simp
  | escape _ _ ih =>
    rw [List.cons_append, List.cons_append, quotedToken_escape, ih]
    simp

theorem of_bytes (h : ∀ b ∈ s, b ≠ 0x22 ∧ b ≠ 0x5C ∧ b ≠ 0x0A) : LiteralBody s := by
  induction s with
  | nil => exact .nil
  | cons b s ih =>
    obtain ⟨⟨hquote, hescape, hline⟩, hs⟩ := List.forall_mem_cons.mp h
    exact .byte hquote hescape hline (ih hs)

theorem isToken (hs : LiteralBody s) : IsToken (0x22 :: (s ++ [0x22])) := by
  refine TokenShape.isToken (.quoted ?_) (by simp [hs.line])
  rw [hs.quotedToken, quotedToken_close]
  simp

end LiteralBody

theorem isWordByte_lowerHex {width n : Nat} {b : UInt8} (hb : b ∈ Text.lowerHex width n) :
    IsWordByte b := by
  have hwrite : Number.WritesDigits 16 Char.toUInt8 := by
    unfold Number.WritesDigits
    decide
  rcases List.mem_append.mp hb with hb | hb
  · rw [List.eq_of_mem_replicate hb]
    decide
  · exact (isWord_digits hwrite (by decide) n).2 b hb

theorem literalBody_lowerHex (width n : Nat) : LiteralBody (Text.lowerHex width n) := by
  apply LiteralBody.of_bytes
  intro b hb
  have hword := isWordByte_lowerHex hb
  exact ⟨hword.ne (by decide), hword.ne (by decide), hword.ne (by decide)⟩

theorem mem_encode {code : Nat} (hs : Utf8.isScalar code = true) {b : UInt8}
    (hb : b ∈ Utf8.encode code) : b.toNat = code ∨ 0x80 ≤ b.toNat := by
  have hrange : code < 0xD800 ∨ 0xE000 ≤ code ∧ code < 0x110000 := by
    simpa [Utf8.isScalar] using hs
  have hbyte {n : Nat} (hn : n < 256) : (UInt8.ofNat n).toNat = n := UInt8.toNat_ofNat_of_lt' hn
  have htail {n : Nat} (hn : n < 64) : 0x80 ≤ (UInt8.ofNat (0x80 + n)).toNat := by
    rw [hbyte (by omega)]
    omega
  unfold Utf8.encode at hb
  split_ifs at hb with h1 h2 h3
  · obtain rfl := List.mem_singleton.mp hb
    exact Or.inl (hbyte (by omega))
  all_goals
    right
    simp only [List.mem_cons, List.not_mem_nil, or_false] at hb
  · rcases hb with rfl | rfl
    · rw [hbyte (by omega)]
      omega
    · exact htail (by omega)
  · rcases hb with rfl | rfl | rfl
    · rw [hbyte (by omega)]
      omega
    · exact htail (by omega)
    · exact htail (by omega)
  · rcases hb with rfl | rfl | rfl | rfl
    · rw [hbyte (by omega)]
      omega
    · exact htail (by omega)
    · exact htail (by omega)
    · exact htail (by omega)

theorem literalBody_encode {code : Nat} (hs : Utf8.isScalar code = true)
    (hprint : Text.isPrintable code = true) (hmark : ¬ (code = 0x22 ∨ code = 0x5C)) :
    LiteralBody (Utf8.encode code) := by
  have hlow := Text.le_of_isPrintable hprint
  apply LiteralBody.of_bytes
  intro b hb
  have hne (c : UInt8) (hc : c.toNat < 0x80) (hcode : code ≠ c.toNat) : b ≠ c := by
    rintro rfl
    rcases mem_encode hs hb with h | h
    · exact hcode h.symm
    · omega
  refine ⟨hne _ (by decide) ?_, hne _ (by decide) ?_, hne _ (by decide) ?_⟩
  · exact fun h => hmark (Or.inl h)
  · exact fun h => hmark (Or.inr h)
  · rintro rfl
    exact absurd hlow (by decide)

theorem literalBody_quoteGlyph {g : Utf8.Glyph} (hg : g.IsValid) :
    LiteralBody (Text.quoteGlyph g) := by
  rcases Text.quoteGlyph_cases g with ⟨code, rfl, hprint, hmark, heq⟩ | ⟨c, rest, heq, hc, hrest⟩
  · rw [heq]
    exact literalBody_encode hg hprint hmark
  · have hline : c ≠ 0x0A := by
      rintro rfl
      exact absurd hc.1 (by decide)
    rw [heq]
    rcases hrest with rfl | ⟨width, n, rfl⟩
    · exact .escape hline .nil
    · exact .escape hline (literalBody_lowerHex width n)

theorem isToken_quote (s : Bytes) : IsToken (Text.quote s) := by
  have hvalid : ∀ g ∈ Utf8.glyphs s, g.IsValid := fun _ => Utf8.isValid_of_mem_glyphs
  have hbody : LiteralBody ((Utf8.glyphs s).flatMap Text.quoteGlyph) := by
    generalize Utf8.glyphs s = gs at hvalid
    induction gs with
    | nil => exact .nil
    | cons g gs ih =>
      obtain ⟨hg, hgs⟩ := List.forall_mem_cons.mp hvalid
      exact (literalBody_quoteGlyph hg).append (ih hgs)
  exact hbody.isToken

end Listing

def OperandKind.bareOperands (kind : OperandKind) (args : List Bytes) : List Bytes :=
  match kind with
  | .field | .locals | .call | .function => args
  | .animation => args.take 1
  | _ => []

open Listing in
theorem OperandValue.isToken_spell {kind : OperandKind} {v : OperandValue} (hfits : v.Fits kind)
    (hbare : ∀ s ∈ kind.bareOperands (v.spell kind), IsToken s)
    (hlabel : ∀ name, v = .label name → ∃ t, name = Labels.nameOf t) :
    ∀ a ∈ v.spell kind, IsToken a := by
  cases hfits with
  | nothing => simp [spell]
  | byte h => exact List.forall_mem_singleton.mpr (isWord_decimal _).isToken
  | short h => exact List.forall_mem_singleton.mpr (isWord_decimal _).isToken
  | hash h => exact List.forall_mem_singleton.mpr (isWord_hex _).isToken
  | integer h => exact List.forall_mem_singleton.mpr (isWord_decimalInt _).isToken
  | float bits => exact List.forall_mem_singleton.mpr (isWord_scalar bits).isToken
  | vector h =>
    intro a ha
    obtain ⟨bits, -, rfl⟩ := List.mem_map.mp ha
    exact (isWord_component bits).isToken
  | string s => exact List.forall_mem_singleton.mpr (isToken_quote s)
  | animation tree anim =>
    refine List.forall_mem_cons.mpr ⟨hbare tree List.mem_cons_self, ?_⟩
    exact List.forall_mem_singleton.mpr (isToken_quote anim)
  | cases h =>
    intro a ha
    obtain ⟨n, -, rfl⟩ := List.mem_map.mp ha
    exact (isWord_decimalInt n).isToken
  | jump name | longJump name =>
    obtain ⟨t, rfl⟩ := hlabel name rfl
    exact List.forall_mem_singleton.mpr (isWord_nameOf t).isToken
  | field s | locals h | call space name | function space name => exact hbare

end ScriptCodec
