import ScriptCodec.Text.Quoted
import ScriptCodec.Proofs.Outcome

/-!
Quoted literals. A byte string is cut into characters and stray bytes without loss, each of them
is quoted so that reading the literal gives its bytes back, and hence `unquote` undoes `quote` on
every byte string.
-/
namespace ScriptCodec
namespace Utf8

theorem tail_of_isTail {c : UInt8} (h : isTail c) :
    UInt8.ofNat (0x80 + tailBits c) = c ∧ tailBits c < 64 := by
  simp only [isTail, Bool.and_eq_true, decide_eq_true_eq, UInt8.le_iff_toNat_le,
    UInt8.lt_iff_toNat_lt, UInt8.reduceToNat] at h
  constructor
  · apply UInt8.toNat_inj.mp
    simp only [UInt8.toNat_ofNat', tailBits]
    omega
  · simp only [tailBits]
    omega

theorem isTail_ofNat {n : Nat} (h : n < 64) :
    isTail (UInt8.ofNat (0x80 + n)) = true ∧ tailBits (UInt8.ofNat (0x80 + n)) = n := by
  have hv : (UInt8.ofNat (0x80 + n)).toNat = 0x80 + n := UInt8.toNat_ofNat_of_lt' (by
    change _ < 256
    omega)
  simp only [isTail, tailBits, Bool.and_eq_true, decide_eq_true_eq, UInt8.le_iff_toNat_le,
    UInt8.lt_iff_toNat_lt, UInt8.reduceToNat, hv]
  omega

theorem decode?_encode {code : Nat} (h : isScalar code) (rest : Bytes) :
    decode? (encode code ++ rest) = some (code, rest) := by
  have hrange : code < 0xD800 ∨ 0xE000 ≤ code ∧ code < 0x110000 := by
    simpa [isScalar] using h
  have hlead {n : Nat} (hn : n < 256) : (UInt8.ofNat n).toNat = n := UInt8.toNat_ofNat_of_lt' hn
  obtain ⟨ht0, hb0⟩ := isTail_ofNat (show code % 64 < 64 by omega)
  obtain ⟨ht1, hb1⟩ := isTail_ofNat (show code / 64 % 64 < 64 by omega)
  obtain ⟨ht2, hb2⟩ := isTail_ofNat (show code / 4096 % 64 < 64 by omega)
  unfold encode
  split_ifs with h1 h2 h3
  · simp only [List.cons_append, List.nil_append, decode?, UInt8.lt_iff_toNat_lt, UInt8.reduceToNat,
      hlead (show code < 256 by omega), if_pos h1]
  · simp only [List.cons_append, List.nil_append, decode?, UInt8.lt_iff_toNat_lt, UInt8.reduceToNat,
      hlead (show 0xC0 + code / 64 < 256 by omega), ht0, hb0]
    rw [if_neg (by omega), if_neg (by omega), if_pos (by omega)]
    simp only [if_true, Option.some.injEq, Prod.mk.injEq, and_true]
    omega
  · have hcode : (0xE0 + code / 4096) % 16 * 4096 + code / 64 % 64 * 64 + code % 64 = code := by
      omega
    simp only [List.cons_append, List.nil_append, decode?, UInt8.lt_iff_toNat_lt, UInt8.reduceToNat,
      hlead (show 0xE0 + code / 4096 < 256 by omega), ht0, hb0, ht1, hb1, hcode]
    rw [if_neg (by omega), if_neg (by omega), if_neg (by omega), if_pos (by omega)]
    simp only [Bool.true_and, h, Bool.and_true, decide_eq_true_eq]
    rw [if_pos (by omega)]
  · have hcode : (0xF0 + code / 262144) % 8 * 262144 + code / 4096 % 64 * 4096 +
        code / 64 % 64 * 64 + code % 64 = code := by omega
    simp only [List.cons_append, List.nil_append, decode?, UInt8.lt_iff_toNat_lt, UInt8.reduceToNat,
      hlead (show 0xF0 + code / 262144 < 256 by omega), ht0, hb0, ht1, hb1, ht2, hb2, hcode]
    rw [if_neg (by omega), if_neg (by omega), if_neg (by omega), if_neg (by omega),
      if_pos (by omega)]
    simp only [Bool.true_and, h, Bool.and_true, decide_eq_true_eq]
    rw [if_pos (by omega)]

section

variable {b c d e : UInt8} {code : Nat}

theorem encode_one (hb : b.toNat < 0x80) : encode b.toNat = [b] ∧ isScalar b.toNat = true := by
  constructor
  · rw [encode, if_pos hb, UInt8.ofNat_toNat]
  · simp only [isScalar, Bool.or_eq_true, decide_eq_true_eq]
    omega

theorem encode_two (hlow : 0xC2 ≤ b.toNat) (hhigh : b.toNat < 0xE0) (hc : isTail c)
    (hcode : b.toNat % 32 * 64 + tailBits c = code) :
    encode code = [b, c] ∧ isScalar code = true := by
  obtain ⟨hcByte, hcBits⟩ := tail_of_isTail hc
  have hfirst : 0xC0 + code / 64 = b.toNat := by omega
  have hlast : code % 64 = tailBits c := by omega
  constructor
  · rw [encode, if_neg (by omega), if_pos (by omega), hfirst, hlast, hcByte, UInt8.ofNat_toNat]
  · simp only [isScalar, Bool.or_eq_true, decide_eq_true_eq]
    omega

theorem encode_three (hlow : 0xE0 ≤ b.toNat) (hhigh : b.toNat < 0xF0) (hc : isTail c)
    (hd : isTail d) (hcode : b.toNat % 16 * 4096 + tailBits c * 64 + tailBits d = code)
    (hlong : 0x800 ≤ code) : encode code = [b, c, d] := by
  obtain ⟨hcByte, hcBits⟩ := tail_of_isTail hc
  obtain ⟨hdByte, hdBits⟩ := tail_of_isTail hd
  have hfirst : 0xE0 + code / 4096 = b.toNat := by omega
  have hsecond : code / 64 % 64 = tailBits c := by omega
  have hlast : code % 64 = tailBits d := by omega
  rw [encode, if_neg (by omega), if_neg (by omega), if_pos (by omega), hfirst, hsecond, hlast,
    hcByte, hdByte, UInt8.ofNat_toNat]

theorem encode_four (hlow : 0xF0 ≤ b.toNat) (hhigh : b.toNat < 0xF5) (hc : isTail c)
    (hd : isTail d) (he : isTail e)
    (hcode : b.toNat % 8 * 262144 + tailBits c * 4096 + tailBits d * 64 + tailBits e = code)
    (hlong : 0x10000 ≤ code) : encode code = [b, c, d, e] := by
  obtain ⟨hcByte, hcBits⟩ := tail_of_isTail hc
  obtain ⟨hdByte, hdBits⟩ := tail_of_isTail hd
  obtain ⟨heByte, heBits⟩ := tail_of_isTail he
  have hfirst : 0xF0 + code / 262144 = b.toNat := by omega
  have hsecond : code / 4096 % 64 = tailBits c := by omega
  have hthird : code / 64 % 64 = tailBits d := by omega
  have hlast : code % 64 = tailBits e := by omega
  rw [encode, if_neg (by omega), if_neg (by omega), if_neg (by omega), hfirst, hsecond, hthird,
    hlast, hcByte, hdByte, heByte, UInt8.ofNat_toNat]

end

/-- Decoding takes the bytes of one character off the front; longer spellings of it, which the low
bounds exclude, would not come back. -/
theorem eq_encode_of_decode? {s rest : Bytes} {code : Nat} (h : decode? s = some (code, rest)) :
    s = encode code ++ rest ∧ isScalar code = true := by
  cases s with
  | nil => cases h
  | cons b s =>
    simp only [decode?, UInt8.lt_iff_toNat_lt, UInt8.reduceToNat] at h
    split_ifs at h with hone hlow htwo hthree hfour
    · obtain ⟨rfl, rfl⟩ := Prod.mk.inj (Option.some_inj.mp h)
      rw [(encode_one hone).1]
      exact ⟨rfl, (encode_one hone).2⟩
    · split at h
      · rename_i c t
        simp only [Option.ite_none_right_eq_some, Option.some.injEq, Prod.mk.injEq] at h
        obtain ⟨hc, hcode, rfl⟩ := h
        obtain ⟨hencode, hscalar⟩ := encode_two (by omega) htwo hc hcode
        rw [hencode]
        exact ⟨rfl, hscalar⟩
      · cases h
    · split at h
      · rename_i c d t
        simp only [Option.ite_none_right_eq_some, Bool.and_eq_true, decide_eq_true_eq,
          Option.some.injEq, Prod.mk.injEq] at h
        obtain ⟨⟨⟨⟨hc, hd⟩, hlong⟩, hscalar⟩, hcode, rfl⟩ := h
        rw [hcode] at hlong hscalar
        rw [encode_three (by omega) hthree hc hd hcode hlong]
        exact ⟨rfl, hscalar⟩
      · cases h
    · split at h
      · rename_i c d e t
        simp only [Option.ite_none_right_eq_some, Bool.and_eq_true, decide_eq_true_eq,
          Option.some.injEq, Prod.mk.injEq] at h
        obtain ⟨⟨⟨⟨⟨hc, hd⟩, he⟩, hlong⟩, hscalar⟩, hcode, rfl⟩ := h
        rw [hcode] at hlong hscalar
        rw [encode_four (by omega) hfour hc hd he hcode hlong]
        exact ⟨rfl, hscalar⟩
      · cases h

def Glyph.bytes : Glyph → Bytes
  | .scalar code => encode code
  | .stray b => [b]

def Glyph.IsValid : Glyph → Prop
  | .scalar code => isScalar code = true
  | .stray _ => True

theorem next_bytes (b : UInt8) (rest : Bytes) :
    b :: rest = (next b rest).1.bytes ++ (next b rest).2 ∧ (next b rest).1.IsValid := by
  unfold next
  split
  · rename_i h
    exact eq_encode_of_decode? h
  · exact ⟨rfl, trivial⟩

theorem glyphsLoop_spec (done : List Glyph) (s : Bytes) :
    ∃ gs, glyphsLoop done s = done.reverse ++ gs ∧ gs.flatMap Glyph.bytes = s ∧
      ∀ g ∈ gs, g.IsValid := by
  fun_induction glyphsLoop done s with
  | case1 done => exact ⟨[], by simp⟩
  | case2 done b rest step ih =>
    obtain ⟨gs, hgs, hbytes, hvalid⟩ := ih
    obtain ⟨hstep, hfirst⟩ := next_bytes b rest
    refine ⟨step.1 :: gs, ?_, ?_, ?_⟩
    · simpa using hgs
    · rw [List.flatMap_cons, hbytes, hstep]
    · intro g hg
      rcases List.mem_cons.mp hg with rfl | hg
      · exact hfirst
      · exact hvalid g hg

theorem flatMap_bytes_glyphs (s : Bytes) : (glyphs s).flatMap Glyph.bytes = s := by
  obtain ⟨gs, hgs, hbytes, -⟩ := glyphsLoop_spec [] s
  rw [glyphs, hgs]
  simpa using hbytes

theorem isValid_of_mem_glyphs {s : Bytes} {g : Glyph} (hg : g ∈ glyphs s) : g.IsValid := by
  obtain ⟨gs, hgs, -, hvalid⟩ := glyphsLoop_spec [] s
  rw [glyphs, hgs] at hg
  exact hvalid g (by simpa using hg)

end Utf8

namespace Text

theorem hexValue_digitChar {d : Nat} (hd : d < 16) :
    hexValue (Nat.digitChar d).toUInt8 = some d := by
  revert hd
  revert d
  decide

theorem hexDigits_add (value a b : Nat) (s : Bytes) :
    hexDigits value (a + b) s = (hexDigits value a s).bind fun r => hexDigits r.1 b r.2 := by
  induction a generalizing value s with
  | zero => simp [hexDigits]
  | succ a ih =>
    rw [Nat.succ_add]
    cases s with
    | nil => rfl
    | cons c s =>
      simp only [hexDigits, Option.bind_assoc]
      congr 1
      funext d
      exact ih _ s

theorem hexDigits_zeros (count : Nat) (s : Bytes) :
    hexDigits 0 count (List.replicate count 0x30 ++ s) = some (0, s) := by
  induction count with
  | zero => rfl
  | succ count ih =>
    rw [List.replicate_succ, List.cons_append]
    exact ih

theorem hexDigits_toDigits (n : Nat) (s : Bytes) :
    hexDigits 0 (Nat.toDigits 16 n).length ((Nat.toDigits 16 n).map Char.toUInt8 ++ s) =
      some (n, s) := by
  induction n using Nat.strongRecOn generalizing s with
  | ind n ih =>
    rw [Nat.toDigits_eq_if (by decide)]
    split
    · rename_i hlt
      simp [hexDigits, hexValue_digitChar hlt]
    · have hrest := ih (n / 16) (by omega) ((Nat.digitChar (n % 16)).toUInt8 :: s)
      have hdigit := hexValue_digitChar (Nat.mod_lt n (show 0 < 16 by decide))
      rw [List.length_append, List.map_append, List.append_assoc, hexDigits_add]
      simp only [List.map_singleton, List.singleton_append, hrest, Option.bind_some,
        List.length_singleton, hexDigits, hdigit, Option.some.injEq, Prod.mk.injEq, and_true]
      omega

theorem hexDigits_lowerHex {width n : Nat} (hw : 0 < width) (hn : n < 16 ^ width) (s : Bytes) :
    hexDigits 0 width (lowerHex width n ++ s) = some (n, s) := by
  have hlen : (Nat.toDigits 16 n).length ≤ width :=
    (Nat.length_toDigits_le_iff (by decide) hw).mpr hn
  have hsplit : width = (width - (Nat.toDigits 16 n).length) + (Nat.toDigits 16 n).length := by
    omega
  have hzeros := hexDigits_zeros (width - (Nat.toDigits 16 n).length)
    ((Nat.toDigits 16 n).map Char.toUInt8 ++ s)
  rw [lowerHex, List.leftpad, List.length_map, List.append_assoc]
  conv_lhs => arg 2; rw [hsplit]
  rw [hexDigits_add, hzeros]
  exact hexDigits_toDigits n s

theorem unescapeByte_lowerHex (b : UInt8) (s : Bytes) :
    unescapeByte (lowerHex 2 b.toNat ++ s) = some ([b], s) := by
  have hb : b.toNat < 16 ^ 2 := b.toNat_lt
  simp [unescapeByte, hexDigits_lowerHex (by decide) hb]

theorem unescapeScalar_lowerHex {width code : Nat} (hw : 0 < width) (hn : code < 16 ^ width)
    (hs : Utf8.isScalar code = true) (s : Bytes) :
    unescapeScalar width (lowerHex width code ++ s) = some (Utf8.encode code, s) := by
  simp [unescapeScalar, hexDigits_lowerHex hw hn, hs]

theorem controlOfLetter_controlLetter {code : Nat} {letter : UInt8}
    (h : controlLetter code = some letter) :
    controlOfLetter letter = some (UInt8.ofNat code) ∧ code < 0x80 := by
  unfold controlLetter at h
  split at h <;> cases h <;> decide

theorem controlLetter_bounds {code : Nat} {letter : UInt8} (h : controlLetter code = some letter) :
    0x22 ≤ letter ∧ letter < 0x7F := by
  unfold controlLetter at h
  split at h <;> cases h <;> decide

theorem encode_of_lt {code : Nat} (h : code < 0x80) : Utf8.encode code = [UInt8.ofNat code] := by
  simp only [Utf8.encode, if_pos h]

theorem quoteGlyph_cases (g : Utf8.Glyph) :
    (∃ code, g = .scalar code ∧ isPrintable code = true ∧ ¬ (code = 0x22 ∨ code = 0x5C) ∧
      quoteGlyph g = Utf8.encode code) ∨
    ∃ c rest, quoteGlyph g = 0x5C :: c :: rest ∧ (0x22 ≤ c ∧ c < 0x7F) ∧
      (rest = [] ∨ ∃ width n, rest = lowerHex width n) := by
  cases g with
  | stray b => exact Or.inr ⟨0x78, _, rfl, by decide, Or.inr ⟨2, b.toNat, rfl⟩⟩
  | scalar code =>
    rw [quoteGlyph]
    by_cases hmark : code = 0x22 ∨ code = 0x5C
    · right
      rw [if_pos hmark]
      rcases hmark with rfl | rfl
      · exact ⟨0x22, [], rfl, by decide, Or.inl rfl⟩
      · exact ⟨0x5C, [], rfl, by decide, Or.inl rfl⟩
    by_cases hprint : isPrintable code = true
    · left
      rw [if_neg hmark, if_pos hprint]
      exact ⟨code, rfl, hprint, hmark, rfl⟩
    right
    rw [if_neg hmark, if_neg hprint]
    cases hletter : controlLetter code with
    | some letter => exact ⟨letter, [], rfl, controlLetter_bounds hletter, Or.inl rfl⟩
    | none =>
      dsimp only
      split_ifs
      · exact ⟨0x78, _, rfl, by decide, Or.inr ⟨2, code, rfl⟩⟩
      · exact ⟨0x75, _, rfl, by decide, Or.inr ⟨4, code, rfl⟩⟩
      · exact ⟨0x55, _, rfl, by decide, Or.inr ⟨8, code, rfl⟩⟩

/-- The first byte of a character outside ASCII is no ASCII byte. -/
theorem exists_encode {code : Nat} (hs : Utf8.isScalar code = true) :
    ∃ b rest, Utf8.encode code = b :: rest ∧ (code < 0x80 ∧ b.toNat = code ∨ 0x80 ≤ b.toNat) := by
  have hrange : code < 0xD800 ∨ 0xE000 ≤ code ∧ code < 0x110000 := by
    simpa [Utf8.isScalar] using hs
  have hbyte {n : Nat} (hn : n < 256) : (UInt8.ofNat n).toNat = n := UInt8.toNat_ofNat_of_lt' hn
  unfold Utf8.encode
  split_ifs with h1 h2 h3
  · exact ⟨_, _, rfl, Or.inl ⟨h1, hbyte (by omega)⟩⟩
  · exact ⟨_, _, rfl, Or.inr (by rw [hbyte (by omega)]; omega)⟩
  · exact ⟨_, _, rfl, Or.inr (by rw [hbyte (by omega)]; omega)⟩
  · exact ⟨_, _, rfl, Or.inr (by rw [hbyte (by omega)]; omega)⟩

theorem le_of_isPrintable {code : Nat} (h : isPrintable code = true) : 0x20 ≤ code := by
  unfold isPrintable at h
  split at h
  · simpa using h
  · omega

theorem unquoteNext_encode {code : Nat} (hs : Utf8.isScalar code = true)
    (hprint : isPrintable code = true) (hmark : ¬ (code = 0x22 ∨ code = 0x5C)) (tail : Bytes) :
    ∃ b rest, Utf8.encode code = b :: rest ∧ b ≠ 0x22 ∧
      unquoteNext 0x22 b (rest ++ tail) = some (Utf8.encode code, tail) := by
  obtain ⟨b, rest, henc, hb⟩ := exists_encode hs
  have hascii : b.toNat ≠ 0x0A ∧ b.toNat ≠ 0x22 ∧ b.toNat ≠ 0x5C := by
    rcases hb with ⟨hlt, hb⟩ | hb
    · have hlow := le_of_isPrintable hprint
      omega
    · omega
  have hne (c : UInt8) (hc : b.toNat ≠ c.toNat) : b ≠ c := fun h => hc (h ▸ rfl)
  have hnext : Utf8.next b (rest ++ tail) = (.scalar code, tail) := by
    have hdec := Utf8.decode?_encode hs tail
    rw [henc, List.cons_append] at hdec
    simp only [Utf8.next, hdec]
  refine ⟨b, rest, henc, hne _ hascii.2.1, ?_⟩
  simp only [unquoteNext, if_neg (hne 0x0A hascii.1), if_neg (hne 0x5C hascii.2.2), hnext]

/-- The quoted form of a unit starts with no quote, and reading it gives the unit's bytes. -/
theorem unquoteNext_quoteGlyph {g : Utf8.Glyph} (hg : g.IsValid) (tail : Bytes) :
    ∃ b rest, quoteGlyph g = b :: rest ∧ b ≠ 0x22 ∧
      unquoteNext 0x22 b (rest ++ tail) = some (g.bytes, tail) := by
  cases g with
  | stray b =>
    refine ⟨0x5C, 0x78 :: lowerHex 2 b.toNat, rfl, by decide, ?_⟩
    simp [unquoteNext, unescape, controlOfLetter, unescapeByte_lowerHex, Utf8.Glyph.bytes]
  | scalar code =>
    have hs : Utf8.isScalar code = true := hg
    simp only [Utf8.Glyph.bytes, quoteGlyph]
    by_cases hmark : code = 0x22 ∨ code = 0x5C
    · refine ⟨0x5C, [UInt8.ofNat code], by rw [if_pos hmark], by decide, ?_⟩
      rcases hmark with rfl | rfl
      · rfl
      · rfl
    by_cases hprint : isPrintable code = true
    · rw [if_neg hmark, if_pos hprint]
      exact unquoteNext_encode hs hprint hmark tail
    rw [if_neg hmark, if_neg hprint]
    cases hletter : controlLetter code with
    | some letter =>
      obtain ⟨hcontrol, hlt⟩ := controlOfLetter_controlLetter hletter
      refine ⟨0x5C, [letter], rfl, by decide, ?_⟩
      simp [unquoteNext, unescape, hcontrol, encode_of_lt hlt]
    | none =>
      dsimp only
      split_ifs with hlow hmid
      · have hlt : code < 0x80 := by omega
        have hbyte : (UInt8.ofNat code).toNat = code := UInt8.toNat_ofNat_of_lt' (by
          change code < 256
          omega)
        have hread := unescapeByte_lowerHex (UInt8.ofNat code) tail
        rw [hbyte] at hread
        refine ⟨0x5C, 0x78 :: lowerHex 2 code, rfl, by decide, ?_⟩
        simp [unquoteNext, unescape, controlOfLetter, hread, encode_of_lt hlt]
      · have hread := unescapeScalar_lowerHex (show 0 < 4 by decide) hmid hs tail
        refine ⟨0x5C, 0x75 :: lowerHex 4 code, rfl, by decide, ?_⟩
        simp [unquoteNext, unescape, controlOfLetter, hread]
      · have hlt : code < 16 ^ 8 := by
          simp only [Utf8.isScalar, Bool.or_eq_true, Bool.and_eq_true, decide_eq_true_eq] at hs
          omega
        have hread := unescapeScalar_lowerHex (show 0 < 8 by decide) hlt hs tail
        refine ⟨0x5C, 0x55 :: lowerHex 8 code, rfl, by decide, ?_⟩
        simp [unquoteNext, unescape, controlOfLetter, hread]

theorem unquoteLoop_quoteGlyph {g : Utf8.Glyph} (hg : g.IsValid) (done tail : Bytes) :
    unquoteLoop 0x22 done (quoteGlyph g ++ tail) =
      unquoteLoop 0x22 (g.bytes.reverse ++ done) tail := by
  obtain ⟨b, rest, hq, hb, hnext⟩ := unquoteNext_quoteGlyph hg tail
  rw [hq, List.cons_append, unquoteLoop, if_neg hb]
  split
  · rename_i out rest' h
    rw [hnext, Option.some.injEq, Prod.mk.injEq] at h
    rw [← h.1, ← h.2]
  · rename_i h
    rw [hnext] at h
    cases h

theorem unquoteLoop_quoted {gs : List Utf8.Glyph} (hgs : ∀ g ∈ gs, g.IsValid) (done tail : Bytes) :
    unquoteLoop 0x22 done (gs.flatMap quoteGlyph ++ 0x22 :: tail) =
      some (done.reverse ++ gs.flatMap Utf8.Glyph.bytes, tail) := by
  induction gs generalizing done with
  | nil => simp [unquoteLoop]
  | cons g gs ih =>
    rw [List.flatMap_cons, List.append_assoc, unquoteLoop_quoteGlyph (hgs g List.mem_cons_self),
      ih fun g' hg' => hgs g' (List.mem_cons_of_mem g hg')]
    simp

theorem unquote_quote (s : Bytes) : unquote (quote s) = some s := by
  have hvalid : ∀ g ∈ Utf8.glyphs s, g.IsValid := fun _ => Utf8.isValid_of_mem_glyphs
  have hloop := unquoteLoop_quoted hvalid [] []
  rw [Utf8.flatMap_bytes_glyphs, List.reverse_nil, List.nil_append] at hloop
  simp only [quote, unquote, hloop]

end Text
end ScriptCodec
