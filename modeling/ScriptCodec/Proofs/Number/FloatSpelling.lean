import ScriptCodec.Proofs.Outcome
import ScriptCodec.Proofs.Number.Numerals
import ScriptCodec.Proofs.Number.Rounding

/-!
Single-precision operands as text. Both layouts of a decimal, positional and with an exponent, are
numerals of its value, so the text of a number is read back as its bit pattern. Every NaN is
written alike and read as one pattern.
-/
namespace ScriptCodec

namespace FloatText

def digitsValue (v : Nat) (ds : Bytes) : Nat := ds.foldl (fun v b => v * 10 + (b.toNat - 0x30)) v

theorem digitsValue_append (v : Nat) (a b : Bytes) :
    digitsValue v (a ++ b) = digitsValue (digitsValue v a) b := List.foldl_append

theorem digitsValue_eq (v : Nat) (ds : Bytes) :
    digitsValue v ds = v * 10 ^ ds.length + digitsValue 0 ds := by
  induction ds generalizing v with
  | nil => simp [digitsValue]
  | cons b ds ih =>
    have hstep (w : Nat) : digitsValue w (b :: ds) = digitsValue (w * 10 + (b.toNat - 0x30)) ds := rfl
    rw [hstep, hstep, ih, ih (0 * 10 + _), List.length_cons, Nat.pow_succ]
    ring

theorem digitsValue_zeros (v k : Nat) : digitsValue v (List.replicate k 0x30) = v * 10 ^ k := by
  induction k generalizing v with
  | zero => simp [digitsValue]
  | succ k ih =>
    have hstep : digitsValue v (List.replicate (k + 1) 0x30) =
        digitsValue (v * 10 + 0) (List.replicate k 0x30) := rfl
    rw [hstep, ih, Nat.pow_succ]
    ring

theorem digitChar_toNat {d : Nat} (hd : d < 10) : (Nat.digitChar d).toUInt8.toNat - 0x30 = d := by
  revert hd
  revert d
  decide

theorem digitsValue_decimal (n : Nat) : digitsValue 0 (Text.decimal n) = n := by
  unfold Text.decimal
  induction n using Nat.strongRecOn with
  | ind n ih =>
    rw [Nat.toDigits_eq_if (by decide)]
    split
    · rename_i hlt
      have hdigit := digitChar_toNat hlt
      simp [digitsValue, hdigit]
    · have hdigit := digitChar_toNat (Nat.mod_lt n (show 0 < 10 by decide))
      rw [List.map_append, digitsValue_append, ih (n / 10) (by omega)]
      simp only [digitsValue, List.map_singleton, List.foldl_cons, List.foldl_nil, hdigit]
      omega

def AreDigits (ds : Bytes) : Prop := ∀ b ∈ ds, 0x30 ≤ b ∧ b ≤ 0x39

theorem areDigits_decimal (n : Nat) : AreDigits (Text.decimal n) := fun _ => Number.decimal_digit

theorem areDigits_zeros (k : Nat) : AreDigits (List.replicate k 0x30) := by
  intro b hb
  rw [List.eq_of_mem_replicate hb]
  decide

theorem AreDigits.append {a b : Bytes} (ha : AreDigits a) (hb : AreDigits b) :
    AreDigits (a ++ b) := by
  intro c hc
  rcases List.mem_append.mp hc with hc | hc
  · exact ha c hc
  · exact hb c hc

theorem AreDigits.of_subset {a b : Bytes} (hb : AreDigits b) (h : a ⊆ b) : AreDigits a :=
  fun c hc => hb c (h hc)

theorem floatDigit_of_digit {b : UInt8} (hb : 0x30 ≤ b ∧ b ≤ 0x39) :
    floatDigit false b = some (b.toNat - 0x30) := by
  have hhigh : b.toNat ≤ 0x39 := UInt8.le_iff_toNat_le.mp hb.2
  rw [floatDigit, Number.digitValue, if_pos hb, Option.filter_some, if_pos]
  simp only [Bool.false_eq_true, if_false, decide_eq_true_eq]
  omega

theorem mantissa_digits {ds : Bytes} (hds : AreDigits ds) (m : Mantissa) (rest : Bytes) :
    mantissa false m (ds ++ rest) =
      mantissa false
        { m with
          value := digitsValue m.value ds
          fractionDigits := if m.sawPoint then m.fractionDigits + ds.length else m.fractionDigits
          sawDigit := m.sawDigit || !ds.isEmpty } rest := by
  induction ds generalizing m with
  | nil => simp [digitsValue]
  | cons b ds ih =>
    have hb := hds b List.mem_cons_self
    have hlow : 0x30 ≤ b.toNat := UInt8.le_iff_toNat_le.mp hb.1
    have hhigh : b.toNat ≤ 0x39 := UInt8.le_iff_toNat_le.mp hb.2
    have hunder : b ≠ 0x5F := by
      rintro rfl
      exact absurd hhigh (by decide)
    have hpoint : b ≠ 0x2E := by
      rintro rfl
      exact absurd hlow (by decide)
    rw [List.cons_append, mantissa, if_neg hunder, if_neg hpoint, floatDigit_of_digit hb]
    simp only [Bool.false_eq_true, if_false]
    rw [ih fun c hc => hds c (List.mem_cons_of_mem b hc)]
    cases hp : m.sawPoint with
    | false => simp [digitsValue]
    | true =>
      have hcount : m.fractionDigits + 1 + ds.length = m.fractionDigits + (ds.length + 1) := by omega
      simp [digitsValue, hcount]

theorem mantissa_point {m : Mantissa} (hm : m.sawPoint = false) (rest : Bytes) :
    mantissa false m (0x2E :: rest) = mantissa false { m with sawPoint := true } rest := by
  rw [mantissa, if_neg (by decide), if_pos rfl, hm]
  rfl

def fractionText : Option Bytes → Bytes
  | none => []
  | some f => 0x2E :: f

def exponentText : Option Int → Bytes
  | none => []
  | some e => 0x65 :: (if e < 0 then 0x2D else 0x2B) :: (Text.decimal e.natAbs).leftpad 2 0x30

theorem mantissa_exponentText (m : Mantissa) (e : Option Int) :
    mantissa false m (exponentText e) = (m, exponentText e) := by
  cases e with
  | none => rfl
  | some e =>
    have hnone : floatDigit false 0x65 = none := by decide
    rw [exponentText, mantissa, if_neg (by decide), if_neg (by decide), hnone]

theorem mantissa_numeral {w : Bytes} (hw : AreDigits w) (hne : w ≠ []) {f : Option Bytes}
    (hf : AreDigits (f.getD [])) (e : Option Int) :
    ∃ m, mantissa false {} (w ++ fractionText f ++ exponentText e) = (m, exponentText e) ∧
      m.sawDigit = true ∧ m.value = digitsValue 0 (w ++ f.getD []) ∧
      m.fractionDigits = (f.getD []).length := by
  have hsome : (!w.isEmpty) = true := by simpa using hne
  rw [List.append_assoc, mantissa_digits hw]
  cases f with
  | none =>
    rw [fractionText, List.nil_append, mantissa_exponentText]
    exact ⟨_, rfl, by simpa using hne, by simp, by simp⟩
  | some f =>
    have hf : AreDigits f := hf
    rw [fractionText, List.cons_append, mantissa_point rfl, mantissa_digits hf,
      mantissa_exponentText]
    refine ⟨_, rfl, ?_, ?_, ?_⟩
    · simp [hne]
    · simp [digitsValue_append]
    · simp

theorem exponentDigits_digits {ds : Bytes} (hds : AreDigits ds) {v : Nat}
    (hv : digitsValue v ds < 10000) : exponentDigits v ds = some (digitsValue v ds) := by
  induction ds generalizing v with
  | nil => rfl
  | cons b ds ih =>
    have hb := hds b List.mem_cons_self
    have hhigh : b.toNat ≤ 0x39 := UInt8.le_iff_toNat_le.mp hb.2
    have hunder : b ≠ 0x5F := by
      rintro rfl
      exact absurd hhigh (by decide)
    have hdigit : isDigit b = true := by simpa [isDigit] using hb
    have hsmall : v < 10000 := by
      have hexpand := digitsValue_eq v (b :: ds)
      have hpow : 1 ≤ 10 ^ (b :: ds).length := Nat.one_le_pow _ _ (by decide)
      nlinarith
    rw [exponentDigits, if_neg hunder, if_pos hdigit, if_pos hsmall]
    exact ih (fun c hc => hds c (List.mem_cons_of_mem b hc)) hv

theorem areDigits_leftpad (width n : Nat) : AreDigits ((Text.decimal n).leftpad width 0x30) :=
  (areDigits_zeros _).append (areDigits_decimal n)

theorem digitsValue_leftpad (width n : Nat) :
    digitsValue 0 ((Text.decimal n).leftpad width 0x30) = n := by
  rw [List.leftpad, digitsValue_append, digitsValue_zeros, Nat.zero_mul, digitsValue_decimal]

theorem unsignedExponent_leftpad {n : Nat} (hn : n < 10000) :
    unsignedExponent ((Text.decimal n).leftpad 2 0x30) = some n := by
  have hdigits := areDigits_leftpad 2 n
  have hvalue := digitsValue_leftpad 2 n
  have hne : (Text.decimal n).leftpad 2 0x30 ≠ [] := by
    intro h
    exact Number.decimal_ne_nil n (List.append_eq_nil_iff.mp h).2
  obtain ⟨b, ds, hds⟩ := List.exists_cons_of_ne_nil hne
  rw [hds] at hdigits hvalue ⊢
  have hdigit : isDigit b = true := by simpa [isDigit] using hdigits b List.mem_cons_self
  rw [unsignedExponent, if_pos hdigit, exponentDigits_digits hdigits (by omega), hvalue]

theorem exponent_text {e : Int} (he : e.natAbs < 10000) :
    exponent ((if e < 0 then 0x2D else 0x2B) :: (Text.decimal e.natAbs).leftpad 2 0x30) =
      some e := by
  have hread := unsignedExponent_leftpad he
  by_cases hneg : e < 0
  · have habs : -(e.natAbs : Int) = e := by omega
    rw [if_pos hneg, exponent, hread]
    exact congrArg some habs
  · have habs : (e.natAbs : Int) = e := by omega
    rw [if_neg hneg, exponent, hread]
    exact congrArg some habs

def IsNumeralByte (b : UInt8) : Prop :=
  0x30 ≤ b ∧ b ≤ 0x39 ∨ b = 0x2E ∨ b = 0x65 ∨ b = 0x2B ∨ b = 0x2D

theorem IsNumeralByte.ne_underscore {b : UInt8} (hb : IsNumeralByte b) : b ≠ 0x5F := by
  rintro rfl
  exact absurd hb (by unfold IsNumeralByte; decide)

theorem IsNumeralByte.hexMark {b : UInt8} (hb : IsNumeralByte b) : hexMark b = false := by
  rcases hb with ⟨hlow, hhigh⟩ | rfl | rfl | rfl | rfl
  · have hnot : ¬ (0x41 ≤ b ∧ b ≤ 0x5A) := fun h => absurd (UInt8.le_trans h.1 hhigh) (by decide)
    rw [FloatText.hexMark, Text.lowerByte, if_neg hnot, beq_eq_false_iff_ne]
    rintro rfl
    exact absurd hhigh (by decide)
  · decide
  · decide
  · decide
  · decide

theorem AreDigits.isNumeralByte {ds : Bytes} (hds : AreDigits ds) : ∀ b ∈ ds, IsNumeralByte b :=
  fun b hb => Or.inl (hds b hb)

theorem isNumeralByte_fractionText {f : Option Bytes} (hf : AreDigits (f.getD [])) :
    ∀ b ∈ fractionText f, IsNumeralByte b := by
  cases f with
  | none => simp [fractionText]
  | some f =>
    intro b hb
    rcases List.mem_cons.mp hb with rfl | hb
    · exact Or.inr (Or.inl rfl)
    · exact AreDigits.isNumeralByte hf b hb

theorem isNumeralByte_exponentText (e : Option Int) : ∀ b ∈ exponentText e, IsNumeralByte b := by
  cases e with
  | none => simp [exponentText]
  | some e =>
    intro b hb
    rw [exponentText, List.mem_cons, List.mem_cons] at hb
    rcases hb with rfl | rfl | hb
    · exact Or.inr (Or.inr (Or.inl rfl))
    · split
      · exact Or.inr (Or.inr (Or.inr (Or.inr rfl)))
      · exact Or.inr (Or.inr (Or.inr (Or.inl rfl)))
    · exact (areDigits_leftpad 2 _).isNumeralByte b hb

def numeralText (w : Bytes) (f : Option Bytes) (e : Option Int) : Bytes :=
  w ++ fractionText f ++ exponentText e

theorem isNumeralByte_numeralText {w : Bytes} (hw : AreDigits w) {f : Option Bytes}
    (hf : AreDigits (f.getD [])) (e : Option Int) : ∀ b ∈ numeralText w f e, IsNumeralByte b := by
  intro b hb
  rw [numeralText, List.mem_append, List.mem_append] at hb
  rcases hb with (hb | hb) | hb
  · exact hw.isNumeralByte b hb
  · exact isNumeralByte_fractionText hf b hb
  · exact isNumeralByte_exponentText e b hb

theorem markedExponent_exponentText {e : Option Int} (he : (e.getD 0).natAbs < 10000) :
    markedExponent false (exponentText e) = some (e.getD 0) := by
  cases e with
  | none => rfl
  | some e => exact exponent_text he

theorem splitHex_of_plain {s : Bytes} (hs : ∀ b ∈ s, IsNumeralByte b) : splitHex s = (false, s) := by
  unfold splitHex
  split
  · rename_i b c rest
    have hmark := (hs b (by simp)).hexMark
    rw [hmark]
    rfl
  · rfl

theorem numeral_numeralText {w : Bytes} (hw : AreDigits w) (hne : w ≠ []) {f : Option Bytes}
    (hf : AreDigits (f.getD [])) {e : Option Int} (he : (e.getD 0).natAbs < 10000) :
    numeral (numeralText w f e) =
      some (10, digitsValue 0 (w ++ f.getD []), e.getD 0 - (f.getD []).length) := by
  obtain ⟨m, hm, hdigit, hvalue, hcount⟩ := mantissa_numeral hw hne hf e
  have hplain := isNumeralByte_numeralText hw hf e
  have hunder : (numeralText w f e).contains 0x5F = false := by
    rw [← Bool.not_eq_true, List.contains_iff_mem]
    exact fun hmem => (hplain _ hmem).ne_underscore rfl
  rw [numeral, splitHex_of_plain hplain]
  change mantissa false {} (numeralText w f e) = _ at hm
  simp only [hm, hdigit, markedExponent_exponentText he, hunder, hvalue, hcount,
    Option.bind_some, Bool.not_true, Bool.false_and, Bool.false_eq_true, if_false]

end FloatText

namespace Decimal

open FloatText

theorem round_congr {d d' : Decimal}
    (h : d.Denotes (scaled 10 d'.digits d'.exponent).1 (scaled 10 d'.digits d'.exponent).2) :
    d.round = d'.round := round_of_denotes (scaled_den_pos _ _) h

theorem scaled_of_nonneg (n : Nat) {e : Int} (he : 0 ≤ e) : scaled 10 n e = (n * 10 ^ e.toNat, 1) := by
  rw [scaled, if_pos he, Nat.pow_eq]

theorem scaled_of_neg (n : Nat) {e : Int} (he : ¬ 0 ≤ e) : scaled 10 n e = (n, 10 ^ (-e).toNat) := by
  rw [scaled, if_neg he, Nat.pow_eq]

theorem round_zero (e : Int) : round ⟨0, e⟩ = round ⟨0, 0⟩ := by
  refine round_congr ?_
  rw [Denotes]
  by_cases he : 0 ≤ e
  · rw [scaled_of_nonneg 0 he, scaled_of_nonneg 0 (Int.le_refl 0)]
    simp
  · rw [scaled_of_neg 0 he, scaled_of_nonneg 0 (Int.le_refl 0)]
    simp

/-- Trailing zeros of the digits count in the exponent. -/
theorem round_shift (n k : Nat) (e : Int) : round ⟨n * 10 ^ k, e⟩ = round ⟨n, e + k⟩ := by
  refine round_congr ?_
  rw [Denotes]
  by_cases he : 0 ≤ e
  · have hsum : (e + k).toNat = e.toNat + k := by omega
    rw [scaled_of_nonneg _ he, scaled_of_nonneg _ (show 0 ≤ e + k by omega), hsum, pow_add]
    ring
  · by_cases hsum : 0 ≤ e + k
    · have hk : 10 ^ k = 10 ^ (-e).toNat * 10 ^ (e + k).toNat := by
        rw [← pow_add]
        congr 1
        omega
      rw [scaled_of_neg _ he, scaled_of_nonneg _ hsum, hk]
      ring
    · have hk : (-e).toNat = k + (-(e + k)).toNat := by omega
      rw [scaled_of_neg _ he, scaled_of_neg _ hsum, hk, pow_add]
      ring

theorem decimal_eq_significant (d : Decimal) (hd : d.digits ≠ 0) :
    ∃ t, Text.decimal d.digits = d.significant ++ List.replicate t 0x30 := by
  refine ⟨((Text.decimal d.digits).reverse.takeWhile (· == 0x30)).length, ?_⟩
  have hzeros : (Text.decimal d.digits).reverse.takeWhile (· == 0x30) =
      List.replicate ((Text.decimal d.digits).reverse.takeWhile (· == 0x30)).length 0x30 := by
    refine List.eq_replicate_iff.mpr ⟨rfl, ?_⟩
    intro b hb
    simpa using List.all_eq_true.mp List.all_takeWhile b hb
  rw [significant, if_neg hd]
  conv_rhs => rw [← List.reverse_replicate, ← hzeros]
  rw [← List.reverse_append, List.takeWhile_append_dropWhile, List.reverse_reverse]

theorem areDigits_significant (d : Decimal) : AreDigits d.significant := by
  by_cases hd : d.digits = 0
  · rw [significant, if_pos hd]
    intro b hb
    exact absurd hb List.not_mem_nil
  · obtain ⟨t, ht⟩ := d.decimal_eq_significant hd
    refine (areDigits_decimal d.digits).of_subset ?_
    rw [ht]
    exact List.subset_append_left _ _

theorem significant_spec (d : Decimal) (hd : d.digits ≠ 0) :
    ∃ t : Nat, d.digits = digitsValue 0 d.significant * 10 ^ t ∧
      d.point = d.significant.length + t + d.exponent := by
  obtain ⟨t, ht⟩ := d.decimal_eq_significant hd
  refine ⟨t, ?_, ?_⟩
  · have hvalue := digitsValue_decimal d.digits
    rw [ht, digitsValue_append, digitsValue_zeros] at hvalue
    exact hvalue.symm
  · rw [point, if_neg hd, ht]
    simp

theorem significant_ne_nil {d : Decimal} (hd : d.digits ≠ 0) : d.significant ≠ [] := by
  intro h
  obtain ⟨t, hvalue, -⟩ := d.significant_spec hd
  rw [h] at hvalue
  exact hd (by simpa [digitsValue] using hvalue)

/-- A decimal rounds as its significant digits do with the exponent of the last of them. -/
theorem round_significant {d : Decimal} (hd : d.digits ≠ 0) :
    d.round = round ⟨digitsValue 0 d.significant, d.point - d.significant.length⟩ := by
  obtain ⟨t, hvalue, hpoint⟩ := d.significant_spec hd
  have hexp : d.point - d.significant.length = d.exponent + t := by omega
  rw [hexp, ← round_shift, ← hvalue]

def Spells (s : Bytes) (d : Decimal) : Prop :=
  ∃ w f e, s = numeralText w f e ∧ AreDigits w ∧ w ≠ [] ∧ AreDigits (f.getD []) ∧
    (e.getD 0).natAbs < 10000 ∧
    round ⟨digitsValue 0 (w ++ f.getD []), e.getD 0 - (f.getD []).length⟩ = d.round

def wholePart (d : Decimal) : Bytes :=
  if d.point ≤ 0 then [0x30]
  else d.significant.take d.point.toNat ++
    List.replicate (d.point.toNat - d.significant.length) 0x30

def fractionPart (d : Decimal) : Option Bytes :=
  if d.point ≤ 0 then
    if d.significant.isEmpty then none
    else some (List.replicate (-d.point).toNat 0x30 ++ d.significant)
  else if d.point.toNat < d.significant.length then some (d.significant.drop d.point.toNat)
  else none

theorem positional_eq (d : Decimal) :
    d.positional = d.wholePart ++ fractionText d.fractionPart := by
  unfold positional wholePart fractionPart
  simp only
  split
  · split <;> rfl
  · congr 1
    split <;> rfl

theorem areDigits_wholePart (d : Decimal) : AreDigits d.wholePart := by
  unfold wholePart
  split
  · exact areDigits_zeros 1
  · exact (d.areDigits_significant.of_subset (List.take_subset _ _)).append (areDigits_zeros _)

theorem areDigits_fractionPart (d : Decimal) : AreDigits (d.fractionPart.getD []) := by
  have hnil : AreDigits [] := areDigits_zeros 0
  unfold fractionPart
  split
  · split
    · exact hnil
    · exact (areDigits_zeros _).append d.areDigits_significant
  · split
    · exact d.areDigits_significant.of_subset (List.drop_subset _ _)
    · exact hnil

theorem wholePart_ne_nil (d : Decimal) : d.wholePart ≠ [] := by
  unfold wholePart
  split
  · exact List.cons_ne_nil _ _
  · rename_i hpoint
    intro h
    have hlength := congrArg List.length h
    rw [List.length_append, List.length_take, List.length_replicate, List.length_nil] at hlength
    omega

theorem round_written {d : Decimal} :
    round ⟨digitsValue 0 (d.wholePart ++ d.fractionPart.getD []),
      -((d.fractionPart.getD []).length : Int)⟩ = d.round := by
  by_cases hd : d.digits = 0
  · have hpoint : d.point = 0 := by rw [point, if_pos hd]
    have hsig : d.significant = [] := by rw [significant, if_pos hd]
    have hwhole : d.wholePart = [0x30] := by rw [wholePart, if_pos (by omega)]
    have hfraction : d.fractionPart = none := by
      rw [fractionPart, if_pos (by omega), hsig]
      rfl
    have hzero : d = ⟨0, d.exponent⟩ := by
      rw [← hd]
    rw [hwhole, hfraction, hzero]
    exact (round_zero d.exponent).symm
  · have hsig := significant_ne_nil hd
    rw [round_significant hd]
    by_cases hpoint : d.point ≤ 0
    · have hwhole : d.wholePart = List.replicate 1 0x30 := by rw [wholePart, if_pos hpoint]; rfl
      have hfraction : d.fractionPart =
          some (List.replicate (-d.point).toNat 0x30 ++ d.significant) := by
        rw [fractionPart, if_pos hpoint, if_neg (by simpa using hsig)]
      rw [hwhole, hfraction]
      simp only [Option.getD_some, digitsValue_append, digitsValue_zeros, Nat.zero_mul,
        List.length_append, List.length_replicate]
      congr 2
      omega
    · have hwhole : d.wholePart = d.significant.take d.point.toNat ++
          List.replicate (d.point.toNat - d.significant.length) 0x30 := by
        rw [wholePart, if_neg hpoint]
      by_cases hlong : d.point.toNat < d.significant.length
      · have hfraction : d.fractionPart = some (d.significant.drop d.point.toNat) := by
          rw [fractionPart, if_neg hpoint, if_pos hlong]
        have hnone : d.point.toNat - d.significant.length = 0 := by omega
        rw [hwhole, hfraction, hnone, List.replicate_zero, List.append_nil, Option.getD_some,
          List.take_append_drop, List.length_drop]
        congr 2
        omega
      · have hfraction : d.fractionPart = none := by
          rw [fractionPart, if_neg hpoint, if_neg hlong]
        have hpad := round_shift (digitsValue 0 d.significant)
          (d.point.toNat - d.significant.length) 0
        rw [hwhole, hfraction, List.take_of_length_le (by omega), Option.getD_none,
          List.append_nil, digitsValue_append, digitsValue_zeros]
        refine hpad.trans ?_
        congr 2
        omega

theorem spells_positional (d : Decimal) : Spells d.positional d := by
  refine ⟨d.wholePart, d.fractionPart, none, ?_, d.areDigits_wholePart, d.wholePart_ne_nil,
    d.areDigits_fractionPart, by decide, ?_⟩
  · rw [positional_eq, numeralText, exponentText, List.append_nil]
  · rw [Option.getD_none, Int.zero_sub]
    exact round_written

theorem spells_scientific {d : Decimal} (hd : d.digits ≠ 0) (hpoint : (d.point - 1).natAbs < 10000) :
    Spells d.scientific d := by
  have hsig := significant_ne_nil hd
  have hlength : 0 < d.significant.length := List.length_pos_iff.mpr hsig
  have hgetD : (if (d.significant.drop 1).isEmpty then none
      else some (d.significant.drop 1) : Option Bytes).getD [] = d.significant.drop 1 := by
    split
    · rename_i hempty
      exact (List.isEmpty_iff.mp hempty).symm
    · rfl
  refine ⟨d.significant.take 1, if (d.significant.drop 1).isEmpty then none
    else some (d.significant.drop 1), some (d.point - 1), ?_, ?_, ?_, ?_, hpoint, ?_⟩
  · unfold scientific numeralText
    simp only [exponentText, List.append_assoc]
    congr 1
    split <;> rfl
  · exact d.areDigits_significant.of_subset (List.take_subset _ _)
  · simpa using hsig
  · rw [hgetD]
    exact d.areDigits_significant.of_subset (List.drop_subset _ _)
  · rw [hgetD, List.take_append_drop, round_significant hd, Option.getD_some, List.length_drop]
    congr 2
    omega

theorem significant_last {d : Decimal} (hd : d.digits ≠ 0) :
    digitsValue 0 d.significant % 10 ≠ 0 := by
  have hsig := significant_ne_nil hd
  have hlast : d.significant.getLast hsig ≠ 0x30 := by
    intro h
    have hne : (Text.decimal d.digits).reverse.dropWhile (· == 0x30) ≠ [] := by
      simpa [significant, if_neg hd] using hsig
    have hhead := List.head_dropWhile_not (· == 0x30) hne
    simp only [significant, if_neg hd, List.getLast_reverse] at h
    rw [h] at hhead
    exact absurd hhead (by decide)
  have hdigit := d.areDigits_significant _ (List.getLast_mem hsig)
  have hlow : 0x30 ≤ (d.significant.getLast hsig).toNat := UInt8.le_iff_toNat_le.mp hdigit.1
  have hhigh : (d.significant.getLast hsig).toNat ≤ 0x39 := UInt8.le_iff_toNat_le.mp hdigit.2
  have hne : (d.significant.getLast hsig).toNat ≠ 0x30 := fun h => hlast (UInt8.toNat_inj.mp h)
  rw [← List.dropLast_append_getLast hsig, digitsValue_append]
  simp only [digitsValue, List.foldl_cons, List.foldl_nil]
  omega

/-- All significant digits of a whole number stand before the point. -/
theorem IsWhole.length_le {d : Decimal} (hwhole : d.IsWhole) (hd : d.digits ≠ 0) :
    (d.significant.length : Int) ≤ d.point := by
  obtain ⟨t, hvalue, hpoint⟩ := d.significant_spec hd
  rcases hwhole with hexp | hdvd
  · omega
  · by_contra hlt
    obtain ⟨j, hj⟩ : ∃ j, (-d.exponent).toNat = t + 1 + j := ⟨(-d.exponent).toNat - (t + 1), by omega⟩
    have hten : 10 ^ t * 10 ∣ digitsValue 0 d.significant * 10 ^ t := by
      rw [← hvalue]
      refine Dvd.dvd.trans ?_ hdvd
      rw [hj, pow_add, pow_succ]
      exact Dvd.intro _ rfl
    rw [Nat.mul_comm _ (10 ^ t)] at hten
    have hlast := Nat.dvd_of_mul_dvd_mul_left (Nat.pow_pos (by decide)) hten
    exact significant_last hd (Nat.mod_eq_zero_of_dvd hlast)

theorem IsWhole.fractionPart {d : Decimal} (hwhole : d.IsWhole) : d.fractionPart = none := by
  by_cases hd : d.digits = 0
  · have hpoint : d.point = 0 := by rw [point, if_pos hd]
    have hsig : d.significant = [] := by rw [significant, if_pos hd]
    rw [Decimal.fractionPart, if_pos (by omega), hsig]
    rfl
  · have hlength := hwhole.length_le hd
    have hpos : 0 < d.significant.length := List.length_pos_iff.mpr (significant_ne_nil hd)
    rw [Decimal.fractionPart, if_neg (by omega), if_neg (by omega)]

theorem spells_pointZero {d : Decimal} (hwhole : d.IsWhole) :
    Spells (d.positional ++ text ".0") d := by
  have hwritten := @round_written d
  refine ⟨d.wholePart, some [0x30], none, ?_, d.areDigits_wholePart, d.wholePart_ne_nil,
    areDigits_zeros 1, by decide, ?_⟩
  · rw [positional_eq, hwhole.fractionPart, numeralText, exponentText, List.append_nil,
      fractionText, List.append_nil]
    rfl
  · rw [hwhole.fractionPart, Option.getD_none, List.append_nil] at hwritten
    rw [Option.getD_some, digitsValue_append, show [0x30] = List.replicate 1 (0x30 : UInt8) from rfl,
      digitsValue_zeros, ← hwritten, round_shift]
    rfl

end Decimal

namespace FloatText

open Decimal

theorem spells_head {s : Bytes} {d : Decimal} (h : Spells s d) :
    ∃ b rest, s = b :: rest ∧ 0x30 ≤ b ∧ b ≤ 0x39 := by
  obtain ⟨w, f, e, rfl, hw, hne, -⟩ := h
  obtain ⟨b, rest, rfl⟩ := List.exists_cons_of_ne_nil hne
  exact ⟨b, rest ++ fractionText f ++ exponentText e, rfl, hw b List.mem_cons_self⟩

theorem splitSign_sign (bits : UInt32) {s : Bytes} {b : UInt8} {rest : Bytes} (hs : s = b :: rest)
    (hb : 0x30 ≤ b) :
    splitSign (sign bits ++ s) =
      (Binary32.isNegative bits, Binary32.isNegative bits, s) := by
  rw [sign]
  cases Binary32.isNegative bits with
  | true => rfl
  | false =>
    have hplus : b ≠ 0x2B := by
      rintro rfl
      exact absurd hb (by decide)
    have hminus : b ≠ 0x2D := by
      rintro rfl
      exact absurd hb (by decide)
    rw [hs]
    simp only [Bool.false_eq_true, if_false, List.nil_append]
    unfold splitSign
    split
    · rename_i h
      exact absurd (List.cons.inj h).1 hplus
    · rename_i h
      exact absurd (List.cons.inj h).1 hminus
    · rfl

theorem withSign_magnitude (bits : UInt32) :
    Binary32.withSign (Binary32.isNegative bits) (Binary32.magnitude bits) = bits := by
  have hlt := bits.toNat_lt
  rw [← UInt32.toNat_inj, Binary32.withSign, Binary32.isNegative, Binary32.magnitude]
  by_cases h : 0x80000000 ≤ bits.toNat
  · simp only [h, decide_true, if_true, UInt32.toNat_ofNat']
    omega
  · simp only [h, decide_false, Bool.false_eq_true, if_false, UInt32.toNat_ofNat']
    omega

/-- A word begins with a letter, a numeral with a digit. -/
theorem lower_ne_word {b : UInt8} (hb : 0x30 ≤ b ∧ b ≤ 0x39) (rest : Bytes) {c : UInt8}
    {word : Bytes} (hc : 0x39 < c) : Text.lower (b :: rest) ≠ c :: word := by
  have hnot : ¬ (0x41 ≤ b ∧ b ≤ 0x5A) := fun h => absurd (UInt8.le_trans h.1 hb.2) (by decide)
  intro h
  have hhead := (List.cons.inj h).1
  rw [Text.lowerByte, if_neg hnot] at hhead
  rw [hhead] at hb
  exact absurd hc (UInt8.not_lt.mpr hb.2)

theorem word?_of_digit {s : Bytes} {b : UInt8} {rest : Bytes} (hs : s = b :: rest)
    (hb : 0x30 ≤ b ∧ b ≤ 0x39) (signed negative : Bool) : word? signed negative s = none := by
  have hword {c : UInt8} {word : Bytes} (hc : 0x39 < c) : Text.lower s ≠ c :: word := by
    rw [hs]
    exact lower_ne_word hb rest hc
  have hinf : ¬ (Text.lower s = text "inf" ∨ Text.lower s = text "infinity") := by
    rintro (h | h)
    · exact hword (by decide) h
    · exact hword (by decide) h
  have hnan : ¬ (Text.lower s = text "nan" ∧ (!signed) = true) := fun h => hword (by decide) h.1
  rw [word?]
  simp only [if_neg hinf, if_neg hnan]

theorem readNumeral_spells (negative : Bool) {s : Bytes} {d : Decimal} (h : Spells s d) {p : Nat}
    (hround : d.round = some p) : readNumeral negative s = .ok (Binary32.withSign negative p) := by
  obtain ⟨w, f, e, htext, hw, hne, hf, he, hvalue⟩ := h
  have hnumeral := numeral_numeralText hw hne hf he
  rw [hround, Decimal.round] at hvalue
  rw [readNumeral, htext, hnumeral]
  exact congrArg (ofRounded negative) hvalue

theorem read_spells (bits : UInt32) {s : Bytes} {d : Decimal} (h : Spells s d)
    (hround : d.round = some (Binary32.magnitude bits)) : read (sign bits ++ s) = .ok bits := by
  obtain ⟨b, rest, hs, hb⟩ := spells_head h
  rw [read, splitSign_sign bits hs hb.1]
  simp only [word?_of_digit hs hb, readNumeral_spells _ h hround, withSign_magnitude]

/-- The exponent of a text with one is that of a number other than zero. -/
theorem shortest_exponent {p : Nat} (hp : p < Binary32.infinity)
    (he : (shortest p).point - 1 < -4 ∨ 6 ≤ (shortest p).point - 1) :
    (shortest p).digits ≠ 0 ∧ ((shortest p).point - 1).natAbs < 10000 := by
  obtain ⟨hdigits, hlow, hhigh⟩ := shortest_bounds hp
  generalize shortest p = d at *
  have hne : d.digits ≠ 0 := by
    intro hd
    rw [point, if_pos hd] at he
    omega
  have hlength : (Text.decimal d.digits).length ≤ 234 := by
    rw [Text.decimal, List.length_map]
    exact (Nat.length_toDigits_le_iff (by decide) (by decide)).mpr hdigits
  have hpoint : d.point = (Text.decimal d.digits).length + d.exponent := by rw [point, if_neg hne]
  exact ⟨hne, by omega⟩

theorem spells_general {p : Nat} (hp : p < Binary32.infinity) :
    Spells (if (shortest p).point - 1 < -4 ∨ 6 ≤ (shortest p).point - 1 then (shortest p).scientific
      else (shortest p).positional) (shortest p) := by
  split
  · rename_i he
    obtain ⟨hne, hpoint⟩ := shortest_exponent hp he
    exact spells_scientific hne hpoint
  · exact spells_positional _

theorem read_infinity (negative : Bool) :
    read (if negative then text "-Inf" else text "+Inf") =
      .ok (Binary32.withSign negative Binary32.infinity) := by
  cases negative with
  | true => decide
  | false => decide

/-- The pattern kept by writing a number and reading it back: every NaN becomes one. -/
def settled (bits : UInt32) : UInt32 :=
  if Binary32.infinity < Binary32.magnitude bits then Binary32.nan else bits

theorem exists_spells_general {bits : UInt32} (hp : Binary32.magnitude bits < Binary32.infinity) :
    ∃ body, general bits = sign bits ++ body ∧ Spells body (shortest (Binary32.magnitude bits)) := by
  refine ⟨_, ?_, spells_general hp⟩
  rw [general]
  simp only [if_neg (Nat.lt_asymm hp), if_neg (Nat.ne_of_lt hp)]

theorem read_general (bits : UInt32) : read (general bits) = .ok (settled bits) := by
  by_cases hp : Binary32.magnitude bits < Binary32.infinity
  · obtain ⟨body, htext, hspells⟩ := exists_spells_general hp
    rw [htext, read_spells bits hspells (round_shortest hp), settled, if_neg (by omega)]
  · rw [general, settled]
    by_cases hnan : Binary32.infinity < Binary32.magnitude bits
    · simp only [if_pos hnan]
      decide
    · have hinf : Binary32.magnitude bits = Binary32.infinity := by omega
      simp only [if_neg hnan, if_pos hinf]
      rw [read_infinity, ← hinf, withSign_magnitude]

theorem scalar_eq_general {bits : UInt32}
    (hp : ¬ Binary32.magnitude bits < Binary32.infinity) : scalar bits = general bits := by
  have hnot : ¬ Binary32.isIntegral (Binary32.magnitude bits) = true := by
    rw [Binary32.isIntegral, Bool.and_eq_true, decide_eq_true_eq]
    exact fun hint => hp hint.1
  rw [scalar]
  simp only [if_neg hnot]

theorem exists_spells_scalar {bits : UInt32} (hp : Binary32.magnitude bits < Binary32.infinity) :
    ∃ body, scalar bits = sign bits ++ body ∧ Spells body (shortest (Binary32.magnitude bits)) := by
  rw [scalar]
  by_cases hint : Binary32.isIntegral (Binary32.magnitude bits) = true
  · simp only [if_pos hint]
    rw [Binary32.isIntegral, Bool.and_eq_true, decide_eq_true_eq, beq_iff_eq] at hint
    have hwhole := isWhole_shortest hp (Nat.dvd_of_mod_eq_zero hint.2)
    exact ⟨_, List.append_assoc _ _ _, spells_pointZero hwhole⟩
  · simp only [if_neg hint]
    exact exists_spells_general hp

theorem read_scalar (bits : UInt32) : read (scalar bits) = .ok (settled bits) := by
  by_cases hp : Binary32.magnitude bits < Binary32.infinity
  · obtain ⟨body, htext, hspells⟩ := exists_spells_scalar hp
    rw [htext, read_spells bits hspells (round_shortest hp), settled, if_neg (by omega)]
  · rw [scalar_eq_general hp]
    exact read_general bits

theorem parse_component (bits : UInt32) : parse (component bits) = .ok (settled bits) := by
  rw [parse, component, read_general]
  rfl

theorem parse_scalar (bits : UInt32) : parse (scalar bits) = .ok (settled bits) := by
  rw [parse, read_scalar]
  rfl

theorem component_settled (bits : UInt32) : component (settled bits) = component bits := by
  rw [settled]
  split
  · rename_i hnan
    rw [component, component, general, general]
    simp only [if_pos hnan]
    rfl
  · rfl

theorem scalar_settled (bits : UInt32) : scalar (settled bits) = scalar bits := by
  rw [settled]
  split
  · rename_i hnan
    have hcomponent := component_settled bits
    rw [settled, if_pos hnan] at hcomponent
    rw [scalar_eq_general (Nat.lt_asymm hnan)]
    exact hcomponent
  · rfl

theorem round_lt {num den p : Nat} (h : Binary32.round num den = some p) : p < Binary32.infinity := by
  unfold Binary32.round at h
  simp only [Option.ite_none_right_eq_some, Option.some_inj] at h
  rw [← h.2]
  exact h.1

theorem roundScaled_lt {base n p : Nat} {e : Int} (h : Decimal.roundScaled base n e = some p) :
    p < Binary32.infinity := by
  rw [Decimal.roundScaled] at h
  exact round_lt h

theorem magnitude_withSign (negative : Bool) {p : Nat} (hp : p ≤ Binary32.infinity) :
    Binary32.magnitude (Binary32.withSign negative p) = p := by
  have hinf : Binary32.infinity = 0x7F800000 := rfl
  cases negative with
  | true =>
    simp only [Binary32.magnitude, Binary32.withSign, if_true, UInt32.toNat_ofNat']
    omega
  | false =>
    simp only [Binary32.magnitude, Binary32.withSign, Bool.false_eq_true, if_false,
      UInt32.toNat_ofNat']
    omega

theorem settled_withSign (negative : Bool) {p : Nat} (hp : p ≤ Binary32.infinity) :
    settled (Binary32.withSign negative p) = Binary32.withSign negative p := by
  rw [settled, magnitude_withSign negative hp, if_neg (by omega)]

theorem settled_of_word? {signed negative : Bool} {body : Bytes} {bits : UInt32}
    (h : word? signed negative body = some bits) : settled bits = bits := by
  unfold word? at h
  simp only at h
  split at h
  · rw [← Option.some_inj.mp h]
    exact settled_withSign _ (Nat.le_refl _)
  · rw [Option.ite_none_right_eq_some, Option.some_inj] at h
    rw [← h.2]
    rfl

theorem ofRounded_eq_ok {negative : Bool} {r : Option Nat} {bits : UInt32}
    (h : ofRounded negative r = .ok bits) : ∃ p, r = some p ∧ Binary32.withSign negative p = bits := by
  cases r with
  | none => exact absurd h (by simp [ofRounded])
  | some p => exact ⟨p, rfl, Except.ok.inj h⟩

theorem settled_of_readNumeral {negative : Bool} {body : Bytes} {bits : UInt32}
    (h : readNumeral negative body = .ok bits) : settled bits = bits := by
  unfold readNumeral at h
  split at h
  · exact absurd h (by simp)
  · obtain ⟨p, hround, rfl⟩ := ofRounded_eq_ok h
    exact settled_withSign negative (Nat.le_of_lt (roundScaled_lt hround))

/-- No text is read as a NaN other than the one all of them stand for. -/
theorem settled_of_read {s : Bytes} {bits : UInt32} (h : read s = .ok bits) : settled bits = bits := by
  unfold read at h
  simp only at h
  split at h
  · rename_i hword
    rw [← Except.ok.inj h]
    exact settled_of_word? hword
  · exact settled_of_readNumeral h

theorem settled_of_parse {s : Bytes} {bits : UInt32} (h : parse s = .ok bits) :
    settled bits = bits := by
  rw [parse, Except.mapError_eq_ok_iff] at h
  exact settled_of_read h

end FloatText
end ScriptCodec
