import Mathlib.Algebra.Order.Field.Rat
import ScriptCodec.Module.Operand
import ScriptCodec.Proofs.Number.FloatSpelling

/-!
Rounding in exact arithmetic. A quotient is rounded to the pattern whose value is nearest to it, and
to the even one of two that are equally near. The text of a finite number is its sign and a decimal
numeral to whose value the number is nearest, so reading it gives every bit back; the infinities
are read back by name, and all NaNs are one word.
-/
namespace ScriptCodec

namespace Binary32

def IsNaN (bits : UInt32) : Prop := infinity < magnitude bits

def IsFinite (bits : UInt32) : Prop := magnitude bits < infinity

instance (bits : UInt32) : Decidable (IsNaN bits) := inferInstanceAs (Decidable (_ < _))

instance (bits : UInt32) : Decidable (IsFinite bits) := inferInstanceAs (Decidable (_ < _))

/-- The number a pattern without its sign stands for. The pattern of the infinity counts as the
number one step above the largest. -/
def value (p : Nat) : ℚ := units p / unitScale

/-- No pattern up to the infinity is nearer to a number, and one that is as near leaves an even
pattern its place. -/
def IsNearest (q : ℚ) (p : Nat) : Prop :=
  ∀ p' ≤ infinity, p' ≠ p →
    |q - value p| < |q - value p'| ∨ |q - value p| = |q - value p'| ∧ p % 2 = 0

theorem value_strictMono : StrictMono value := by
  apply strictMono_nat_of_lt_succ
  intro p
  have hscale : (0 : ℚ) < unitScale := Nat.cast_pos.mpr unitScale_pos
  exact div_lt_div_of_pos_right (Nat.cast_lt.mpr (units_lt_units_succ p)) hscale

section

variable {p : Nat} {q : ℚ}

theorem isNearest_below (hlow : value p ≤ q) (hhalf : 2 * q ≤ value p + value (p + 1))
    (htie : 2 * q = value p + value (p + 1) → p % 2 = 0) : IsNearest q p := by
  have hstep := value_strictMono (Nat.lt_succ_self p)
  intro p' _ hne
  rw [abs_of_nonneg (sub_nonneg.mpr hlow)]
  rcases Nat.lt_or_gt_of_ne hne with hlt | hgt
  · have hless := value_strictMono hlt
    left
    rw [abs_of_nonneg (by linarith)]
    linarith
  · have hmore : value (p + 1) ≤ value p' := value_strictMono.monotone hgt
    rw [abs_of_nonpos (by linarith)]
    have hle : q - value p ≤ -(q - value p') := by linarith
    rcases hle.lt_or_eq with hlt | heq
    · exact Or.inl hlt
    · exact Or.inr ⟨heq, htie (by linarith)⟩

theorem isNearest_above (hhigh : q ≤ value (p + 1)) (hhalf : value p + value (p + 1) ≤ 2 * q)
    (htie : 2 * q = value p + value (p + 1) → (p + 1) % 2 = 0) : IsNearest q (p + 1) := by
  have hstep := value_strictMono (Nat.lt_succ_self p)
  intro p' _ hne
  rw [abs_of_nonpos (sub_nonpos.mpr hhigh)]
  rcases Nat.lt_or_gt_of_ne hne with hlt | hgt
  · have hless : value p' ≤ value p := value_strictMono.monotone (Nat.lt_succ_iff.mp hlt)
    rw [abs_of_nonneg (by linarith)]
    have hle : -(q - value (p + 1)) ≤ q - value p' := by linarith
    rcases hle.lt_or_eq with hlt | heq
    · exact Or.inl hlt
    · exact Or.inr ⟨heq, htie (by linarith)⟩
  · have hmore := value_strictMono hgt
    left
    rw [abs_of_nonpos (by linarith)]
    linarith

end

theorem units_leading (k : Nat) {m : Nat} (hlow : 0x800000 ≤ m) (hhigh : m ≤ 0x1000000) :
    units (k * 0x800000 + m) = m * 2 ^ k := by
  rcases hhigh.lt_or_eq with hlt | rfl
  · have hpattern : k * 0x800000 + m = (k + 1) * 0x800000 + (m - 0x800000) := by omega
    rw [hpattern, units_of_exponent_succ k (by omega), Nat.add_sub_cancel' hlow]
  · have hpattern : k * 0x800000 + 0x1000000 = (k + 1 + 1) * 0x800000 + 0 := by omega
    rw [hpattern, units_of_exponent_succ (k + 1) (by decide), pow_succ]
    omega

theorem units_small {n : Nat} (h : n ≤ 0x1000000) : units n = n := by
  by_cases hlow : n < 0x800000
  · exact units_of_exponent_zero hlow
  · have hunits := units_leading 0 (Nat.not_lt.mp hlow) h
    rwa [Nat.zero_mul, Nat.zero_add, pow_zero, Nat.mul_one] at hunits

theorem patternBelow_spec (n : Nat) :
    units (patternBelow n) ≤ n ∧ n < units (patternBelow n + 1) := by
  rw [patternBelow]
  split
  · rename_i hsmall
    rw [units_small (by omega), units_small (by omega)]
    omega
  · rename_i hlarge
    dsimp only
    rw [Nat.pow_eq]
    have hlog : 24 ≤ n.log2 := (Nat.le_log2 (by omega)).mpr (by omega)
    obtain ⟨k, hk⟩ : ∃ k, n.log2 = k + 23 := ⟨n.log2 - 23, by omega⟩
    have hpow : 0 < 2 ^ k := Nat.two_pow_pos k
    have hfirst : 0x800000 ≤ n / 2 ^ k := by
      rw [Nat.le_div_iff_mul_le hpow, show 0x800000 = 2 ^ 23 from rfl, ← pow_add, Nat.add_comm,
        ← hk]
      exact Nat.log2_self_le (by omega)
    have hlast : n / 2 ^ k < 0x1000000 := by
      rw [Nat.div_lt_iff_lt_mul hpow, show 0x1000000 = 2 ^ 24 from rfl, ← pow_add,
        show 24 + k = n.log2 + 1 by omega]
      exact Nat.lt_log2_self
    rw [hk, Nat.add_sub_cancel, Nat.add_assoc, units_leading k hfirst (Nat.le_of_lt hlast),
      units_leading k (by omega) hlast]
    exact ⟨Nat.div_mul_le_self n _, Nat.lt_mul_of_div_lt (Nat.lt_succ_self _) hpow⟩

section

variable (num : Nat) {den : Nat}

theorem cast_div_lt_cast_div_iff {a b c d : Nat} (hb : 0 < b) (hd : 0 < d) :
    (a : ℚ) / b < (c : ℚ) / d ↔ a * d < c * b := by
  rw [div_lt_div_iff₀ (Nat.cast_pos.mpr hb) (Nat.cast_pos.mpr hd)]
  norm_cast

theorem value_floorPattern_le (hd : 0 < den) : value (floorPattern num den) ≤ num / den := by
  have hle : units (floorPattern num den) ≤ num * unitScale / den := by
    have hbelow := (patternBelow_spec (num * unitScale / den)).1
    refine Nat.le_trans ?_ hbelow
    exact (strictMono_nat_of_lt_succ units_lt_units_succ).monotone (Nat.min_le_right _ _)
  rw [value, ← not_lt, cast_div_lt_cast_div_iff hd unitScale_pos, Nat.not_lt]
  exact Nat.mul_le_of_le_div _ _ _ hle

theorem lt_value_floorPattern_succ (hd : 0 < den) (hfinite : floorPattern num den < infinity) :
    (num : ℚ) / den < value (floorPattern num den + 1) := by
  have hpattern : floorPattern num den = patternBelow (num * unitScale / den) := by
    rw [floorPattern] at *
    omega
  rw [value, cast_div_lt_cast_div_iff hd unitScale_pos, hpattern, ← Nat.div_lt_iff_lt_mul hd]
  exact (patternBelow_spec (num * unitScale / den)).2

/-- Where a quotient lies to the point half way to the next pattern. -/
theorem twice_lt_iff (hd : 0 < den) (p : Nat) :
    (2 * ((num : ℚ) / den) < value p + value (p + 1) ↔
      2 * (num * unitScale) < (units p + units (p + 1)) * den) ∧
    (value p + value (p + 1) < 2 * ((num : ℚ) / den) ↔
      (units p + units (p + 1)) * den < 2 * (num * unitScale)) := by
  have htwice : 2 * ((num : ℚ) / den) = ((2 * num : Nat) : ℚ) / den := by
    rw [Nat.cast_mul, mul_div_assoc]
    rfl
  have hmiddle : value p + value (p + 1) = ((units p + units (p + 1) : Nat) : ℚ) / unitScale := by
    rw [value, value, ← add_div, Nat.cast_add]
  rw [htwice, hmiddle, cast_div_lt_cast_div_iff hd unitScale_pos,
    cast_div_lt_cast_div_iff unitScale_pos hd, Nat.mul_assoc]
  exact ⟨Iff.rfl, Iff.rfl⟩

theorem isNearest_of_round {num : Nat} (hd : 0 < den) {p : Nat} (h : round num den = some p) :
    p < infinity ∧ IsNearest (num / den) p := by
  have hlow := value_floorPattern_le num hd
  have hhigh := lt_value_floorPattern_succ num hd
  obtain ⟨hless, hmore⟩ := twice_lt_iff num hd (floorPattern num den)
  rw [round] at h
  simp only [← hless, ← hmore, Option.ite_none_right_eq_some, Option.some_inj] at h
  generalize floorPattern num den = r at *
  obtain ⟨hfinite, rfl⟩ := h
  refine ⟨hfinite, ?_⟩
  split_ifs at hfinite ⊢ with hbelow habove
  · exact isNearest_below hlow hbelow.le fun heq => absurd heq hbelow.ne
  · exact isNearest_above (hhigh (by omega)).le habove.le fun heq => absurd heq habove.ne'
  · rcases Nat.mod_two_eq_zero_or_one r with heven | hodd
    · rw [heven, Nat.add_zero]
      exact isNearest_below hlow (not_lt.mp habove) fun _ => heven
    · rw [hodd] at hfinite ⊢
      exact isNearest_above (hhigh (by omega)).le (not_lt.mp hbelow) fun _ => by omega

end

end Binary32

namespace Decimal

theorem scaled_eq_zpow (base n : Nat) (e : Int) :
    ((scaled base n e).1 : ℚ) / (scaled base n e).2 = n * (base : ℚ) ^ e := by
  unfold scaled
  split
  · rename_i he
    obtain ⟨k, rfl⟩ := Int.eq_ofNat_of_zero_le he
    rw [Int.toNat_natCast, Nat.pow_eq, Nat.cast_one, div_one, Nat.cast_mul, Nat.cast_pow,
      zpow_natCast]
  · rename_i he
    obtain ⟨k, rfl⟩ : ∃ k : Nat, e = -k := ⟨(-e).toNat, by omega⟩
    rw [neg_neg, Int.toNat_natCast, Nat.pow_eq, Nat.cast_pow, zpow_neg, zpow_natCast,
      div_eq_mul_inv]

theorem isNearest_of_roundScaled {n p : Nat} {e : Int} (h : roundScaled 10 n e = some p) :
    Binary32.IsNearest (n * 10 ^ e) p := by
  have hnearest := (Binary32.isNearest_of_round (scaled_den_pos n e) h).2
  rwa [scaled_eq_zpow, Nat.cast_ofNat] at hnearest

end Decimal

namespace FloatText

open Binary32 Decimal

/-- A numeral in decimal digits, and its exact value. -/
def IsNumeral (s : Bytes) (q : ℚ) : Prop :=
  ∃ w f e, s = numeralText w f e ∧ w ≠ [] ∧ AreDigits w ∧ AreDigits (f.getD []) ∧
    q = digitsValue 0 (w ++ f.getD []) * 10 ^ (e.getD 0 - (f.getD []).length)

theorem exists_numeral {s : Bytes} {d : Decimal} (h : d.Spells s) {p : Nat}
    (hround : d.round = some p) : ∃ q, IsNumeral s q ∧ IsNearest q p := by
  obtain ⟨w, f, e, htext, hw, hne, hf, -, hvalue⟩ := h
  rw [hround] at hvalue
  exact ⟨_, ⟨w, f, e, htext, hne, hw, hf, rfl⟩, isNearest_of_roundScaled hvalue⟩

theorem float_eq_ok {s : Bytes} {bits : UInt32} (h : parse s = .ok bits) :
    Operand.float s = .ok bits := by
  rw [Operand.float, h]
  rfl

theorem settled_of_not_isNaN {bits : UInt32} (h : ¬ IsNaN bits) : settled bits = bits :=
  if_neg h

theorem component_of_isNaN {bits : UInt32} (h : IsNaN bits) : component bits = text "NaN" := by
  rw [component, general]
  simp only [if_pos (show infinity < magnitude bits from h)]

theorem scalar_of_isNaN {bits : UInt32} (h : IsNaN bits) : scalar bits = text "NaN" := by
  rw [scalar_eq_general (Nat.lt_asymm h)]
  exact component_of_isNaN h

/-- The text of a number is read back as the same bits, and that of a NaN as the one NaN there is
to read. What is written for a finite number is its sign and a numeral to which it is nearest. -/
theorem float_text (bits : UInt32) :
    (¬ IsNaN bits → Operand.float (scalar bits) = .ok bits ∧
      Operand.float (component bits) = .ok bits) ∧
    (IsNaN bits → scalar bits = text "NaN" ∧ component bits = text "NaN") ∧
    Operand.float (text "NaN") = .ok nan ∧ IsNaN nan ∧
    (IsFinite bits → ∀ s ∈ [scalar bits, component bits], ∃ body q,
      s = sign bits ++ body ∧ IsNumeral body q ∧ IsNearest q (magnitude bits)) := by
  refine ⟨?_, ?_, ?_, by decide, ?_⟩
  · intro h
    have hscalar := parse_scalar bits
    have hcomponent := parse_component bits
    rw [settled_of_not_isNaN h] at hscalar hcomponent
    exact ⟨float_eq_ok hscalar, float_eq_ok hcomponent⟩
  · exact fun h => ⟨scalar_of_isNaN h, component_of_isNaN h⟩
  · have hnan : IsNaN nan := by decide
    have hsettled : settled nan = nan := if_pos hnan
    have hread := parse_component nan
    rw [component_of_isNaN hnan, hsettled] at hread
    exact float_eq_ok hread
  · intro h s hs
    have hround := round_shortest h
    obtain ⟨body, rfl, hspells⟩ : ∃ body, s = sign bits ++ body ∧
        (shortest (magnitude bits)).Spells body := by
      rcases List.mem_cons.mp hs with rfl | hs
      · exact exists_spells_scalar h
      · rw [List.mem_singleton.mp hs]
        exact exists_spells_general h
    obtain ⟨q, hnumeral, hnearest⟩ := exists_numeral hspells hround
    exact ⟨body, q, rfl, hnumeral, hnearest⟩

/-- The smallest number, the negative zero and a NaN with a payload. -/
theorem float_text_extremes :
    (Operand.float (scalar 0x00000001) = .ok 0x00000001) ∧
      (Operand.float (component 0x80000000) = .ok 0x80000000) ∧
      (scalar 0xFF800001 = text "NaN") ∧
      ∃ body q, component 0x00000001 = sign 0x00000001 ++ body ∧ IsNumeral body q ∧
        IsNearest q (magnitude 0x00000001) := by
  have hsmall := float_text 0x00000001
  refine ⟨(hsmall.1 (by decide)).1, ((float_text 0x80000000).1 (by decide)).2,
    ((float_text 0xFF800001).2.1 (by decide)).1, ?_⟩
  exact hsmall.2.2.2.2 (by decide) _ (List.mem_cons_of_mem _ List.mem_cons_self)

end FloatText
end ScriptCodec
