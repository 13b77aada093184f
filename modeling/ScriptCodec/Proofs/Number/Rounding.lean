import Mathlib.Algebra.Order.Ring.Nat
import Mathlib.Tactic.Linarith
import Mathlib.Tactic.NormNum
import Mathlib.Tactic.Positivity
import Mathlib.Tactic.Ring
import ScriptCodec.Number.FloatText
import ScriptCodec.Proofs.Outcome

/-!
Rounding to single precision. The magnitudes of the patterns grow with the pattern, a quotient is
rounded by its value alone, and a magnitude rounds to its own pattern. Hence the shortest decimal
of a pattern rounds to the pattern, and that of a whole magnitude is whole.
-/
namespace ScriptCodec

namespace Binary32

theorem unitScale_pos : 0 < unitScale := Nat.pow_pos (by decide)

theorem units_of_exponent_zero {p : Nat} (h : p < 0x800000) : units p = p := by
  simp only [units, Nat.div_eq_of_lt h, Nat.mod_eq_of_lt h, if_true]

theorem units_of_exponent_succ (e : Nat) {f : Nat} (hf : f < 0x800000) :
    units ((e + 1) * 0x800000 + f) = (0x800000 + f) * 2 ^ e := by
  have hdiv : ((e + 1) * 0x800000 + f) / 0x800000 = e + 1 := by omega
  have hmod : ((e + 1) * 0x800000 + f) % 0x800000 = f := by omega
  simp only [units, hdiv, hmod, Nat.add_sub_cancel, Nat.pow_eq]
  rw [if_neg (by omega)]

/-- A pattern is its fraction alone, or a biased exponent with its fraction. -/
theorem pattern_cases (p : Nat) :
    p < 0x800000 ∨ ∃ e f, f < 0x800000 ∧ p = (e + 1) * 0x800000 + f := by
  by_cases h : p < 0x800000
  · exact Or.inl h
  · exact Or.inr ⟨p / 0x800000 - 1, p % 0x800000, by omega, by omega⟩

theorem units_lt_units_succ (p : Nat) : units p < units (p + 1) := by
  rcases pattern_cases p with h | ⟨e, f, hf, rfl⟩
  · by_cases h' : p + 1 < 0x800000
    · rw [units_of_exponent_zero h, units_of_exponent_zero h']
      omega
    · have hp : p + 1 = (0 + 1) * 0x800000 + 0 := by omega
      rw [units_of_exponent_zero h, hp, units_of_exponent_succ 0 (by omega)]
      omega
  · have hpow : 0 < 2 ^ e := Nat.two_pow_pos e
    by_cases h' : f + 1 < 0x800000
    · rw [units_of_exponent_succ e hf, Nat.add_assoc, units_of_exponent_succ e h']
      exact Nat.mul_lt_mul_of_pos_right (by omega) hpow
    · have hp : (e + 1) * 0x800000 + f + 1 = (e + 1 + 1) * 0x800000 + 0 := by omega
      rw [units_of_exponent_succ e hf, hp, units_of_exponent_succ (e + 1) (by omega), Nat.pow_succ]
      have hlt := Nat.mul_lt_mul_of_pos_right (show 0x800000 + f < 0x800000 * 2 by omega) hpow
      linarith

theorem patternBelow_units (p : Nat) : patternBelow (units p) = p := by
  rcases pattern_cases p with h | ⟨e, f, hf, rfl⟩
  · rw [units_of_exponent_zero h, patternBelow, if_pos (by omega)]
  · rw [units_of_exponent_succ e hf, patternBelow]
    have hpow : 0 < 2 ^ e := Nat.two_pow_pos e
    rcases Nat.eq_zero_or_pos e with rfl | he
    · rw [if_pos (by omega)]
      omega
    · have hlarge : 0x1000000 ≤ (0x800000 + f) * 2 ^ e := by
        have htwo : 2 ^ 1 ≤ 2 ^ e := Nat.pow_le_pow_right (by decide) he
        have := Nat.mul_le_mul (show 0x800000 ≤ 0x800000 + f by omega) htwo
        omega
      have hlog : Nat.log2 ((0x800000 + f) * 2 ^ e) = 23 + e := by
        have hlow : 2 ^ (23 + e) ≤ (0x800000 + f) * 2 ^ e := by
          rw [Nat.pow_add]
          exact Nat.mul_le_mul_right _ (by omega)
        have hhigh : (0x800000 + f) * 2 ^ e < 2 ^ (23 + e + 1) := by
          rw [show 23 + e + 1 = 24 + e by omega, Nat.pow_add]
          exact Nat.mul_lt_mul_of_pos_right (by omega) hpow
        have hne : (0x800000 + f) * 2 ^ e ≠ 0 := by omega
        exact Nat.le_antisymm (Nat.lt_succ_iff.mp ((Nat.log2_lt hne).mpr hhigh))
          ((Nat.le_log2 hne).mpr hlow)
      rw [if_neg (by omega)]
      simp only [hlog, Nat.add_sub_cancel_left, Nat.pow_eq, Nat.mul_div_cancel _ hpow]
      omega

theorem units_lt {p : Nat} (hp : p < infinity) : units p < 10 ^ 84 := by
  have hinf : infinity = 0x7F800000 := rfl
  rcases pattern_cases p with h | ⟨e, f, hf, rfl⟩
  · rw [units_of_exponent_zero h]
    exact h.trans (by norm_num)
  · rw [units_of_exponent_succ e hf]
    have hfrac : 0x800000 + f ≤ 2 ^ 24 := by omega
    have hpow : 2 ^ e ≤ 2 ^ 253 := Nat.pow_le_pow_right (by decide) (by omega)
    calc (0x800000 + f) * 2 ^ e ≤ 2 ^ 24 * 2 ^ 253 := Nat.mul_le_mul hfrac hpow
      _ < 10 ^ 84 := by norm_num

theorem units_eq_zero_iff {p : Nat} : units p = 0 ↔ p = 0 := by
  constructor
  · intro h
    have hp := patternBelow_units p
    rw [h] at hp
    exact hp.symm
  · rintro rfl
    rfl

theorem round_scale (num den : Nat) {k : Nat} (hk : 0 < k) :
    round (num * k) (den * k) = round num den := by
  have hfloor : floorPattern (num * k) (den * k) = floorPattern num den := by
    unfold floorPattern
    rw [show num * k * unitScale = num * unitScale * k by ring, Nat.mul_div_mul_right _ _ hk]
  have htwice : 2 * (num * k * unitScale) = 2 * (num * unitScale) * k := by ring
  have hmiddle (a : Nat) : a * (den * k) = a * den * k := (Nat.mul_assoc a den k).symm
  have hlt {a b : Nat} : a * k < b * k ↔ a < b := Nat.mul_lt_mul_right hk
  simp only [round, hfloor, htwice, hmiddle, hlt]

/-- Rounding looks at the value of a quotient, not at its terms. -/
theorem round_eq_of_cross {num den num' den' : Nat} (hd : 0 < den) (hd' : 0 < den')
    (h : num * den' = num' * den) : round num den = round num' den' := by
  rw [← round_scale num den hd', ← round_scale num' den' hd, h, Nat.mul_comm den den']

theorem round_units {p : Nat} (hp : p < infinity) : round (units p) unitScale = some p := by
  have hfloor : floorPattern (units p) unitScale = p := by
    rw [floorPattern, Nat.mul_div_cancel _ unitScale_pos, patternBelow_units]
    exact Nat.min_eq_right (Nat.le_of_lt hp)
  have hlt : 2 * (units p * unitScale) < (units p + units (p + 1)) * unitScale := by
    have hsucc := Nat.mul_lt_mul_of_pos_right (units_lt_units_succ p) unitScale_pos
    linarith
  simp only [round, hfloor, if_pos hlt, if_pos hp]

end Binary32

namespace Decimal

open Binary32

def Denotes (d : Decimal) (num den : Nat) : Prop :=
  (scaled 10 d.digits d.exponent).1 * den = num * (scaled 10 d.digits d.exponent).2

theorem scaled_den_pos (n : Nat) (e : Int) : 0 < (scaled 10 n e).2 := by
  unfold scaled
  split
  · exact Nat.one_pos
  · exact Nat.pow_pos (by decide)

theorem round_of_denotes {d : Decimal} {num den : Nat} (hd : 0 < den) (h : d.Denotes num den) :
    d.round = Binary32.round num den :=
  round_eq_of_cross (scaled_den_pos _ _) hd h

theorem ten_pow_eq (k : Nat) : 10 ^ k = 5 ^ k * 2 ^ k := by rw [← Nat.mul_pow]

theorem scaled_neg (n k : Nat) (hk : 0 < k) : scaled 10 n (-(k : Int)) = (n, 10 ^ k) := by
  unfold scaled
  rw [if_neg (by omega), Int.neg_neg, Int.toNat_natCast, Nat.pow_eq]

theorem exact_denotes (p : Nat) : (exact p).Denotes (units p) unitScale := by
  have hscaled := scaled_neg (units p * Nat.pow 5 149) 149 (by decide)
  change (scaled 10 (units p * Nat.pow 5 149) (-((149 : Nat) : Int))).1 * unitScale =
    units p * (scaled 10 (units p * Nat.pow 5 149) (-((149 : Nat) : Int))).2
  rw [hscaled, ten_pow_eq]
  exact Nat.mul_assoc _ _ _

theorem round_exact {p : Nat} (hp : p < infinity) : (exact p).round = some p := by
  rw [round_of_denotes unitScale_pos (exact_denotes p), round_units hp]

theorem neighbour_cases {n : Nat} {e : Int} {near : Ordering} {below above : Bool} {d : Decimal}
    (h : neighbour n e near below above = some d) :
    d = ⟨n, e⟩ ∧ below = true ∨ d = ⟨n + 1, e⟩ ∧ above = true := by
  unfold neighbour at h
  grind

theorem onGrid_cases {p : Nat} {e : Int} {d : Decimal} (h : onGrid p e = some d) :
    readsBack p d = true ∧ d.exponent = e ∧
      (d.digits = stepsBelow p e ∨ d.digits = stepsBelow p e + 1) := by
  unfold onGrid at h
  rcases neighbour_cases h with ⟨rfl, hread⟩ | ⟨rfl, hread⟩
  · exact ⟨hread, rfl, Or.inl rfl⟩
  · exact ⟨hread, rfl, Or.inr rfl⟩

/-- What `shortest` can be: zero, the first grid point that reads back, or the exact value. -/
theorem shortest_cases (p : Nat) :
    p = 0 ∧ shortest p = ⟨0, 0⟩ ∨
    (∃ i : Nat, i < 9 ∧ onGrid p (leadingExponent p - (i : Int)) = some (shortest p) ∧
      ∀ j : Nat, j < i → onGrid p (leadingExponent p - (j : Int)) = none) ∨
    shortest p = exact p := by
  by_cases hp : p = 0
  · subst hp
    exact Or.inl ⟨rfl, rfl⟩
  · right
    have hu : units p ≠ 0 := fun h => hp (units_eq_zero_iff.mp h)
    rw [shortest, if_neg hu]
    dsimp only
    cases hfind : (List.range 9).findSome? fun i : Nat => onGrid p (leadingExponent p - (i : Int)) with
    | none => exact Or.inr rfl
    | some d =>
      left
      obtain ⟨front, i, back, hsplit, hi, hfront⟩ := List.findSome?_eq_some_iff.mp hfind
      have hlen : front.length < 9 := by
        have := congrArg List.length hsplit
        simp only [List.length_range, List.length_append, List.length_cons] at this
        omega
      have hget (j : Nat) (hj : j < 9) : (front ++ i :: back)[j]? = some j := by
        rw [← hsplit]
        simp [hj]
      have hi' : i = front.length := by
        have := hget front.length hlen
        simpa using this
      refine ⟨i, by omega, hi, ?_⟩
      intro j hj
      have hmem := hget j (by omega)
      rw [List.getElem?_append_left (by omega)] at hmem
      exact hfront j (List.mem_of_getElem? hmem)

theorem round_shortest {p : Nat} (hp : p < infinity) : (shortest p).round = some p := by
  rcases shortest_cases p with ⟨rfl, h⟩ | ⟨i, -, h, -⟩ | h
  · have hzero : (⟨0, 0⟩ : Decimal).Denotes (units 0) unitScale := by
      rw [Denotes, units_eq_zero_iff.mpr rfl, scaled, if_pos (Int.le_refl 0)]
      simp
    rw [h, round_of_denotes unitScale_pos hzero, round_units hp]
  · have hread := (onGrid_cases h).1
    simpa [readsBack] using hread
  · rw [h]
    exact round_exact hp

def IsWhole (d : Decimal) : Prop :=
  0 ≤ d.exponent ∨ 10 ^ (-d.exponent).toNat ∣ d.digits

theorem neighbour_ne_none (n : Nat) (e : Int) (near : Ordering) (above : Bool) :
    neighbour n e near true above ≠ none := by
  cases above <;> cases near <;> simp [neighbour]

theorem onGrid_zero_ne_none {p : Nat} (hp : p < infinity) (hunit : unitScale ∣ units p) :
    onGrid p 0 ≠ none := by
  obtain ⟨v, hv⟩ := hunit
  have hsteps : stepsBelow p 0 = v := by
    have hpow : unitScale * Nat.pow 10 (0 : Int).toNat = unitScale := Nat.mul_one _
    rw [stepsBelow, if_pos (Int.le_refl 0), hpow, hv, Nat.mul_div_cancel_left v unitScale_pos]
  have hdenotes : Denotes ⟨v, 0⟩ (units p) unitScale := by
    have hscaled : scaled 10 v 0 = (v, 1) := by simp [scaled]
    rw [Denotes, hscaled, hv, Nat.mul_one, Nat.mul_comm]
  have hread : readsBack p ⟨v, 0⟩ = true := by
    rw [readsBack, round_of_denotes unitScale_pos hdenotes, round_units hp]
    exact beq_self_eq_true _
  unfold onGrid
  dsimp only
  rw [hsteps, hread]
  exact neighbour_ne_none _ _ _ _

theorem stepsBelow_neg (p : Nat) {k : Nat} (hk : 0 < k) :
    stepsBelow p (-(k : Int)) = units p * 10 ^ k / unitScale := by
  rw [stepsBelow, if_neg (by omega), Int.neg_neg, Int.toNat_natCast, Nat.pow_eq]

theorem leadingExponent_nonneg {p : Nat} (hp : p ≠ 0) (hunit : unitScale ∣ units p) :
    0 ≤ leadingExponent p := by
  obtain ⟨v, hv⟩ := hunit
  have hpos : 0 < v := by
    apply Nat.pos_of_ne_zero
    rintro rfl
    exact hp (units_eq_zero_iff.mp hv)
  have hsteps : stepsBelow p (-46) = v * 10 ^ 46 := by
    have h := stepsBelow_neg p (show 0 < 46 by decide)
    rwa [hv, Nat.mul_assoc, Nat.mul_div_cancel_left _ unitScale_pos] at h
  have hlen : ¬ (Nat.toDigits 10 (v * 10 ^ 46)).length ≤ 46 := by
    rw [Nat.length_toDigits_le_iff (by decide) (by decide), Nat.not_lt]
    exact Nat.le_mul_of_pos_left _ hpos
  rw [leadingExponent, hsteps]
  omega

/-- The shortest decimal of a whole magnitude is whole: the grid of step one holds the magnitude
itself, so no finer grid is reached. -/
theorem isWhole_shortest {p : Nat} (hp : p < infinity) (hunit : unitScale ∣ units p) :
    (shortest p).IsWhole := by
  by_cases hzero : p = 0
  · subst hzero
    exact Or.inl (Int.le_refl 0)
  rcases shortest_cases p with ⟨h, -⟩ | ⟨i, -, h, hnone⟩ | h
  · exact absurd h hzero
  · left
    rw [(onGrid_cases h).2.1]
    by_contra hneg
    have hlead := leadingExponent_nonneg hzero hunit
    have hstep := hnone (leadingExponent p).toNat (by omega)
    rw [Int.toNat_of_nonneg hlead, Int.sub_self] at hstep
    exact onGrid_zero_ne_none hp hunit hstep
  · right
    obtain ⟨v, hv⟩ := hunit
    have hexp : (-(exact p).exponent).toNat = 149 := rfl
    have hscale : unitScale = 2 ^ 149 := Nat.pow_eq
    have hdigits : (exact p).digits = units p * 5 ^ 149 := rfl
    rw [h, hexp, hdigits, hv, hscale, ten_pow_eq]
    exact ⟨v, by ring⟩

theorem stepsBelow_le (p : Nat) (e : Int) : stepsBelow p e ≤ units p * 10 ^ (-e).toNat := by
  unfold stepsBelow
  split
  · rename_i he
    rw [show (-e).toNat = 0 by omega, Nat.pow_zero, Nat.mul_one]
    exact Nat.div_le_self _ _
  · exact Nat.div_le_self _ _

theorem leadingExponent_bounds {p : Nat} (hp : p < infinity) :
    -46 ≤ leadingExponent p ∧ leadingExponent p ≤ 83 := by
  have hpos := @Nat.length_toDigits_pos 10 (stepsBelow p (-46))
  have hsteps : stepsBelow p (-46) < 10 ^ 130 := by
    calc stepsBelow p (-46) ≤ units p * 10 ^ 46 := stepsBelow_le p (-46)
      _ < 10 ^ 84 * 10 ^ 46 := Nat.mul_lt_mul_of_pos_right (units_lt hp) (by norm_num)
      _ = 10 ^ 130 := by norm_num
  have hlen := (Nat.length_toDigits_le_iff (by decide) (by decide)).mpr hsteps
  unfold leadingExponent
  omega

theorem shortest_bounds {p : Nat} (hp : p < infinity) :
    (shortest p).digits < 10 ^ 234 ∧ -149 ≤ (shortest p).exponent ∧ (shortest p).exponent ≤ 83 := by
  rcases shortest_cases p with ⟨rfl, h⟩ | ⟨i, hi, h, -⟩ | h
  · rw [h]
    exact ⟨by norm_num, by decide, by decide⟩
  · obtain ⟨hlow, hhigh⟩ := leadingExponent_bounds hp
    obtain ⟨-, hexp, hdigits⟩ := onGrid_cases h
    have hsteps : stepsBelow p (leadingExponent p - i) < 10 ^ 138 := by
      have hpow : 10 ^ (-(leadingExponent p - (i : Int))).toNat ≤ 10 ^ 54 :=
        Nat.pow_le_pow_right (by decide) (by omega)
      calc stepsBelow p (leadingExponent p - i)
          ≤ units p * 10 ^ (-(leadingExponent p - (i : Int))).toNat := stepsBelow_le _ _
        _ ≤ units p * 10 ^ 54 := Nat.mul_le_mul_left _ hpow
        _ < 10 ^ 84 * 10 ^ 54 := Nat.mul_lt_mul_of_pos_right (units_lt hp) (by norm_num)
        _ = 10 ^ 138 := by norm_num
    have hlarge : 10 ^ 138 + 1 < 10 ^ 234 := by norm_num
    generalize 10 ^ 138 = small at *
    generalize 10 ^ 234 = large at *
    omega
  · have hdigits : (exact p).digits = units p * 5 ^ 149 := rfl
    have hexp : (exact p).exponent = -149 := rfl
    rw [h, hdigits, hexp]
    refine ⟨?_, by decide, by decide⟩
    calc units p * 5 ^ 149 < 10 ^ 84 * 5 ^ 149 :=
          Nat.mul_lt_mul_of_pos_right (units_lt hp) (by norm_num)
      _ < 10 ^ 234 := by norm_num

end Decimal
end ScriptCodec
