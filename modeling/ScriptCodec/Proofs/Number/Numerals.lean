import ScriptCodec.Number.Integer
import ScriptCodec.Module.Labels
import ScriptCodec.Proofs.Outcome

/-!
Integers and their numerals. Every number is read back from its decimal and from its hexadecimal
numeral when it is in range, and whatever is read is in range. Hence no two numbers share a
numeral.
-/
namespace ScriptCodec

namespace Number

def WritesDigits (base : Nat) (write : Char → UInt8) : Prop :=
  ∀ d < base, digitValue (write (Nat.digitChar d)) = some d

theorem writesDigits_decimal : WritesDigits 10 Char.toUInt8 := by
  unfold WritesDigits
  decide

theorem writesDigits_hex : WritesDigits 16 Text.upperDigit := by
  unfold WritesDigits
  decide

variable {base bound : Nat}

theorem addDigit_digit {write : Char → UInt8} (hw : WritesDigits base write) (value : Nat)
    {d : Nat} (hd : d < base) (hlt : value * base + d < bound) :
    addDigit base bound value (write (Nat.digitChar d)) = .ok (value * base + d) := by
  simp only [addDigit, hw d hd, if_neg (Nat.not_le.mpr hd), if_neg (Nat.not_le.mpr hlt)]

theorem foldlM_digits {write : Char → UInt8} (hw : WritesDigits base write) (hb : 1 < base)
    {n : Nat} (hn : n < bound) :
    ((Nat.toDigits base n).map write).foldlM (addDigit base bound) 0 = .ok n := by
  induction n using Nat.strongRecOn with
  | ind n ih =>
    rw [Nat.toDigits_eq_if hb]
    by_cases hlt : n < base
    · have hdigit := addDigit_digit hw 0 hlt (show 0 * base + n < bound by omega)
      rw [if_pos hlt, List.map_singleton, List.foldlM_cons, hdigit]
      simp [bind, Except.bind, pure, Except.pure]
    · have hquot : n / base < n := Nat.div_lt_self (by omega) hb
      have hsplit : n / base * base + n % base = n := Nat.div_add_mod' n base
      have hdigit := addDigit_digit hw (n / base) (Nat.mod_lt n (by omega))
        (show n / base * base + n % base < bound by omega)
      rw [if_neg hlt, List.map_append, List.foldlM_append, ih _ hquot (by omega)]
      simp only [bind, Except.bind, List.map_singleton, List.foldlM_cons, hdigit, hsplit,
        List.foldlM_nil, pure, Except.pure]

theorem magnitude_digits {write : Char → UInt8} (hw : WritesDigits base write) (hb : 1 < base)
    {n : Nat} (hn : n < bound) :
    magnitude base bound ((Nat.toDigits base n).map write) = .ok n := by
  have hne : ((Nat.toDigits base n).map write).isEmpty = false := by
    simp [List.isEmpty_eq_false_iff, Nat.toDigits_ne_nil]
  simp only [magnitude, hne, Bool.false_eq_true, if_false, foldlM_digits hw hb hn]

theorem addDigit_lt {value n : Nat} {b : UInt8} (h : addDigit base bound value b = .ok n) :
    n < bound := by
  unfold addDigit at h
  grind

theorem foldlM_addDigit_lt {s : Bytes} {value n : Nat} (hv : value < bound)
    (h : s.foldlM (addDigit base bound) value = .ok n) : n < bound := by
  induction s generalizing value with
  | nil =>
    simp only [List.foldlM_nil, Except.pure_eq_ok_iff] at h
    omega
  | cons b s ih =>
    simp only [List.foldlM_cons, Except.andThen_eq_ok_iff] at h
    obtain ⟨next, hnext, h⟩ := h
    exact ih (addDigit_lt hnext) h

theorem magnitude_lt {s : Bytes} {n : Nat} (hb : 0 < bound) (h : magnitude base bound s = .ok n) :
    n < bound := by
  unfold magnitude at h
  split at h
  · cases h
  · exact foldlM_addDigit_lt hb h

theorem decimal_ne_nil (n : Nat) : Text.decimal n ≠ [] := by
  simp [Text.decimal, Nat.toDigits_ne_nil]

theorem hex_ne_nil (n : Nat) : Text.hex n ≠ [] := by
  simp [Text.hex, Nat.toDigits_ne_nil]

theorem width_natCast {bits : Nat} (hpos : 0 < bits) (hle : bits ≤ 64) :
    width bits = .ok bits := by
  have hmax : (maxWidth : Int) = 64 := rfl
  unfold width
  rw [if_neg (by omega), if_neg (by omega), Int.toNat_natCast]

theorem eq_of_width_natCast {bits w : Nat} (hpos : 0 < bits) (h : width bits = .ok w) :
    w = bits := by
  unfold width at h
  rw [if_neg (by omega)] at h
  split at h
  · cases h
  · simpa [eq_comm] using h

theorem unsigned_of_magnitude {bits : Nat} (hpos : 0 < bits) (hle : bits ≤ 64) {s : Bytes}
    (hs : s ≠ []) {n : Nat} (h : magnitude base (2 ^ bits) s = .ok n) :
    unsigned base bits s = .ok n := by
  have hempty : s.isEmpty = false := by simpa using hs
  simp only [unsigned, hempty, Bool.false_eq_true, if_false, width_natCast hpos hle,
    Except.bind, Except.mapError_eq_ok_iff]
  exact h

theorem unsigned_decimal {bits n : Nat} (hpos : 0 < bits) (hle : bits ≤ 64) (hn : n < 2 ^ bits) :
    unsigned 10 bits (Text.decimal n) = .ok n :=
  unsigned_of_magnitude hpos hle (decimal_ne_nil n)
    (magnitude_digits writesDigits_decimal (by decide) hn)

theorem unsigned_hex {bits n : Nat} (hpos : 0 < bits) (hle : bits ≤ 64) (hn : n < 2 ^ bits) :
    unsigned 16 bits (Text.hex n) = .ok n :=
  unsigned_of_magnitude hpos hle (hex_ne_nil n)
    (magnitude_digits writesDigits_hex (by decide) hn)

theorem unsigned_lt {bits : Nat} (hpos : 0 < bits) {s : Bytes} {n : Nat}
    (h : unsigned base bits s = .ok n) : n < 2 ^ bits := by
  simp only [unsigned, Except.mapError_eq_ok_iff] at h
  split at h
  · cases h
  · simp only [Except.bind_eq_ok_iff] at h
    obtain ⟨w, hw, h⟩ := h
    rw [eq_of_width_natCast hpos hw] at h
    exact magnitude_lt (Nat.two_pow_pos bits) h

theorem digit_bounds {b : Nat} (hb : b ≤ 10) (hpos : 0 < b) {n : Nat} {c : UInt8}
    (hc : c ∈ (Nat.toDigits b n).map Char.toUInt8) : 0x30 ≤ c ∧ c ≤ 0x39 := by
  obtain ⟨ch, hch, rfl⟩ := List.mem_map.mp hc
  have hdigit := Nat.isDigit_of_mem_toDigits hpos hb hch
  simp only [Char.isDigit, Bool.and_eq_true, decide_eq_true_eq] at hdigit
  have hlow : (48 : UInt32).toNat ≤ ch.val.toNat := hdigit.1
  have hhigh : ch.val.toNat ≤ (57 : UInt32).toNat := hdigit.2
  have hval : (Char.toUInt8 ch).toNat = ch.val.toNat % 256 := rfl
  constructor
  · apply UInt8.le_iff_toNat_le.mpr
    rw [hval]
    change 48 ≤ _
    change 48 ≤ _ at hlow
    change _ ≤ 57 at hhigh
    omega
  · apply UInt8.le_iff_toNat_le.mpr
    rw [hval]
    change _ ≤ 57
    change _ ≤ 57 at hhigh
    omega

theorem decimal_digit {n : Nat} {c : UInt8} (hc : c ∈ Text.decimal n) : 0x30 ≤ c ∧ c ≤ 0x39 :=
  digit_bounds (by decide) (by decide) hc

theorem splitSign_of_digit {s : Bytes} (hs : ∀ c ∈ s, 0x30 ≤ c ∧ c ≤ 0x39) :
    splitSign s = (false, s) := by
  match s with
  | [] => rfl
  | c :: rest =>
    have hc := (hs c List.mem_cons_self).1
    unfold splitSign
    split
    · rename_i heq
      simp only [List.cons.injEq] at heq
      rw [heq.1] at hc
      exact absurd hc (by decide)
    · rename_i heq
      simp only [List.cons.injEq] at heq
      rw [heq.1] at hc
      exact absurd hc (by decide)
    · rfl

theorem signed_decimalInt {n : Int} (hlow : -2 ^ 31 ≤ n) (hhigh : n < 2 ^ 31) :
    signed 32 (Text.decimalInt n) = .ok n := by
  have hmag : magnitude 10 (Nat.pow 2 32) (Text.decimal n.natAbs) = .ok n.natAbs :=
    magnitude_digits writesDigits_decimal (by decide) (show n.natAbs < 2 ^ 32 by omega)
  unfold Text.decimalInt
  by_cases hneg : n < 0
  · have hsign : withSign 32 true n.natAbs = .ok n := by
      have hfit : ¬ Nat.pow 2 (32 - 1) < n.natAbs := by
        change ¬ 2 ^ 31 < n.natAbs
        omega
      simp only [withSign, if_true, if_neg hfit, Except.ok.injEq]
      omega
    simp only [if_pos hneg, signed, splitSign, hmag, Except.bind, hsign, Except.mapError]
  · have hsign : withSign 32 false n.natAbs = .ok n := by
      have hfit : ¬ Nat.pow 2 (32 - 1) ≤ n.natAbs := by
        change ¬ 2 ^ 31 ≤ n.natAbs
        omega
      simp only [withSign, Bool.false_eq_true, if_false, if_neg hfit, Except.ok.injEq]
      omega
    simp only [if_neg hneg, signed, splitSign_of_digit fun _ => decimal_digit, hmag, Except.bind,
      hsign, Except.mapError]

theorem signed_bounds {s : Bytes} {n : Int} (h : signed 32 s = .ok n) :
    -2 ^ 31 ≤ n ∧ n < 2 ^ 31 := by
  simp only [signed, Except.mapError_eq_ok_iff, Except.bind_eq_ok_iff] at h
  obtain ⟨v, -, h⟩ := h
  have hhalf : Nat.pow 2 (32 - 1) = 2 ^ 31 := rfl
  simp only [withSign, hhalf] at h
  split at h
  · split at h
    · cases h
    · simp only [Except.ok.injEq] at h
      omega
  · split at h
    · cases h
    · simp only [Except.ok.injEq] at h
      omega

theorem hex_injective {a b : Nat} (h : Text.hex a = Text.hex b) : a = b := by
  have hread (n : Nat) (hn : n ≤ max a b) :
      magnitude 16 (max a b + 1) (Text.hex n) = .ok n :=
    magnitude_digits writesDigits_hex (by decide) (by omega)
  have ha := hread a (by omega)
  rw [h, hread b (by omega)] at ha
  simpa [eq_comm] using ha

end Number

namespace Labels

theorem nameOf_injective {a b : UInt32} (h : nameOf a = nameOf b) : a = b :=
  UInt32.toNat_inj.mp (Number.hex_injective (List.append_cancel_left h))

end Labels
end ScriptCodec
