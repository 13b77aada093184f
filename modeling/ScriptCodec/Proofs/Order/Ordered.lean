import ScriptCodec.Order.Quicksort

/-!
Sorting what is in order. The sort compares later elements with earlier ones, so where no later
element is less than an earlier one it moves nothing: a short list passes all insertions, and a long
one looks rising and is found settled at once.
-/
namespace ScriptCodec.Order

section

variable {α : Type} {less : α → α → Bool} {xs : Array α}

def IsOrdered (less : α → α → Bool) (xs : Array α) : Prop :=
  ∀ i j, i < j → before less xs j i = false

theorem isOrdered_toArray {xs : List α} (h : xs.Pairwise fun a b => less b a = false) :
    IsOrdered less xs.toArray := by
  intro i j hij
  rw [before]
  split
  · rename_i y x hy hx
    rw [List.getElem?_toArray, List.getElem?_eq_some_iff] at hx hy
    obtain ⟨hi, rfl⟩ := hx
    obtain ⟨hj, rfl⟩ := hy
    exact List.pairwise_iff_getElem.mp h i j hi hj hij
  · rfl

theorem IsOrdered.sink (h : IsOrdered less xs) (start i : Nat) : sink less start i xs = xs := by
  cases i with
  | zero => rfl
  | succ i => rw [Order.sink, h i (i + 1) (Nat.lt_succ_self i), Bool.and_false, if_neg (by simp)]

theorem IsOrdered.insertionSort (h : IsOrdered less xs) (start stop : Nat) :
    insertionSort less start stop xs = xs := by
  unfold Order.insertionSort
  induction List.range' (start + 1) (stop - start - 1) with
  | nil => rfl
  | cons i is ih => rw [List.foldl_cons, h.sink, ih]

theorem IsOrdered.median (h : IsOrdered less xs) {i j k : Nat} (hij : i < j) (hjk : j < k)
    (swaps : Nat) : median less xs i j k swaps = ⟨j, swaps⟩ := by
  simp only [Order.median, ordered, h i j hij, h j k hjk, Bool.false_eq_true, if_false]

theorem IsOrdered.medianAround (h : IsOrdered less xs) {i : Nat} (hi : 0 < i) (swaps : Nat) :
    medianAround less xs i swaps = ⟨i, swaps⟩ :=
  h.median (by omega) (by omega) swaps

theorem IsOrdered.choosePivot (h : IsOrdered less xs) {start stop : Nat}
    (hlong : shortLength < stop - start) : (choosePivot less xs start stop).2 = .rising := by
  have hshort : shortLength = 12 := rfl
  unfold Order.choosePivot
  simp only [h.medianAround (show 0 < start + (stop - start) / 4 by omega),
    h.medianAround (show 0 < start + (stop - start) / 4 * 2 by omega),
    h.medianAround (show 0 < start + (stop - start) / 4 * 3 by omega), ite_self]
  rw [h.median (by omega) (by omega)]
  rfl

theorem scanUp_of_forall {test : Nat → Bool} {i last : Nat} (hi : i ≤ last + 1)
    (h : ∀ k, i ≤ k → test k = true) : scanUp test i last = last + 1 := by
  fun_induction scanUp test i last with
  | case1 i hstep ih =>
    rw [Bool.and_eq_true, decide_eq_true_eq] at hstep
    exact ih (by omega) fun k hk => h k (by omega)
  | case2 i hstop =>
    rw [h i (Nat.le_refl i), Bool.and_true, decide_eq_true_eq] at hstop
    omega

theorem IsOrdered.settle (h : IsOrdered less xs) {start stop : Nat} (hlt : start < stop)
    (steps : Nat) : settle less start stop (steps + 1) (start + 1) xs = (true, xs) := by
  have hscan : scanUp (fun i => !before less xs i (i - 1)) (start + 1) (stop - 1) = stop := by
    rw [scanUp_of_forall (by omega)]
    · omega
    · intro k hk
      rw [h (k - 1) k (by omega)]
      rfl
  unfold Order.settle
  simp only [hscan, if_true]

theorem IsOrdered.sortRange (h : IsOrdered less xs) (fuel start stop : Nat) {limit : Nat}
    (hlimit : limit ≠ 0) :
    sortRange less (fuel + 1) start stop limit true true xs = xs := by
  rw [Order.sortRange]
  by_cases hshort : stop - start ≤ shortLength
  · simp only [if_pos hshort, h.insertionSort]
  · have hrising := h.choosePivot (Nat.not_le.mp hshort)
    have hsettled := h.settle (show start < stop by omega) (maxShifts - 1)
    have hshifts : maxShifts - 1 + 1 = maxShifts := rfl
    rw [hshifts] at hsettled
    simp only [if_neg hshort, if_neg hlimit, if_true, hrising, Bool.and_self, reduceCtorEq,
      if_false, hsettled]
    rfl

theorem quicksort_of_pairwise {xs : List α} (h : xs.Pairwise fun a b => less b a = false) :
    quicksort less xs = xs := by
  cases xs with
  | nil => rfl
  | cons x xs =>
    have hlimit : bitLength (x :: xs).length ≠ 0 := by simp [bitLength]
    rw [quicksort, (isOrdered_toArray h).sortRange _ _ _ hlimit]

end
end ScriptCodec.Order
