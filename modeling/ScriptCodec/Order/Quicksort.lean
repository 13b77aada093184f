import ScriptCodec.Order.Range

/-!
Quicksort that guards against patterns. Short ranges are sorted by insertion, ranges that look
sorted are tried with a few insertions, a pivot that is not above the element before its range
splits off everything equal to it, and after a lopsided split some elements are scattered; too many
of those end in a heap sort. The order of equal elements depends on the whole input, but the steps
are fixed, so the same input always has the same result.
-/
namespace ScriptCodec.Order

def shortLength : Nat := 12

/-- From this length on the pivot is a median of medians, and single elements are shifted. -/
def longLength : Nat := 50

/-- How many elements out of order are shifted before a range is given up as unsorted. -/
def maxShifts : Nat := 5

inductive Trend where
  | rising
  | falling
  | unknown
deriving DecidableEq, Repr

/-- A position and how many of the comparisons on the way to it found a greater element first. -/
structure Probe where
  pos : Nat
  swaps : Nat

def bitLength (n : Nat) : Nat := if n = 0 then 0 else n.log2 + 1

def nextRandom (r : UInt64) : UInt64 :=
  let r := r ^^^ (r <<< 13)
  let r := r ^^^ (r >>> 7)
  r ^^^ (r <<< 17)

def scatterFrom {α : Type} (start length : Nat) (middle : Nat) :
    Nat → UInt64 → Array α → Array α
  | 0, _, xs => xs
  | count + 1, r, xs =>
    let r := nextRandom r
    let other := r.toNat % Nat.pow 2 (bitLength length)
    let other := if length ≤ other then other - length else other
    scatterFrom start length (middle + 1) count r (xs.swapIfInBounds middle (start + other))

def scatter {α : Type} (start stop : Nat) (xs : Array α) : Array α :=
  let length := stop - start
  scatterFrom start length (start + length / 4 * 2 - 1) 3 (UInt64.ofNat length) xs

section

variable {α : Type} (less : α → α → Bool)

def ordered (xs : Array α) (i j swaps : Nat) : Nat × Nat × Nat :=
  if before less xs j i then (j, i, swaps + 1) else (i, j, swaps)

def median (xs : Array α) (i j k swaps : Nat) : Probe :=
  let (i, j, swaps) := ordered less xs i j swaps
  let (j, _, swaps) := ordered less xs j k swaps
  let (_, j, swaps) := ordered less xs i j swaps
  ⟨j, swaps⟩

def medianAround (xs : Array α) (i swaps : Nat) : Probe := median less xs (i - 1) i (i + 1) swaps

def choosePivot (xs : Array α) (start stop : Nat) : Nat × Trend :=
  let length := stop - start
  let quarter := length / 4
  let i : Probe := ⟨start + quarter, 0⟩
  let j : Probe := ⟨start + quarter * 2, 0⟩
  let k : Probe := ⟨start + quarter * 3, 0⟩
  let long := longLength ≤ length
  let i := if long then medianAround less xs i.pos 0 else i
  let j := if long then medianAround less xs j.pos i.swaps else j
  let k := if long then medianAround less xs k.pos j.swaps else k
  let pivot := median less xs i.pos j.pos k.pos k.swaps
  (pivot.pos, if pivot.swaps = 0 then .rising else if pivot.swaps = 12 then .falling else .unknown)

/-- Shifts single elements into place; says whether the range is sorted then. -/
def settle (start stop : Nat) : Nat → Nat → Array α → Bool × Array α
  | 0, _, xs => (false, xs)
  | steps + 1, i, xs =>
    let i := scanUp (fun i => !before less xs i (i - 1)) i (stop - 1)
    if i = stop then (true, xs)
    else if stop - start < longLength then (false, xs)
    else
      let xs := xs.swapIfInBounds i (i - 1)
      let xs := if 2 ≤ i - start then sink less 0 (i - 1) xs else xs
      let xs := if 2 ≤ stop - i then rise less (stop - (i + 1)) (i + 1) xs else xs
      settle start stop steps i xs

structure Split (α : Type) where
  xs : Array α
  low : Nat
  high : Nat
  moved : Bool

def exchange (isLow isHigh : Array α → Nat → Bool) : Nat → Split α → Split α
  | 0, s => s
  | fuel + 1, s =>
    let low := scanUp (isLow s.xs) s.low s.high
    let high := scanDown (isHigh s.xs) low s.high
    if high < low then { s with low, high }
    else exchange isLow isHigh fuel ⟨s.xs.swapIfInBounds low high, low + 1, high - 1, true⟩

def partition (start stop pivot : Nat) (xs : Array α) : Nat × Bool × Array α :=
  let s := exchange (fun xs i => before less xs i start) (fun xs i => !before less xs i start)
    (stop - start) ⟨xs.swapIfInBounds start pivot, start + 1, stop - 1, false⟩
  (s.high, !s.moved, s.xs.swapIfInBounds s.high start)

/-- Splits a range without elements less than its pivot into those equal to it and the others. -/
def partitionEqual (start stop pivot : Nat) (xs : Array α) : Nat × Array α :=
  let s := exchange (fun xs i => !before less xs start i) (fun xs i => before less xs start i)
    (stop - start) ⟨xs.swapIfInBounds start pivot, start + 1, stop - 1, false⟩
  (s.low, s.xs)

/-- Sorts a range. `balanced` and `partitioned` tell of the split it comes from; every lopsided
split takes one from `limit`. -/
def sortRange : Nat → (start stop limit : Nat) → (balanced partitioned : Bool) → Array α → Array α
  | 0, _, _, _, _, _, xs => xs
  | fuel + 1, start, stop, limit, balanced, partitioned, xs =>
    let length := stop - start
    if length ≤ shortLength then insertionSort less start stop xs
    else if limit = 0 then heapSort less start stop xs
    else
      let limit := if balanced then limit else limit - 1
      let xs := if balanced then xs else scatter start stop xs
      let (pivot, trend) := choosePivot less xs start stop
      let (pivot, xs) :=
        if trend = .falling then (stop - 1 - (pivot - start), reverseRange start stop xs)
        else (pivot, xs)
      let (done, xs) :=
        if balanced && partitioned && trend != .unknown then
          settle less start stop maxShifts (start + 1) xs
        else (false, xs)
      if done then xs
      else if 0 < start && !before less xs (start - 1) pivot then
        let (mid, xs) := partitionEqual less start stop pivot xs
        sortRange fuel mid stop limit balanced partitioned xs
      else
        let (mid, already, xs) := partition less start stop pivot xs
        let left := mid - start
        let right := stop - mid
        if left < right then
          let xs := sortRange fuel start mid limit true true xs
          sortRange fuel (mid + 1) stop limit (length / 8 ≤ left) already xs
        else
          let xs := sortRange fuel (mid + 1) stop limit true true xs
          sortRange fuel start mid limit (length / 8 ≤ right) already xs

/-- The elements in ascending order. A range gets shorter with every split, so its length is fuel
enough. -/
def quicksort (xs : List α) : List α :=
  (sortRange less (xs.length + 1) 0 xs.length (bitLength xs.length) true true xs.toArray).toList

end
end ScriptCodec.Order
