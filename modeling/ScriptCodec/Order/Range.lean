/-!
Small steps on a range `[start, stop)` of an array: comparing, moving single elements, and the two
sorts that need no pivot. A position past the end is less than nothing and is never moved.
-/
namespace ScriptCodec.Order

section

variable {α : Type} (less : α → α → Bool)

def before (xs : Array α) (i j : Nat) : Bool :=
  match xs[i]?, xs[j]? with
  | some x, some y => less x y
  | _, _ => false

def sink (start : Nat) : Nat → Array α → Array α
  | 0, xs => xs
  | i + 1, xs =>
    if start ≤ i && before less xs (i + 1) i then sink start i (xs.swapIfInBounds (i + 1) i) else xs

def rise : Nat → Nat → Array α → Array α
  | 0, _, xs => xs
  | count + 1, i, xs =>
    if before less xs i (i - 1) then rise count (i + 1) (xs.swapIfInBounds i (i - 1)) else xs

def insertionSort (start stop : Nat) (xs : Array α) : Array α :=
  (List.range' (start + 1) (stop - start - 1)).foldl (fun xs i => sink less start i xs) xs

def siftDown (start count : Nat) : Nat → Nat → Array α → Array α
  | 0, _, xs => xs
  | fuel + 1, root, xs =>
    let child := 2 * root + 1
    if count ≤ child then xs
    else
      let child :=
        if child + 1 < count && before less xs (start + child) (start + child + 1) then child + 1
        else child
      if before less xs (start + root) (start + child) then
        siftDown start count fuel child (xs.swapIfInBounds (start + root) (start + child))
      else xs

def heapSort (start stop : Nat) (xs : Array α) : Array α :=
  let count := stop - start
  let heap := (List.range ((count - 1) / 2 + 1)).reverse.foldl
    (fun xs i => siftDown less start count count i xs) xs
  (List.range count).reverse.foldl
    (fun xs i => siftDown less start i i 0 (xs.swapIfInBounds start (start + i))) heap

end

def reverseRange {α : Type} (start stop : Nat) (xs : Array α) : Array α :=
  (List.range ((stop - start) / 2)).foldl
    (fun xs i => xs.swapIfInBounds (start + i) (stop - 1 - i)) xs

/-- The first position from `i` to `last` at which a test fails, `last + 1` if it holds at all. -/
def scanUp (test : Nat → Bool) (i last : Nat) : Nat :=
  if i ≤ last && test i then scanUp test (i + 1) last else i
termination_by last + 1 - i
decreasing_by
  rename_i h
  simp only [Bool.and_eq_true, decide_eq_true_eq] at h
  omega

def scanDown (test : Nat → Bool) (first : Nat) : Nat → Nat
  | 0 => 0
  | i + 1 => if first ≤ i + 1 && test (i + 1) then scanDown test first i else i + 1

end ScriptCodec.Order
