import ScriptCodec.Text.Basic
import ScriptCodec.Number.Binary32

/-!
Decimal numerals with exact values, and the shortest one that reads back as a given
single-precision magnitude. The grids of 1, 2, … significant digits are tried in turn; on each
only the two neighbours of the value can round to it. Of two that do, the nearer is taken, and of
two equally near ones the even one. Nine digits always suffice; the exact expansion stands behind
them as the last resort.
-/
namespace ScriptCodec

/-- The number `digits * 10 ^ exponent`. -/
structure Decimal where
  digits : Nat
  exponent : Int
deriving DecidableEq, Repr

namespace Decimal

def scaled (base n : Nat) (e : Int) : Nat × Nat :=
  if 0 ≤ e then (n * Nat.pow base e.toNat, 1) else (n, Nat.pow base (-e).toNat)

def roundScaled (base n : Nat) (e : Int) : Option Nat :=
  Binary32.round (scaled base n e).1 (scaled base n e).2

def round (d : Decimal) : Option Nat := roundScaled 10 d.digits d.exponent

def readsBack (p : Nat) (d : Decimal) : Bool := d.round == some p

def stepsBelow (p : Nat) (e : Int) : Nat :=
  if 0 ≤ e then Binary32.units p / (Binary32.unitScale * Nat.pow 10 e.toNat)
  else Binary32.units p * Nat.pow 10 (-e).toNat / Binary32.unitScale

/-- The exponent of the leading decimal digit of a positive magnitude. No magnitude is below
`10 ^ -46`, so the digits of the whole number of such steps tell. -/
def leadingExponent (p : Nat) : Int := (Nat.toDigits 10 (stepsBelow p (-46))).length - 47

/-- Compares twice the distance of the value to `n` steps with one step. -/
def nearness (p n : Nat) (e : Int) : Ordering :=
  let value := 2 * Binary32.units p
  if 0 ≤ e then compare value ((2 * n + 1) * (Binary32.unitScale * Nat.pow 10 e.toNat))
  else compare (value * Nat.pow 10 (-e).toNat) ((2 * n + 1) * Binary32.unitScale)

def neighbour (n : Nat) (e : Int) (near : Ordering) (below above : Bool) : Option Decimal :=
  match below, above with
  | true, true =>
    match near with
    | .lt => some ⟨n, e⟩
    | .gt => some ⟨n + 1, e⟩
    | .eq => some (if n % 2 = 0 then ⟨n, e⟩ else ⟨n + 1, e⟩)
  | true, false => some ⟨n, e⟩
  | false, true => some ⟨n + 1, e⟩
  | false, false => none

def onGrid (p : Nat) (e : Int) : Option Decimal :=
  let n := stepsBelow p e
  neighbour n e (nearness p n e) (readsBack p ⟨n, e⟩) (readsBack p ⟨n + 1, e⟩)

/-- Every magnitude is a decimal: `u / 2^149 = u * 5^149 / 10^149`. -/
def exact (p : Nat) : Decimal := ⟨Binary32.units p * Nat.pow 5 149, -149⟩

/-- The shortest decimal that rounds to the pattern `p`. -/
def shortest (p : Nat) : Decimal :=
  if Binary32.units p = 0 then ⟨0, 0⟩
  else
    let lead := leadingExponent p
    ((List.range 9).findSome? fun (i : Nat) => onGrid p (lead - (i : Int))).getD (exact p)

def significant (d : Decimal) : Bytes :=
  if d.digits = 0 then []
  else ((Text.decimal d.digits).reverse.dropWhile (· == 0x30)).reverse

def point (d : Decimal) : Int :=
  if d.digits = 0 then 0 else (Text.decimal d.digits).length + d.exponent

/-- All digits written out, with a point only before a fraction. -/
def positional (d : Decimal) : Bytes :=
  let ds := d.significant
  if d.point ≤ 0 then
    0x30 :: (if ds.isEmpty then [] else 0x2E :: (List.replicate (-d.point).toNat 0x30 ++ ds))
  else
    let whole := d.point.toNat
    ds.take whole ++ List.replicate (whole - ds.length) 0x30 ++
      (if whole < ds.length then 0x2E :: ds.drop whole else [])

def scientific (d : Decimal) : Bytes :=
  let ds := d.significant
  let e := d.point - 1
  let fraction := ds.drop 1
  ds.take 1 ++ (if fraction.isEmpty then [] else 0x2E :: fraction) ++
    [0x65, if e < 0 then 0x2D else 0x2B] ++ (Text.decimal e.natAbs).leftpad 2 0x30

end Decimal
end ScriptCodec
