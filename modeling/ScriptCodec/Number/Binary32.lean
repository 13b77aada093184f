/-!
Single-precision numbers as bit patterns, in exact arithmetic. Every finite magnitude is a whole
multiple of `2^-149`, so the pattern `p` below the infinity stands for `units p` such units, and
`units` grows with the pattern. Rounding a quotient to the nearest pattern takes the last pattern
not above it and one comparison with the point half way to the next; a tie goes to the even
pattern.
-/
namespace ScriptCodec.Binary32

def infinity : Nat := 0x7F800000

/-- The pattern every spelling of a NaN is read as. -/
def nan : UInt32 := 0x7FC00000

/-- The magnitude of a pattern without its sign, in units of `2^-149`. -/
def units (p : Nat) : Nat :=
  let e := p / 0x800000
  let f := p % 0x800000
  if e = 0 then f else (0x800000 + f) * Nat.pow 2 (e - 1)

def unitScale : Nat := Nat.pow 2 149

/-- The last pattern whose magnitude is at most `n` units. Below `2^24` every pattern counts its own
units; above that a pattern keeps the leading 24 bits. -/
def patternBelow (n : Nat) : Nat :=
  if n < 0x1000000 then n
  else
    let shift := Nat.log2 n - 23
    shift * 0x800000 + n / Nat.pow 2 shift

def floorPattern (num den : Nat) : Nat := min infinity (patternBelow (num * unitScale / den))

/-- The nearest pattern to `num / den`, ties to even; `none` when that is the infinity. -/
def round (num den : Nat) : Option Nat :=
  let p := floorPattern num den
  let twice := 2 * (num * unitScale)
  let middle := (units p + units (p + 1)) * den
  let r := if twice < middle then p
    else if middle < twice then p + 1
    else p + p % 2
  if r < infinity then some r else none

def magnitude (bits : UInt32) : Nat := bits.toNat % 0x80000000

def isNegative (bits : UInt32) : Bool := 0x80000000 ≤ bits.toNat

def withSign (negative : Bool) (p : Nat) : UInt32 :=
  UInt32.ofNat (if negative then 0x80000000 + p else p)

def isIntegral (p : Nat) : Bool := p < infinity && units p % unitScale == 0

end ScriptCodec.Binary32
