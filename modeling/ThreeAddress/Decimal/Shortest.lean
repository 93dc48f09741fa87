import ThreeAddress.FloatShape

/-!
# The shortest decimal of a float

The decimal that stands for a float is the one with the fewest digits among those that read back
as it, and of those with as few digits the nearest to it.

The numbers that read back as `m * 2 ^ q` are an interval around it: half a step of the binary
grid to each side, a quarter below where a power of two makes the grid below it finer. The ends
belong to it iff `m` is even, as halves are read to the even neighbour. All comparisons are made
on whole numbers, after multiplying out the powers of two and ten.
-/

set_option autoImplicit false

namespace ThreeAddress

/-- The number `digits * 10 ^ scale`. -/
structure Decimal where
  digits : Nat
  scale : Int
  deriving DecidableEq, Repr

/-- The neighbour that a number in the middle between two decimals goes to. -/
inductive Tie where
  | up | even
  deriving DecidableEq, Repr

namespace Decimal

def digitCount (n : Nat) : Nat := (Nat.toDigits 10 n).length

/-- A power with an exponent of either sign, as a numerator and a denominator. -/
def power (base : Nat) (exponent : Int) : Nat × Nat :=
  if 0 ≤ exponent then (Nat.pow base exponent.toNat, 1) else (1, Nat.pow base (-exponent).toNat)

/-- The quarter of a step of the binary grid at exponent `q`, measured in steps of the decimal grid
at exponent `k`: `2 ^ (q - 2) / 10 ^ k`. -/
def quarterStep (q k : Int) : Nat × Nat :=
  let (twos, perTwos) := power 2 (q - 2)
  let (tens, perTens) := power 10 k
  (twos * perTens, perTwos * tens)

/-- Enough decimal places to show the leading digit of the smallest float. -/
def leadingPlaces : Nat := 330

/-- The power of ten at which the leading digit of `m * 2 ^ q` stands. It is read off the number of
digits of the float times `10 ^ 330`, which is above one. -/
def leadingExponent (m : Nat) (q : Int) : Int :=
  let (steps, per) := quarterStep q (-leadingPlaces)
  (digitCount (4 * m * steps / per) : Int) - 1 - leadingPlaces

/-- The point of the decimal grid at exponent `k` that stands for `m * 2 ^ q`, if a point there
reads back as it: one of its two neighbours on the grid, the nearer if both do. -/
def onGrid? (tie : Tie) (m : Nat) (q k : Int) : Option Decimal :=
  -- in quarters of a step of the binary grid, of which the float itself is `4 * m`
  let (steps, per) := quarterStep q k
  let below := if m = 1 <<< 52 && FloatShape.leastExponent < q then 1 else 2
  let low := (4 * m - below) * steps
  let high := (4 * m + 2) * steps
  -- the ends of the interval count iff the mantissa is even
  let readsBack (d : Nat) : Bool :=
    if m % 2 = 0 then low ≤ d * per && d * per ≤ high else low < d * per && d * per < high
  let floor := 4 * m * steps / per
  let rest := 4 * m * steps % per
  let roundsUp : Bool :=
    match tie with
    | .up => per ≤ 2 * rest
    | .even => per < 2 * rest || (2 * rest = per && floor % 2 = 1)
  match readsBack floor, readsBack (floor + 1) with
  | true, true => some ⟨if roundsUp then floor + 1 else floor, k⟩
  | true, false => some ⟨floor, k⟩
  | false, true => some ⟨floor + 1, k⟩
  | false, false => none

/-- Drops the zeros at the end of the digits, of which there are at most `fuel`. -/
def trimZeros : Nat → Decimal → Decimal
  | 0, d => d
  | fuel + 1, d =>
    if d.digits ≠ 0 && d.digits % 10 = 0 then trimZeros fuel ⟨d.digits / 10, d.scale + 1⟩ else d

/-- No float needs more digits than these to be told from its neighbours. -/
def mostDigits : Nat := 17

/-- The shortest decimal of `m * 2 ^ q`: grids are tried from one digit on, the first that has a
point which reads back wins. There is a zero to be dropped only where a nine on the first grid went
up to ten. -/
def shortest (tie : Tie) (m : Nat) (q : Int) : Decimal :=
  let leading := leadingExponent m q
  let found := (List.range mostDigits).findSome? fun (more : Nat) =>
    onGrid? tie m q (leading - more)
  trimZeros mostDigits (found.getD ⟨0, 0⟩)

end Decimal

end ThreeAddress
