import Ohmic.Decimal.Ratio

set_option autoImplicit false

/-!
# The shortest decimal of a double

A positive finite double is written with the fewest significant digits that still read back to
it; among those the nearest to its exact value, and the larger one when two are equally near.

## Main definitions

* `Shortest.Interval` — the exact value and the two ends of the numbers that round to it.
* `Shortest.pick` — the decimal with a given number of digits that reads back, if there is one.
* `Shortest.decimal` — the shortest decimal `digits · 10^exponent`.

## Implementation notes

For each number of digits only the two neighbours of the value on the decimal grid are tried: if
any point of the grid reads back, one of them does. Seventeen digits always suffice.
-/

namespace Ohmic.Decimal.Shortest

/-- The exact value of a positive double, and the ends of the numbers that round to it. -/
structure Interval where
  /-- The exact value. -/
  value : Ratio
  /-- The lower end. -/
  low : Ratio
  /-- The upper end. -/
  high : Ratio
  /-- The ends themselves round to the value. -/
  closed : Bool

/-- The least mantissa of a number with a full mantissa, `2^52`. -/
def leastMantissa : Nat := 0x10000000000000

/-- The interval of `m·2^e`. The upper end is half a unit of the last place above it and the
lower end half a unit below; under a power of two the numbers are twice as dense, so the lower
end is a quarter of a unit below. Ties go to even mantissas, which therefore own their ends. -/
def Interval.of (m : Nat) (e : Int) : Interval :=
  let below := if m = leastMantissa ∧ -1074 < e then 1 else 2
  { value := .ofBinary m e
    low := .ofBinary (4 * m - below) (e - 2)
    high := .ofBinary (4 * m + 2) (e - 2)
    closed := m % 2 == 0 }

/-- `n·10^p` rounds to the value. -/
def Interval.holds (i : Interval) (n : Nat) (p : Int) : Bool :=
  let point := Ratio.onGrid ⟨n, 1⟩ (-p)
  match i.low.order point, point.order i.high with
  | .lt, .lt => true
  | .eq, .lt | .lt, .eq => i.closed
  | _, _ => false

/-- The point of the grid of `10^p` next to the value that reads back: the nearer one if both do,
and the upper one at equal distance. -/
def pick (i : Interval) (p : Int) : Option Nat :=
  let scaled := i.value.onGrid p
  let lower := scaled.floor
  let upperIsNearer := decide (scaled.den ≤ 2 * (scaled.num % scaled.den))
  match i.holds lower p, i.holds (lower + 1) p with
  | true, true => some (if upperIsNearer then lower + 1 else lower)
  | true, false => some lower
  | false, true => some (lower + 1)
  | false, false => none

/-- The first hit with `count` or more digits, where `top` is the exponent of the leading digit,
as digits and the exponent of the last one. -/
def firstHit (i : Interval) (top : Int) : Nat → Nat → Option (Nat × Int)
  | 0, _ => none
  | tries + 1, count =>
    let p := top - count + 1
    match pick i p with
    | some n => some (n, p)
    | none => firstHit i top tries (count + 1)

/-- The shortest decimal of `m·2^e` as digits and the exponent of the last digit. -/
def decimal (m : Nat) (e : Int) : Nat × Int :=
  let i := Interval.of m e
  (firstHit i i.value.floorLog10 17 1).getD (0, 0)

end Ohmic.Decimal.Shortest
