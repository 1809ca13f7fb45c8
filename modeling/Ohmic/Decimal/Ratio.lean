set_option autoImplicit false

/-!
# Positive ratios on a decimal grid

Exact arithmetic on `num / den` with natural numbers, as far as writing and scaling numbers in
base ten needs it.

## Main definitions

* `Ratio` — a numerator over a denominator.
* `Ratio.ofBinary` — the ratio `m·2^e`.
* `Ratio.floorLog10`, `Ratio.ceilLog10` — the greatest `k` with `10^k ≤ r`, and the least `k` with
  `r ≤ 10^k`, for a positive ratio.
* `Ratio.onGrid` — the ratio counted in units of `10^p`.
* `Ratio.roundEven` — the nearest natural number, a half going to the even neighbour.
-/

namespace Ohmic.Decimal

/-- The number of decimal digits of `n`, with no digit for zero. -/
def digitCount (n : Nat) : Nat :=
  if h : n = 0 then 0 else digitCount (n / 10) + 1
termination_by n
decreasing_by omega

/-- A numerator over a denominator. -/
structure Ratio where
  /-- The numerator. -/
  num : Nat
  /-- The denominator. -/
  den : Nat

namespace Ratio

/-- The ratio `m·2^e`. -/
def ofBinary (m : Nat) (e : Int) : Ratio := ⟨m <<< e.toNat, 1 <<< (-e).toNat⟩

/-- The ratio counted in units of `10^p`. -/
def onGrid (r : Ratio) (p : Int) : Ratio :=
  ⟨r.num * Nat.pow 10 (-p).toNat, r.den * Nat.pow 10 p.toNat⟩

/-- The greatest `k` with `10^k ≤ r`, for a positive ratio `r`. From one upwards it is one less
than the number of digits of the integer part; below one it is minus the number of digits of the
greatest integer that is less than `1 / r`. -/
def floorLog10 (r : Ratio) : Int :=
  if r.den ≤ r.num then digitCount (r.num / r.den) - 1
  else -(digitCount ((r.den - 1) / r.num) : Int)

/-- `r` is exactly `10^k`. -/
def isPowerOfTen (r : Ratio) (k : Int) : Bool :=
  let unit := r.onGrid k
  unit.num == unit.den

/-- The least `k` with `r ≤ 10^k`, for a positive ratio `r`. -/
def ceilLog10 (r : Ratio) : Int :=
  let k := r.floorLog10
  if r.isPowerOfTen k then k else k + 1

/-- The integer part. -/
def floor (r : Ratio) : Nat := r.num / r.den

/-- The nearest natural number; a half goes to the even neighbour. -/
def roundEven (r : Ratio) : Nat :=
  let whole := r.num / r.den
  match compare (2 * (r.num % r.den)) r.den with
  | .lt => whole
  | .eq => whole + whole % 2
  | .gt => whole + 1

/-- Comparison by cross multiplication, right for positive denominators. -/
def order (r s : Ratio) : Ordering := compare (r.num * s.den) (s.num * r.den)

end Ratio

end Ohmic.Decimal
