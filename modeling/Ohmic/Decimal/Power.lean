import Ohmic.Decimal.Ratio
import Ohmic.Number.Binary64

set_option autoImplicit false

/-!
# Powers of ten

What a catalogue of decimal values needs of its scalars, and double precision as an instance.

## Main definitions

* `DecimalScale` — scalars with powers of ten and the decimal exponents around a value.
* `powerOfTen` — `10^n` by repeated squaring, every product rounded; the reciprocal of the power
  for a negative exponent. Beyond the range it is infinity, or zero for a negative exponent.
* `floorLog10`, `ceilLog10` — the exact decimal exponents around a positive double.
-/

namespace Ohmic

/-- Scalars with a decimal scale. -/
class DecimalScale (S : Type) where
  /-- A significand as a scalar. -/
  ofSignificand : UInt16 → S
  /-- A power of ten. -/
  powerOfTen : Int → S
  /-- The greatest `k` with `10^k ≤ x`, for a positive finite `x`. -/
  floorLog10 : S → Int
  /-- The least `k` with `x ≤ 10^k`, for a positive finite `x`. -/
  ceilLog10 : S → Int

namespace Decimal

/-- `product · base^n` by repeated squaring: the base is squared once for every binary digit of
the exponent after the first, and multiplied in where the digit is one. -/
def powerLoop (n : Nat) (product base : Float) : Float :=
  let product := if n % 2 = 1 then product * base else product
  if n / 2 = 0 then product else powerLoop (n / 2) product (base * base)
termination_by n
decreasing_by omega

/-- `10^n` in double precision. -/
def powerOfTen (n : Int) : Float :=
  let power := powerLoop n.natAbs 1 10
  if n < 0 then 1 / power else power

/-- The exact value of a positive finite double; zero for any other number. -/
def exactValue (x : Float) : Ratio :=
  match x.toModel.unpack with
  | .finite .positive m e _ => .ofBinary m e
  | _ => ⟨0, 1⟩

/-- The greatest `k` with `10^k ≤ x`, for a positive finite `x`. -/
def floorLog10 (x : Float) : Int := (exactValue x).floorLog10

/-- The least `k` with `x ≤ 10^k`, for a positive finite `x`. -/
def ceilLog10 (x : Float) : Int := (exactValue x).ceilLog10

end Decimal

/-- The decimal scale of double precision, with exact decimal exponents. -/
instance instDecimalScaleFloat : DecimalScale Float where
  ofSignificand := UInt16.toFloat
  powerOfTen := Decimal.powerOfTen
  floorLog10 := Decimal.floorLog10
  ceilLog10 := Decimal.ceilLog10

end Ohmic
