import Ohmic.Number.Hypotenuse
import Ohmic.Number.Impedance

set_option autoImplicit false

/-!
# Double precision as a scalar type

The scalar arithmetic of binary64: every operation is rounded to nearest, ties to even, and the
comparisons are those of the format.

## Main definitions

* `Binary64.orderKey` — an integer that grows along the total order
  `-NaN < -∞ < … < -0 < +0 < … < ∞ < NaN`.
* `instScalarFloat`, `instHypotFloat` — `Float` as a scalar type with a correctly rounded length.
* `Binary64.epsilon` — the distance `2^-52` from one to the next larger number.
-/

namespace Ohmic

namespace Binary64

/-- The bit pattern of negative zero, in which only the sign bit is set. -/
def signBit : Nat := 0x8000000000000000

/-- Grows along the total order of all doubles: the bit pattern itself when the sign bit is
clear, and below zero, running backwards, when it is set. -/
def orderKey (x : Float) : Int :=
  let bits := x.toBits.toNat
  if bits < signBit then bits else (signBit : Int) - 1 - bits

/-- The distance from one to the next larger number, `2^-52`. -/
def epsilon : Float := Float.ofBits 0x3cb0000000000000

/-- The relative slack `10⁻⁹` of a band of acceptable values. -/
def slack : Float := 1e-9

end Binary64

/-- Double precision. -/
instance instScalarFloat : Scalar Float where
  zero := 0
  one := 1
  decidableLT := inferInstance
  decidableLE := inferInstance
  abs := Float.abs
  isFinite := Float.isFinite
  rank x y := compare (Binary64.orderKey x) (Binary64.orderKey y)
  epsilon := Binary64.epsilon
  slack := Binary64.slack

/-- The correctly rounded length. -/
instance instHypotFloat : Hypot Float where
  hypot := Hypotenuse.hypotenuse

end Ohmic
