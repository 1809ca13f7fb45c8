set_option autoImplicit false

/-!
# The length of a plane vector in double precision

`Float.hypotenuse x y` is `√(x² + y²)` rounded once, to nearest with ties to even. The squares
are added as an exact integer times a power of two, so nothing overflows or underflows on the
way; the one rounding is the one of the square root of double precision itself.

## Main definitions

* `Hypotenuse.sumOfSquares` — the exact sum of two squares `(m·2^e)² + (n·2^f)²` as a mantissa
  and an even exponent.
* `Hypotenuse.hypotenuse` — the rounded length. An infinite component gives infinity, also
  beside an undefined one; otherwise an undefined component gives an undefined length.
-/

namespace Ohmic.Hypotenuse

open Float.Model (UnpackedFloat)

/-- The sum of the squares of `m·2^e` and `n·2^f` is the first component times two to the power
of the second: both squares are brought to the smaller of their exponents. -/
def sumOfSquares (m : Nat) (e : Int) (n : Nat) (f : Int) : Nat × Int :=
  let low := min e f
  let m := m <<< (e - low).toNat
  let n := n <<< (f - low).toNat
  (m * m + n * n, 2 * low)

/-- The mantissa and exponent of a finite number; zero has mantissa `0`. -/
def scaled? : UnpackedFloat → Option (Nat × Int)
  | .zero _ => some (0, 0)
  | .finite _ m e _ => some (m, e)
  | .infinity _ | .notANumber => none

/-- The square root of `m·2^e`, not yet rounded to the range of the format. -/
def root (m : Nat) (e : Int) : UnpackedFloat :=
  if h : 0 < m then UnpackedFloat.sqrt .binary64 (.finite .positive m e h) else .zero .positive

/-- The length of the vector `(x, y)`, correctly rounded. -/
def hypotenuse (x y : Float) : Float :=
  if x.isInf || y.isInf then .ofModel (.pack (.infinity .positive))
  else
    match scaled? x.toModel.unpack, scaled? y.toModel.unpack with
    | some (m, e), some (n, f) =>
      let (square, exponent) := sumOfSquares m e n f
      .ofModel (.pack (root square exponent))
    | _, _ => .ofModel (.pack .notANumber)

end Ohmic.Hypotenuse
