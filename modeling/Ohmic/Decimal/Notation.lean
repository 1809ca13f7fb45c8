import Ohmic.Decimal.Shortest

set_option autoImplicit false

/-!
# Notations for doubles

Two ways to write a double. The positional one is used for every value of a network; the
scientific one for relative errors.

## Main definitions

* `positional` — the shortest decimal, always written out without an exponent: `47`, `0.1`,
  `1000000000000000000000`. Negative zero is `-0`, the infinities are `inf` and `-inf`, and an
  undefined number is `NaN`.
* `scientific` — one digit, a point, a fixed number of further digits, `e` and the exponent,
  without plus sign or padding: `1.348e-1`. The exact value is rounded, a half to the even digit.
-/

namespace Ohmic.Decimal

open Float.Model (UnpackedFloat)
open Float.Model.UnpackedFloat (Sign)

/-- The minus sign of a negative number. -/
def signText : Sign → String
  | .positive => ""
  | .negative => "-"

/-- The digits of `n`, filled up with zeros on the left to at least `width` of them. -/
def paddedDigits (n width : Nat) : List Char :=
  let digits := Nat.toDigits 10 n
  List.replicate (width - digits.length) '0' ++ digits

/-- The digits without zeros at the end. -/
def trimZeros (digits : List Char) : List Char :=
  (digits.reverse.dropWhile (· == '0')).reverse

/-- The number `n·10^p` written out, without a fraction that is zero and without zeros at the end
of a fraction. -/
def writtenOut (n : Nat) (p : Int) : String :=
  if 0 ≤ p then String.ofList (Nat.toDigits 10 n ++ List.replicate p.toNat '0')
  else
    let places := (-p).toNat
    let digits := paddedDigits n (places + 1)
    let whole := digits.take (digits.length - places)
    match trimZeros (digits.drop (digits.length - places)) with
    | [] => String.ofList whole
    | fraction => String.ofList (whole ++ '.' :: fraction)

/-- The shortest decimal, without an exponent. -/
def positional (x : Float) : String :=
  match x.toModel.unpack with
  | .notANumber => "NaN"
  | .infinity sign => signText sign ++ "inf"
  | .zero sign => signText sign ++ "0"
  | .finite sign m e _ =>
    let (n, p) := Shortest.decimal m e
    signText sign ++ writtenOut n p

/-- The value of a positive ratio rounded to `places + 1` digits, as these digits and the
exponent of the first one. A value that rounds up to the next power of ten takes its exponent. -/
def leadingDigits (r : Ratio) (places : Nat) : Nat × Int :=
  let top := r.floorLog10
  let n := (r.onGrid (top - places)).roundEven
  if digitCount n ≤ places + 1 then (n, top) else (n / 10, top + 1)

/-- A first digit, a point and the others, then the exponent. -/
def mantissaText (n places : Nat) (exponent : Int) : String :=
  let digits := paddedDigits n (places + 1)
  let fraction := digits.drop 1
  let mantissa := digits.take 1 ++ (if fraction.isEmpty then [] else '.' :: fraction)
  String.ofList mantissa ++ "e" ++ toString exponent

/-- Scientific notation with `places` digits after the point. -/
def scientific (places : Nat) (x : Float) : String :=
  match x.toModel.unpack with
  | .notANumber => "NaN"
  | .infinity sign => signText sign ++ "inf"
  | .zero sign => signText sign ++ mantissaText 0 places 0
  | .finite sign m e _ =>
    let (n, exponent) := leadingDigits (.ofBinary m e) places
    signText sign ++ mantissaText n places exponent

end Ohmic.Decimal
