import Ohmic.Decimal.Power
import Ohmic.Parts.PreferredSeries

set_option autoImplicit false

/-!
# Catalogues of standard values

A catalogue holds the standard values in a range of magnitudes: every significand of a table,
times every power of ten, as far as the product lies in the range.

## Main definitions

* `StandardValue` — a significand, an exponent of ten, and the magnitude they make.
* `Catalog` — standard values in ascending order.
* `Catalog.ofSignificands`, `Catalog.ofSeries`, `Catalog.resistors` — the catalogue of a table, of
  a preferred series, and the one of common resistors.
* `Catalog.nearest?` — the value closest to a given one.

## Implementation notes

The exponents to try are found from the decimal exponents of the range. An entry in the range has
`min ≤ s·10^e ≤ max` with `1 ≤ s < 10^(digits + 1)`, so `e` lies between the exponent of `min` less
the digits and the exponent of `max`; one more on either side leaves room for exponents that are
off by one.
-/

namespace Ohmic

/-- A significand times a power of ten. -/
structure StandardValue (S : Type) where
  /-- The significand. -/
  significand : UInt16
  /-- The exponent of ten. -/
  exponent : Int
  /-- The magnitude that they make. -/
  magnitude : S

namespace StandardValue

variable {S : Type} [Scalar S] [DecimalScale S]

/-- The standard value of a significand and an exponent. A negative exponent divides by the
positive power, which rounds once as long as that power is exact. -/
def of (significand : UInt16) (exponent : Int) : StandardValue S where
  significand := significand
  exponent := exponent
  magnitude :=
    if 0 ≤ exponent then
      DecimalScale.ofSignificand significand * DecimalScale.powerOfTen exponent
    else DecimalScale.ofSignificand significand / DecimalScale.powerOfTen (-exponent)

/-- The power of ten in a standard value. -/
def multiplier (v : StandardValue S) : S := DecimalScale.powerOfTen v.exponent

end StandardValue

/-- Standard values in ascending order of magnitude. -/
structure Catalog (S : Type) where
  /-- The values from the smallest to the largest. -/
  entries : List (StandardValue S)

namespace Catalog

variable {S : Type} [Scalar S]

/-! ## Construction -/

/-- The values without those whose magnitude equals that of the last one kept. -/
def dropRepeats (values : List (StandardValue S)) : List (StandardValue S) :=
  let keep (kept : List (StandardValue S)) (v : StandardValue S) : List (StandardValue S) :=
    match kept with
    | last :: _ => if v.magnitude == last.magnitude then kept else v :: kept
    | [] => [v]
  (values.foldl keep []).reverse

/-- The values in ascending order, one of each magnitude; of equal ones the first. -/
def inOrder (values : List (StandardValue S)) : List (StandardValue S) :=
  dropRepeats (values.mergeSort fun a b => (Scalar.rank a.magnitude b.magnitude).isLE)

/-- The integers from `first` to `last`. -/
def exponents (first last : Int) : List Int :=
  (List.range (last - first + 1).toNat).map fun (i : Nat) => first + (i : Int)

/-- The magnitude lies in the range. -/
def inRange (min max : S) (v : StandardValue S) : Bool :=
  decide (min ≤ v.magnitude) && decide (v.magnitude ≤ max)

section Scale

variable [DecimalScale S]

/-- The values of the table over the exponents from `first` to `last` that lie in the range. -/
def overExponents (table : List UInt16) (first last : Int) (min max : S) : Catalog S :=
  let values := (exponents first last).flatMap fun e => table.map fun s => StandardValue.of s e
  ⟨inOrder (values.filter (inRange min max))⟩

/-- The number of digits after the first one of the widest significand. -/
def extraDigits (table : List UInt16) : Int :=
  let widest := table.foldl (fun w s => Nat.max w s.toNat) 1
  Decimal.digitCount widest - 1

/-- The first and the last exponent that can bring a significand of the table into the range. -/
def exponentRange (table : List UInt16) (min max : S) : Int × Int :=
  (DecimalScale.floorLog10 min - extraDigits table - 1, DecimalScale.ceilLog10 max + 1)

/-- The values of the table in the range. -/
def replicate (table : List UInt16) (min max : S) : Catalog S :=
  let (first, last) := exponentRange table min max
  overExponents table first last min max

/-- The catalogue of a table of significands over a range. -/
def ofSignificands (table : List UInt16) (min max : S) : Except (CatalogError S) (Catalog S) :=
  if !(Scalar.isFinite min && Scalar.isFinite max) || decide (min ≤ 0) || decide (max < min) then
    .error (.invalidRange min max)
  else if table.isEmpty || table.contains 0 then .error .invalidTable
  else
    let catalog := replicate table min max
    if catalog.entries.isEmpty then .error (.emptyRange min max) else .ok catalog

/-- The catalogue of a preferred series over a range. -/
def ofSeries (series : PreferredSeries) (min max : S) : Except (CatalogError S) (Catalog S) :=
  ofSignificands series.significands min max

/-- The resistors of the series E6 from 10 Ω to 10 MΩ. -/
def resistors : Catalog S :=
  replicate PreferredSeries.e6.significands
    (DecimalScale.powerOfTen 1) (DecimalScale.powerOfTen 7)

end Scale

/-! ## Reading -/

omit [Scalar S] in
/-- The magnitudes in ascending order. -/
def magnitudes (c : Catalog S) : List S := c.entries.map StandardValue.magnitude

/-- The number of values. -/
def size (c : Catalog S) : Nat := c.entries.length

/-- The smallest magnitude. -/
def min? (c : Catalog S) : Option S := c.magnitudes.head?

/-- The largest magnitude. -/
def max? (c : Catalog S) : Option S := c.magnitudes.getLast?

/-- Each magnitude is less than the next one. -/
def isAscending : List S → Bool
  | x :: y :: rest => decide (x < y) && isAscending (y :: rest)
  | _ => true

/-- The value closest to `x`: the last one below it or the first one not below it, and the one
below at equal distance. -/
def nearest? (c : Catalog S) (x : S) : Option (StandardValue S) :=
  let isBelow (v : StandardValue S) : Bool := decide (v.magnitude < x)
  match (c.entries.takeWhile isBelow).getLast?, (c.entries.dropWhile isBelow).head? with
  | some low, some high =>
    if Scalar.abs (x - low.magnitude) ≤ Scalar.abs (high.magnitude - x) then some low
    else some high
  | some low, none => some low
  | none, high => high

end Catalog

end Ohmic
