set_option autoImplicit false

/-!
# Scalars

Everything in this library is computed over a type of scalars `S` that is a parameter. Catalogues
and searches in practice use double precision (`Ohmic.Number.Binary64`), and exact arithmetic fits
as well. A scalar type brings its operations and its own comparisons, and nothing is assumed of
them; a statement that needs a law of arithmetic names it as a hypothesis.

## Main definitions

* `Scalar` — the operations on real magnitudes, the finiteness test, the two small constants of
  the algorithms and the total order used for ranking.
* `Hypot` — scalars with the length `√(x² + y²)` of a plane vector.
* `Scalar.least`, `Scalar.greatest` — the extremes of a non-empty list.

## Implementation notes

`<` and `≤` are the comparisons of the arithmetic and may fail both ways (a NaN is below
nothing). `rank` is a separate, total comparison, so that sorting never depends on them.
-/

namespace Ohmic

/-- The arithmetic of real magnitudes. -/
class Scalar (S : Type) extends
    Zero S, One S, Neg S, Add S, Sub S, Mul S, Div S, LT S, LE S, BEq S where
  /-- Strict comparison can be run. -/
  decidableLT : DecidableLT S
  /-- Comparison can be run. -/
  decidableLE : DecidableLE S
  /-- Absolute value. -/
  abs : S → S
  /-- Neither an infinity nor undefined. -/
  isFinite : S → Bool
  /-- A total order of all values, the undefined ones included. -/
  rank : S → S → Ordering
  /-- The relative size at or below which a sum counts as cancelled. -/
  epsilon : S
  /-- The relative width by which a band of acceptable values is opened on either side. -/
  slack : S

/-- Strict comparison of scalars can be run. -/
instance instDecidableLTScalar {S : Type} [Scalar S] : DecidableLT S := Scalar.decidableLT

/-- Comparison of scalars can be run. -/
instance instDecidableLEScalar {S : Type} [Scalar S] : DecidableLE S := Scalar.decidableLE

/-- Scalars with the length of a plane vector. -/
class Hypot (S : Type) where
  /-- `hypot x y` is `√(x² + y²)`. -/
  hypot : S → S → S

namespace Scalar

variable {S : Type} [Scalar S]

/-- The smaller of two scalars, the second one on a tie. -/
def min (x y : S) : S := if x < y then x else y

/-- The larger of two scalars, the second one on a tie. -/
def max (x y : S) : S := if y < x then x else y

/-- The least of a first value and all further ones. -/
def least (first : S) (rest : List S) : S := rest.foldl min first

/-- The greatest of a first value and all further ones. -/
def greatest (first : S) (rest : List S) : S := rest.foldl max first

/-- Each value is at most the next one. -/
def ascending : List S → Bool
  | x :: y :: rest => decide (x ≤ y) && ascending (y :: rest)
  | _ => true

end Scalar

end Ohmic
