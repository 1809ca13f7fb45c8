import Ohmic.Search.Tolerance

set_option autoImplicit false

/-!
# Bounds on what a partial network can become

Over positive resistances both connections grow with either operand. With the smallest value in
every open slot a network has its least impedance, and with the largest its greatest; if the
acceptable band lies beyond either, no way of filling the open slots can be accepted.

## Main definitions

* `Bounds` — the values as positive reals, the extreme ones, and the acceptable band.
* `Bounds.of?` — available if the target and all values are positive reals.

## Implementation notes

The band is opened by a relative slack on either side, as room for rounding. Above the target it is
room enough. Far below it the rounded deviation hardly depends on the value, and an acceptable value
can lie under the lower end.
-/

namespace Ohmic

/-- The positive reals behind an alphabet, and the band to reach. -/
structure Bounds (S : Type) where
  /-- The values. -/
  values : List S
  /-- The smallest value. -/
  min : S
  /-- The largest value. -/
  max : S
  /-- The lower end of the band. -/
  low : S
  /-- The upper end of the band. -/
  high : S
  /-- Each value is at most the next one. -/
  ascending : Bool

/-- The bounds of an alphabet and a target, if all of them are positive reals. -/
def Bounds.of? {S Z : Type} [Scalar S] [Impedance S Z] (alphabet : List Z) (target : Z)
    (tolerance : Tolerance S) : Option (Bounds S) := do
  let target ← Impedance.positiveReal? target
  let values ← alphabet.mapM Impedance.positiveReal?
  let (low, high) := tolerance.band target
  match values with
  | [] => none
  | first :: rest =>
    return {
      values := values
      min := Scalar.least first rest
      max := Scalar.greatest first rest
      low := low * (1 - Scalar.slack)
      high := high * (1 + Scalar.slack)
      ascending := Scalar.ascending values }

/-- What the bounds say of a partial network. -/
inductive Verdict where
  /-- It may still become acceptable. -/
  | feasible
  /-- Even the least completion is too large. -/
  | overshoot
  /-- Even the greatest completion is too small. -/
  | undershoot
deriving DecidableEq

end Ohmic
