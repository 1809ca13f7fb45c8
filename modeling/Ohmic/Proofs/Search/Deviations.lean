import Ohmic.Proofs.Number.Double
import Ohmic.Proofs.Number.Exact

set_option autoImplicit false

/-!
# The comparison of deviations

Whether a network is near enough is decided by comparing its deviation with a bound. Three
properties of the comparison are needed for that to be sensible, and they hold in exact arithmetic
as well as among doubles, where being at most is not reflexive: an undefined deviation is not at
most itself.

## Main definitions

* `Deviation.Comparable` — what is asked of the comparison of deviations.
* `instComparableExact`, `instComparableFloat`, `instComparablePhasor` — exact arithmetic, real
  doubles, and phasors of doubles.
-/

namespace Ohmic

/-- Deviations are compared as magnitudes are. -/
class Deviation.Comparable (S Z : Type) [Scalar S] [Impedance S Z] : Prop where
  /-- Being at most is transitive. -/
  le_trans : ∀ x y z : S, x ≤ y → y ≤ z → x ≤ z
  /-- A finite scalar is at most itself. -/
  le_refl : ∀ x : S, Scalar.isFinite x = true → x ≤ x
  /-- No relative deviation is below zero. -/
  not_neg : ∀ value target : Z, ¬ (Deviation.of value target).relative < 0

/-- Deviations in exact arithmetic are comparable. -/
instance instComparableExact {K : Type} [Field K] [LinearOrder K] [IsStrictOrderedRing K] :
    Deviation.Comparable K K where
  le_trans _ _ _ := le_trans
  le_refl x _ := le_refl x
  not_neg value target := not_lt.mpr (div_nonneg (abs_nonneg (value - target)) (abs_nonneg target))

/-- Deviations of doubles are comparable. -/
instance instComparableFloat : Deviation.Comparable Float Float where
  le_trans _ _ _ := Binary64.le_trans
  le_refl _ := Binary64.le_refl
  not_neg _ _ :=
    Binary64.not_lt_zero (Binary64.unsigned_div (Binary64.unsigned_abs _) (Binary64.unsigned_abs _))

/-- Deviations of phasors of doubles are comparable. -/
instance instComparablePhasor : Deviation.Comparable Float (Phasor Float) where
  le_trans _ _ _ := Binary64.le_trans
  le_refl _ := Binary64.le_refl
  not_neg _ _ := Binary64.not_lt_zero
    (Binary64.unsigned_div (Binary64.unsigned_hypotenuse _ _) (Binary64.unsigned_hypotenuse _ _))

end Ohmic
