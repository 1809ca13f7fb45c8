import Ohmic.Number.Phasor

set_option autoImplicit false

/-!
# Impedance domains

A network can be computed over real numbers (resistances) or over phasors (reactive parts). The
class `Impedance` holds what evaluation and search need of either, so that every function on
networks is written once.

## Main definitions

* `Impedance S Z` — impedances `Z` whose magnitudes are scalars `S`.
* `instImpedanceReal`, `instImpedancePhasor` — the two domains over any scalars.
* `Impedance.positiveReal?` — the value as a positive finite resistance, if it is one.
* `relativeDeviation` — `|value - target| / |target|`.
-/

namespace Ohmic

/-- A type of impedances with magnitudes in `S`. -/
class Impedance (S : outParam Type) (Z : Type) extends Add Z, Sub Z, Div Z where
  /-- A short circuit. -/
  zero : Z
  /-- A resistance. -/
  ofReal : S → Z
  /-- The absolute value. -/
  magnitude : Z → S
  /-- The value as a phasor. -/
  toPhasor : Z → Phasor S
  /-- The value as a positive finite resistance, if it is one. -/
  positiveReal? : Z → Option S
  /-- Every component is finite. -/
  isFinite : Z → Bool
  /-- Every component over a real factor. -/
  unscale : Z → S → Z

/-- A scalar that is positive and finite. -/
def Scalar.positive? {S : Type} [Scalar S] (x : S) : Option S :=
  if 0 < x ∧ Scalar.isFinite x = true then some x else none

/-- Resistances: the scalars themselves. -/
instance instImpedanceReal {S : Type} [Scalar S] : Impedance S S where
  zero := 0
  ofReal x := x
  magnitude := Scalar.abs
  toPhasor := Phasor.ofReal
  positiveReal? := Scalar.positive?
  isFinite := Scalar.isFinite
  unscale x factor := x / factor

/-- Reactive impedances: phasors over the scalars. -/
instance instImpedancePhasor {S : Type} [Scalar S] [Hypot S] : Impedance S (Phasor S) where
  add := Phasor.add
  sub := Phasor.sub
  div := Phasor.div
  zero := ⟨0, 0⟩
  ofReal := Phasor.ofReal
  magnitude a := Hypot.hypot a.re a.im
  toPhasor a := a
  positiveReal? a := if a.im == 0 then Scalar.positive? a.re else none
  isFinite := Phasor.isFinite
  unscale := Phasor.unscale

/-- The distance of `value` from `target`, relative to the magnitude of the target. -/
def relativeDeviation {S Z : Type} [Scalar S] [Impedance S Z] (value target : Z) : S :=
  Impedance.magnitude (value - target) / Impedance.magnitude target

end Ohmic
