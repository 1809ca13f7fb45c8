import Ohmic.Number.Scalar

set_option autoImplicit false

/-!
# Phasors

A phasor is a complex impedance in rectangular form: a resistance and a reactance.

## Main definitions

* `Phasor` — the pair `re + j·im` over any scalars.
* `Phasor.add`, `Phasor.sub` — component by component.
* `Phasor.div` — through the squared length of the divisor:
  `((a.re·b.re + a.im·b.im) / n, (a.im·b.re - a.re·b.im) / n)` with `n = b.re² + b.im²`.
* `Phasor.unscale` — division of both components by a real factor, which never squares it.
-/

namespace Ohmic

/-- A complex number in rectangular form. -/
structure Phasor (S : Type) where
  /-- The resistive part. -/
  re : S
  /-- The reactive part. -/
  im : S
deriving DecidableEq, BEq

namespace Phasor

variable {S : Type} [Scalar S]

/-- A purely resistive phasor. -/
def ofReal (x : S) : Phasor S := ⟨x, 0⟩

/-- The sum, component by component. -/
def add (a b : Phasor S) : Phasor S := ⟨a.re + b.re, a.im + b.im⟩

/-- The difference, component by component. -/
def sub (a b : Phasor S) : Phasor S := ⟨a.re - b.re, a.im - b.im⟩

/-- The quotient, with every component taken over the squared length of the divisor. -/
def div (a b : Phasor S) : Phasor S :=
  let n := b.re * b.re + b.im * b.im
  ⟨(a.re * b.re + a.im * b.im) / n, (a.im * b.re - a.re * b.im) / n⟩

/-- Both components over a real factor. -/
def unscale (a : Phasor S) (factor : S) : Phasor S := ⟨a.re / factor, a.im / factor⟩

/-- Both components are finite. -/
def isFinite (a : Phasor S) : Bool := Scalar.isFinite a.re && Scalar.isFinite a.im

end Phasor

end Ohmic
