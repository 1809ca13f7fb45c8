import Ohmic.Number.Impedance

set_option autoImplicit false

/-!
# Deviation and tolerance

## Main definitions

* `Deviation` — the difference of a value from a target, its magnitude, and the magnitude relative
  to that of the target.
* `Tolerance` — an upper bound of the relative or of the absolute deviation.
* `Tolerance.band` — the interval of acceptable values around a positive real target.
-/

namespace Ohmic

/-- How far a value is from a target. -/
structure Deviation (S Z : Type) where
  /-- The value less the target. -/
  signed : Z
  /-- The magnitude of the difference. -/
  absolute : S
  /-- The magnitude of the difference over the magnitude of the target. -/
  relative : S
deriving DecidableEq

/-- The deviation of a value from a target other than zero. -/
def Deviation.of {S Z : Type} [Scalar S] [Impedance S Z] (value target : Z) : Deviation S Z :=
  let signed := value - target
  let absolute := Impedance.magnitude signed
  ⟨signed, absolute, absolute / Impedance.magnitude target⟩

/-- When a value is near enough to the target. -/
inductive Tolerance (S : Type) where
  /-- The relative deviation is at most the bound. -/
  | relative (bound : S)
  /-- The absolute deviation is at most the bound. -/
  | absolute (bound : S)
deriving DecidableEq

namespace Tolerance

variable {S : Type}

/-- The bound of the deviation. -/
def bound : Tolerance S → S
  | relative bound => bound
  | absolute bound => bound

variable [Scalar S]

/-- The deviations of a value are acceptable. -/
def accepts (t : Tolerance S) (absolute relative : S) : Bool :=
  match t with
  | .relative bound => decide (relative ≤ bound)
  | .absolute bound => decide (absolute ≤ bound)

/-- The ends of the interval of acceptable values around a positive real target. -/
def band (t : Tolerance S) (target : S) : S × S :=
  match t with
  | .relative bound => (target * (1 - bound), target * (1 + bound))
  | .absolute bound => (target - bound, target + bound)

/-- One per cent of the target. -/
def onePercent : Tolerance Float := .relative 0.01

end Tolerance

end Ohmic
