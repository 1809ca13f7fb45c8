import Ohmic.Decimal.Notation
import Ohmic.Number.Impedance

set_option autoImplicit false

/-!
# The text of values

## Main definitions

* `HasText` — types whose values have a written form.
* `Phasor.text` — `re+imi` or `re-imi`. The sign between the parts is a minus exactly when the
  reactive part is below zero, and then the part itself is written as `0 - im`.
-/

namespace Ohmic

/-- A written form. -/
class HasText (α : Type) where
  /-- The written form of a value. -/
  text : α → String

export HasText (text)

/-- Natural numbers are written in decimal. -/
instance instHasTextNat : HasText Nat where
  text n := toString n

/-- Doubles are written with their shortest decimal, without an exponent. -/
instance instHasTextFloat : HasText Float where
  text := Decimal.positional

namespace Phasor

variable {S : Type} [Scalar S] [HasText S]

/-- The written form of a phasor. -/
protected def text (a : Phasor S) : String :=
  if a.im < 0 then HasText.text a.re ++ "-" ++ HasText.text (0 - a.im) ++ "i"
  else HasText.text a.re ++ "+" ++ HasText.text a.im ++ "i"

end Phasor

/-- A phasor is written in rectangular form. -/
instance instHasTextPhasor {S : Type} [Scalar S] [HasText S] : HasText (Phasor S) where
  text := Phasor.text

end Ohmic
