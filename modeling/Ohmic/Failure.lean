import Ohmic.Parts.CatalogError
import Ohmic.Search.Report

set_option autoImplicit false

/-!
# Failures

## Main definitions

* `Failure` — anything that can go wrong with a network, a catalogue or a search.
* `Failure.message` — its text, which is that of its cause.
-/

namespace Ohmic

/-- Anything that can go wrong. -/
inductive Failure (Z : Type) where
  /-- A network has no impedance. -/
  | network (fault : Fault)
  /-- A catalogue, a series or a part is refused. -/
  | catalog (error : CatalogError Float)
  /-- A search has no results. -/
  | search (error : SearchError Float Z)

/-- The text of a failure. -/
def Failure.message {Z : Type} [HasText Z] : Failure Z → String
  | network fault => fault.message
  | catalog error => error.message
  | search error => error.message

end Ohmic
