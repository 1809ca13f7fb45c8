import Ohmic.Text.Basic

set_option autoImplicit false

/-!
# What can be wrong with a catalogue

## Main definitions

* `CatalogError` — why there is no catalogue, no series of a name, or no impedance of a part.
* `CatalogError.message` — its text.
-/

namespace Ohmic

/-- Why a catalogue, a series or a part is refused. -/
inductive CatalogError (S : Type) where
  /-- The range is not one of positive finite magnitudes from the smaller to the larger. -/
  | invalidRange (min max : S)
  /-- The significands are none, or one of them is zero. -/
  | invalidTable
  /-- No standard value lies in the range. -/
  | emptyRange (min max : S)
  /-- No preferred series has the name. -/
  | unknownSeries (name : String)
  /-- The capacitor has no finite impedance at the angular frequency. -/
  | openCapacitor (value omega : S)
deriving DecidableEq

/-- The text of the error. -/
def CatalogError.message {S : Type} [HasText S] (e : CatalogError S) : String :=
  "catalog error: " ++
    match e with
    | invalidRange min max => "invalid catalog range [" ++ text min ++ ", " ++ text max ++ "]"
    | invalidTable => "significand table must be non-empty and free of zeros"
    | emptyRange min max =>
      "no standard value lies within [" ++ text min ++ ", " ++ text max ++ "]"
    | unknownSeries name => "unknown E-series '" ++ name ++ "'"
    | openCapacitor value omega =>
      "capacitor of " ++ text value ++ " F has no finite impedance at " ++ text omega ++ " rad/s"

end Ohmic
