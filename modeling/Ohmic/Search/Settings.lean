import Ohmic.Search.Tolerance
import Ohmic.Text.Basic

set_option autoImplicit false

/-!
# The settings of a search

## Main definitions

* `Settings` — target, tolerance, limits and choices of a search.
* `Settings.of` — the settings with every choice left at its usual value.
* `SettingsError` — why a search is refused.
* `Settings.check`, `Settings.checkAlphabet` — the first reason to refuse, if any: the target, the
  bound, the number of leaves, the number of results; then the alphabet.
-/

namespace Ohmic

/-- The largest number of leaves of a network that a search builds. -/
def maxLeafCount : Nat := 8

/-- A span of time. -/
structure Duration where
  /-- Its length in nanoseconds. -/
  nanoseconds : Nat
deriving DecidableEq

/-- The nanoseconds in a second. -/
def Duration.second : Nat := 1_000_000_000

/-- A number of whole seconds. -/
def Duration.ofSeconds (n : Nat) : Duration := ⟨n * Duration.second⟩

/-- The longest span of time: the last nanosecond before `2^64` seconds. -/
def Duration.longest : Duration := ⟨0x10000000000000000 * Duration.second - 1⟩

/-- What to search for, and how far. -/
structure Settings (S Z : Type) where
  /-- The impedance to come near to. -/
  target : Z
  /-- How near a network has to be. -/
  tolerance : Tolerance S
  /-- The largest number of leaves. -/
  maxLeaves : Nat
  /-- Go on to larger networks after a number of leaves with matches. -/
  exhaustive : Bool := false
  /-- Keep only so many results. -/
  maxResults : Option Nat := none
  /-- Stop after a span of time. -/
  timeBudget : Option Duration := none
  /-- Stop after a number of complete candidates. -/
  maxCandidates : Option Nat := none
  /-- Let several workers share the search. Without limits the results do not depend on it. -/
  parallel : Bool := true

/-- The settings with every choice left at its usual value. -/
def Settings.of {S Z : Type} (target : Z) (tolerance : Tolerance S) (maxLeaves : Nat) :
    Settings S Z where
  target := target
  tolerance := tolerance
  maxLeaves := maxLeaves

/-- Why a search is refused. -/
inductive SettingsError (S Z : Type) where
  /-- The target is zero or not finite. -/
  | target (target : Z)
  /-- The bound of the tolerance is negative or not finite. -/
  | bound (bound : S)
  /-- The number of leaves is zero or too large. -/
  | leaves (count : Nat)
  /-- No results are wanted. -/
  | results
  /-- There are no values to build with. -/
  | emptyAlphabet
  /-- A value to build with is not finite. -/
  | alphabetValue (value : Z)
deriving DecidableEq

/-- The text of a refusal. -/
def SettingsError.message {S Z : Type} [HasText S] [HasText Z] : SettingsError S Z → String
  | target z => "target impedance must be finite and non-zero, got " ++ text z
  | bound b => "tolerance must be finite and non-negative, got " ++ text b
  | leaves n =>
    "max_leaves must be between 1 and " ++ text maxLeafCount ++ ", got " ++ text n
  | results => "max_results must be at least 1"
  | emptyAlphabet => "alphabet is empty"
  | alphabetValue z => "alphabet value " ++ text z ++ " is not finite"

namespace Settings

variable {S Z : Type} [Scalar S] [Impedance S Z]

/-- The first reason to refuse the settings. -/
def check (s : Settings S Z) : Except (SettingsError S Z) Unit :=
  if !Impedance.isFinite s.target || Impedance.magnitude s.target == 0 then
    .error (.target s.target)
  else if !Scalar.isFinite s.tolerance.bound || decide (s.tolerance.bound < 0) then
    .error (.bound s.tolerance.bound)
  else if s.maxLeaves < 1 ∨ maxLeafCount < s.maxLeaves then .error (.leaves s.maxLeaves)
  else if s.maxResults = some 0 then .error .results
  else .ok ()

omit [Scalar S] in
/-- The first reason to refuse the values to build with. -/
def checkAlphabet (alphabet : List Z) : Except (SettingsError S Z) Unit :=
  if alphabet.isEmpty then .error .emptyAlphabet
  else
    match alphabet.find? fun z => !Impedance.isFinite z with
    | some z => .error (.alphabetValue z)
    | none => .ok ()

end Settings

end Ohmic
