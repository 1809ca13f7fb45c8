import Ohmic.Search.Finding

set_option autoImplicit false

/-!
# The report of a search

## Main definitions

* `Stats` — the counters of a search.
* `Level` — what was done with one number of leaves.
* `SearchError` — why a search has no results.
* `Report` — the levels of a search and its results or its error.
* `SearchError.message` — the text of an error.

## Implementation notes

The time that a search has taken is no part of its counters: nothing depends on it. A report has the
levels beside the outcome, so that what could be logged of each of them is a result as well.
-/

namespace Ohmic

/-- The counters of a search. -/
structure Stats where
  /-- Candidates with an impedance. -/
  evaluated : Nat := 0
  /-- Partial networks given up because of the bounds. -/
  pruned : Nat := 0
  /-- Candidates with a cancelling connection. -/
  degenerate : Nat := 0
  /-- Candidates with a combination that is not finite. -/
  overflowed : Nat := 0
  /-- The largest number of leaves that was searched. -/
  levelsSearched : Nat := 0
  /-- The budget stopped the search early. -/
  truncated : Bool := false
deriving DecidableEq

/-- What was done with one number of leaves. -/
structure Level where
  /-- The number of leaves. -/
  leaves : Nat
  /-- The layouts in search order. -/
  layouts : List Layout
  /-- Candidates with an impedance. -/
  evaluated : Nat := 0
  /-- Partial networks given up because of the bounds. -/
  pruned : Nat := 0
  /-- Candidates with a cancelling connection. -/
  degenerate : Nat := 0
  /-- Candidates with a combination that is not finite. -/
  overflowed : Nat := 0
  /-- Acceptable networks that were not found before. -/
  hits : Nat := 0

/-- Why a search has no results. -/
inductive SearchError (S Z : Type) where
  /-- No candidate is acceptable; the closest one, and whether the budget stopped the search. -/
  | noNetwork (closest : Option (Finding S Z)) (truncated : Bool)
  /-- The search was refused. -/
  | settings (reason : SettingsError S Z)
  /-- The search itself failed. -/
  | defect (defect : Defect)

/-- Ranked findings with the counters of the search. -/
structure Results (S Z : Type) where
  /-- The findings, the best first. -/
  findings : List (Finding S Z)
  /-- The counters. -/
  stats : Stats

/-- The course of a search and its outcome. -/
structure Report (S Z : Type) where
  /-- The numbers of leaves that were searched, in order. -/
  levels : List Level
  /-- The results, or why there are none. -/
  outcome : Except (SearchError S Z) (Results S Z)

/-! ## Text -/

/-- The text of a failure of the search itself. -/
def Defect.message : Defect → String
  | malformed fault => "candidate evaluation failed: " ++ fault.message
  | outOfRange => "candidate evaluation failed: position out of range"

/-- What is said of the closest candidate of a search without results. -/
def Finding.missText {Z : Type} [HasText Z] (f : Finding Float Z) : String :=
  " (closest: " ++ f.network.text ++ " = " ++ text f.impedance ++ ", relative error " ++
    Decimal.scientific 3 f.deviation.relative ++ ")"

/-- The text of an error. -/
def SearchError.message {Z : Type} [HasText Z] : SearchError Float Z → String
  | noNetwork closest truncated =>
    "no network found within tolerance" ++ (closest.map Finding.missText).getD "" ++
      if truncated then " before the search budget ran out" else ""
  | settings reason => "invalid synthesis configuration: " ++ reason.message
  | defect d => d.message

end Ohmic
