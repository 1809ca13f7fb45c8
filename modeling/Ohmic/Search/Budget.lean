import Ohmic.Search.Settings

set_option autoImplicit false

/-!
# The budget of a search

A search may be limited in time and in the number of complete candidates. Once either limit is
met the budget is stopped, and it stays stopped.

## Main definitions

* `Clock` — the time that has passed since the start, at each look at the clock.
* `Budget` — the limits, what was used of them, and whether the search has to stop.
* `Budget.look` — a look at the clock.
* `Budget.grant` — a request to handle one more candidate.
-/

namespace Ohmic

/-- The nanoseconds since the start of a search at the first look, the second one and so on. -/
abbrev Clock := Nat → Nat

/-- The clock of a search that takes no time. -/
def Clock.still : Clock := fun _ => 0

/-- What a search may use, and what it has used. -/
structure Budget where
  /-- The search stops when so many nanoseconds have passed. -/
  deadline : Option Nat
  /-- The search stops when it asks for one more candidate than this. -/
  maxCandidates : Option Nat
  /-- The looks at the clock so far. -/
  looks : Nat := 0
  /-- The requests for a candidate so far, if their number is limited. -/
  requests : Nat := 0
  /-- A limit was met. -/
  stopped : Bool := false

namespace Budget

/-- The unused budget of the settings. -/
def ofSettings {S Z : Type} (s : Settings S Z) : Budget where
  deadline := s.timeBudget.map Duration.nanoseconds
  maxCandidates := s.maxCandidates

/-- A look at the clock, which stops the search if its time is over. Without a time limit the
clock is not looked at. -/
def look (clock : Clock) (b : Budget) : Budget :=
  match b.deadline with
  | none => b
  | some deadline =>
    { b with looks := b.looks + 1, stopped := b.stopped || decide (deadline ≤ clock b.looks) }

/-- A request to handle one more candidate: whether it is granted, and the budget after it. The
first request above the limit stops the search. -/
def grant (b : Budget) : Bool × Budget :=
  match b.maxCandidates with
  | none => (true, b)
  | some limit =>
    if b.requests < limit then (true, { b with requests := b.requests + 1 })
    else (false, { b with requests := b.requests + 1, stopped := true })

end Budget

end Ohmic
