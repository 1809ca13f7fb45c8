import Ohmic.Parts.Catalog
import Ohmic.Search.Report

set_option autoImplicit false

/-!
# The search

All series/parallel networks of the values of an alphabet are tried, from one leaf up to the
largest number of leaves, and those near enough to the target are ranked.

## Main definitions

* `Search` — the settings of a search with the values to build with.
* `Progress` — what a search has found so far.
* `Search.runLevel` — one number of leaves.
* `Search.run` — the whole search.
* `synthesize` — the resistor networks of a catalogue near a target.

## Implementation notes

Networks with one canonical form over the indices are the same network, and the first one met is
kept. The search stops after a level at which the budget was stopped, and, unless it is
exhaustive, after the first level with results.

`Search.run` is the search by one worker and does not read `Settings.parallel`. The search by
several workers is `Search.runShared` (`Ohmic.Search.Workers`).
-/

namespace Ohmic

/-- A search to be run. -/
structure Search (S Z : Type) where
  /-- The values to build with. -/
  alphabet : List Z
  /-- The settings. -/
  settings : Settings S Z

/-- What a search has found so far. -/
structure Progress (S Z : Type) where
  /-- The findings with different canonical forms, the latest first. -/
  findings : List (Finding S Z) := []
  /-- The closest candidate. -/
  closest : Option (Finding S Z) := none
  /-- The counters. -/
  stats : Stats := {}
  /-- The levels that were searched, the latest first. -/
  levels : List Level := []

namespace Progress

variable {S Z : Type} [Scalar S]

omit [Scalar S] in
/-- A finding with the same canonical form is there already. -/
def contains (p : Progress S Z) (key : Flat Nat) : Bool :=
  p.findings.any fun f => decide (f.key = key)

omit [Scalar S] in
/-- The progress after the hits of a work item, and the number of new ones among them added to
`count`. -/
def addHits (layouts : List Layout) (alphabet : List Z) (count : Nat) (p : Progress S Z) :
    List (Candidate S Z) → Except Defect (Nat × Progress S Z)
  | [] => .ok (count, p)
  | hit :: rest =>
    match Finding.ofCandidate layouts alphabet hit with
    | .error defect => .error defect
    | .ok finding =>
      if p.contains finding.key then addHits layouts alphabet count p rest
      else
        addHits layouts alphabet (count + 1) { p with findings := finding :: p.findings } rest

/-- A candidate nearer to the target than the closest finding so far. -/
def improves (p : Progress S Z) (c : Candidate S Z) : Bool :=
  match p.closest with
  | none => true
  | some best => decide (c.deviation.relative < best.deviation.relative)

/-- The progress after the closest candidate of a work item. -/
def addClosest (layouts : List Layout) (alphabet : List Z) (p : Progress S Z) :
    Option (Candidate S Z) → Except Defect (Progress S Z)
  | none => .ok p
  | some near =>
    if p.improves near then do
      let finding ← Finding.ofCandidate layouts alphabet near
      return { p with closest := some finding }
    else .ok p

/-- The progress and the counters of a level after the tallies of its work items. -/
def absorb (alphabet : List Z) (level : Level) (p : Progress S Z) :
    List (Tally S Z) → Except Defect (Level × Progress S Z)
  | [] => .ok (level, p)
  | tally :: rest =>
    match p.addHits level.layouts alphabet level.hits tally.hits with
    | .error defect => .error defect
    | .ok (hits, p) =>
      match p.addClosest level.layouts alphabet tally.closest with
      | .error defect => .error defect
      | .ok p =>
        let level := { level with
          evaluated := level.evaluated + tally.evaluated
          pruned := level.pruned + tally.pruned
          degenerate := level.degenerate + tally.degenerate
          overflowed := level.overflowed + tally.overflowed
          hits := hits }
        absorb alphabet level p rest

omit [Scalar S] in
/-- The progress after a level. -/
def close (p : Progress S Z) (level : Level) (stopped : Bool) : Progress S Z :=
  { p with
    levels := level :: p.levels
    stats := {
      evaluated := p.stats.evaluated + level.evaluated
      pruned := p.stats.pruned + level.pruned
      degenerate := p.stats.degenerate + level.degenerate
      overflowed := p.stats.overflowed + level.overflowed
      levelsSearched := level.leaves
      truncated := stopped } }

end Progress

namespace Search

variable {S Z : Type} [Scalar S] [Impedance S Z]

/-- What stays fixed during the search. -/
def explorer (s : Search S Z) (clock : Clock) : Explorer S Z where
  alphabet := s.alphabet
  target := s.settings.target
  tolerance := s.settings.tolerance
  bounds := Bounds.of? s.alphabet s.settings.target s.settings.tolerance
  clock := clock

/-- The networks with a number of leaves, tried on a fresh bench. -/
def runLevel (s : Search S Z) (clock : Clock) (leaves : Nat) (budget : Budget)
    (p : Progress S Z) : Except Defect (Budget × Progress S Z) := do
  let layouts := Layout.withLeaves leaves
  let work := Explorer.workItems layouts s.alphabet.length
  let (tallies, budget) ← (s.explorer clock).exploreAll layouts {} budget [] work
  let (level, p) ← p.absorb s.alphabet { leaves := leaves, layouts := layouts } tallies
  return (budget, p.close level budget.stopped)

/-- The search goes on after a level. -/
def continues (s : Search S Z) (budget : Budget) (p : Progress S Z) : Bool :=
  !budget.stopped && (p.findings.isEmpty || s.settings.exhaustive)

/-- So many more levels, the first of which has `leaves` leaves. -/
def runLevels (s : Search S Z) (clock : Clock) :
    (count leaves : Nat) → Budget → Progress S Z → Except Defect (Progress S Z)
  | 0, _, _, p => .ok p
  | count + 1, leaves, budget, p =>
    match s.runLevel clock leaves budget p with
    | .error defect => .error defect
    | .ok (budget, p) =>
      if s.continues budget p then s.runLevels clock count (leaves + 1) budget p else .ok p

/-- The first reason to refuse the search. -/
def check (s : Search S Z) : Except (SettingsError S Z) Unit := do
  s.settings.check
  Settings.checkAlphabet s.alphabet

omit [Impedance S Z] in
/-- The results of a finished search: the findings ranked, and no more than are wanted. -/
def conclude (s : Search S Z) (p : Progress S Z) : Except (SearchError S Z) (Results S Z) :=
  if p.findings.isEmpty then .error (.noNetwork p.closest p.stats.truncated)
  else
    let ranked := Finding.ranked p.findings.reverse
    let wanted := match s.settings.maxResults with
      | some n => ranked.take n
      | none => ranked
    .ok ⟨wanted, p.stats⟩

/-- The search, timed by a clock. -/
def run (s : Search S Z) (clock : Clock) : Report S Z :=
  match s.check with
  | .error reason => ⟨[], .error (.settings reason)⟩
  | .ok () =>
    match s.runLevels clock s.settings.maxLeaves 1 (Budget.ofSettings s.settings) {} with
    | .error defect => ⟨[], .error (.defect defect)⟩
    | .ok p => ⟨p.levels.reverse, s.conclude p⟩

end Search

/-- The ranked resistor networks of a catalogue whose relative deviation from the target is at most
the bound, with at most `maxLeaves` parts. -/
def synthesize (target bound : Float) (maxLeaves : Nat) (catalog : Catalog Float) :
    Except (SearchError Float Float) (List (Finding Float Float)) :=
  let search : Search Float Float :=
    ⟨catalog.magnitudes, Settings.of target (.relative bound) maxLeaves⟩
  (search.run Clock.still).outcome.map Results.findings

end Ohmic
