import Ohmic.Search.Bench
import Ohmic.Search.Budget

set_option autoImplicit false

/-!
# The descent through the slots of a layout

A work item is a layout and the index of the value in its first slot. The search fills the other
slots one after the other, every slot with the values of the alphabet in their order, and
evaluates each complete candidate.

## Main definitions

* `Candidate` — an evaluated assignment of values to slots.
* `Tally` — what was found and counted in one work item.
* `Explorer` — what stays fixed during a search.
* `Explorer.record` — the effect of a complete candidate.
* `Explorer.descend` — the slots from one on.
* `Explorer.explore` — a work item.

## Implementation notes

`Explorer.fillSlot` goes through the values of one slot and is given the descent into the next
slot, so `Explorer.descend` recurses on the number of slots after the current one. The budget is
looked at before every value: at the clock each 64th time, else only at whether it was stopped.
A stopped budget ends the loops of all slots, and every further work item before it starts.
-/

namespace Ohmic

/-- An evaluated assignment of values to the slots of a layout. -/
structure Candidate (S Z : Type) where
  /-- The place of the layout in the list of layouts. -/
  layout : Nat
  /-- The index of the value in each slot. -/
  indices : List Nat
  /-- The impedance. -/
  value : Z
  /-- The deviation from the target. -/
  deviation : Deviation S Z

/-- What one work item found and counted. -/
structure Tally (S Z : Type) where
  /-- The acceptable candidates in the order in which they were met. -/
  hits : List (Candidate S Z) := []
  /-- The first of the candidates of least relative deviation. -/
  closest : Option (Candidate S Z) := none
  /-- Candidates with an impedance. -/
  evaluated : Nat := 0
  /-- Partial networks given up because of the bounds. -/
  pruned : Nat := 0
  /-- Candidates with a cancelling connection. -/
  degenerate : Nat := 0
  /-- Candidates with a combination that is not finite. -/
  overflowed : Nat := 0

/-- What changes during a search. -/
structure Exploration (S Z : Type) where
  /-- The bench. -/
  bench : Bench S Z
  /-- The budget. -/
  budget : Budget
  /-- The findings of the current work item. -/
  tally : Tally S Z := {}

/-- What stays fixed during a search. -/
structure Explorer (S Z : Type) where
  /-- The values to build with. -/
  alphabet : List Z
  /-- The target. -/
  target : Z
  /-- The tolerance. -/
  tolerance : Tolerance S
  /-- The bounds, if they are available. -/
  bounds : Option (Bounds S)
  /-- The clock. -/
  clock : Clock

/-- The number of values after which the clock is looked at again. -/
def clockInterval : Nat := 64

namespace Tally

variable {S Z : Type} [Scalar S]

/-- A candidate nearer to the target than the closest one so far, if there is one. -/
def isCloser (deviation : Deviation S Z) : Option (Candidate S Z) → Bool
  | none => true
  | some best => decide (deviation.relative < best.deviation.relative)

/-- The tally after a candidate with an impedance. -/
def count (t : Tally S Z) (accepted : Bool) (c : Candidate S Z) : Tally S Z :=
  { t with
    evaluated := t.evaluated + 1
    hits := if accepted then t.hits ++ [c] else t.hits
    closest := if isCloser c.deviation t.closest then some c else t.closest }

end Tally

namespace Explorer

variable {S Z : Type} [Scalar S] [Impedance S Z]

/-- One more value is about to be tried. -/
def tick (x : Explorer S Z) (e : Exploration S Z) : Exploration S Z :=
  let ticks := e.bench.ticks + 1
  { e with
    bench := { e.bench with ticks := ticks }
    budget := if ticks % clockInterval = 0 then e.budget.look x.clock else e.budget }

/-- The effect of the complete candidate on the bench: it is evaluated and counted, and kept if it
is acceptable or the closest one so far. -/
def record (x : Explorer S Z) (layout : Nat) (e : Exploration S Z) :
    Except Defect (Exploration S Z) :=
  let (result, machine) := e.bench.machine.evaluate e.bench.tokens
  let bench := { e.bench with machine := machine }
  match result with
  | .error (.degenerate _) =>
    .ok { e with bench := bench, tally.degenerate := e.tally.degenerate + 1 }
  | .error (.overflow _) =>
    .ok { e with bench := bench, tally.overflowed := e.tally.overflowed + 1 }
  | .error (.malformed position reason) => .error (.malformed (.malformed position reason))
  | .ok value =>
    let deviation := Deviation.of value x.target
    let accepted := x.tolerance.accepts deviation.absolute deviation.relative
    let candidate := ⟨layout, bench.assignment, value, deviation⟩
    .ok { e with bench := bench, tally := e.tally.count accepted candidate }

/-- The candidate on the bench, if the budget grants one more. -/
def finish (x : Explorer S Z) (layout : Nat) (e : Exploration S Z) :
    Except Defect (Bool × Exploration S Z) :=
  match e.budget.grant with
  | (false, budget) => .ok (false, { e with budget := budget })
  | (true, budget) => do
    let e ← x.record layout { e with budget := budget }
    return (true, e)

/-- What the bounds say of the network on the bench once the slot at `position` holds the value
of an index. A cut is counted. -/
def judge (x : Explorer S Z) (position index : Nat) (e : Exploration S Z) :
    Except Defect (Verdict × Exploration S Z) :=
  match x.bounds with
  | none => .ok (.feasible, e)
  | some bounds => do
    let value ← readAt bounds.values index
    let bench ← e.bench.fixBounds position value
    let (verdict, bench) := bench.verdict bounds
    match verdict with
    | .feasible => return (.feasible, { e with bench := bench })
    | cut => return (cut, { e with bench := bench, tally.pruned := e.tally.pruned + 1 })

/-- No later value of the slot can do better after an overshoot. -/
def endsSlot (x : Explorer S Z) (verdict : Verdict) : Bool :=
  match verdict, x.bounds with
  | .overshoot, some bounds => bounds.ascending
  | _, _ => false

/-- The values of one slot, given by their indices, each followed by the descent into the next
slot, or, in the last slot, by the complete candidate. -/
def fillSlot (x : Explorer S Z) (layout slot position : Nat)
    (deeper : Option (Exploration S Z → Except Defect (Exploration S Z))) :
    List Nat → Exploration S Z → Except Defect (Exploration S Z)
  | [], e => .ok e
  | index :: rest, e => do
    let e := x.tick e
    if e.budget.stopped then return e
    let value ← readAt x.alphabet index
    let bench ← e.bench.place slot position index value
    let e := { e with bench := bench }
    match deeper with
    | none =>
      let (granted, e) ← x.finish layout e
      if granted then x.fillSlot layout slot position deeper rest e else return e
    | some descend =>
      let (verdict, e) ← x.judge position index e
      match verdict with
      | .feasible =>
        let e ← descend e
        x.fillSlot layout slot position deeper rest e
      | cut =>
        if x.endsSlot cut then return e else x.fillSlot layout slot position deeper rest e

/-- One slot with the indices from `first` on and below `stop`, but none before the index in the
slot to which it is tied. The bounds of the slot are reset in the end. -/
def fillFrom (x : Explorer S Z) (layouts : List Layout) (layout slot first stop : Nat)
    (deeper : Option (Exploration S Z → Except Defect (Exploration S Z)))
    (e : Exploration S Z) : Except Defect (Exploration S Z) := do
  let l ← readAt layouts layout
  let position ← readAt l.slotPositions slot
  let tie ← readAt l.minFrom slot
  let start ← match tie with
    | none => pure first
    | some earlier => do
      let index ← readAt e.bench.assignment earlier
      pure (max first index)
  let e ← x.fillSlot layout slot position deeper (List.range' start (stop - start)) e
  let bench ← e.bench.freeBounds position x.bounds
  return { e with bench := bench }

/-- The slots from `slot` on, of which there are `after` behind it. The later slots take every
value of the alphabet. -/
def descend (x : Explorer S Z) (layouts : List Layout) (layout : Nat) :
    (after slot first stop : Nat) → Exploration S Z → Except Defect (Exploration S Z)
  | 0, slot, first, stop, e => x.fillFrom layouts layout slot first stop none e
  | after + 1, slot, first, stop, e =>
    x.fillFrom layouts layout slot first stop
      (some (x.descend layouts layout after (slot + 1) 0 x.alphabet.length)) e

/-- Every assignment of a layout whose first slot holds the value of index `first`. The clock is
looked at first, and nothing is done once the budget is stopped. -/
def explore (x : Explorer S Z) (layouts : List Layout) (layout first : Nat)
    (bench : Bench S Z) (budget : Budget) : Except Defect (Exploration S Z) := do
  let budget := budget.look x.clock
  if budget.stopped then return { bench := bench, budget := budget }
  let l ← readAt layouts layout
  let start : Exploration S Z := { bench := bench.load l x.bounds, budget := budget }
  x.descend layouts layout (l.slots - 1) 0 first (first + 1) start

/-- The work items one after the other on one bench, with the tallies of those already done, the
latest first. -/
def exploreAll (x : Explorer S Z) (layouts : List Layout) (bench : Bench S Z) (budget : Budget)
    (done : List (Tally S Z)) : List (Nat × Nat) → Except Defect (List (Tally S Z) × Budget)
  | [] => .ok (done.reverse, budget)
  | (layout, first) :: rest =>
    match x.explore layouts layout first bench budget with
    | .error defect => .error defect
    | .ok e => x.exploreAll layouts e.bench e.budget (e.tally :: done) rest

/-- The work items of the layouts in search order: every layout with every first value. -/
def workItems (layouts : List Layout) (width : Nat) : List (Nat × Nat) :=
  (List.range layouts.length).flatMap fun layout => (List.range width).map fun first =>
    (layout, first)

end Explorer

end Ohmic
