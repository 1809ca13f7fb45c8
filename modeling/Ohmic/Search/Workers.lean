import Ohmic.Search.Run

set_option autoImplicit false

/-!
# A search that is shared by workers

The work items of a level may be shared out among workers. Each of them has one bench for all of
its work items, and takes these in an order of its own. What they find is put together in search
order, as if it came from one worker.

## Main definitions

* `Explorer.workOff` — the outcomes of a worker.
* `Explorer.collect` — the outcomes of all workers in search order.
* `Search.runShared` — the whole search.

## Implementation notes

A worker goes on with the bench of its last work item. The workers share one budget. Without a time
limit and a limit on candidates no request changes it, and only such searches are described here.
-/

namespace Ohmic

variable {S Z : Type} [Scalar S] [Impedance S Z]

namespace Explorer

/-- The outcomes of a worker: its work items one after the other on one bench, each with its tally.
After a defect the bench is as it was. -/
def workOff (x : Explorer S Z) (layouts : List Layout) (budget : Budget) (bench : Bench S Z) :
    List (Nat × Nat) → List ((Nat × Nat) × Except Defect (Tally S Z))
  | [] => []
  | item :: rest =>
    match x.explore layouts item.1 item.2 bench budget with
    | .error defect => (item, .error defect) :: x.workOff layouts budget bench rest
    | .ok e => (item, .ok e.tally) :: x.workOff layouts budget e.bench rest

omit [Scalar S] [Impedance S Z] in
/-- The tallies of work items, in their order, or the first of their defects. -/
def collect (outcomes : List ((Nat × Nat) × Except Defect (Tally S Z))) (work : List (Nat × Nat)) :
    Except Defect (List (Tally S Z)) :=
  work.mapM fun item =>
    match outcomes.lookup item with
    | some outcome => outcome
    | none => .error .outOfRange

end Explorer

namespace Search

/-- The networks with a number of leaves, tried by workers to whom the work items are shared out.
Each of them has a fresh bench. -/
def runLevelShared (s : Search S Z) (clock : Clock) (leaves : Nat)
    (shares : List (List (Nat × Nat))) (budget : Budget) (p : Progress S Z) :
    Except Defect (Progress S Z) := do
  let layouts := Layout.withLeaves leaves
  let work := Explorer.workItems layouts s.alphabet.length
  let outcomes := shares.flatMap ((s.explorer clock).workOff layouts budget {})
  let tallies ← Explorer.collect outcomes work
  let (level, p) ← p.absorb s.alphabet { leaves := leaves, layouts := layouts } tallies
  return p.close level budget.stopped

/-- So many more levels, the first of which has `leaves` leaves. -/
def runLevelsShared (s : Search S Z) (clock : Clock) (shares : Nat → List (List (Nat × Nat))) :
    (count leaves : Nat) → Budget → Progress S Z → Except Defect (Progress S Z)
  | 0, _, _, p => .ok p
  | count + 1, leaves, budget, p =>
    match s.runLevelShared clock leaves (shares leaves) budget p with
    | .error defect => .error defect
    | .ok p =>
      if s.continues budget p then s.runLevelsShared clock shares count (leaves + 1) budget p
      else .ok p

/-- The search, shared by workers: for each number of leaves the work items of each of them. -/
def runShared (s : Search S Z) (clock : Clock) (shares : Nat → List (List (Nat × Nat))) :
    Report S Z :=
  match s.check with
  | .error reason => ⟨[], .error (.settings reason)⟩
  | .ok () =>
    match s.runLevelsShared clock shares s.settings.maxLeaves 1 (Budget.ofSettings s.settings)
      {} with
    | .error defect => ⟨[], .error (.defect defect)⟩
    | .ok p => ⟨p.levels.reverse, s.conclude p⟩

end Search

end Ohmic
