import Ohmic.Circuit.Machine
import Ohmic.Search.Bounds
import Ohmic.Search.Layout

set_option autoImplicit false

/-!
# The bench

Candidates are built and evaluated on a bench: the token sequences of one layout, in which the
search overwrites leaves in place. A bench is reused for one layout after the other.

## Main definitions

* `Bench` — the machines and the token sequences in use.
* `Bench.load` — the bench with a fresh layout.
* `Bench.place`, `Bench.fixBounds`, `Bench.freeBounds` — a value put into a slot; the bounds of a
  slot set to its value, and reset to the extreme values.
* `Bench.verdict` — what the bounds say of the partial network on the bench.
* `Defect` — a failure of the search itself.

## Implementation notes

The sequences `lower` and `upper` hold the values of the filled slots, and the least and the
greatest value in the open ones. Every look-up and every write is checked; one outside of its
sequence is a defect, which a layout made from a shape never meets.
-/

namespace Ohmic

/-- A failure of the search itself. -/
inductive Defect where
  /-- A candidate is not the form of a network. -/
  | malformed (fault : Fault)
  /-- A position lies outside of its sequence. -/
  | outOfRange
deriving DecidableEq

/-- The element at a position. -/
def readAt {α : Type} (xs : List α) (i : Nat) : Except Defect α :=
  match xs[i]? with
  | some a => .ok a
  | none => .error .outOfRange

/-- The list with another element at a position. -/
def writeAt {α : Type} (xs : List α) (i : Nat) (a : α) : Except Defect (List α) :=
  if i < xs.length then .ok (xs.set i a) else .error .outOfRange

/-- The machines and token sequences on which candidates are built. -/
structure Bench (S Z : Type) where
  /-- Evaluates candidates. -/
  machine : Machine Z := {}
  /-- Evaluates bounds. -/
  boundMachine : Machine S := {}
  /-- The candidate. -/
  tokens : List (Token Z) := []
  /-- The candidate with the least value in every open slot. -/
  lower : List (Token S) := []
  /-- The candidate with the greatest value in every open slot. -/
  upper : List (Token S) := []
  /-- The index of the value in each slot. -/
  assignment : List Nat := []
  /-- The values tried so far, over all layouts. -/
  ticks : Nat := 0

namespace Bench

/-- The tokens of a form with one value in every leaf. -/
def skeleton {α β : Type} (tokens : List (Token α)) (value : β) : List (Token β) :=
  tokens.map (Token.map fun _ => value)

variable {S Z : Type}

/-- The bench with a fresh layout. -/
def load [Impedance S Z] (b : Bench S Z) (layout : Layout) (bounds : Option (Bounds S)) :
    Bench S Z :=
  { b with
    tokens := skeleton layout.form.tokens Impedance.zero
    lower := match bounds with
      | some bounds => skeleton layout.form.tokens bounds.min
      | none => []
    upper := match bounds with
      | some bounds => skeleton layout.form.tokens bounds.max
      | none => []
    assignment := List.replicate layout.slots 0 }

/-- A value put into a slot that lies at `position`. -/
def place (b : Bench S Z) (slot position index : Nat) (value : Z) :
    Except Defect (Bench S Z) := do
  let assignment ← writeAt b.assignment slot index
  let tokens ← writeAt b.tokens position (.leaf value)
  return { b with assignment := assignment, tokens := tokens }

/-- The bounds of the slot at `position` set to two values. -/
def setBounds (b : Bench S Z) (position : Nat) (least greatest : S) :
    Except Defect (Bench S Z) := do
  let lower ← writeAt b.lower position (.leaf least)
  let upper ← writeAt b.upper position (.leaf greatest)
  return { b with lower := lower, upper := upper }

/-- The bounds of the slot at `position` set to the value in it. -/
def fixBounds (b : Bench S Z) (position : Nat) (value : S) : Except Defect (Bench S Z) :=
  b.setBounds position value value

/-- The bounds of the slot at `position` reset to the extreme values. -/
def freeBounds (b : Bench S Z) (position : Nat) (bounds : Option (Bounds S)) :
    Except Defect (Bench S Z) :=
  match bounds with
  | none => .ok b
  | some bounds => b.setBounds position bounds.min bounds.max

/-- What the bounds say of the partial network: an overshoot if its least value exceeds the band,
an undershoot if its greatest value falls short of it. A bound without a value says nothing. -/
def verdict [Scalar S] (b : Bench S Z) (bounds : Bounds S) : Verdict × Bench S Z :=
  let (least, machine) := b.boundMachine.evaluate b.lower
  let overshoots := match least with
    | .ok value => decide (bounds.high < value)
    | .error _ => false
  if overshoots then (.overshoot, { b with boundMachine := machine })
  else
    let (greatest, machine) := machine.evaluate b.upper
    let undershoots := match greatest with
      | .ok value => decide (value < bounds.low)
      | .error _ => false
    (if undershoots then .undershoot else .feasible, { b with boundMachine := machine })

end Bench

end Ohmic
