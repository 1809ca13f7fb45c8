import Ohmic.Proofs.Circuit.Evaluation
import Ohmic.Proofs.Search.Layouts
import Ohmic.Search.Descent

set_option autoImplicit false

/-!
# The steps of a search

What the descent does with a layout is laid out here as a list of steps that needs no bench, no
counters and no budget: values are tried, partial networks are given up, and complete candidates
are handled. What a budget lets through of these steps is a journal.

## Main definitions

* `Layout.filled` — the tree of a layout with the values of the first slots, and one value in all
  others.
* `Layout.Assigned` — indices of values for all slots of a layout.
* `Explorer.Ready` — the values are finite, and the bounds speak of as many values.
* `Explorer.verdictOf` — what the bounds say of a partial network, from its indices alone.
* `Step`, `Explorer.descentSteps`, `Explorer.itemSteps` — the steps of a descent and of a work item.
* `Explorer.meet` — the effect of a complete candidate on a tally.
* `Journal`, `Explorer.serve` — the budget, the clock and the tally while steps are taken.

## Main results

* `Explorer.serve_append` — steps are taken one after the other.
* `Explorer.serve_of_stopped` — a stopped budget lets no step through.

## Implementation notes

The indices chosen so far are a list, so the slot to be filled next is its length. The recursion of
`Explorer.descentSteps` is that of `Explorer.descend`; only the state is gone.
-/

namespace Ohmic

/-! ## Filled layouts -/

namespace Layout

variable {β : Type}

/-- The value in a slot: the one of its index, and `rest` if the slot is still open. -/
def pick (values : List β) (rest : β) (indices : List Nat) (slot : Nat) : β :=
  (indices[slot]?.bind fun index => values[index]?).getD rest

/-- The tree of a layout with the values of the indices in the first slots and `rest` in all open
ones. -/
def filled (l : Layout) (values : List β) (rest : β) (indices : List Nat) : Tree β :=
  l.tree.map (pick values rest indices)

/-- Indices of values for all slots, where the alphabet has `width` values. -/
structure Assigned (l : Layout) (width : Nat) (indices : List Nat) : Prop where
  /-- There is an index for each slot. -/
  length_eq : indices.length = l.slots
  /-- Each of them is the index of a value. -/
  lt : ∀ i ∈ indices, i < width

/-- The first index to try in the next slot: not below the index in the slot to which it is tied. -/
def firstIndex (l : Layout) (indices : List Nat) (first : Nat) : Nat :=
  match l.minFrom[indices.length]? with
  | some (some earlier) => max first (indices.getD earlier 0)
  | _ => first

/-- Without indices every slot is open. -/
@[simp] lemma pick_nil (values : List β) (rest : β) : pick values rest [] = fun _ => rest := rfl

/-- The value of a filled slot. -/
lemma pick_of_getElem? {values : List β} {rest b : β} {indices : List Nat} {slot index : Nat}
    (hindex : indices[slot]? = some index) (hb : values[index]? = some b) :
    pick values rest indices slot = b := by
  simp [pick, hindex, hb]

/-- The value of an open slot. -/
lemma pick_of_length_le {values : List β} {rest : β} {indices : List Nat} {slot : Nat}
    (h : indices.length ≤ slot) : pick values rest indices slot = rest := by
  simp [pick, List.getElem?_eq_none h]

/-- The next slot is open. -/
lemma update_pick_length (values : List β) (rest : β) (indices : List Nat) :
    Function.update (pick values rest indices) indices.length rest = pick values rest indices := by
  rw [Function.update_eq_self_iff, pick_of_length_le (Nat.le_refl _)]

/-- One more index changes the value of the next slot only. -/
lemma pick_append_singleton {values : List β} {rest b : β} {indices : List Nat} {index : Nat}
    (hb : values[index]? = some b) :
    pick values rest (indices ++ [index]) =
      Function.update (pick values rest indices) indices.length b := by
  funext slot
  rcases Nat.lt_trichotomy slot indices.length with h | h | h
  · rw [Function.update_of_ne (Nat.ne_of_lt h)]
    simp only [pick, List.getElem?_append_left h]
  · subst h
    rw [Function.update_self]
    exact pick_of_getElem? List.getElem?_concat_length hb
  · rw [Function.update_of_ne (Nat.ne_of_gt h), pick_of_length_le (Nat.le_of_lt h),
      pick_of_length_le]
    rw [List.length_append, List.length_singleton]
    exact h

/-- All leaves of a filled layout are values, if every slot has the index of one. -/
lemma mem_of_mem_leaves_filled {l : Layout} (hl : l.Sound) {values : List β} {rest : β}
    {indices : List Nat} (h : l.Assigned values.length indices) {b : β}
    (hb : b ∈ (l.filled values rest indices).leaves) : b ∈ values := by
  rw [filled, Tree.leaves_map, hl.leaves_eq, List.mem_map] at hb
  obtain ⟨s, hs, rfl⟩ := hb
  rw [List.mem_range, ← h.length_eq] at hs
  have hindex : indices[s]? = some indices[s] := List.getElem?_eq_getElem hs
  have hvalue := List.getElem?_eq_getElem (h.lt _ (List.getElem_mem hs))
  rw [pick_of_getElem? hindex hvalue]
  exact List.getElem_mem _

end Layout

/-! ## Verdicts -/

namespace Bounds

variable {S : Type} [Scalar S]

/-- The least value of a partial network exceeds the band. -/
def exceeds (b : Bounds S) : Option S → Bool
  | some value => decide (b.high < value)
  | none => false

/-- The greatest value of a partial network falls short of the band. -/
def misses (b : Bounds S) : Option S → Bool
  | some value => decide (value < b.low)
  | none => false

/-- The verdict on the partial network of some indices. -/
def verdictOf (b : Bounds S) (l : Layout) (indices : List Nat) : Verdict :=
  if b.exceeds (l.filled b.values b.min indices).value? then .overshoot
  else if b.misses (l.filled b.values b.max indices).value? then .undershoot
  else .feasible

end Bounds

/-! ## Steps -/

/-- What the search does, piece by piece. -/
inductive Step where
  /-- A value is about to be tried. -/
  | tick
  /-- A partial network is given up. -/
  | cut
  /-- A complete candidate is handled. -/
  | candidate (indices : List Nat)
deriving DecidableEq

namespace Explorer

variable {S Z : Type} [Scalar S] [Impedance S Z]

/-- The verdict on the partial network of some indices; without bounds it may become anything. -/
def verdictOf (x : Explorer S Z) (l : Layout) (indices : List Nat) : Verdict :=
  match x.bounds with
  | none => .feasible
  | some bounds => bounds.verdictOf l indices

/-- The steps for the values of one slot, given by their indices, each followed by the steps of the
next slot, or, in the last slot, by the complete candidate. -/
def slotSteps (x : Explorer S Z) (l : Layout) (deeper : Option (List Nat → List Step))
    (indices : List Nat) : List Nat → List Step
  | [] => []
  | index :: others =>
    .tick :: match deeper with
      | none => .candidate (indices ++ [index]) :: x.slotSteps l deeper indices others
      | some steps =>
        match x.verdictOf l (indices ++ [index]) with
        | .feasible => steps (indices ++ [index]) ++ x.slotSteps l deeper indices others
        | verdict =>
          .cut :: if x.endsSlot verdict then [] else x.slotSteps l deeper indices others

omit [Impedance S Z] in
/-- A partial network that may still become acceptable is followed up. -/
lemma slotSteps_of_feasible {x : Explorer S Z} {l : Layout} {indices : List Nat} {index : Nat}
    (h : x.verdictOf l (indices ++ [index]) = .feasible) (steps : List Nat → List Step)
    (others : List Nat) : x.slotSteps l (some steps) indices (index :: others) =
      .tick :: (steps (indices ++ [index]) ++ x.slotSteps l (some steps) indices others) := by
  simp only [slotSteps, h]

omit [Impedance S Z] in
/-- Any other partial network is given up. -/
lemma slotSteps_of_cut {x : Explorer S Z} {l : Layout} {indices : List Nat} {index : Nat}
    (h : x.verdictOf l (indices ++ [index]) ≠ .feasible) (steps : List Nat → List Step)
    (others : List Nat) : x.slotSteps l (some steps) indices (index :: others) =
      .tick :: .cut :: if x.endsSlot (x.verdictOf l (indices ++ [index])) then []
        else x.slotSteps l (some steps) indices others := by
  rw [slotSteps]
  split
  · contradiction
  · rfl

/-- The steps for the slots after the indices, of which there are `after` behind the next one. -/
def descentSteps (x : Explorer S Z) (l : Layout) :
    (after first stop : Nat) → List Nat → List Step
  | 0, first, stop, indices =>
    x.slotSteps l none indices
      (List.range' (l.firstIndex indices first) (stop - l.firstIndex indices first))
  | after + 1, first, stop, indices =>
    x.slotSteps l (some (x.descentSteps l after 0 x.alphabet.length)) indices
      (List.range' (l.firstIndex indices first) (stop - l.firstIndex indices first))

/-- The steps of a work item. -/
def itemSteps (x : Explorer S Z) (l : Layout) (first : Nat) : List Step :=
  x.descentSteps l (l.slots - 1) first (first + 1) []

/-- The values are finite, and there is a positive real for each of them if there are bounds. -/
structure Ready (x : Explorer S Z) : Prop where
  /-- Every value is finite. -/
  finite : ∀ z ∈ x.alphabet, Impedance.isFinite z = true
  /-- The bounds speak of as many values. -/
  length_values : ∀ bd, x.bounds = some bd → bd.values.length = x.alphabet.length

/-- A complete candidate of finite values has no malformation. -/
lemma Ready.evaluate_ne_malformed {x : Explorer S Z} (hx : x.Ready) {l : Layout} (hl : l.Sound)
    {indices : List Nat} (h : l.Assigned x.alphabet.length indices) {position : Nat}
    {reason : Malformation} :
    (l.filled x.alphabet Impedance.zero indices).evaluate ≠ .error (.malformed position reason) :=
  Tree.evaluateAt_ne_malformed _
    (fun _ hz => hx.finite _ (Layout.mem_of_mem_leaves_filled hl h hz)) _ _ _

/-! ## Effects -/

/-- The effect of a complete candidate on a tally: it is counted as evaluated, degenerate or
overflowed, and kept if it is acceptable or the closest one so far. -/
def meet (x : Explorer S Z) (l : Layout) (layout : Nat) (t : Tally S Z) (indices : List Nat) :
    Tally S Z :=
  match (l.filled x.alphabet Impedance.zero indices).evaluate with
  | .error (.degenerate _) => { t with degenerate := t.degenerate + 1 }
  | .error (.overflow _) => { t with overflowed := t.overflowed + 1 }
  | .error (.malformed _ _) => t
  | .ok value =>
    let deviation := Deviation.of value x.target
    t.count (x.tolerance.accepts deviation.absolute deviation.relative)
      ⟨layout, indices, value, deviation⟩

end Explorer

/-- The budget, the number of values tried and the tally while steps are taken. -/
structure Journal (S Z : Type) where
  /-- The budget. -/
  budget : Budget
  /-- The values tried so far. -/
  ticks : Nat
  /-- The findings. -/
  tally : Tally S Z

namespace Explorer

variable {S Z : Type} [Scalar S] [Impedance S Z]

/-- The journal after one step. -/
def serveStep (x : Explorer S Z) (l : Layout) (layout : Nat) (j : Journal S Z) :
    Step → Journal S Z
  | .tick =>
    { j with
      ticks := j.ticks + 1
      budget := if (j.ticks + 1) % clockInterval = 0 then j.budget.look x.clock else j.budget }
  | .cut => { j with tally.pruned := j.tally.pruned + 1 }
  | .candidate indices =>
    if j.budget.grant.1 then
      { j with budget := j.budget.grant.2, tally := x.meet l layout j.tally indices }
    else { j with budget := j.budget.grant.2 }

/-- The journal after steps, none of which is taken once the budget is stopped. -/
def serve (x : Explorer S Z) (l : Layout) (layout : Nat) (j : Journal S Z) :
    List Step → Journal S Z
  | [] => j
  | step :: rest =>
    if j.budget.stopped then j else x.serve l layout (x.serveStep l layout j step) rest

/-- A stopped budget lets no step through. -/
lemma serve_of_stopped (x : Explorer S Z) (l : Layout) (layout : Nat) {j : Journal S Z}
    (h : j.budget.stopped = true) (steps : List Step) : x.serve l layout j steps = j := by
  cases steps with
  | nil => rfl
  | cons step rest => rw [serve, if_pos h]

/-- The first step of a journal with a running budget. -/
lemma serve_cons (x : Explorer S Z) (l : Layout) (layout : Nat) {j : Journal S Z}
    (h : j.budget.stopped = false) (step : Step) (rest : List Step) :
    x.serve l layout j (step :: rest) = x.serve l layout (x.serveStep l layout j step) rest := by
  rw [serve, if_neg (by rw [h]; exact Bool.false_ne_true)]

/-- Steps are taken one after the other. -/
lemma serve_append (x : Explorer S Z) (l : Layout) (layout : Nat) (j : Journal S Z)
    (steps more : List Step) :
    x.serve l layout j (steps ++ more) = x.serve l layout (x.serve l layout j steps) more := by
  induction steps generalizing j with
  | nil => rfl
  | cons step rest ih =>
    cases h : j.budget.stopped with
    | true => rw [serve_of_stopped x l layout h, serve_of_stopped x l layout h,
        serve_of_stopped x l layout h]
    | false => rw [List.cons_append, serve_cons x l layout h, serve_cons x l layout h, ih]

end Explorer

end Ohmic
