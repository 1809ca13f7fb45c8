import Mathlib.Data.List.TakeDrop
import Ohmic.Proofs.Search.Steps

set_option autoImplicit false

/-!
# What stands on the bench

The search builds its candidates in place. A bench that holds the values of some indices in its
first slots is described by those indices alone, and each operation on the bench is described by
what it does to them. No operation fails on the bench of a sound layout.

## Main definitions

* `Bench.Filled` — the candidate on the bench holds the values of the indices chosen so far.
* `Bench.Bounded` — the bounds on the bench are those of the same indices.
* `Bench.BoundedBut` — the same, but for the next slot, in which the bounds are arbitrary.

## Main results

* `Bench.place_of_filled` — placing a value adds an index.
* `Bench.fixBounds_of_boundedBut`, `Bench.freeBounds_of_boundedBut` — the bounds follow, and are
  reset.
* `Bench.verdict_of_bounded` — the verdict on the bench is the verdict on the indices.

## Implementation notes

What the open slots of the candidate hold is left over from earlier candidates, so `Bench.Filled`
says nothing of it. The open slots of the bounds always hold the extreme values, the one slot apart
that a loop is working on.
-/

namespace Ohmic

variable {S Z : Type}

/-! ## The bench -/

/-- A write inside of a list succeeds. -/
lemma writeAt_of_lt {α : Type} {xs : List α} {i : Nat} (h : i < xs.length) (a : α) :
    writeAt xs i a = .ok (xs.set i a) := if_pos h

/-- A look-up of an element succeeds. -/
lemma readAt_of_getElem? {α : Type} {xs : List α} {i : Nat} {a : α} (h : xs[i]? = some a) :
    readAt xs i = .ok a := by
  rw [readAt, h]

namespace Bench

/-- The candidate on the bench holds the values of the indices in the first slots. What the open
slots hold is left over from earlier candidates. -/
structure Filled [Impedance S Z] (alphabet : List Z) (l : Layout) (indices : List Nat)
    (b : Bench S Z) : Prop where
  /-- Each slot has a place for its index. -/
  length_assignment : b.assignment.length = l.slots
  /-- The first slots hold the indices. -/
  take_assignment : b.assignment.take indices.length = indices
  /-- The tokens are those of the layout, with the values of the indices in the first slots. -/
  tokens : ∃ f : Nat → Z, b.tokens = l.tree.tokens.map (Token.map f) ∧
    ∀ s < indices.length, f s = Layout.pick alphabet Impedance.zero indices s

/-- The bounds on the bench hold the values of the indices in the first slots, two arbitrary
values in the next slot, and the extreme values in all others. -/
def BoundedBut (bounds : Option (Bounds S)) (l : Layout) (indices : List Nat) (b : Bench S Z) :
    Prop :=
  ∀ bd, bounds = some bd → ∃ least greatest : S,
    b.lower = l.tree.tokens.map
      (Token.map (Function.update (Layout.pick bd.values bd.min indices) indices.length least)) ∧
    b.upper = l.tree.tokens.map
      (Token.map (Function.update (Layout.pick bd.values bd.max indices) indices.length greatest))

/-- The bounds on the bench hold the values of the indices in the first slots, and the extreme
values in all others. -/
def Bounded (bounds : Option (Bounds S)) (l : Layout) (indices : List Nat) (b : Bench S Z) :
    Prop :=
  ∀ bd, bounds = some bd →
    b.lower = (l.filled bd.values bd.min indices).tokens ∧
    b.upper = (l.filled bd.values bd.max indices).tokens

section

variable [Impedance S Z] {alphabet : List Z} {bounds : Option (Bounds S)} {l : Layout}
  {indices : List Nat} {b : Bench S Z}

omit [Impedance S Z] in
/-- The bounds of the indices leave the next slot at the extreme values. -/
lemma Bounded.but (h : b.Bounded bounds l indices) : b.BoundedBut bounds l indices := by
  intro bd hbd
  obtain ⟨hlow, hup⟩ := h bd hbd
  refine ⟨bd.min, bd.max, ?_, ?_⟩
  · rw [hlow, Layout.filled, Tree.tokens_map, Layout.update_pick_length]
  · rw [hup, Layout.filled, Tree.tokens_map, Layout.update_pick_length]

omit [Impedance S Z] in
/-- The bounds of one more index leave the bounds of the indices before it. -/
lemma Bounded.butLast {index : Nat}
    (hindex : ∀ bd, bounds = some bd → index < bd.values.length)
    (h : b.Bounded bounds l (indices ++ [index])) : b.BoundedBut bounds l indices := by
  intro bd hbd
  obtain ⟨hlow, hup⟩ := h bd hbd
  obtain ⟨value, hvalue⟩ : ∃ value, bd.values[index]? = some value :=
    ⟨_, List.getElem?_eq_getElem (hindex bd hbd)⟩
  refine ⟨value, value, ?_, ?_⟩
  · rw [hlow, Layout.filled, Tree.tokens_map, Layout.pick_append_singleton hvalue]
  · rw [hup, Layout.filled, Tree.tokens_map, Layout.pick_append_singleton hvalue]

/-- The candidate of one more index is one of the indices before it. -/
lemma Filled.butLast {index : Nat} (h : b.Filled alphabet l (indices ++ [index])) :
    b.Filled alphabet l indices := by
  obtain ⟨hlen, htake, f, htokens, hf⟩ := h
  rw [List.length_append, List.length_singleton] at htake hf
  refine ⟨hlen, ?_, f, htokens, fun s hs => ?_⟩
  · have hshort := congrArg (List.take indices.length) htake
    rwa [List.take_take, Nat.min_eq_left (Nat.le_succ _), List.take_left] at hshort
  · rw [hf s (Nat.lt_succ_of_lt hs)]
    simp only [Layout.pick, List.getElem?_append_left hs]

/-- The index in an earlier slot. -/
lemma Filled.getElem?_assignment (h : b.Filled alphabet l indices) {s : Nat}
    (hs : s < indices.length) : b.assignment[s]? = indices[s]? := by
  rw [← List.getElem?_take_of_lt hs, h.take_assignment]

/-- All slots of a complete candidate hold its indices. -/
lemma Filled.assignment_eq (h : b.Filled alphabet l indices) (hall : indices.length = l.slots) :
    b.assignment = indices := by
  rw [← h.take_assignment, hall, ← h.length_assignment, List.take_length]

/-- The tokens of a complete candidate are those of the filled tree. -/
lemma Filled.tokens_eq (h : b.Filled alphabet l indices) (hl : l.Sound)
    (hall : indices.length = l.slots) :
    b.tokens = (l.filled alphabet Impedance.zero indices).tokens := by
  obtain ⟨f, htokens, hf⟩ := h.tokens
  rw [htokens, ← Tree.tokens_map, Layout.filled]
  congr 1
  refine Tree.map_congr fun s hs => hf s ?_
  rw [hl.leaves_eq, List.mem_range] at hs
  omega

/-- A fresh layout on the bench holds no indices yet. -/
lemma filled_load (b : Bench S Z) (hl : l.Sound) (bounds : Option (Bounds S)) :
    (b.load l bounds).Filled alphabet l [] where
  length_assignment := List.length_replicate
  take_assignment := rfl
  tokens := by
    refine ⟨fun _ => Impedance.zero, ?_, fun s hs => by cases hs⟩
    simp only [load, hl.form_eq]
    rfl

/-- The bounds of a fresh layout are the extreme values. -/
lemma bounded_load (b : Bench S Z) (hl : l.Sound) (bounds : Option (Bounds S)) :
    (b.load l bounds).Bounded bounds l [] := by
  rintro bd rfl
  constructor <;>
  · simp only [load, hl.form_eq, Layout.filled, Tree.tokens_map, Layout.pick_nil]
    rfl

/-- Placing a value in the next slot.

**Proof sketch.** Both writes stay inside of their buffers, as the slot is one of the layout and its
position is that of a token. The new assignment begins with one more index, and the new tokens are
those of the filled tree with the value in that slot, which a sound layout writes at this
position. -/
lemma place_of_filled (h : b.Filled alphabet l indices) (hl : l.Sound)
    (hslot : indices.length < l.slots) {position index : Nat} {value : Z}
    (hposition : l.slotPositions[indices.length]? = some position)
    (hvalue : alphabet[index]? = some value) :
    ∃ b', b.place indices.length position index value = .ok b' ∧
      b'.Filled alphabet l (indices ++ [index]) ∧ b'.lower = b.lower ∧ b'.upper = b.upper ∧
      b'.ticks = b.ticks := by
  obtain ⟨f, htokens, hf⟩ := h.tokens
  obtain ⟨place, hplace, hlt, hset⟩ := hl.write indices.length hslot
  obtain rfl : place = position := Option.some.inj (hplace.symm.trans hposition)
  have hassigned : indices.length < b.assignment.length := h.length_assignment ▸ hslot
  have hwritten : place < b.tokens.length := by rwa [htokens, List.length_map]
  refine ⟨{ b with assignment := b.assignment.set indices.length index,
                   tokens := b.tokens.set place (.leaf value) }, ?_, ⟨?_, ?_, ?_⟩, rfl, rfl, rfl⟩
  · rw [Bench.place, writeAt_of_lt hassigned, writeAt_of_lt hwritten]
    rfl
  · rw [List.length_set, h.length_assignment]
  · rw [List.length_append, List.length_singleton, List.take_succ_eq_append_getElem (by
      rwa [List.length_set]), List.take_set_of_le (Nat.le_refl _), h.take_assignment,
      List.getElem_set_self]
  · refine ⟨Function.update f indices.length value, ?_, fun s hs => ?_⟩
    · rw [htokens]
      exact hset f value
    · rw [Layout.pick_append_singleton hvalue]
      rw [List.length_append, List.length_singleton] at hs
      rcases Nat.lt_or_eq_of_le (Nat.le_of_lt_succ hs) with hs | rfl
      · rw [Function.update_of_ne (Nat.ne_of_lt hs), Function.update_of_ne (Nat.ne_of_lt hs),
          hf s hs]
      · rw [Function.update_self, Function.update_self]

omit [Impedance S Z] in
/-- Setting the bounds of the next slot, whatever was in it. -/
lemma setBounds_of_boundedBut {bd : Bounds S} (h : b.BoundedBut (some bd) l indices)
    (hl : l.Sound) (hslot : indices.length < l.slots) {position : Nat}
    (hposition : l.slotPositions[indices.length]? = some position) (least greatest : S) :
    ∃ b', b.setBounds position least greatest = .ok b' ∧
      b'.lower = l.tree.tokens.map (Token.map
        (Function.update (Layout.pick bd.values bd.min indices) indices.length least)) ∧
      b'.upper = l.tree.tokens.map (Token.map
        (Function.update (Layout.pick bd.values bd.max indices) indices.length greatest)) ∧
      b'.tokens = b.tokens ∧ b'.assignment = b.assignment ∧ b'.ticks = b.ticks := by
  obtain ⟨least', greatest', hlow, hup⟩ := h bd rfl
  obtain ⟨place, hplace, hlt, hset⟩ := hl.write indices.length hslot
  obtain rfl : place = position := Option.some.inj (hplace.symm.trans hposition)
  have hlower : place < b.lower.length := by rwa [hlow, List.length_map]
  have hupper : place < b.upper.length := by rwa [hup, List.length_map]
  refine ⟨{ b with lower := b.lower.set place (.leaf least),
                   upper := b.upper.set place (.leaf greatest) }, ?_, ?_, ?_, rfl, rfl, rfl⟩
  · rw [setBounds, writeAt_of_lt hlower, writeAt_of_lt hupper]
    rfl
  · simp only [hlow, hset, Function.update_idem]
  · simp only [hup, hset, Function.update_idem]

omit [Impedance S Z] in
/-- The tokens, the assignment and the ticks decide whether a bench is filled. -/
lemma Filled.congr [Impedance S Z] {b' : Bench S Z} (h : b.Filled alphabet l indices)
    (htokens : b'.tokens = b.tokens) (hassignment : b'.assignment = b.assignment) :
    b'.Filled alphabet l indices where
  length_assignment := hassignment ▸ h.length_assignment
  take_assignment := hassignment ▸ h.take_assignment
  tokens := htokens ▸ h.tokens

omit [Impedance S Z] in
/-- Fixing the bounds of the next slot to the value of an index. -/
lemma fixBounds_of_boundedBut {bd : Bounds S} (h : b.BoundedBut (some bd) l indices)
    (hl : l.Sound) (hslot : indices.length < l.slots) {position index : Nat} {value : S}
    (hposition : l.slotPositions[indices.length]? = some position)
    (hvalue : bd.values[index]? = some value) :
    ∃ b', b.fixBounds position value = .ok b' ∧ b'.Bounded (some bd) l (indices ++ [index]) ∧
      b'.tokens = b.tokens ∧ b'.assignment = b.assignment ∧ b'.ticks = b.ticks := by
  obtain ⟨b', hset, hlow, hup, hframe⟩ :=
    setBounds_of_boundedBut h hl hslot hposition value value
  refine ⟨b', hset, ?_, hframe⟩
  intro bd' hbd'
  obtain rfl := Option.some.inj hbd'
  rw [Layout.filled, Layout.filled, Tree.tokens_map, Tree.tokens_map,
    Layout.pick_append_singleton hvalue, Layout.pick_append_singleton hvalue]
  exact ⟨hlow, hup⟩

omit [Impedance S Z] in
/-- Freeing the bounds of the next slot. -/
lemma freeBounds_of_boundedBut (h : b.BoundedBut bounds l indices) (hl : l.Sound)
    (hslot : indices.length < l.slots) {position : Nat}
    (hposition : l.slotPositions[indices.length]? = some position) :
    ∃ b', b.freeBounds position bounds = .ok b' ∧ b'.Bounded bounds l indices ∧
      b'.tokens = b.tokens ∧ b'.assignment = b.assignment ∧ b'.ticks = b.ticks := by
  cases bounds with
  | none =>
    refine ⟨b, rfl, ?_, rfl, rfl, rfl⟩
    intro bd hbd
    cases hbd
  | some bd =>
    obtain ⟨b', hset, hlow, hup, hframe⟩ :=
      setBounds_of_boundedBut h hl hslot hposition bd.min bd.max
    refine ⟨b', hset, ?_, hframe⟩
    intro bd' hbd'
    obtain rfl := Option.some.inj hbd'
    rw [Layout.update_pick_length] at hlow hup
    rw [Layout.filled, Layout.filled, Tree.tokens_map, Tree.tokens_map]
    exact ⟨hlow, hup⟩

end

/-- **The verdict on the bench** is the verdict on the indices.

**Proof sketch.** The buffers of both bounds hold the tokens of trees, whose values the machine
finds whatever was on its stack (`Machine.evaluate_tokens`). The verdict reads them as the one on
the indices does, and only the machine of the bench is another one afterwards. -/
lemma verdict_of_bounded [Scalar S] {bd : Bounds S} {l : Layout} {indices : List Nat}
    {b : Bench S Z} (h : b.Bounded (some bd) l indices) :
    ∃ machine, b.verdict bd =
      (bd.verdictOf l indices, { b with boundMachine := machine }) := by
  obtain ⟨hlow, hup⟩ := h bd rfl
  have hleast : ∀ m : Machine S, (m.evaluate b.lower).1.toOption =
      (l.filled bd.values bd.min indices).value? := fun m => by
    rw [hlow, Machine.evaluate_tokens, Tree.toOption_evaluate]
  have hgreatest : ∀ m : Machine S, (m.evaluate b.upper).1.toOption =
      (l.filled bd.values bd.max indices).value? := fun m => by
    rw [hup, Machine.evaluate_tokens, Tree.toOption_evaluate]
  have hlower := hleast b.boundMachine
  rcases hm : b.boundMachine.evaluate b.lower with ⟨least, machine⟩
  have hupper := hgreatest machine
  rcases hm' : machine.evaluate b.upper with ⟨greatest, machine'⟩
  rw [hm] at hlower
  rw [hm'] at hupper
  simp only [verdict, Bounds.verdictOf, hm, hm', ← hlower, ← hupper]
  -- without a least value, or with one inside of the band, the greatest value decides
  cases least with
  | error fault =>
    refine ⟨machine', ?_⟩
    cases greatest <;> rfl
  | ok value =>
    simp only [Except.toOption, Bounds.exceeds]
    by_cases hover : bd.high < value
    · exact ⟨machine, by simp only [hover, decide_true, if_true]⟩
    · simp only [hover, decide_false, Bool.false_eq_true, if_false]
      refine ⟨machine', ?_⟩
      cases greatest <;> rfl

end Bench

end Ohmic
