import Ohmic.Proofs.Circuit.FlatLeaves

set_option autoImplicit false

/-!
# Reordered networks

The children of a group can be put in another order, at any depth of a flat network. The canonical
form of a network is such a reordering of it, and a change of the leaves keeps reorderings.

## Main definitions

* `Flat.Reordered` — the children of one group in another order.
* `Flat.Reordering` — finitely many of these.

## Main results

* `Flat.reordering_canonical` — the canonical form is a reordering.
* `Flat.Reordering.map`, `Tree.flatten_map` — changed leaves.
-/

namespace Ohmic

namespace Flat

variable {α β : Type}

/-! ## Reordering -/

/-- One network is another with the children of one group in another order, at the root or
deeper. -/
inductive Reordered : Flat α → Flat α → Prop where
  /-- The children of the group at the root in another order. -/
  | children (c : Connection) {xs ys : List (Flat α)} (h : xs.Perm ys) :
    Reordered (group c xs) (group c ys)
  /-- A reordered child among the others. -/
  | child (c : Connection) (before after : List (Flat α)) {x y : Flat α} (h : Reordered x y) :
    Reordered (group c (before ++ x :: after)) (group c (before ++ y :: after))

/-- Finitely many changes of order. -/
abbrev Reordering : Flat α → Flat α → Prop := Relation.ReflTransGen Reordered

/-- Reordered children make a reordered group. -/
lemma Reordering.group (c : Connection) (before : List (Flat α)) {xs ys : List (Flat α)}
    (h : List.Forall₂ Reordering xs ys) :
    Reordering (group c (before ++ xs)) (group c (before ++ ys)) := by
  induction h generalizing before with
  | nil => exact .refl
  | @cons x y xs ys hxy _ ih =>
    have hfirst : Reordering (.group c (before ++ x :: xs)) (.group c (before ++ y :: xs)) :=
      hxy.lift (fun z => Flat.group c (before ++ z :: xs)) fun _ _ h => .child c before xs h
    have hrest := ih (before ++ [y])
    rw [List.append_assoc, List.append_assoc] at hrest
    exact hfirst.trans hrest

mutual

/-- **The canonical form** is a reordering of the network. -/
lemma reordering_canonical [Ord α] : ∀ n : Flat α, Reordering n n.canonical
  | leaf _ => .refl
  | .group c xs =>
    (Reordering.group c [] (reordering_canonicalAll xs)).trans
      (.single (.children c (stableSort_perm _ _).symm))

/-- The canonical forms of networks are reorderings of these. -/
lemma reordering_canonicalAll [Ord α] :
    ∀ xs : List (Flat α), List.Forall₂ Reordering xs (canonicalAll xs)
  | [] => .nil
  | x :: xs => .cons (reordering_canonical x) (reordering_canonicalAll xs)

end

/-- A reordering has the same leaves. -/
lemma Reordered.leaves_perm {n m : Flat α} (h : Reordered n m) : n.leaves.Perm m.leaves := by
  induction h with
  | children c h => exact leavesAll_perm h
  | child c before after _ ih =>
    simp only [leaves, leavesAll_eq_flatMap, List.flatMap_append, List.flatMap_cons]
    exact (ih.append_right _).append_left _

/-- So has a row of reorderings. -/
lemma Reordering.leaves_perm {n m : Flat α} (h : Reordering n m) : n.leaves.Perm m.leaves := by
  induction h with
  | refl => exact .refl _
  | tail _ h ih => exact ih.trans h.leaves_perm

/-! ## Changed leaves -/

/-- Changed networks are a list of changed networks. -/
lemma mapAll_eq_map (f : α → β) (xs : List (Flat α)) : mapAll f xs = xs.map (map f) := by
  induction xs with
  | nil => rfl
  | cons x xs ih => rw [mapAll, ih, List.map_cons]

/-- A change of the leaves keeps the order of the children. -/
lemma Reordered.map (f : α → β) {n m : Flat α} (h : Reordered n m) :
    Reordered (n.map f) (m.map f) := by
  induction h with
  | children c h =>
    rw [Flat.map, Flat.map, mapAll_eq_map, mapAll_eq_map]
    exact .children c (h.map _)
  | child c before after _ ih =>
    simp only [Flat.map, mapAll_eq_map, List.map_append, List.map_cons]
    exact .child c _ _ ih

/-- A change of the leaves keeps a row of reorderings. -/
lemma Reordering.map (f : α → β) {n m : Flat α} (h : Reordering n m) :
    Reordering (n.map f) (m.map f) := h.lift (Flat.map f) fun _ _ h => h.map f

/-- What a changed network contributes to a group is what it contributed before, changed. -/
lemma spread_map (f : α → β) (c : Connection) (n : Flat α) :
    (n.map f).spread c = (n.spread c).map (map f) := by
  cases n with
  | leaf a => rfl
  | group d xs =>
    by_cases hd : d = c
    · simp only [map, spread, hd, if_true, mapAll_eq_map]
    · simp only [map, spread, hd, if_false, List.map_cons, List.map_nil]

/-- The sizes of changed networks order them as before. -/
lemma sortBySize_map (f : α → β) (xs : List (Flat α)) :
    sortBySize (xs.map (map f)) = (sortBySize xs).map (map f) :=
  stableSort_map fun x _ y _ => by rw [size_map, size_map]

end Flat

/-- **The flat form of a changed tree** is the changed flat form: flattening does not look at the
leaves. -/
lemma Tree.flatten_map {α β : Type} (f : α → β) (t : Tree α) :
    (t.map f).flatten = t.flatten.map f := by
  induction t with
  | leaf a => rfl
  | node c l r ihl ihr =>
    rw [map, flatten, ihl, ihr, flatten, Flat.map, Flat.mapAll_eq_map, Flat.spread_map,
      Flat.spread_map, ← List.map_append, Flat.sortBySize_map]

end Ohmic
