import Ohmic.Proofs.Circuit.Reordering

set_option autoImplicit false

/-!
# The order of children

The canonical form of a network puts the children of every group in order, from the inside out. It
depends on nothing but which children there are: reordered networks have one canonical form, and a
network can be reordered to any other one with its canonical form. The order sees the leaves only
through their own order, so a change of the leaves that keeps this order can be made before or
after.

## Main results

* `Flat.Reordered.canonical_eq` — reordering keeps the canonical form.
* `Flat.canonical_eq_iff_reordered` — exactly the reordered networks have one canonical form.
* `Flat.compare_map`, `Flat.canonical_map` — the order and the canonical form of networks with
  changed leaves.

## Implementation notes

Nothing is assumed of the networks: groups may be empty, have a single child, or have a child of
the same connection.
-/

namespace Ohmic.Flat

variable {α β : Type}

/-! ## Reordered networks -/

/-- A change of order can be undone. -/
lemma Reordered.symm {n m : Flat α} (h : Reordered n m) : Reordered m n := by
  induction h with
  | children c h => exact .children c h.symm
  | child c before after _ ih => exact .child c before after ih

/-- A row of changes of order can be undone. -/
lemma Reordering.symm {n m : Flat α} (h : Reordering n m) : Reordering m n := by
  induction h with
  | refl => exact .refl
  | tail _ h ih => exact .head h.symm ih

section Canonical

variable [Ord α] [Std.TransOrd α] [Std.LawfulEqOrd α] {n m : Flat α}

/-- A change of order keeps the canonical form. -/
lemma Reordered.canonical_eq (h : Reordered n m) : n.canonical = m.canonical := by
  induction h with
  | children c h =>
    simp only [canonical, canonicalAll_eq_map]
    rw [sortChildren_eq_of_perm (h.map canonical)]
  | child c before after _ ih =>
    simp only [canonical, canonicalAll_eq_map, List.map_append, List.map_cons, ih]

/-- A row of changes of order keeps the canonical form. -/
lemma Reordering.canonical_eq (h : Reordering n m) : n.canonical = m.canonical := by
  induction h with
  | refl => rfl
  | tail _ h ih => exact ih.trans h.canonical_eq

/-- **The canonical form is a normal form for the order of children.** Two networks have one
canonical form exactly if finitely many changes of the order of children, at any depth, turn one
into the other. The canonical form is made by such changes, and it is its own canonical form.

**Proof sketch.** A sorted list of children depends only on which children there are, since the
order of children is linear and only a network itself compares equal to it
(`sortChildren_eq_of_perm`). So one change of order keeps the canonical form, at the root by the
last sort, and deeper because the form of the child is the same. As the canonical form is a
reordering itself (`reordering_canonical`), the rest follows from this. -/
theorem canonical_eq_iff_reordered (n m : Flat α) :
    (n.canonical = m.canonical ↔ Relation.ReflTransGen Reordered n m) ∧
      Relation.ReflTransGen Reordered n n.canonical ∧
      n.canonical.canonical = n.canonical := by
  have hn : Reordering n n.canonical := reordering_canonical n
  have hm : Reordering m m.canonical := reordering_canonical m
  refine ⟨⟨fun h => ?_, Reordering.canonical_eq⟩, hn, hn.canonical_eq.symm⟩
  rw [h] at hn
  exact hn.trans hm.symm

end Canonical

/-- Two networks with empty groups, a group of one child and groups of the same connection below
each other are reorderings of each other; with an empty group fewer they are not. -/
theorem canonical_eq_iff_reordered_nested :
    let n : Flat ℕ := group .series
      [group .series [leaf 2, group .parallel [], leaf 1], leaf 3, group .parallel []]
    let m : Flat ℕ := group .series
      [group .parallel [], group .series [leaf 1, leaf 2, group .parallel []], leaf 3]
    let l : Flat ℕ := group .series [group .series [leaf 1, leaf 2, group .parallel []], leaf 3]
    Relation.ReflTransGen Reordered n m ∧ ¬ Relation.ReflTransGen Reordered n l ∧
      Relation.ReflTransGen Reordered n n.canonical ∧ n ≠ n.canonical ∧
      n.canonical.canonical = n.canonical := by
  intro n m l
  obtain ⟨hsame, hcanonical, hidempotent⟩ := canonical_eq_iff_reordered n m
  refine ⟨hsame.mp (by decide), fun h => ?_, hcanonical, by decide, hidempotent⟩
  exact absurd ((canonical_eq_iff_reordered n l).1.mpr h) (by decide)

/-! ## Changed leaves -/

variable [Ord α] [Ord β] {f : α → β}

mutual

/-- **The order of changed networks** is that of the networks, if the leaves are in the same order
as before. -/
lemma compare_map : ∀ x y : Flat α,
    (∀ a ∈ x.leaves, ∀ b ∈ y.leaves, Ord.compare (f a) (f b) = Ord.compare a b) →
      (x.map f).compare (y.map f) = x.compare y
  | leaf a, leaf b, h => h a (List.mem_singleton_self a) b (List.mem_singleton_self b)
  | leaf _, group _ _, _ => rfl
  | group _ _, leaf _, _ => rfl
  | group c xs, group d ys, h => by
    rw [map, map, Flat.compare, Flat.compare, compareAll_mapAll xs ys h]

/-- The lexicographic order of changed networks is that of the networks. -/
lemma compareAll_mapAll : ∀ xs ys : List (Flat α),
    (∀ a ∈ leavesAll xs, ∀ b ∈ leavesAll ys, Ord.compare (f a) (f b) = Ord.compare a b) →
      compareAll (mapAll f xs) (mapAll f ys) = compareAll xs ys
  | [], [], _ => rfl
  | [], _ :: _, _ => rfl
  | _ :: _, [], _ => rfl
  | x :: xs, y :: ys, h => by
    simp only [leavesAll, List.forall_mem_append] at h
    rw [mapAll, mapAll, compareAll, compareAll, compare_map x y fun a ha => (h.1 a ha).1,
      compareAll_mapAll xs ys fun a ha => (h.2 a ha).2]

end

/-- Changed children are sorted as the children are. -/
lemma sortChildren_map {xs : List (Flat α)}
    (h : ∀ a ∈ leavesAll xs, ∀ b ∈ leavesAll xs, Ord.compare (f a) (f b) = Ord.compare a b) :
    sortChildren (xs.map (map f)) = (sortChildren xs).map (map f) := by
  simp only [leavesAll_eq_flatMap, List.mem_flatMap] at h
  refine stableSort_map fun x hx y hy => ?_
  rw [compareChildren, compareChildren, size_map, size_map,
    compare_map x y fun a ha b hb => h a ⟨x, hx, ha⟩ b ⟨y, hy, hb⟩]

mutual

/-- **The canonical form of a changed network** is the changed canonical form, if the leaves are in
the same order as before. -/
lemma canonical_map : ∀ n : Flat α,
    (∀ a ∈ n.leaves, ∀ b ∈ n.leaves, Ord.compare (f a) (f b) = Ord.compare a b) →
      (n.map f).canonical = n.canonical.map f
  | leaf _, _ => rfl
  | group c xs, h => by
    rw [map, canonical, canonicalAll_mapAll xs h, mapAll_eq_map, sortChildren_map, canonical, map,
      mapAll_eq_map]
    simp only [(leavesAll_canonicalAll_perm xs).mem_iff]
    exact h

/-- The canonical forms of changed networks are the changed canonical forms. -/
lemma canonicalAll_mapAll : ∀ xs : List (Flat α),
    (∀ a ∈ leavesAll xs, ∀ b ∈ leavesAll xs, Ord.compare (f a) (f b) = Ord.compare a b) →
      canonicalAll (mapAll f xs) = mapAll f (canonicalAll xs)
  | [], _ => rfl
  | x :: xs, h => by
    simp only [leavesAll, List.forall_mem_append] at h
    rw [mapAll, canonicalAll, canonicalAll, mapAll, canonical_map x fun a ha => (h.1 a ha).1,
      canonicalAll_mapAll xs fun a ha => (h.2 a ha).2]

end

end Ohmic.Flat
