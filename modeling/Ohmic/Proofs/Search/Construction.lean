import Mathlib.Data.List.Range
import Ohmic.Proofs.Search.Bench
import Ohmic.Proofs.Search.Layouts
import Ohmic.Search.Construction

set_option autoImplicit false

/-!
# The construction of layouts stays inside of its tables

Every look-up and every write of the construction succeeds, and what it makes are the layouts.

## Main results

* `Shape.withLeavesChecked_eq` — the table of shapes is long enough for every look-up.
* `Shape.number_eq` — the pass over a shape numbers its leaves and enters its ties.
* `Layout.recordPositions_eq` — every position finds the place of its slot.
* `Layout.withLeavesChecked_eq` — the construction makes the layouts.
-/

namespace Ohmic

/-- A function that succeeds at every element of a list succeeds on the list. -/
lemma mapM_eq_ok {ε α β : Type} {f : α → Except ε β} {g : α → β} {xs : List α}
    (h : ∀ a ∈ xs, f a = .ok (g a)) : xs.mapM f = .ok (xs.map g) := by
  induction xs with
  | nil => rfl
  | cons a xs ih =>
    rw [List.forall_mem_cons] at h
    rw [List.mapM_cons, h.1, ih h.2]
    rfl

namespace Shape

/-! ## The table of shapes -/

/-- A table of smaller shapes is long enough to look up every operand. -/
lemma ofSmallerChecked_eq {table : List (List Shape)} {n : Nat} (h : table.length = n) :
    ofSmallerChecked table n = .ok (ofSmaller table n) := by
  have hread : ∀ k < n, readAt table k = .ok (table.getD k []) := by
    intro k hk
    rw [← h] at hk
    rw [readAt_of_getElem? (List.getElem?_eq_getElem hk), List.getD_eq_getElem _ _ hk]
  rw [ofSmallerChecked, mapM_eq_ok (g := fun i =>
    if i + 1 = n - (i + 1) then joinedWithin (table.getD (i + 1) [])
    else joinedBetween (table.getD (i + 1) []) (table.getD (n - (i + 1)) [])) fun i hi => ?_]
  · rfl
  · rw [List.mem_range] at hi
    simp only [hread (i + 1) (by omega), hread (n - (i + 1)) (by omega)]
    rfl

/-- The table grows by the shapes of one number of leaves after the other. -/
lemma foldlM_growTable (n : Nat) :
    (List.range' 2 n).foldlM growTable [[], [single]] = .ok (table (n + 1)) := by
  induction n with
  | zero => rfl
  | succ n ih =>
    have hgrow : growTable (table (n + 1)) (2 + n) = .ok (table (n + 2)) := by
      rw [Nat.add_comm 2 n, growTable, ofSmallerChecked_eq (length_table _)]
      rfl
    rw [List.range'_1_concat, List.foldlM_append, ih]
    simp only [bind, Except.bind, List.foldlM_cons, List.foldlM_nil, hgrow]
    rfl

/-- **The shapes** with a number of leaves are found in the table. -/
theorem withLeavesChecked_eq {n : Nat} (hn : n ≠ 0) :
    withLeavesChecked n = .ok (withLeaves n) := by
  obtain ⟨m, rfl⟩ := Nat.exists_eq_succ_of_ne_zero hn
  have hlt : m + 1 < (table (m + 1)).length := by
    rw [length_table]
    exact Nat.lt_succ_self _
  rw [withLeavesChecked, Nat.succ_sub_one, foldlM_growTable]
  exact (readAt_of_getElem? (List.getElem?_eq_getElem hlt)).trans
    (congrArg Except.ok (List.getD_eq_getElem _ _ hlt).symm)

/-! ## The pass over a shape -/

/-- Entering ties keeps the length of a table. -/
lemma length_foldl_set (ties : List (Nat × Nat)) (table : List (Option Nat)) :
    (ties.foldl (fun table tie => table.set tie.1 (some tie.2)) table).length = table.length := by
  induction ties generalizing table with
  | nil => rfl
  | cons tie ties ih => exact (ih _).trans List.length_set

/-- **The pass over a shape** numbers its leaves and enters its ties, in a table with a place for
each of its slots.

**Proof sketch.** By induction on the shape. The left operand is numbered from the given slot on and
the right one behind it, each entering its own ties in the table; the tie of the connection itself
comes last. All writes stay inside of the table. -/
theorem number_eq (shape : Shape) (table : List (Option Nat)) (next : Nat)
    (h : next + shape.leafCount ≤ table.length) :
    shape.number table next = .ok (shape.numbered next, next + shape.leafCount,
      (shape.ties next).foldl (fun table tie => table.set tie.1 (some tie.2)) table) := by
  induction shape generalizing table next with
  | leaf a => rfl
  | node c l r ihl ihr =>
    rw [Tree.leafCount] at h
    have hl := l.leafCount_pos
    have hr := r.leafCount_pos
    have hleft := ihl table next (by omega)
    have hright := ihr ((ties next l).foldl (fun table tie => table.set tie.1 (some tie.2)) table)
      (next + l.leafCount) (by rw [length_foldl_set]; omega)
    simp only [number, hleft, hright, bind, Except.bind, pure, Except.pure, numbered, ties,
      Tree.leafCount, List.foldl_append]
    split
    · rw [writeAt_of_lt (by rw [length_foldl_set, length_foldl_set]; omega), Nat.add_assoc]
      rfl
    · rw [Nat.add_assoc]
      rfl

end Shape

namespace Layout

/-! ## Positions -/

/-- **Every position finds the place of its slot**: what is entered for tokens whose leaves are
numbered one after the other are the positions of the leaves.

**Proof sketch.** By induction on the tokens. A connection changes nothing. The next leaf has the
number of the leaves before it, so its position is written right after those that are in place. -/
theorem recordPositions_eq (tokens : List (Token Nat)) (done rest : List Nat)
    (h : tokens.filterMap Token.leaf? = List.range' done.length rest.length) (position : Nat) :
    recordPositions (done ++ rest) position tokens =
      .ok (done ++ leafPositions position tokens) := by
  induction tokens generalizing done rest position with
  | nil =>
    obtain rfl : rest = [] := by
      have hlen := congrArg List.length h
      rw [List.filterMap_nil, List.length_nil, List.length_range'] at hlen
      exact List.length_eq_zero_iff.mp hlen.symm
    rfl
  | cons token tokens ih =>
    cases token with
    | join c => exact ih done rest h (position + 1)
    | leaf slot =>
      cases rest with
      | nil => cases h
      | cons place rest =>
        have hhead : slot :: tokens.filterMap Token.leaf? =
            done.length :: List.range' (done.length + 1) rest.length := h
        obtain ⟨rfl, htail⟩ := List.cons.inj hhead
        have hset : (done ++ place :: rest).set done.length position =
            (done ++ [position]) ++ rest := by
          rw [List.set_append_right _ _ (Nat.le_refl _), Nat.sub_self, List.set_cons_zero,
            List.append_assoc, List.singleton_append]
        have hnext := ih (done ++ [position]) rest
          (by rw [List.length_append, List.length_singleton]; exact htail) (position + 1)
        rw [recordPositions, writeAt_of_lt (by rw [List.length_append, List.length_cons]; omega),
          hset]
        simp only [bind, Except.bind]
        rw [hnext, leafPositions, List.append_assoc, List.singleton_append]

/-! ## Layouts -/

/-- The layout of a shape is made without leaving a table. -/
lemma ofShapeChecked_eq (shape : Shape) : ofShapeChecked shape = .ok (ofShape shape) := by
  have hnumber := shape.number_eq (List.replicate shape.leafCount none) 0
    (by rw [Nat.zero_add, List.length_replicate])
  have hpositions := recordPositions_eq (shape.numbered 0).tokens []
    (List.replicate shape.leafCount 0)
    (by rw [Tree.filterMap_tokens, Shape.leaves_numbered, List.length_nil,
      List.length_replicate]) 0
  rw [List.nil_append, List.nil_append] at hpositions
  rw [ofShapeChecked, hnumber]
  simp only [bind, Except.bind, Tree.toPostfix, hpositions]
  rfl

/-- **The construction makes the layouts** with any number of leaves, and no look-up and no write of
it is outside of its table. -/
theorem withLeavesChecked_eq (n : Nat) : withLeavesChecked n = .ok (withLeaves n) := by
  rw [withLeavesChecked]
  split
  · next hn =>
    subst hn
    rfl
  · next hn =>
    rw [Shape.withLeavesChecked_eq hn]
    exact mapM_eq_ok fun shape _ => ofShapeChecked_eq shape

end Layout

end Ohmic
