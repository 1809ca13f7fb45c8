import Mathlib.Data.List.Sort
import Ohmic.StableSort

set_option autoImplicit false

/-!
# Laws of the stable sort

The insertion sort of this library is the one of the list library, with a Boolean test in place of
a relation. So its result is a rearrangement of its input, it is in order whenever the test is
total and transitive, and it depends only on which elements there are whenever the test is
antisymmetric as well.

## Main results

* `stableSort_perm` — sorting rearranges.
* `stableSort_map` — a change that the order does not see can be made before.
* `stableSort_eq_self` — a list in order stays as it is.
* `pairwise_stableSort`, `pairwise_stableSort_of_imp` — the result is in order, and in every order
  that the test respects.
* `stableSort_eq_of_perm` — rearrangements of one list have one sorted form.
-/

namespace Ohmic

variable {α β : Type}

/-- The insertion is the one of the list library. -/
lemma insertBefore_eq_orderedInsert (le : α → α → Bool) (x : α) (ys : List α) :
    insertBefore le x ys = ys.orderedInsert (fun a b => le a b = true) x := by
  induction ys with
  | nil => rfl
  | cons y ys ih => simp only [insertBefore, List.orderedInsert_cons, ih]

/-- The sort is the insertion sort of the list library. -/
lemma stableSort_eq_insertionSort (le : α → α → Bool) (xs : List α) :
    stableSort le xs = xs.insertionSort fun a b => le a b = true := by
  induction xs with
  | nil => rfl
  | cons x xs ih =>
    rw [stableSort, ih, insertBefore_eq_orderedInsert, List.insertionSort_cons]

/-- Sorting rearranges a list. -/
lemma stableSort_perm (le : α → α → Bool) (xs : List α) : (stableSort le xs).Perm xs := by
  rw [stableSort_eq_insertionSort]
  exact List.perm_insertionSort _ xs

/-- A list that is in order already stays as it is. -/
lemma stableSort_eq_self {le : α → α → Bool} {xs : List α}
    (h : xs.Pairwise fun a b => le a b = true) : stableSort le xs = xs := by
  rw [stableSort_eq_insertionSort]
  exact h.insertionSort_eq

/-- Inserting a value keeps the order `r`, if the test only puts values in that order. -/
lemma pairwise_insertBefore {le : α → α → Bool} {r : α → α → Prop}
    (of_le : ∀ a b, le a b = true → r a b) (of_not_le : ∀ a b, le a b = false → r b a)
    (trans : ∀ a b c, r a b → r b c → r a c) (x : α) {ys : List α} (h : ys.Pairwise r) :
    (insertBefore le x ys).Pairwise r := by
  induction ys with
  | nil => exact List.pairwise_singleton r x
  | cons y ys ih =>
    obtain ⟨hy, hys⟩ := List.pairwise_cons.mp h
    rw [insertBefore]
    cases hle : le x y with
    | true =>
      have hxy : r x y := of_le x y hle
      refine List.pairwise_cons.mpr ⟨List.forall_mem_cons.mpr ⟨hxy, ?_⟩, h⟩
      exact fun z hz => trans x y z hxy (hy z hz)
    | false =>
      refine List.pairwise_cons.mpr ⟨fun z hz => ?_, ih hys⟩
      rw [insertBefore_eq_orderedInsert, List.mem_orderedInsert] at hz
      rcases hz with rfl | hz
      · exact of_not_le z y hle
      · exact hy z hz

/-- A sorted list is in the order `r`, if the test only puts values in that order. -/
lemma pairwise_stableSort_of_imp {le : α → α → Bool} {r : α → α → Prop}
    (of_le : ∀ a b, le a b = true → r a b) (of_not_le : ∀ a b, le a b = false → r b a)
    (trans : ∀ a b c, r a b → r b c → r a c) (xs : List α) : (stableSort le xs).Pairwise r := by
  induction xs with
  | nil => exact .nil
  | cons x xs ih => exact pairwise_insertBefore of_le of_not_le trans x ih

/-- Sorting after a change that the order of the elements does not see, or before it.

**Proof sketch.** By induction on the list, with one insertion at a time. An insertion asks how the
new element compares to those in the list only, and for these the change is not seen. -/
lemma stableSort_map {le : α → α → Bool} {le' : β → β → Bool} {f : α → β} {xs : List α}
    (h : ∀ a ∈ xs, ∀ b ∈ xs, le' (f a) (f b) = le a b) :
    stableSort le' (xs.map f) = (stableSort le xs).map f := by
  have hinsert : ∀ x ys, (∀ y ∈ ys, le' (f x) (f y) = le x y) →
      insertBefore le' (f x) (ys.map f) = (insertBefore le x ys).map f := by
    intro x ys hx
    induction ys with
    | nil => rfl
    | cons y ys ih =>
      rw [List.forall_mem_cons] at hx
      rw [List.map_cons, insertBefore, insertBefore, hx.1]
      cases le x y with
      | true => rfl
      | false => exact congrArg (f y :: ·) (ih hx.2)
  induction xs with
  | nil => rfl
  | cons x xs ih =>
    simp only [List.forall_mem_cons] at h
    rw [List.map_cons, stableSort, stableSort, ih fun a ha => (h.2 a ha).2]
    exact hinsert x _ fun y hy => h.1.2 y ((stableSort_perm le xs).mem_iff.mp hy)

section Order

variable {le : α → α → Bool} (total : ∀ a b, le a b = true ∨ le b a = true)
  (trans : ∀ a b c, le a b = true → le b c = true → le a c = true)

include total trans in
/-- A sorted list is in order, if any two elements can be compared and the order is transitive. -/
lemma pairwise_stableSort (xs : List α) :
    (stableSort le xs).Pairwise fun a b => le a b = true := by
  refine pairwise_stableSort_of_imp (fun _ _ h => h) (fun a b h => ?_) trans xs
  exact (total a b).resolve_left (h ▸ Bool.false_ne_true)

include total trans in
/-- **One sorted form**: two lists with the same elements, equally often, are sorted to the same
list, if the order is total, transitive and antisymmetric. -/
theorem stableSort_eq_of_perm (antisymm : ∀ a b, le a b = true → le b a = true → a = b)
    {xs ys : List α} (h : xs.Perm ys) : stableSort le xs = stableSort le ys := by
  have hsame : (stableSort le xs).Perm (stableSort le ys) :=
    (stableSort_perm le xs).trans (h.trans (stableSort_perm le ys).symm)
  exact hsame.eq_of_pairwise (fun a b _ _ => antisymm a b)
    (pairwise_stableSort total trans xs) (pairwise_stableSort total trans ys)

end Order

end Ohmic
