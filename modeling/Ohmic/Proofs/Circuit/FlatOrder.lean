import Mathlib.Tactic.Lemma
import Ohmic.Circuit.Flat.Order
import Ohmic.Proofs.Circuit.Sorting

set_option autoImplicit false

/-!
# The order of flat networks is linear

Over leaves with a linear order, the structural order of networks and the order of the children of
a canonical group are linear orders too: any two networks compare one way or the other, the
comparison is transitive, and only a network itself compares equal to it.

## Main results

* `Flat.compare_swap`, `Flat.eq_of_compare`, `Flat.compare_lt_trans` — the laws of the structural
  order, each proved together with the law of the order on lists.
* The instances of `Std.TransCmp` and `Std.LawfulEqCmp` for `Flat.compare` and
  `Flat.compareChildren`.
* `Flat.sortChildren_eq_of_perm` — rearranged children are sorted to the same list.
-/

namespace Ohmic

/-- The order of connections is linear. -/
instance instTransOrdConnection : Std.TransOrd Connection where
  eq_swap {c d} := by cases c <;> cases d <;> rfl
  isLE_trans {c d e} := by cases c <;> cases d <;> cases e <;> decide

/-- Only equal connections compare equal. -/
instance instLawfulEqOrdConnection : Std.LawfulEqOrd Connection where
  compare_self {c} := by cases c <;> rfl
  eq_of_compare {c d} := by cases c <;> cases d <;> decide

namespace Flat

variable {α : Type} [Ord α]

/-! ## The structural order -/

mutual

/-- Exchanging two networks reverses their comparison. -/
lemma compare_swap [Std.OrientedOrd α] : ∀ x y : Flat α, x.compare y = (y.compare x).swap
  | leaf _, leaf _ => Std.OrientedOrd.eq_swap
  | leaf _, group _ _ => rfl
  | group _ _, leaf _ => rfl
  | group c xs, group d ys => by
    simp only [Flat.compare, Ordering.swap_then]
    rw [← compareAll_swap xs ys]
    exact congrArg (Ordering.then · _) Std.OrientedOrd.eq_swap

/-- Exchanging two lists of networks reverses their comparison. -/
lemma compareAll_swap [Std.OrientedOrd α] :
    ∀ xs ys : List (Flat α), compareAll xs ys = (compareAll ys xs).swap
  | [], [] => rfl
  | [], _ :: _ => rfl
  | _ :: _, [] => rfl
  | x :: xs, y :: ys => by
    simp only [compareAll, Ordering.swap_then]
    rw [← compare_swap x y, ← compareAll_swap xs ys]

end

mutual

/-- A network compares equal to itself. -/
lemma compare_self [Std.ReflOrd α] : ∀ x : Flat α, x.compare x = .eq
  | leaf _ => Std.ReflOrd.compare_self
  | group c xs => by
    have hc : Ord.compare c c = .eq := Std.ReflOrd.compare_self
    simp only [Flat.compare, hc, compareAll_self xs, Ordering.then]

/-- A list of networks compares equal to itself. -/
lemma compareAll_self [Std.ReflOrd α] : ∀ xs : List (Flat α), compareAll xs xs = .eq
  | [] => rfl
  | x :: xs => by simp only [compareAll, compare_self x, compareAll_self xs, Ordering.then]

end

mutual

/-- Networks that compare equal are the same. -/
lemma eq_of_compare [Std.LawfulEqOrd α] : ∀ x y : Flat α, x.compare y = .eq → x = y
  | leaf _, leaf _, h => congrArg leaf (Std.LawfulEqOrd.eq_of_compare h)
  | leaf _, group _ _, h => by cases h
  | group _ _, leaf _, h => by cases h
  | group c xs, group d ys, h => by
    simp only [Flat.compare, Ordering.then_eq_eq] at h
    rw [eq_of_compareAll xs ys h.2,
      Std.LawfulEqOrd.eq_of_compare h.1]

/-- Lists of networks that compare equal are the same. -/
lemma eq_of_compareAll [Std.LawfulEqOrd α] :
    ∀ xs ys : List (Flat α), compareAll xs ys = .eq → xs = ys
  | [], [], _ => rfl
  | [], _ :: _, h => by cases h
  | _ :: _, [], h => by cases h
  | x :: xs, y :: ys, h => by
    simp only [compareAll, Ordering.then_eq_eq] at h
    rw [eq_of_compare x y h.1, eq_of_compareAll xs ys h.2]

end

mutual

/-- The structural order is transitive.

**Proof sketch.** Two groups are compared by connection and then by children. If either comparison
is decided by the connection, so is the one of the outer two, since equal connections are the same;
otherwise all three have one connection, and the children decide. -/
lemma compare_lt_trans [Std.TransOrd α] [Std.LawfulEqOrd α] :
    ∀ x y z : Flat α, x.compare y = .lt → y.compare z = .lt → x.compare z = .lt
  | leaf _, leaf _, leaf _, h, h' => by
    simp only [Flat.compare] at h h' ⊢
    exact Std.TransCmp.lt_trans h h'
  | leaf _, leaf _, group _ _, _, _ => rfl
  | leaf _, group _ _, leaf _, _, h' => by cases h'
  | leaf _, group _ _, group _ _, _, _ => rfl
  | group _ _, leaf _, _, h, _ => by cases h
  | group _ _, group _ _, leaf _, _, h' => by cases h'
  | group c xs, group d ys, group e zs, h, h' => by
    simp only [Flat.compare, Ordering.then_eq_lt] at h h' ⊢
    rcases h with h | ⟨hcd, h⟩
    · rcases h' with h' | ⟨hde, -⟩
      · exact Or.inl (Std.TransCmp.lt_trans h h')
      · obtain rfl : d = e := Std.LawfulEqOrd.eq_of_compare hde
        exact Or.inl h
    · obtain rfl : c = d := Std.LawfulEqOrd.eq_of_compare hcd
      exact h'.imp_right fun h' => ⟨h'.1, compareAll_lt_trans xs ys zs h h'.2⟩

/-- The lexicographic order is transitive. -/
lemma compareAll_lt_trans [Std.TransOrd α] [Std.LawfulEqOrd α] :
    ∀ xs ys zs : List (Flat α),
    compareAll xs ys = .lt → compareAll ys zs = .lt → compareAll xs zs = .lt
  | [], [], _, h, _ => by cases h
  | [], _ :: _, [], _, h' => by cases h'
  | [], _ :: _, _ :: _, _, _ => rfl
  | _ :: _, [], _, h, _ => by cases h
  | _ :: _, _ :: _, [], _, h' => by cases h'
  | x :: xs, y :: ys, z :: zs, h, h' => by
    simp only [compareAll, Ordering.then_eq_lt] at h h' ⊢
    rcases h with h | ⟨hxy, h⟩
    · rcases h' with h' | ⟨hyz, -⟩
      · exact Or.inl (compare_lt_trans x y z h h')
      · obtain rfl : y = z := eq_of_compare y z hyz
        exact Or.inl h
    · obtain rfl : x = y := eq_of_compare x y hxy
      exact h'.imp_right fun h' => ⟨h'.1, compareAll_lt_trans xs ys zs h h'.2⟩

end

variable [Std.TransOrd α] [Std.LawfulEqOrd α]

/-- Only a network itself compares equal to it. -/
instance instLawfulEqCmpCompare : Std.LawfulEqCmp (Flat.compare (α := α)) where
  compare_self {x} := compare_self x
  eq_of_compare {x y} := eq_of_compare x y

/-- The structural order is linear. -/
instance instTransCmpCompare : Std.TransCmp (Flat.compare (α := α)) where
  eq_swap {x y} := compare_swap x y
  isLE_trans {x y z} h h' := by
    rw [Ordering.isLE_iff_eq_lt_or_eq_eq] at h h' ⊢
    rcases h with h | h
    · rcases h' with h' | h'
      · exact Or.inl (compare_lt_trans x y z h h')
      · obtain rfl := eq_of_compare y z h'
        exact Or.inl h
    · obtain rfl := eq_of_compare x y h
      exact h'

/-! ## The order of children -/

/-- Only a network itself compares equal to it as a child. -/
instance instLawfulEqCmpCompareChildren : Std.LawfulEqCmp (compareChildren (α := α)) where
  compare_self {x} := by simp [compareChildren, compare_self]
  eq_of_compare {x y} h := by
    rw [compareChildren, Ordering.then_eq_eq] at h
    exact eq_of_compare x y h.2

/-- The order of children is linear. -/
instance instTransCmpCompareChildren : Std.TransCmp (compareChildren (α := α)) :=
  inferInstanceAs (Std.TransCmp (compareLex (compareOn size) (Flat.compare (α := α))))

/-- Rearranged children are sorted to the same list. -/
lemma sortChildren_eq_of_perm {xs ys : List (Flat α)} (h : xs.Perm ys) :
    sortChildren xs = sortChildren ys := by
  refine stableSort_eq_of_perm ?_ ?_ ?_ h
  · intro x y
    cases hxy : compareChildren x y with
    | lt => exact Or.inl rfl
    | eq => exact Or.inl rfl
    | gt => exact Or.inr (by rw [Std.OrientedCmp.lt_of_gt hxy]; rfl)
  · intro x y z
    exact Std.TransCmp.isLE_trans
  · intro x y hxy hyx
    exact Std.LawfulEqCmp.eq_of_compare (Std.OrientedCmp.isLE_antisymm hxy hyx)

omit [Std.TransOrd α] [Std.LawfulEqOrd α] in
/-- Children that are sorted to one list are rearrangements of each other. -/
lemma perm_of_sortChildren_eq {xs ys : List (Flat α)} (h : sortChildren xs = sortChildren ys) :
    xs.Perm ys := by
  have hxs : (sortChildren xs).Perm xs := stableSort_perm _ xs
  have hys : (sortChildren ys).Perm ys := stableSort_perm _ ys
  exact hxs.symm.trans (h ▸ hys)

end Flat

end Ohmic
