import Ohmic.Proofs.Circuit.FlatOrder
import Ohmic.Search.Run

set_option autoImplicit false

/-!
# One order for networks, children and keys

Flat networks are compared in two ways: by structure, and as children of a canonical group by size
and then by structure. Both are linear orders on all networks, with empty groups and groups of a
single child, and only a network itself compares equal to it. So it makes no difference whether keys
are told apart by equality, as they are when findings are collected, or by comparison, as they are
when findings are ranked.

## Main definitions

* `LinearComparison` — a comparison that is a linear order.
* `Flat.ComesBefore` — the structural order as a relation, said without a comparison.

## Main results

* `LinearComparison.of_lawful` — a transitive comparison under which only equals compare equal.
* `Flat.compare_eq_lt_iff` — the comparison by structure decides the relation.
* `Flat.linear_comparisons` — both orders of networks, and the keys of findings under them.

## Implementation notes

That children are in order is the lexicographic order of the list library over the relation itself,
so that a list which ends first comes first.
-/

namespace Ohmic

/-- **A comparison that is a linear order**, under which only the same thing compares equal. -/
structure LinearComparison {β : Type} (cmp : β → β → Ordering) : Prop where
  /-- Everything is at most itself. -/
  refl : ∀ x, (cmp x x).isLE = true
  /-- What is at most another thing, and at least that, is the same. -/
  antisymm : ∀ x y, (cmp x y).isLE = true → (cmp y x).isLE = true → x = y
  /-- What is at most a second thing is at most everything that is at least the second. -/
  trans : ∀ x y z, (cmp x y).isLE = true → (cmp y z).isLE = true → (cmp x z).isLE = true
  /-- One of two things is at most the other one. -/
  total : ∀ x y, (cmp x y).isLE = true ∨ (cmp y x).isLE = true
  /-- The comparison the other way round has the opposite result. -/
  swap : ∀ x y, cmp x y = (cmp y x).swap
  /-- Only the same thing compares equal. -/
  eq_iff : ∀ x y, cmp x y = .eq ↔ x = y

/-- A transitive comparison under which only equals compare equal is a linear order. -/
lemma LinearComparison.of_lawful {β : Type} (cmp : β → β → Ordering) [Std.TransCmp cmp]
    [Std.LawfulEqCmp cmp] : LinearComparison cmp where
  refl _ := Std.ReflCmp.isLE_rfl
  antisymm _ _ h h' := Std.LawfulEqCmp.eq_of_compare (Std.OrientedCmp.isLE_antisymm h h')
  trans _ _ _ h h' := Std.TransCmp.isLE_trans h h'
  total x y := by
    have hswap : cmp x y = (cmp y x).swap := Std.OrientedCmp.eq_swap
    rw [hswap]
    cases cmp y x with
    | lt => exact .inr rfl
    | eq => exact .inr rfl
    | gt => exact .inl rfl
  swap _ _ := Std.OrientedCmp.eq_swap
  eq_iff _ _ := Std.LawfulEqCmp.compare_eq_iff_eq

namespace Flat

variable {α : Type} [Ord α]

/-- **The structural order**: parts as their values, a part before a group, series before parallel,
and under one connection the children from first to last, where a list that ends first comes
first. -/
inductive ComesBefore : Flat α → Flat α → Prop
  /-- Parts are in the order of their values. -/
  | leaf {a b : α} (h : Ord.compare a b = .lt) : ComesBefore (leaf a) (leaf b)
  /-- A part comes before a group. -/
  | leaf_group (a : α) (c : Connection) (children : List (Flat α)) :
      ComesBefore (leaf a) (group c children)
  /-- Series comes before parallel. -/
  | series_parallel (xs ys : List (Flat α)) : ComesBefore (group .series xs) (group .parallel ys)
  /-- Groups of one connection are in the order of their children. -/
  | children (c : Connection) {xs ys : List (Flat α)} (h : List.Lex ComesBefore xs ys) :
      ComesBefore (group c xs) (group c ys)

mutual

/-- **The comparison by structure decides the structural order.** -/
lemma compare_eq_lt_iff [Std.LawfulEqOrd α] :
    ∀ x y : Flat α, x.compare y = .lt ↔ ComesBefore x y
  | leaf _, leaf _ => ⟨.leaf, fun | .leaf h => h⟩
  | leaf a, group c ys => ⟨fun _ => .leaf_group a c ys, fun _ => rfl⟩
  | group _ _, leaf _ => ⟨nofun, nofun⟩
  | group .series xs, group .parallel ys => ⟨fun _ => .series_parallel xs ys, fun _ => rfl⟩
  | group .parallel _, group .series _ => ⟨nofun, nofun⟩
  | group .series xs, group .series ys =>
    (compareAll_eq_lt_iff xs ys).trans ⟨.children .series, fun | .children _ h => h⟩
  | group .parallel xs, group .parallel ys =>
    (compareAll_eq_lt_iff xs ys).trans ⟨.children .parallel, fun | .children _ h => h⟩

/-- The comparison of lists of networks decides their lexicographic order. -/
lemma compareAll_eq_lt_iff [Std.LawfulEqOrd α] :
    ∀ xs ys : List (Flat α), compareAll xs ys = .lt ↔ List.Lex ComesBefore xs ys
  | [], [] => ⟨nofun, nofun⟩
  | [], y :: ys => ⟨fun _ => .nil, fun _ => rfl⟩
  | _ :: _, [] => ⟨nofun, nofun⟩
  | x :: xs, y :: ys => by
    have hsame : x.compare y = .eq ↔ x = y := ⟨eq_of_compare x y, fun h => h ▸ compare_self x⟩
    rw [compareAll, Ordering.then_eq_lt, compare_eq_lt_iff x y, hsame, compareAll_eq_lt_iff xs ys,
      List.cons_lex_cons_iff]

end

variable [Std.TransOrd α] [Std.LawfulEqOrd α]

/-- **One order for networks, children and keys.** The comparison by structure is a linear order on
all networks, and it is the structural order. So is the comparison of children, which looks at the
number of parts first. Under either only a network itself compares equal to it. A key is told apart
from those that were met before exactly if it does not compare equal to any of them, and findings
compare equal exactly if their relative deviations do and they have one key.

**Proof sketch.** Both comparisons are transitive, and only equals compare equal under them, by
induction over the networks together with their lists of children. That the structural order is
decided is such an induction too (`compare_eq_lt_iff`). -/
theorem linear_comparisons :
    LinearComparison (Flat.compare (α := α)) ∧
    (∀ x y : Flat α, x.compare y = .lt ↔ ComesBefore x y) ∧
    LinearComparison (compareChildren (α := α)) ∧
    (∀ x y : Flat α, compareChildren x y = .lt ↔
      x.size < y.size ∨ x.size = y.size ∧ ComesBefore x y) ∧
    (∀ {S Z : Type} (p : Progress S Z) (key : Flat Nat),
      p.contains key = true ↔ ∃ f ∈ p.findings, f.key.compare key = .eq) ∧
    (∀ {S Z : Type} [Scalar S] (f g : Finding S Z), f.compare g = .eq ↔
      Scalar.rank f.deviation.relative g.deviation.relative = .eq ∧ f.key = g.key) := by
  have hkey : ∀ k k' : Flat Nat, k.compare k' = .eq ↔ k = k' :=
    (LinearComparison.of_lawful Flat.compare).eq_iff
  refine ⟨.of_lawful _, compare_eq_lt_iff, .of_lawful _, fun x y => ?_, fun p key => ?_,
    fun f g => ?_⟩
  · rw [compareChildren, Ordering.then_eq_lt, Nat.compare_eq_lt, Nat.compare_eq_eq,
      compare_eq_lt_iff]
  · simp only [Progress.contains, List.any_eq_true, decide_eq_true_eq, hkey]
  · simp only [Finding.compare, Ordering.then_eq_eq, Nat.compare_eq_eq, hkey]
    -- findings with one key have one number of leaves
    exact ⟨fun h => h.2, fun h => ⟨congrArg Flat.size h.2, h⟩⟩

/-- Over whole numbers an empty group comes after a part by structure, and before it as a child; a
list of children that ends first comes first. -/
theorem linear_comparisons_nested :
    let empty : Flat ℕ := group .series []
    let chain : Flat ℕ := group .series [leaf 7, group .parallel [leaf 2]]
    let longer : Flat ℕ := group .series [leaf 7, group .parallel [leaf 2, empty]]
    Std.TransOrd ℕ ∧ Std.LawfulEqOrd ℕ ∧
      ComesBefore (leaf 9) empty ∧ compareChildren empty (leaf 9) = .lt ∧
      ComesBefore chain longer ∧ compareChildren chain longer = .lt ∧
      ¬ (longer.compare chain).isLE = true := by
  intro empty chain longer
  obtain ⟨hlinear, hbefore, hchildren, hsize, -, -⟩ := linear_comparisons (α := ℕ)
  have hchain : ComesBefore chain longer := (hbefore _ _).mp rfl
  refine ⟨inferInstance, inferInstance, (hbefore _ _).mp rfl, (hsize _ _).mpr (.inl Nat.one_pos),
    hchain, (hsize _ _).mpr (.inr ⟨rfl, hchain⟩), fun hle => ?_⟩
  have hless : chain.compare longer = .lt := (hbefore _ _).mpr hchain
  exact absurd (hlinear.antisymm _ _ (by rw [hless]; rfl) hle) (by decide)

end Flat

end Ohmic
