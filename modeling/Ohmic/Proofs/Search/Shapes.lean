import Mathlib.Data.List.Basic
import Mathlib.Data.List.GetD
import Ohmic.Proofs.Circuit.Trees
import Ohmic.Search.Shape

set_option autoImplicit false

/-!
# The shapes that are listed

The lists of shapes are filled from smaller to larger ones. What they hold can be said of a shape
and its operands alone: a connection is listed exactly if both operands are and the left one comes
first, by its number of leaves and then by its place in the list.

## Main definitions

* `Shape.NoLater` — one shape stands in a list no later than another one.
* `Shape.Listed` — the shape is in the list of those with as many leaves.
* `Shape.Before` — a shape that may be the left operand of another one.
* `Shape.withLeft` — the connections by the leaves of both operands.

## Main results

* `Shape.mem_withLeaves` — the shapes with a number of leaves from those with fewer leaves.
* `Shape.leafCount_of_mem_withLeaves` — they have that number of leaves.
* `Shape.listed_node` — the listed connections.
* `Shape.before_total` — of two listed shapes one may be the left operand of the other.
-/

namespace Ohmic

namespace Shape

/-! ## Joined lists -/

/-- The first shape stands in the list no later than the second one. -/
def NoLater (shapes : List Shape) (l r : Shape) : Prop :=
  ∃ before rest, shapes = before ++ l :: rest ∧ r ∈ l :: rest

/-- A shape at the front stands no later than any other. -/
lemma noLater_cons_self {shape other : Shape} {rest : List Shape} (h : other ∈ shape :: rest) :
    NoLater (shape :: rest) shape other := ⟨[], rest, rfl, h⟩

/-- What holds in the rest of a list holds in the list. -/
lemma NoLater.cons {shapes : List Shape} {l r : Shape} (h : NoLater shapes l r) (shape : Shape) :
    NoLater (shape :: shapes) l r := by
  obtain ⟨before, rest, rfl, hr⟩ := h
  exact ⟨shape :: before, rest, rfl, hr⟩

/-- Both shapes are in the list. -/
lemma NoLater.mem {shapes : List Shape} {l r : Shape} (h : NoLater shapes l r) :
    l ∈ shapes ∧ r ∈ shapes := by
  obtain ⟨before, rest, rfl, hr⟩ := h
  exact ⟨List.mem_append_right _ List.mem_cons_self, List.mem_append_right _ hr⟩

/-- No later than another one stands the first shape, and what does so in the rest of the list. -/
lemma noLater_cons {shape : Shape} {rest : List Shape} {l r : Shape} :
    NoLater (shape :: rest) l r ↔ (l = shape ∧ r ∈ shape :: rest) ∨ NoLater rest l r := by
  constructor
  · rintro ⟨before, rest', hsplit, hr⟩
    cases before with
    | nil =>
      obtain ⟨rfl, rfl⟩ := List.cons.inj hsplit
      exact .inl ⟨rfl, hr⟩
    | cons b before =>
      obtain ⟨-, rfl⟩ := List.cons.inj hsplit
      exact .inr ⟨before, rest', rfl, hr⟩
  · rintro (⟨rfl, hr⟩ | h)
    · exact noLater_cons_self hr
    · exact h.cons shape

/-- One of two shapes in a list stands no later than the other one. -/
lemma noLater_total {shapes : List Shape} {l r : Shape} (hl : l ∈ shapes) (hr : r ∈ shapes) :
    NoLater shapes l r ∨ NoLater shapes r l := by
  induction shapes with
  | nil => cases hl
  | cons shape rest ih =>
    rcases List.mem_cons.mp hl with rfl | hl'
    · exact .inl (noLater_cons_self hr)
    · rcases List.mem_cons.mp hr with rfl | hr'
      · exact .inr (noLater_cons_self hl)
      · exact (ih hl' hr').imp (·.cons shape) (·.cons shape)

/-- Two shapes in both connections. -/
lemma mem_joined {left right shape : Shape} :
    shape ∈ joined left right ↔ ∃ c, shape = .node c left right := by
  constructor
  · intro h
    obtain ⟨c, -, rfl⟩ := List.mem_map.mp h
    exact ⟨c, rfl⟩
  · rintro ⟨c, rfl⟩
    cases c with
    | series => exact List.mem_cons_self
    | parallel => exact List.mem_cons_of_mem _ List.mem_cons_self

/-- The connections of operands from two lists. -/
lemma mem_joinedBetween {lefts rights : List Shape} {shape : Shape} :
    shape ∈ joinedBetween lefts rights ↔
      ∃ c l r, shape = .node c l r ∧ l ∈ lefts ∧ r ∈ rights := by
  simp only [joinedBetween, List.mem_flatMap, mem_joined]
  constructor
  · rintro ⟨l, hl, r, hr, c, rfl⟩
    exact ⟨c, l, r, rfl, hl, hr⟩
  · rintro ⟨c, l, r, rfl, hl, hr⟩
    exact ⟨l, hl, r, hr, c, rfl⟩

/-- The connections of operands from one list.

**Proof sketch.** By induction on the list. The first shape is connected with itself and with all
later ones, and the others with each other. -/
lemma mem_joinedWithin {shapes : List Shape} {shape : Shape} :
    shape ∈ joinedWithin shapes ↔ ∃ c l r, shape = .node c l r ∧ NoLater shapes l r := by
  induction shapes with
  | nil =>
    constructor
    · intro h
      cases h
    · rintro ⟨c, l, r, -, h⟩
      cases h.mem.1
  | cons first rest ih =>
    simp only [joinedWithin, List.mem_append, List.mem_flatMap, mem_joined, ih, noLater_cons]
    constructor
    · rintro (⟨r, hr, c, rfl⟩ | ⟨c, l, r, rfl, h⟩)
      · exact ⟨c, first, r, rfl, .inl ⟨rfl, hr⟩⟩
      · exact ⟨c, l, r, rfl, .inr h⟩
    · rintro ⟨c, l, r, rfl, ⟨rfl, hr⟩ | h⟩
      · exact .inl ⟨r, hr, c, rfl⟩
      · exact .inr ⟨c, l, r, rfl, h⟩

/-! ## The lists by number of leaves -/

/-- The table has a list for each number of leaves. -/
@[simp] lemma length_table (n : Nat) : (table n).length = n + 1 := by
  induction n using table.induct with
  | case1 => rfl
  | case2 => rfl
  | case3 n ih => rw [table, List.length_append, ih, List.length_singleton]

/-- A larger table has the same lists. -/
lemma getD_table {n k : Nat} (h : k ≤ n) : (table n).getD k [] = withLeaves k := by
  induction n using table.induct with
  | case1 => rw [Nat.le_zero.mp h]; rfl
  | case2 =>
    rcases Nat.le_one_iff_eq_zero_or_eq_one.mp h with rfl | rfl <;> rfl
  | case3 n ih =>
    rcases Nat.lt_or_eq_of_le h with hlt | rfl
    · rw [table, List.getD_append _ _ _ _ (by rw [length_table]; omega)]
      exact ih (Nat.le_of_lt_succ hlt)
    · rfl

/-- The connections with `n` leaves whose left operand has `i` of them. -/
def withLeft (n i : Nat) : List Shape :=
  if i = n - i then joinedWithin (withLeaves i)
  else joinedBetween (withLeaves i) (withLeaves (n - i))

/-- The shapes with two leaves or more, by the leaves of the left operand. -/
lemma withLeaves_add_two (n : Nat) :
    withLeaves (n + 2) = (List.range ((n + 2) / 2)).flatMap fun i => withLeft (n + 2) (i + 1) := by
  have hlength : (table (n + 1)).length = n + 2 := length_table (n + 1)
  have hlast : withLeaves (n + 2) = ofSmaller (table (n + 1)) (n + 2) := by
    unfold withLeaves
    rw [table, List.getD_append_right _ _ _ _ (Nat.le_of_eq hlength), hlength, Nat.sub_self,
      List.getD_cons_zero]
  rw [hlast, ofSmaller]
  refine List.flatMap_congr fun i hi => ?_
  rw [List.mem_range] at hi
  simp only [withLeft]
  rw [getD_table (by omega), getD_table (by omega)]

/-- The connections whose left operand has no more leaves than the right one. -/
lemma mem_withLeft {n i : Nat} (hi : 2 * i ≤ n) {shape : Shape} :
    shape ∈ withLeft n i ↔ ∃ c l r, shape = .node c l r ∧
      ((i < n - i ∧ l ∈ withLeaves i ∧ r ∈ withLeaves (n - i)) ∨
        (i = n - i ∧ NoLater (withLeaves i) l r)) := by
  unfold withLeft
  split
  · next heq =>
    have hlt : ¬ i < n - i := by omega
    simp only [mem_joinedWithin, hlt, false_and, false_or, and_iff_right heq]
  · next hne =>
    have hlt : i < n - i := by omega
    simp only [mem_joinedBetween, hlt, hne, true_and, false_and, or_false]

/-- **The shapes with a number of leaves**: a single leaf, and the connections of shapes with fewer
leaves, where the left operand has fewer leaves than the right one, or stands no later in the list
of those with as many.

**Proof sketch.** By the cases in which the list is built. From two leaves on it goes through the
leaf counts of the left operand, which are at most one half, and for each of these through the
shapes of both operands (`mem_withLeft`). -/
theorem mem_withLeaves {n : Nat} {shape : Shape} :
    shape ∈ withLeaves n ↔ (n = 1 ∧ shape = single) ∨
      ∃ c l r i j, shape = .node c l r ∧ 0 < i ∧ i + j = n ∧
        ((i < j ∧ l ∈ withLeaves i ∧ r ∈ withLeaves j) ∨ (i = j ∧ NoLater (withLeaves i) l r)) := by
  induction n using table.induct with
  | case1 =>
    constructor
    · intro h
      cases h
    · rintro (⟨h, -⟩ | ⟨c, l, r, i, j, -, hi, hn, -⟩) <;> omega
  | case2 =>
    constructor
    · exact fun h => .inl ⟨rfl, List.mem_singleton.mp h⟩
    · rintro (⟨-, rfl⟩ | ⟨c, l, r, i, j, -, hi, hn, ⟨hlt, -⟩ | ⟨heq, -⟩⟩)
      · exact List.mem_singleton_self _
      · omega
      · omega
  | case3 n _ =>
    simp only [withLeaves_add_two, List.mem_flatMap, List.mem_range]
    constructor
    · rintro ⟨i, hi, hmem⟩
      obtain ⟨c, l, r, rfl, h⟩ := (mem_withLeft (by omega)).mp hmem
      exact .inr ⟨c, l, r, i + 1, n + 2 - (i + 1), rfl, by omega, by omega, h⟩
    · rintro (⟨h, -⟩ | ⟨c, l, r, i, j, rfl, hi, hn, h⟩)
      · omega
      · obtain ⟨i, rfl⟩ : ∃ k, i = k + 1 := ⟨i - 1, by omega⟩
        obtain rfl : j = n + 2 - (i + 1) := by omega
        have hle : 2 * (i + 1) ≤ n + 2 := by
          rcases h with ⟨hlt, -⟩ | ⟨heq, -⟩ <;> omega
        exact ⟨i, by omega, (mem_withLeft hle).mpr ⟨c, l, r, rfl, h⟩⟩

/-- The shapes with a number of leaves have that number of leaves. -/
lemma leafCount_of_mem_withLeaves {shape : Shape} {n : Nat} (h : shape ∈ withLeaves n) :
    shape.leafCount = n := by
  induction shape generalizing n with
  | leaf a =>
    rcases mem_withLeaves.mp h with ⟨rfl, -⟩ | ⟨c, l, r, i, j, hnode, -⟩
    · rfl
    · cases hnode
  | node c l r ihl ihr =>
    rcases mem_withLeaves.mp h with ⟨-, hleaf⟩ | ⟨c', l', r', i, j, hnode, -, rfl, hcases⟩
    · cases hleaf
    · obtain ⟨rfl, rfl, rfl⟩ := Tree.node.inj hnode
      rw [Tree.leafCount]
      rcases hcases with ⟨-, hl, hr⟩ | ⟨rfl, hlr⟩
      · rw [ihl hl, ihr hr]
      · rw [ihl hlr.mem.1, ihr hlr.mem.2]

/-! ## Listed shapes -/

/-- The shape is in the list of those with as many leaves. -/
def Listed (shape : Shape) : Prop := shape ∈ withLeaves shape.leafCount

/-- The shape has fewer leaves than the other one, or stands no later in the list of those with as
many. -/
def Before (l r : Shape) : Prop :=
  l.leafCount < r.leafCount ∨
    (l.leafCount = r.leafCount ∧ NoLater (withLeaves l.leafCount) l r)

/-- A single leaf is listed. -/
lemma listed_single : Listed single := List.mem_singleton_self _

/-- **The listed connections** are those of two listed operands, of which the left one comes
first.

**Proof sketch.** The list of a number of leaves holds the connections of listed operands that it
says (`mem_withLeaves`), and a listed shape has as many leaves as its list says
(`leafCount_of_mem_withLeaves`). -/
theorem listed_node {c : Connection} {l r : Shape} :
    Listed (.node c l r) ↔ Listed l ∧ Listed r ∧ Before l r := by
  rw [Listed, mem_withLeaves]
  constructor
  · rintro (⟨-, hleaf⟩ | ⟨c', l', r', i, j, hnode, -, -, hcases⟩)
    · cases hleaf
    · obtain ⟨rfl, rfl, rfl⟩ := Tree.node.inj hnode
      rcases hcases with ⟨hlt, hl, hr⟩ | ⟨rfl, hlr⟩
      · obtain rfl := leafCount_of_mem_withLeaves hl
        obtain rfl := leafCount_of_mem_withLeaves hr
        exact ⟨hl, hr, .inl hlt⟩
      · have hl := leafCount_of_mem_withLeaves hlr.mem.1
        have hr := leafCount_of_mem_withLeaves hlr.mem.2
        unfold Listed Before
        rw [hl, hr]
        exact ⟨hlr.mem.1, hlr.mem.2, .inr ⟨rfl, hlr⟩⟩
  · rintro ⟨hl, hr, hlr⟩
    refine .inr ⟨c, l, r, l.leafCount, r.leafCount, rfl, l.leafCount_pos, rfl, ?_⟩
    exact hlr.imp (fun hlt => ⟨hlt, hl, hr⟩) id

/-- Of two listed shapes one may be the left operand of the other. -/
lemma before_total {l r : Shape} (hl : Listed l) (hr : Listed r) : Before l r ∨ Before r l := by
  rcases Nat.lt_trichotomy l.leafCount r.leafCount with hlt | heq | hgt
  · exact .inl (.inl hlt)
  · have hmem : r ∈ withLeaves l.leafCount := heq ▸ hr
    rcases noLater_total hl hmem with h | h
    · exact .inl (.inr ⟨heq, h⟩)
    · exact .inr (.inr ⟨heq.symm, heq ▸ h⟩)
  · exact .inr (.inl hgt)

end Shape

end Ohmic
