import Ohmic.Proofs.Circuit.RoundTrip
import Ohmic.Proofs.Search.Construction
import Ohmic.Proofs.Search.Coverage

set_option autoImplicit false

/-!
# The slots of a layout and their ties

A layout is made by one pass over a shape, which counts the slots from left to right and enters a
tie after both operands of a connection. What comes out is said here of the layout alone: where the
slots are, and which connection each tie belongs to.

## Main definitions

* `Tree.part?` — the part of a tree at the end of a path.
* `Tree.Paired` — a path leads to a connection of two operands of one shape.
* `Layout.WellFormed` — where the slots of a layout are, and what its ties mean.

## Main results

* `Layout.pairwise_leafPositions` — positions count up.
* `Layout.Sound.getElem?_tokens_iff` — the position of a slot is the only place of its leaf.
* `Shape.mem_ties_iff` — ties belong to connections of two operands of one shape.
* `Shape.path_eq_of_paired` — no two such connections tie the same slot.
* `Layout.wellFormed_of_mem_withLeaves` — the layouts that are listed are well formed.

## Implementation notes

One slot is the first one of many parts of a tree: of a right operand, of the left operand in it,
and so on. A tie is entered at the first slot of a *right* operand, and of these no two begin alike,
so ties of inner connections are never overwritten by those of outer ones. Connections are told
apart by the paths that lead to them.
-/

namespace Ohmic

/-! ## Connections of two operands of one shape -/

/-- The operands of a connection. -/
inductive Side where
  /-- The first operand. -/
  | left
  /-- The second operand. -/
  | right
deriving DecidableEq

namespace Tree

variable {α : Type}

/-- The part of a tree at the end of a path, which says at every connection which operand to go
to. -/
def part? : List Side → Tree α → Option (Tree α)
  | [], t => some t
  | _ :: _, leaf _ => none
  | .left :: path, node _ l _ => l.part? path
  | .right :: path, node _ _ r => r.part? path

/-- **The path leads to a connection of two operands of one shape**, connections included, of which
the left one begins with the leaf `p` and the right one with the leaf `s`. -/
def Paired (t : Tree Nat) (path : List Side) (p s : Nat) : Prop :=
  ∃ c l r, t.part? path = some (node c l r) ∧ l.shape = r.shape ∧ l.first = p ∧ r.first = s

/-- There is no connection in a single leaf. -/
lemma not_paired_leaf {a p s : Nat} {path : List Side} : ¬ (leaf a).Paired path p s := by
  rintro ⟨c, l, r, hpart, -⟩
  cases path <;> cases hpart

/-- The connection at the root. -/
lemma paired_nil {c : Connection} {l r : Tree Nat} {p s : Nat} :
    (node c l r).Paired [] p s ↔ l.shape = r.shape ∧ l.first = p ∧ r.first = s := by
  constructor
  · rintro ⟨c', l', r', hpart, h⟩
    obtain ⟨rfl, rfl, rfl⟩ := node.inj (Option.some.inj hpart)
    exact h
  · exact fun h => ⟨c, l, r, rfl, h⟩

end Tree

namespace Shape

/-- The numbers of a shape begin with the first one. -/
@[simp] lemma first_numbered (shape : Shape) (next : Nat) : (shape.numbered next).first = next := by
  induction shape generalizing next with
  | leaf a => rfl
  | node c l r ihl _ => exact ihl next

/-- **The ties of a shape** belong to the connections of two operands of one shape.

**Proof sketch.** By induction on the shape: a path is empty, or leads on from the left operand or
from the right one, as a tie is the last one or comes from either operand. -/
theorem mem_ties_iff (shape : Shape) (next : Nat) {s p : Nat} :
    (s, p) ∈ shape.ties next ↔ ∃ path, (shape.numbered next).Paired path p s := by
  induction shape generalizing next with
  | leaf a =>
    refine iff_of_false (List.not_mem_nil) ?_
    rintro ⟨path, h⟩
    exact Tree.not_paired_leaf h
  | node c l r ihl ihr =>
    have hroot : (s, p) ∈ (if l = r then [(next + l.leafCount, next)] else []) ↔
        (numbered next (.node c l r)).Paired [] p s := by
      rw [numbered, Tree.paired_nil, shape_numbered, shape_numbered, first_numbered,
        first_numbered]
      split
      · next heq =>
        rw [List.mem_singleton, Prod.mk.injEq, and_iff_right heq]
        exact ⟨fun h => ⟨h.2.symm, h.1.symm⟩, fun h => ⟨h.2.symm, h.1.symm⟩⟩
      · next hne => exact iff_of_false List.not_mem_nil fun h => hne h.1
    rw [ties, List.mem_append, List.mem_append, ihl, ihr, hroot]
    constructor
    · rintro ((⟨path, h⟩ | ⟨path, h⟩) | h)
      · exact ⟨.left :: path, h⟩
      · exact ⟨.right :: path, h⟩
      · exact ⟨[], h⟩
    · rintro ⟨_ | ⟨_ | _, path⟩, h⟩
      · exact .inr h
      · exact .inl (.inl ⟨path, h⟩)
      · exact .inl (.inr ⟨path, h⟩)

/-- The slots of a pair lie in the tree, the first one before the second one. -/
lemma bounds_of_paired {shape : Shape} {next p s : Nat} {path : List Side}
    (h : (shape.numbered next).Paired path p s) :
    next ≤ p ∧ p < s ∧ s < next + shape.leafCount :=
  shape.exists_of_mem_ties next ((shape.mem_ties_iff next).mpr ⟨path, h⟩)

/-- **No slot is tied twice**: a slot is the first one of the right operand of one pair only.

**Proof sketch.** By induction on the shape. The right operand of the root begins after the left one
and before all other slots of its own, and pairs inside of either operand leave out its first
slot. -/
theorem path_eq_of_paired {shape : Shape} {next p p' s : Nat} {path path' : List Side}
    (h : (shape.numbered next).Paired path p s) (h' : (shape.numbered next).Paired path' p' s) :
    path = path' := by
  induction shape generalizing next path path' with
  | leaf a => exact absurd h Tree.not_paired_leaf
  | node c l r ihl ihr =>
    have hroot {q : Nat} (h : (numbered next (.node c l r)).Paired [] q s) :
        s = next + l.leafCount := by
      rw [numbered, Tree.paired_nil, first_numbered, first_numbered] at h
      exact h.2.2.symm
    have hleft {q : Nat} {rest : List Side} (h : (numbered next l).Paired rest q s) :
        s < next + l.leafCount := (bounds_of_paired h).2.2
    have hright {q : Nat} {rest : List Side}
        (h : (numbered (next + l.leafCount) r).Paired rest q s) : next + l.leafCount < s := by
      have := bounds_of_paired h
      omega
    rcases path with _ | ⟨_ | _, path⟩ <;> rcases path' with _ | ⟨_ | _, path'⟩
    · rfl
    · exact absurd (hroot h) (hleft h').ne
    · exact absurd (hroot h) (hright h').ne'
    · exact absurd (hroot h') (hleft h).ne
    · exact congrArg _ (ihl h h')
    · exact absurd (hleft h) (hright h').not_gt
    · exact absurd (hroot h') (hright h).ne'
    · exact absurd (hleft h') (hright h).not_gt
    · exact congrArg _ (ihr h h')

end Shape

namespace Layout

/-! ## Positions -/

/-- No position is before the first one. -/
lemma le_of_mem_leafPositions {tokens : List (Token Nat)} {position i : Nat}
    (h : i ∈ leafPositions position tokens) : position ≤ i := by
  induction tokens generalizing position with
  | nil => cases h
  | cons token rest ih =>
    cases token with
    | join c => exact (Nat.le_succ _).trans (ih h)
    | leaf a =>
      rcases List.mem_cons.mp h with rfl | h
      · exact Nat.le_refl _
      · exact (Nat.le_succ _).trans (ih h)

/-- Positions count up. -/
lemma pairwise_leafPositions (tokens : List (Token Nat)) (position : Nat) :
    (leafPositions position tokens).Pairwise (· < ·) := by
  induction tokens generalizing position with
  | nil => exact .nil
  | cons token rest ih =>
    cases token with
    | join c => exact ih (position + 1)
    | leaf a => exact .cons (fun _ h => le_of_mem_leafPositions h) (ih (position + 1))

/-- What stands at the position of a slot once values are put into the slots. -/
lemma Sound.getElem?_map_tokens {l : Layout} (hl : l.Sound) {s place : Nat}
    (hplace : l.slotPositions[s]? = some place) {β : Type} (f : Nat → β) :
    (l.tree.tokens.map (Token.map f))[place]? = some (.leaf (f s)) := by
  obtain ⟨place', hplace', hlt, hset⟩ := hl.write s (List.getElem?_eq_some_iff.mp hplace).1
  obtain rfl : place' = place := Option.some.inj (hplace'.symm.trans hplace)
  have hsame := hset f (f s)
  rw [Function.update_eq_self] at hsame
  rw [← hsame, List.getElem?_set_self (by rwa [List.length_map])]

/-- **The position of a slot is the only place of its leaf.**

**Proof sketch.** A sound layout writes the value of a slot at the position of the slot, and no
other token changes. So a leaf of the slot at another place would keep its value when the slot is
written; and what is at the position is the leaf of the slot, as it becomes the value given to
this. -/
theorem Sound.getElem?_tokens_iff {l : Layout} (hl : l.Sound) (s i : Nat) :
    l.form.tokens[i]? = some (.leaf s) ↔ l.slotPositions[s]? = some i := by
  have hform : l.form.tokens = l.tree.tokens := congrArg Postfix.tokens hl.form_eq
  rw [hform]
  constructor
  · intro hleaf
    have hs : s < l.slots := by
      rw [← List.mem_range, ← hl.leaves_eq, ← Tree.filterMap_tokens, List.mem_filterMap]
      exact ⟨_, List.mem_of_getElem? hleaf, rfl⟩
    obtain ⟨place, hplace, hlt, hset⟩ := hl.write s hs
    rw [hplace]
    by_contra hne
    -- another leaf of the slot would stay as it is when the slot is written
    have hother := congrArg (fun tokens => tokens[i]?) (hset id (s + 1))
    simp only [List.getElem?_set_ne fun h => hne (congrArg some h), List.getElem?_map, hleaf,
      Option.map_some, Token.map, Function.update_self, id_eq, Option.some.injEq,
      Token.leaf.injEq] at hother
    omega
  · intro hplace
    have hleaf := hl.getElem?_map_tokens hplace id
    rw [List.getElem?_map] at hleaf
    obtain ⟨token, htoken, hmap⟩ := Option.map_eq_some_iff.mp hleaf
    cases token with
    | leaf a => exact htoken.trans (congrArg some hmap)
    | join c => cases hmap

/-! ## Well-formed layouts -/

/-- **A well-formed layout** with `n` slots: the form is that of the tree, the slots are where they
are said to be, and each tie belongs to one connection of two operands of one shape. -/
structure WellFormed (n : Nat) (l : Layout) : Prop where
  /-- The form is balanced. -/
  check_eq : l.form.check = .ok ()
  /-- It is the form of the tree. -/
  form_eq : l.form = l.tree.toPostfix
  /-- Its leaves are the slots in order. -/
  leaves_eq : l.form.leaves = List.range n
  /-- Each slot has a position. -/
  length_slotPositions : l.slotPositions.length = n
  /-- Positions count up. -/
  pairwise_slotPositions : l.slotPositions.Pairwise (· < ·)
  /-- The position of a slot is the only place of its leaf. -/
  getElem?_tokens_iff : ∀ s i : Nat,
    l.form.tokens[i]? = some (.leaf s) ↔ l.slotPositions[s]? = some i
  /-- Each slot has an entry in the table of ties. -/
  length_minFrom : l.minFrom.length = n
  /-- A slot is tied to the first slot of the left one of two operands of one shape, if it is the
  first slot of the right one. -/
  minFrom_iff : ∀ s p : Nat, l.minFrom[s]? = some (some p) ↔ ∃ path, l.tree.Paired path p s
  /-- There is one such connection for a slot. -/
  path_unique : ∀ (path path' : List Side) (p p' s : Nat),
    l.tree.Paired path p s → l.tree.Paired path' p' s → path = path' ∧ p = p'
  /-- A slot is tied to an earlier one. -/
  lt_of_paired : ∀ (path : List Side) (p s : Nat), l.tree.Paired path p s → p < s
  /-- The pass over the shape numbers the tree and enters the ties one after the other. -/
  number_eq : ∀ table : List (Option Nat), table.length = n → l.tree.shape.number table 0 =
    .ok (l.tree, n, (l.tree.shape.ties 0).foldl (fun t tie => t.set tie.1 (some tie.2)) table)
  /-- The table of ties is what it makes of an empty table. -/
  minFrom_eq : l.tree.shape.number (List.replicate n none) 0 = .ok (l.tree, n, l.minFrom)
  /-- It enters no two of them at one place. -/
  nodup_ties : ((l.tree.shape.ties 0).map Prod.fst).Nodup

/-- **The layouts with a number of leaves are well formed.**

**Proof sketch.** The layout of a shape is sound (`sound_ofShape`), which says where its slots are.
Its table of ties holds exactly the ties of the shape, as no slot is tied twice
(`Shape.nodup_ties`), and these are the connections of two operands of one shape
(`Shape.mem_ties_iff`). -/
theorem wellFormed_of_mem_withLeaves {n : Nat} {l : Layout} (h : l ∈ withLeaves n) :
    l.WellFormed n := by
  obtain ⟨shape, hshape, rfl⟩ := List.mem_map.mp h
  obtain rfl := Shape.leafCount_of_mem_withLeaves hshape
  have hl := sound_ofShape shape
  have htree : (ofShape shape).tree.shape = shape := shape.shape_numbered 0
  have hnumber : ∀ table : List (Option Nat), table.length = shape.leafCount →
      shape.number table 0 = .ok ((ofShape shape).tree, shape.leafCount,
        (shape.ties 0).foldl (fun t tie => t.set tie.1 (some tie.2)) table) := by
    intro table htable
    rw [shape.number_eq table 0 (by omega), Nat.zero_add]
    rfl
  have hminFrom : ∀ s p : Nat,
      (ofShape shape).minFrom[s]? = some (some p) ↔ (s, p) ∈ shape.ties 0 := fun s p =>
    ⟨mem_of_getElem?_tieTable, fun htie => getElem?_tieTable (shape.nodup_ties 0)
      (by have := shape.exists_of_mem_ties 0 htie; omega) htie⟩
  exact {
    check_eq := by
      rw [Postfix.check_eq, hl.form_eq, Postfix.toTree_toPostfix]
      rfl
    form_eq := hl.form_eq
    leaves_eq := by
      rw [hl.form_eq, Postfix.leaves, Tree.toPostfix, Tree.filterMap_tokens, hl.leaves_eq,
        slots_ofShape]
    length_slotPositions := slots_ofShape shape
    pairwise_slotPositions := pairwise_leafPositions _ 0
    getElem?_tokens_iff := hl.getElem?_tokens_iff
    length_minFrom := length_tieTable _ _
    minFrom_iff := fun s p => (hminFrom s p).trans (shape.mem_ties_iff 0)
    path_unique := fun path path' p p' s hpath hpath' => by
      obtain rfl := Shape.path_eq_of_paired hpath hpath'
      obtain ⟨c, l, r, hpart, -, rfl, -⟩ := hpath
      obtain ⟨c', l', r', hpart', -, rfl, -⟩ := hpath'
      obtain ⟨-, rfl, -⟩ := Tree.node.inj (Option.some.inj (hpart.symm.trans hpart'))
      exact ⟨rfl, rfl⟩
    lt_of_paired := fun path p s hpath => (Shape.bounds_of_paired hpath).2.1
    number_eq := by
      rw [htree]
      exact hnumber
    minFrom_eq := by
      rw [htree, hnumber _ List.length_replicate]
      rfl
    nodup_ties := by
      rw [htree]
      exact shape.nodup_ties 0 }

/-- In two pairs in series the third slot begins the right pair and the left operand in it. It is
tied to the first slot, by the connection of the two pairs alone. -/
theorem wellFormed_of_two_pairs :
    let l := ofShape
      (.series (.series Shape.single Shape.single) (.series Shape.single Shape.single))
    l ∈ withLeaves 4 ∧ l.WellFormed 4 ∧ l.minFrom = [none, some 0, some 0, some 2] ∧
      l.slotPositions = [0, 1, 3, 4] ∧
      ∀ (path : List Side) (p : Nat), l.tree.Paired path p 2 → path = [] ∧ p = 0 := by
  intro l
  have hmem : l ∈ withLeaves 4 := List.mem_map_of_mem (List.mem_of_getElem? (i := 8) rfl)
  have hl := wellFormed_of_mem_withLeaves hmem
  have hroot : l.tree.Paired [] 0 2 := ⟨_, _, _, rfl, rfl, rfl, rfl⟩
  exact ⟨hmem, hl, rfl, rfl, fun path p h => hl.path_unique _ _ _ _ _ h hroot⟩

end Layout

end Ohmic
