import Mathlib.Algebra.BigOperators.Intervals
import Mathlib.Data.List.Nodup
import Mathlib.Data.Nat.Choose.Basic
import Ohmic.Proofs.Circuit.Mirror
import Ohmic.Proofs.Search.Shapes

set_option autoImplicit false

/-!
# Every shape has one representative

Of the shapes that are mirror images of each other exactly one is listed, and it is listed once. So
the lists are as long as there are unordered binary trees with two kinds of nodes.

## Main results

* `Shape.nodup_withLeaves` — no shape is listed twice.
* `Shape.eq_of_mirrored` — listed shapes that are mirror images are equal.
* `Shape.exists_representative` — every shape has a listed mirror image.
* `Shape.length_withLeaves` — how many shapes there are, from the numbers of smaller ones.
* `Shape.existsUnique_representative` — the three together.

## Implementation notes

A member of a list that is put together from several parts tells the part from which it comes: a
connection has its operands, and these have their numbers of leaves. Whether two parts overlap is
therefore never a question about places in lists, with one exception. Operands with equally many
leaves come from one list, and there the left one stands no later than the right one. Both orders
of two different operands would then give two places to one of them.
-/

namespace Ohmic

namespace Shape

/-! ## No shape is listed twice -/

/-- A list of parts has no duplicates if no part has any, and each member tells its part. -/
lemma nodup_flatMap_of_part {α β : Type} {parts : List α} {f : α → List β} (hparts : parts.Nodup)
    (hf : ∀ a ∈ parts, (f a).Nodup)
    (hpart : ∀ a ∈ parts, ∀ b ∈ parts, ∀ x ∈ f a, x ∈ f b → a = b) :
    (parts.flatMap f).Nodup := by
  refine List.nodup_flatMap.mpr ⟨hf, hparts.pairwise_of_forall_ne fun a ha b hb hne => ?_⟩
  exact fun x hxa hxb => hne (hpart a ha b hb x hxa hxb)

/-- No connection of two operands appears twice. -/
lemma nodup_joined (left right : Shape) : (joined left right).Nodup := by
  have hall : Connection.all.Nodup := by decide
  exact hall.map fun c c' h => (Tree.node.inj h).1

/-- One left operand with operands from a list. -/
lemma nodup_flatMap_joined (left : Shape) {rights : List Shape} (hrights : rights.Nodup) :
    (rights.flatMap (joined left)).Nodup := by
  refine nodup_flatMap_of_part hrights (fun r _ => nodup_joined left r) ?_
  rintro r - r' - shape h h'
  obtain ⟨c, rfl⟩ := mem_joined.mp h
  obtain ⟨c', hnode⟩ := mem_joined.mp h'
  exact (Tree.node.inj hnode).2.2

/-- No connection of operands from two lists appears twice. -/
lemma nodup_joinedBetween {lefts rights : List Shape} (hlefts : lefts.Nodup)
    (hrights : rights.Nodup) : (joinedBetween lefts rights).Nodup := by
  refine nodup_flatMap_of_part hlefts (fun l _ => nodup_flatMap_joined l hrights) ?_
  rintro l - l' - shape h h'
  obtain ⟨r, -, hr⟩ := List.mem_flatMap.mp h
  obtain ⟨r', -, hr'⟩ := List.mem_flatMap.mp h'
  obtain ⟨c, rfl⟩ := mem_joined.mp hr
  obtain ⟨c', hnode⟩ := mem_joined.mp hr'
  exact (Tree.node.inj hnode).2.1

/-- No connection of operands from one list appears twice. -/
lemma nodup_joinedWithin {shapes : List Shape} (h : shapes.Nodup) :
    (joinedWithin shapes).Nodup := by
  induction shapes with
  | nil => exact List.nodup_nil
  | cons first rest ih =>
    obtain ⟨hfirst, hrest⟩ := List.nodup_cons.mp h
    refine (nodup_flatMap_joined first h).append (ih hrest) fun shape hshape hlater => ?_
    -- the first shape would be a left operand from the rest
    obtain ⟨r, -, hr⟩ := List.mem_flatMap.mp hshape
    obtain ⟨c, rfl⟩ := mem_joined.mp hr
    obtain ⟨c', l, r', hnode, hlr⟩ := mem_joinedWithin.mp hlater
    obtain ⟨-, rfl, -⟩ := Tree.node.inj hnode
    exact hfirst hlr.mem.1

/-- **No shape is listed twice.**

**Proof sketch.** By strong induction. The connections are put together from those with one leaf,
two leaves, and so on in the left operand, and this operand tells which part it is. -/
theorem nodup_withLeaves (n : Nat) : (withLeaves n).Nodup := by
  induction n using Nat.strong_induction_on with
  | _ n ih =>
    match n with
    | 0 => exact List.nodup_nil
    | 1 => exact List.nodup_singleton single
    | n + 2 =>
      rw [withLeaves_add_two]
      refine nodup_flatMap_of_part List.nodup_range (fun i hi => ?_)
        fun i hi i' hi' shape h h' => ?_
      · rw [List.mem_range] at hi
        unfold withLeft
        split
        · exact nodup_joinedWithin (ih (i + 1) (by omega))
        · exact nodup_joinedBetween (ih (i + 1) (by omega)) (ih (n + 2 - (i + 1)) (by omega))
      · rw [List.mem_range] at hi hi'
        obtain ⟨c, l, r, rfl, hlr⟩ := (mem_withLeft (by omega)).mp h
        obtain ⟨c', l', r', hnode, hlr'⟩ := (mem_withLeft (by omega)).mp h'
        obtain ⟨-, rfl, -⟩ := Tree.node.inj hnode
        have hleft : l.leafCount = i + 1 :=
          leafCount_of_mem_withLeaves (hlr.elim (·.2.1) (·.2.mem.1))
        have hleft' : l.leafCount = i' + 1 :=
          leafCount_of_mem_withLeaves (hlr'.elim (·.2.1) (·.2.mem.1))
        omega

/-! ## Listed mirror images are equal -/

/-- Of two shapes in a list without duplicates only one stands no later than the other. -/
lemma NoLater.antisymm {shapes : List Shape} (hnodup : shapes.Nodup) {l r : Shape}
    (h : NoLater shapes l r) (h' : NoLater shapes r l) : l = r := by
  induction shapes with
  | nil => cases h.mem.1
  | cons first rest ih =>
    obtain ⟨hfirst, hrest⟩ := List.nodup_cons.mp hnodup
    rcases noLater_cons.mp h with ⟨rfl, -⟩ | hlr
    · rcases noLater_cons.mp h' with ⟨rfl, -⟩ | hrl
      · rfl
      · exact absurd hrl.mem.2 hfirst
    · rcases noLater_cons.mp h' with ⟨rfl, -⟩ | hrl
      · exact absurd hlr.mem.2 hfirst
      · exact ih hrest hlr hrl

/-- Of two different shapes at most one may be the left operand of the other. -/
lemma Before.antisymm {l r : Shape} (h : Before l r) (h' : Before r l) : l = r := by
  rcases h with hlt | ⟨heq, hlr⟩
  · rcases h' with hlt' | ⟨heq', -⟩ <;> omega
  · rcases h' with hlt' | ⟨-, hrl⟩
    · omega
    · exact hlr.antisymm (nodup_withLeaves _) (heq ▸ hrl)

/-- **Listed shapes that are mirror images are equal.**

**Proof sketch.** By induction on the mirror image. If the operands are exchanged, each of the two
may be the left operand of the other. -/
theorem eq_of_mirrored {s t : Shape} (hs : Listed s) (ht : Listed t) (h : Tree.Mirrored s t) :
    s = t := by
  induction h with
  | leaf a => rfl
  | keep c _ _ ihl ihr =>
    obtain ⟨hl, hr, -⟩ := listed_node.mp hs
    obtain ⟨hl', hr', -⟩ := listed_node.mp ht
    rw [ihl hl hl', ihr hr hr']
  | swap c _ _ ihl ihr =>
    obtain ⟨hl, hr, hlr⟩ := listed_node.mp hs
    obtain ⟨hr', hl', hrl⟩ := listed_node.mp ht
    obtain rfl := ihl hl hl'
    obtain rfl := ihr hr hr'
    rw [hlr.antisymm hrl]

/-- **Every shape has a listed mirror image.** -/
theorem exists_representative (t : Shape) : ∃ s, Listed s ∧ Tree.Mirrored t s := by
  induction t with
  | leaf a => exact ⟨single, listed_single, .leaf a⟩
  | node c l r ihl ihr =>
    obtain ⟨l', hl, hmirrorl⟩ := ihl
    obtain ⟨r', hr, hmirrorr⟩ := ihr
    rcases before_total hl hr with hbefore | hbefore
    · exact ⟨.node c l' r', listed_node.mpr ⟨hl, hr, hbefore⟩, .keep c hmirrorl hmirrorr⟩
    · exact ⟨.node c r' l', listed_node.mpr ⟨hr, hl, hbefore⟩, .swap c hmirrorl hmirrorr⟩

/-! ## How many there are -/

/-- Two shapes are joined in two ways. -/
@[simp] lemma length_joined (left right : Shape) : (joined left right).length = 2 := rfl

/-- The connections of one left operand. -/
lemma length_flatMap_joined (left : Shape) (rights : List Shape) :
    (rights.flatMap (joined left)).length = 2 * rights.length := by
  rw [List.length_flatMap]
  simp only [length_joined, List.map_const', List.sum_replicate_nat]
  exact Nat.mul_comm _ _

/-- The connections of operands from two lists. -/
lemma length_joinedBetween (lefts rights : List Shape) :
    (joinedBetween lefts rights).length = 2 * (lefts.length * rights.length) := by
  rw [joinedBetween, List.length_flatMap]
  simp only [length_flatMap_joined, List.map_const', List.sum_replicate_nat]
  exact Nat.mul_left_comm _ _ _

/-- The connections of operands from one list: the unordered pairs, in both connections. -/
lemma length_joinedWithin (shapes : List Shape) :
    (joinedWithin shapes).length = 2 * (shapes.length + 1).choose 2 := by
  induction shapes with
  | nil => rfl
  | cons first rest ih =>
    have hpairs : (rest.length + 1 + 1).choose 2 =
        (rest.length + 1) + (rest.length + 1).choose 2 := by
      rw [Nat.choose_succ_succ', Nat.choose_one_right]
    rw [joinedWithin, List.length_append, length_flatMap_joined, ih, List.length_cons, hpairs]
    omega

/-- **How many shapes there are** with two leaves or more, from the numbers of smaller ones: any two
operands with different numbers of leaves can be joined in two ways, and with the same number any
unordered pair of them. -/
theorem length_withLeaves {n : Nat} (hn : 2 ≤ n) :
    (withLeaves n).length = ∑ i ∈ Finset.Icc 1 (n / 2),
      if 2 * i = n then 2 * ((withLeaves i).length + 1).choose 2
      else 2 * ((withLeaves i).length * (withLeaves (n - i)).length) := by
  obtain ⟨n, rfl⟩ : ∃ k, n = k + 2 := ⟨n - 2, by omega⟩
  have hpart (i : Nat) : (withLeft (n + 2) i).length =
      if 2 * i = n + 2 then 2 * ((withLeaves i).length + 1).choose 2
      else 2 * ((withLeaves i).length * (withLeaves (n + 2 - i)).length) := by
    unfold withLeft
    split
    · next heq => rw [if_pos (by omega), length_joinedWithin]
    · next hne => rw [if_neg (by omega), length_joinedBetween]
  rw [withLeaves_add_two, List.length_flatMap, ← Finset.Ico_add_one_right_eq_Icc,
    ← Finset.sum_Ico_add' _ 0 _ 1, ← Finset.range_eq_Ico]
  simp only [hpart]
  rfl

/-! ## Together -/

/-- **Every shape has exactly one representative**: of the shapes with `n` leaves each is a mirror
image of exactly one listed shape, no shape is listed twice, and there are as many as unordered
binary trees with two kinds of nodes.

**Proof sketch.** The mirror image is built up from the leaves, with the operands of each connection
in the order of the lists (`exists_representative`). Listed shapes that are mirror images of each
other are equal, since that order is antisymmetric (`eq_of_mirrored`). -/
theorem existsUnique_representative (n : Nat) :
    (∀ t : Shape, t.leafCount = n → ∃! s, s ∈ withLeaves n ∧ Tree.Mirrored t s) ∧
      (∀ s ∈ withLeaves n, s.leafCount = n) ∧ (withLeaves n).Nodup ∧
      (withLeaves 1).length = 1 ∧
      (2 ≤ n → (withLeaves n).length = ∑ i ∈ Finset.Icc 1 (n / 2),
        if 2 * i = n then 2 * ((withLeaves i).length + 1).choose 2
        else 2 * ((withLeaves i).length * (withLeaves (n - i)).length)) := by
  refine ⟨fun t ht => ?_, fun s hs => leafCount_of_mem_withLeaves hs, nodup_withLeaves n, rfl,
    length_withLeaves⟩
  obtain ⟨s, hs, hmirror⟩ := exists_representative t
  have hmem : s ∈ withLeaves n := by
    rw [← ht, hmirror.leafCount_eq]
    exact hs
  refine ⟨s, ⟨hmem, hmirror⟩, ?_⟩
  rintro s' ⟨hmem', hmirror'⟩
  have hs' : Listed s' := by
    rw [Listed, leafCount_of_mem_withLeaves hmem']
    exact hmem'
  exact eq_of_mirrored hs' hs (hmirror'.symm.trans hmirror)

/-- Three leaves beside a single one, the larger operand first, have a listed mirror image, and the
number of shapes with four leaves comes from those with one, two and three. -/
theorem existsUnique_representative_four :
    (Tree.parallel (.series (.series single single) single) single).leafCount = 4 ∧
      (∃! s, s ∈ withLeaves 4 ∧
        Tree.Mirrored (.parallel (.series (.series single single) single) single) s) ∧
      (withLeaves 4).length = 14 := by
  obtain ⟨hunique, -, -, -, hcount⟩ := existsUnique_representative 4
  have hleaves : (Tree.parallel (.series (.series single single) single) single).leafCount = 4 :=
    rfl
  refine ⟨hleaves, hunique _ hleaves, ?_⟩
  rw [hcount (by decide)]
  decide

end Shape

end Ohmic
