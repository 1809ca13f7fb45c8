import Ohmic.Proofs.Circuit.CanonicalKey
import Ohmic.Proofs.Circuit.Evaluation

set_option autoImplicit false

/-!
# Mirror images of trees

Both connections commute, so a search that tries each network in one order of operands only is
enough. Trees that differ in the order of operands alone are mirror images of each other.

## Main definitions

* `Tree.Mirrored` — one tree is the other with the operands of some connections exchanged.

## Main results

* `Tree.Mirrored.refl`, `Tree.Mirrored.symm`, `Tree.Mirrored.trans` — being mirror images is an
  equivalence.
* `Tree.Mirrored.key_eq` — mirror images have one key.
* `Tree.Mirrored.leaves_perm`, `Tree.Mirrored.map` — they have the same leaves, and their leaves may
  be changed together.
* `Tree.Mirrored.value?_eq` — they have the same value, if connections commute.
-/

namespace Ohmic

namespace Tree

variable {α β : Type}

/-- One tree is the other with the operands of some connections exchanged. -/
inductive Mirrored : Tree α → Tree α → Prop where
  /-- A single part has no operands. -/
  | leaf (a : α) : Mirrored (leaf a) (leaf a)
  /-- The operands stay in their places. -/
  | keep (c : Connection) {l l' r r' : Tree α} (hl : Mirrored l l') (hr : Mirrored r r') :
    Mirrored (node c l r) (node c l' r')
  /-- The operands are exchanged. -/
  | swap (c : Connection) {l l' r r' : Tree α} (hl : Mirrored l l') (hr : Mirrored r r') :
    Mirrored (node c l r) (node c r' l')

namespace Mirrored

/-- A tree is a mirror image of itself. -/
lemma refl (t : Tree α) : Mirrored t t := by
  induction t with
  | leaf a => exact .leaf a
  | node c l r ihl ihr => exact .keep c ihl ihr

/-- A tree is a mirror image of its mirror images. -/
lemma symm {s t : Tree α} (h : Mirrored s t) : Mirrored t s := by
  induction h with
  | leaf a => exact .leaf a
  | keep c _ _ ihl ihr => exact .keep c ihl ihr
  | swap c _ _ ihl ihr => exact .swap c ihr ihl

/-- Mirror images of mirror images are mirror images. -/
lemma trans {s t u : Tree α} (h : Mirrored s t) (h' : Mirrored t u) : Mirrored s u := by
  induction h generalizing u with
  | leaf a => exact h'
  | keep c _ _ ihl ihr =>
    cases h' with
    | keep _ hl hr => exact .keep c (ihl hl) (ihr hr)
    | swap _ hl hr => exact .swap c (ihl hl) (ihr hr)
  | swap c _ _ ihl ihr =>
    cases h' with
    | keep _ hr hl => exact .swap c (ihl hl) (ihr hr)
    | swap _ hr hl => exact .keep c (ihl hl) (ihr hr)

/-- Mirror images are rearrangements. -/
lemma rearrangement {s t : Tree α} (h : Mirrored s t) : Rearrangement s t := by
  induction h with
  | leaf a => exact .refl
  | keep c _ _ ihl ihr => exact ihl.node c ihr
  | swap c _ _ ihl ihr => exact (ihl.node c ihr).tail (.swap c _ _)

/-- **Mirror images have one key.** -/
lemma key_eq [Ord α] [Std.TransOrd α] [Std.LawfulEqOrd α] {s t : Tree α} (h : Mirrored s t) :
    s.key = t.key := key_eq_of_rearrangement h.rearrangement

/-- Mirror images have as many parts. -/
lemma leafCount_eq {s t : Tree α} (h : Mirrored s t) : s.leafCount = t.leafCount :=
  h.rearrangement.leafCount_eq

/-- Mirror images have the same leaves in another order. -/
lemma leaves_perm {s t : Tree α} (h : Mirrored s t) : s.leaves.Perm t.leaves := by
  induction h with
  | leaf a => exact .refl _
  | keep c _ _ ihl ihr => exact ihl.append ihr
  | swap c _ _ ihl ihr => exact (ihl.append ihr).trans List.perm_append_comm

/-- Changing every leaf keeps mirror images. -/
lemma map (f : α → β) {s t : Tree α} (h : Mirrored s t) : Mirrored (s.map f) (t.map f) := by
  induction h with
  | leaf a => exact .leaf (f a)
  | keep c _ _ ihl ihr => exact .keep c ihl ihr
  | swap c _ _ ihl ihr => exact .swap c ihl ihr

end Mirrored

end Tree

/-! ## Values -/

section

variable {S Z : Type} [Scalar S] [Impedance S Z]

/-- Combinations commute if connections do. -/
lemma Connection.combine?_comm {c : Connection} {a b : Z} (h : c.join a b = c.join b a) :
    c.combine? a b = c.combine? b a := by
  unfold combine? joinAt
  rw [h]

/-- **Mirror images have the same value**, if connections commute.

**Proof sketch.** By induction on the mirror image. Exchanged operands are valued in the other
order, and only then combined. -/
theorem Tree.Mirrored.value?_eq (hcomm : ∀ (c : Connection) (a b : Z), c.join a b = c.join b a)
    {s t : Tree Z} (h : Mirrored s t) : s.value? = t.value? := by
  induction h with
  | leaf a => rfl
  | keep c _ _ ihl ihr =>
    unfold value?
    rw [ihl, ihr]
  | @swap c l l' r r' _ _ ihl ihr =>
    unfold value?
    rw [ihl, ihr]
    cases l'.value? with
    | none => cases r'.value? <;> rfl
    | some a =>
      cases r'.value? with
      | none => rfl
      | some b => exact Connection.combine?_comm (hcomm c a b)

end

end Ohmic
