import Ohmic.Number.Impedance
import Ohmic.Proofs.Circuit.Reading

set_option autoImplicit false

/-!
# Postfix forms and trees

A tree and its postfix form can be made from each other without loss. The forms of trees are the
sequences that are balanced, each of them is the form of one tree only, and joining forms or
changing their leaves does to the trees what the same operations on trees do.

## Main results

* `Postfix.toTree_eq_ok_iff` — a sequence is read as a tree exactly if it is its form.
* `Tree.tokenCount_add_one` — a tree with `k` parts has `2k - 1` tokens.
* `Postfix.toTree_combine`, `Postfix.toTree_map` — joined forms and changed leaves.
* `Postfix.toTree_inverse_toPostfix` — all of these.

## Implementation notes

A change of the leaves is read along with the waiting trees (`Postfix.grow_map`), so it says the
same of sequences that are not the form of a tree: these keep their fault and its position.
-/

namespace Ohmic

variable {α β : Type}

/-! ## Counts -/

namespace Tree

/-- A tree with `k` parts has `2k - 1` tokens. -/
lemma tokenCount_add_one (t : Tree α) : t.tokenCount + 1 = 2 * t.leafCount := by
  induction t with
  | leaf a => rfl
  | node c l r ihl ihr =>
    rw [tokenCount, leafCount, Nat.mul_add, ← ihl, ← ihr]
    omega

/-- As many tokens are parts as the tree has. -/
@[simp] lemma countP_isLeaf_tokens (t : Tree α) : t.tokens.countP Token.isLeaf = t.leafCount := by
  induction t with
  | leaf a => rfl
  | node c l r ihl ihr =>
    rw [tokens, List.countP_append, List.countP_append, ihl, ihr]
    rfl

end Tree

namespace Postfix

/-! ## The form of a tree -/

/-- **A sequence is read as a tree** exactly if it is the form of this tree. -/
theorem toTree_eq_ok_iff {e : Postfix α} {t : Tree α} : e.toTree = .ok t ↔ e = t.toPostfix := by
  constructor
  · intro h
    obtain ⟨tokens⟩ := e
    exact congrArg Postfix.mk (tokens_of_toTree h)
  · rintro rfl
    exact toTree_toPostfix t

/-- The form of a tree with `k` parts has `2k - 1` tokens. -/
lemma size_toPostfix (t : Tree α) : t.toPostfix.size + 1 = 2 * t.leafCount := by
  rw [size, Tree.toPostfix, Tree.length_tokens, Tree.tokenCount_add_one]

/-- Joined forms are the form of the joined trees. -/
lemma toTree_combine {e e' : Postfix α} {s t : Tree α} (c : Connection) (hs : e.toTree = .ok s)
    (ht : e'.toTree = .ok t) : (combine c e e').toTree = .ok (.node c s t) := by
  rw [toTree_eq_ok_iff] at hs ht ⊢
  rw [hs, ht]
  rfl

/-! ## A change of the leaves -/

/-- Changed tokens are read as changed trees, whatever waits. -/
lemma grow_map (f : α → β) (tokens : List (Token α)) (position : Nat) (waiting : List (Tree α)) :
    grow position (waiting.map (Tree.map f)) (tokens.map (Token.map f)) =
      (grow position waiting tokens).map (List.map (Tree.map f)) := by
  induction tokens generalizing position waiting with
  | nil => rfl
  | cons token tokens ih =>
    cases token with
    | leaf a => exact ih (position + 1) (.leaf a :: waiting)
    | join c =>
      rcases waiting with _ | ⟨right, _ | ⟨left, below⟩⟩
      · rfl
      · rfl
      · exact ih (position + 1) (.node c left right :: below)

/-- **A sequence with changed leaves** is read as the tree with changed leaves, or has the same
fault. -/
theorem toTree_map (f : α → β) (e : Postfix α) :
    (e.map f).toTree = e.toTree.map (Tree.map f) := by
  have hgrow := grow_map f e.tokens 0 []
  have hsize : (e.map f).size = e.size := List.length_map _
  rw [List.map_nil] at hgrow
  rw [toTree, toTree, hsize, Postfix.map, hgrow]
  rcases grow 0 [] e.tokens with fault | waiting
  · rfl
  · -- nothing, one tree, or several of them wait in the end
    rcases waiting with _ | ⟨t, _ | ⟨u, waiting⟩⟩
    · rfl
    · rfl
    · simp only [Except.map, List.map_cons, List.length_cons, List.length_map]

/-- A change of the leaves keeps the balance. -/
lemma check_map (f : α → β) (e : Postfix α) : (e.map f).check = e.check := by
  rw [check_eq, check_eq, toTree_map]
  cases e.toTree <;> rfl

/-! ## Both directions -/

/-- **Postfix forms and trees are inverse to each other**, for any leaves and any token sequence.

* A sequence is balanced exactly if it is read as a tree; otherwise both find the same fault at the
  same position.
* The form of a tree is read as this tree. A sequence that is read as a tree is its form, with as
  many parts as the tree, in the same order, and one token less than twice as many.
* Two forms that are joined are the form of the joined trees.
* A change of the leaves changes those of the tree, and no sequence becomes balanced or unbalanced
  by it. To see impedances as phasors is such a change.

**Proof sketch.** The balance finds what the reading finds (`check_eq`). Reading a form gives back
the tree (`toTree_toPostfix`), and what is read as a tree is its form (`toTree_eq_ok_iff`), as no
token gets lost. The other parts follow from this and from how the reading goes through joined and
changed tokens (`toTree_combine`, `toTree_map`). -/
theorem toTree_inverse_toPostfix (e : Postfix α) :
    ((e.check = .ok () ↔ ∃ t, e.toTree = .ok t) ∧
      ∀ fault, e.check = .error fault ↔ e.toTree = .error fault) ∧
    (∀ t : Tree α, t.toPostfix.toTree = .ok t) ∧
    (∀ t, e.toTree = .ok t → t.toPostfix = e ∧ e.size + 1 = 2 * t.leafCount ∧
      e.leafCount = t.leafCount ∧ e.leaves = t.leaves) ∧
    (∀ (c : Connection) (e' : Postfix α) (s t : Tree α), e.toTree = .ok s → e'.toTree = .ok t →
      (combine c e e').toTree = .ok (.node c s t)) ∧
    (∀ {β : Type} (f : α → β),
      (e.map f).toTree = e.toTree.map (Tree.map f) ∧ (e.map f).check = e.check) ∧
    ∀ {S Z : Type} [Impedance S Z] (z : Postfix Z),
      z.toPhasor.toTree = z.toTree.map (Tree.map Impedance.toPhasor) ∧
        z.toPhasor.check = z.check := by
  refine ⟨⟨?_, fun fault => ?_⟩, toTree_toPostfix, fun t ht => ?_,
    fun c e' s t hs ht => toTree_combine c hs ht, fun f => ⟨toTree_map f e, check_map f e⟩,
    fun z => ⟨toTree_map _ z, check_map _ z⟩⟩
  · rw [check_eq]
    cases e.toTree with
    | error fault => exact iff_of_false nofun nofun
    | ok t => exact iff_of_true rfl ⟨t, rfl⟩
  · rw [check_eq]
    cases e.toTree with
    | error fault' => simp only [Except.map, Except.error.injEq]
    | ok t => exact iff_of_false nofun nofun
  · obtain rfl := toTree_eq_ok_iff.mp ht
    exact ⟨rfl, size_toPostfix t, t.countP_isLeaf_tokens, t.filterMap_tokens⟩

/-- One in parallel to two and three in series, read from its form and joined to a fourth part. -/
theorem toTree_inverse_toPostfix_three_parts :
    let e : Postfix Nat := ⟨[.leaf 1, .leaf 2, .leaf 3, .join .series, .join .parallel]⟩
    let t : Tree Nat := .parallel (.leaf 1) (.series (.leaf 2) (.leaf 3))
    e.toTree = .ok t ∧ (leaf 4).toTree = .ok (.leaf 4) ∧
      t.toPostfix = e ∧ e.size + 1 = 2 * t.leafCount ∧ e.leaves = t.leaves ∧
      (combine .series e (leaf 4)).toTree = .ok (.series t (.leaf 4)) := by
  intro e t
  have ht : e.toTree = .ok t := rfl
  have hfour : (leaf 4).toTree = .ok (.leaf 4) := rfl
  obtain ⟨-, -, hform, hcombine, -⟩ := toTree_inverse_toPostfix e
  obtain ⟨heq, hsize, -, hleaves⟩ := hform t ht
  exact ⟨ht, hfour, heq, hsize, hleaves, hcombine .series (leaf 4) t (.leaf 4) ht hfour⟩

end Postfix

end Ohmic
