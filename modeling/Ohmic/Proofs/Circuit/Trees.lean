import Mathlib.Tactic.Lemma
import Ohmic.Circuit.Postfix

set_option autoImplicit false

/-!
# Leaves and tokens of trees

## Main results

* `Tree.length_leaves`, `Tree.length_tokens` — the lists of leaves and of tokens are as long as
  the counts say.
* `Tree.leaves_map`, `Tree.tokens_map` — a change of every leaf changes these lists element by
  element.
* `Tree.map_congr` — only the effect on the leaves of a tree counts.
-/

namespace Ohmic

namespace Tree

variable {α β : Type}

/-! ## Leaves -/

/-- A tree has a part. -/
lemma leafCount_pos (t : Tree α) : 0 < t.leafCount := by
  induction t with
  | leaf a => exact Nat.one_pos
  | node c l r ihl ihr => exact Nat.add_pos_left ihl _

/-- There are as many leaves as parts. -/
@[simp] lemma length_leaves (t : Tree α) : t.leaves.length = t.leafCount := by
  induction t with
  | leaf a => rfl
  | node c l r ihl ihr => simp only [leaves, leafCount, List.length_append, ihl, ihr]

/-- The leaves of a changed tree are the changed leaves. -/
@[simp] lemma leaves_map (f : α → β) (t : Tree α) : (t.map f).leaves = t.leaves.map f := by
  induction t with
  | leaf a => rfl
  | node c l r ihl ihr => simp only [map, leaves, ihl, ihr, List.map_append]

/-- Changing the leaves keeps their number. -/
@[simp] lemma leafCount_map (f : α → β) (t : Tree α) : (t.map f).leafCount = t.leafCount := by
  induction t with
  | leaf a => rfl
  | node c l r ihl ihr => simp only [map, leafCount, ihl, ihr]

/-- Changing the leaves keeps the number of tokens. -/
@[simp] lemma tokenCount_map (f : α → β) (t : Tree α) : (t.map f).tokenCount = t.tokenCount := by
  induction t with
  | leaf a => rfl
  | node c l r ihl ihr => simp only [map, tokenCount, ihl, ihr]

/-- Two changes of every leaf are one. -/
@[simp] lemma map_map {γ : Type} (g : β → γ) (f : α → β) (t : Tree α) :
    (t.map f).map g = t.map (g ∘ f) := by
  induction t with
  | leaf a => rfl
  | node c l r ihl ihr => simp only [map, ihl, ihr]

/-- Changes that agree on the leaves of a tree have one effect on it. -/
lemma map_congr {f g : α → β} {t : Tree α} (h : ∀ a ∈ t.leaves, f a = g a) :
    t.map f = t.map g := by
  induction t with
  | leaf a => exact congrArg leaf (h a (List.mem_singleton_self a))
  | node c l r ihl ihr =>
    rw [map, map, ihl fun a ha => h a (List.mem_append_left _ ha),
      ihr fun a ha => h a (List.mem_append_right _ ha)]

/-- The values among the tokens of a tree are its leaves. -/
@[simp] lemma filterMap_tokens (t : Tree α) : t.tokens.filterMap Token.leaf? = t.leaves := by
  induction t with
  | leaf a => rfl
  | node c l r ihl ihr =>
    simp only [tokens, leaves, List.filterMap_append, ihl, ihr]
    exact List.append_nil _

/-! ## Tokens -/

/-- The tokens of a tree are as many as `tokenCount` says. -/
@[simp] lemma length_tokens (t : Tree α) : t.tokens.length = t.tokenCount := by
  induction t with
  | leaf a => rfl
  | node c l r ihl ihr =>
    simp only [tokens, tokenCount, List.length_append, List.length_singleton, ihl, ihr]

/-- A tree has a token. -/
lemma tokens_ne_nil (t : Tree α) : t.tokens ≠ [] := by
  cases t with
  | leaf a => exact List.cons_ne_nil _ _
  | node c l r => exact List.append_ne_nil_of_right_ne_nil _ (List.cons_ne_nil _ _)

/-- The tokens of a changed tree are the changed tokens. -/
@[simp] lemma tokens_map (f : α → β) (t : Tree α) :
    (t.map f).tokens = t.tokens.map (Token.map f) := by
  induction t with
  | leaf a => rfl
  | node c l r ihl ihr => simp only [map, tokens, ihl, ihr, List.map_append]; rfl

end Tree

end Ohmic
