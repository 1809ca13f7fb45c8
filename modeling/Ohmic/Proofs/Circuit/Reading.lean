import Ohmic.Proofs.Circuit.Trees

set_option autoImplicit false

/-!
# Reading token sequences

Any sequence of tokens can be read as a postfix form. The reader keeps the trees that wait for a
connection; written one after the other, these trees are the tokens read so far. So a sequence that
is read as a tree is the form of this tree, and of no other one.

## Main definitions

* `Postfix.written` — the tokens of the waiting trees, from the first to the latest.

## Main results

* `Postfix.grow_append`, `Postfix.grow_tokens` — a sequence is read piece by piece, and the tokens
  of a tree are read as this tree.
* `Postfix.written_of_grow` — nothing is lost: the waiting trees spell what was read.
* `Postfix.toTree_toPostfix`, `Postfix.tokens_of_toTree` — the tree of a form, and the form of a
  tree.
* `Postfix.check_eq` — the balance and the reader agree on every sequence.
-/

namespace Ohmic

namespace Postfix

variable {α : Type}

/-! ## Piece by piece -/

/-- A sequence is read piece by piece. -/
lemma grow_append (position : Nat) (waiting : List (Tree α)) (tokens rest : List (Token α)) :
    grow position waiting (tokens ++ rest) =
      (grow position waiting tokens).bind fun waiting =>
        grow (position + tokens.length) waiting rest := by
  induction tokens generalizing position waiting with
  | nil => rfl
  | cons token tokens ih =>
    rw [List.cons_append, List.length_cons, Nat.add_comm tokens.length, ← Nat.add_assoc]
    cases token with
    | leaf a => exact ih (position + 1) (.leaf a :: waiting)
    | join c =>
      rcases waiting with _ | ⟨right, _ | ⟨left, below⟩⟩
      · rfl
      · rfl
      · exact ih (position + 1) (.node c left right :: below)

/-- The tokens of a tree are read as this tree. -/
lemma grow_tokens (t : Tree α) (position : Nat) (waiting : List (Tree α))
    (rest : List (Token α)) :
    grow position waiting (t.tokens ++ rest) =
      grow (position + t.tokenCount) (t :: waiting) rest := by
  induction t generalizing position waiting rest with
  | leaf a => rfl
  | node c l r ihl ihr =>
    simp only [Tree.tokens, List.append_assoc, ihl, ihr, List.singleton_append, grow,
      Tree.tokenCount, Nat.add_assoc]

/-- **The tree of the form of a tree** is this tree. -/
theorem toTree_toPostfix (t : Tree α) : t.toPostfix.toTree = .ok t := by
  have h := grow_tokens t 0 [] []
  rw [List.append_nil, grow] at h
  simp only [toTree, Tree.toPostfix, h]

/-! ## What was read -/

/-- The tokens of the waiting trees, the latest of which comes first in the list. -/
def written (waiting : List (Tree α)) : List (Token α) := waiting.reverse.flatMap Tree.tokens

/-- The latest tree is written last. -/
lemma written_cons (t : Tree α) (waiting : List (Tree α)) :
    written (t :: waiting) = written waiting ++ t.tokens := by
  simp only [written, List.reverse_cons, List.flatMap_append, List.flatMap_cons, List.flatMap_nil,
    List.append_nil]

/-- Two trees that are joined are written as before, with the connection after them. -/
lemma written_node (c : Connection) (left right : Tree α) (below : List (Tree α)) :
    written (.node c left right :: below) = written (right :: left :: below) ++ [.join c] := by
  simp only [written_cons, Tree.tokens, List.append_assoc]

/-- **Nothing is lost**: after some tokens, the waiting trees spell what waited before and the
tokens. -/
lemma written_of_grow {tokens : List (Token α)} {position : Nat} {waiting waiting' : List (Tree α)}
    (h : grow position waiting tokens = .ok waiting') :
    written waiting ++ tokens = written waiting' := by
  induction tokens generalizing position waiting with
  | nil =>
    obtain rfl := Except.ok.inj h
    exact List.append_nil _
  | cons token tokens ih =>
    cases token with
    | leaf a =>
      have hrest : written (.leaf a :: waiting) ++ tokens = written waiting' := ih h
      rwa [written_cons, Tree.tokens, List.append_assoc, List.singleton_append] at hrest
    | join c =>
      rcases waiting with _ | ⟨right, _ | ⟨left, below⟩⟩
      · cases h
      · cases h
      · have hrest : written (.node c left right :: below) ++ tokens = written waiting' := ih h
        rwa [written_node, List.append_assoc, List.singleton_append] at hrest

/-- **A sequence that is read as a tree** is the form of this tree. -/
theorem tokens_of_toTree {e : Postfix α} {t : Tree α} (h : e.toTree = .ok t) :
    e.tokens = t.tokens := by
  unfold toTree at h
  split at h
  · cases h
  · cases h
  · next u hgrow =>
    obtain rfl := Except.ok.inj h
    have hwritten := written_of_grow hgrow
    rwa [written_cons] at hwritten
  · cases h

/-! ## Where reading fails -/

/-- Reading fails only at a connection without operands.

**Proof sketch.** By induction on the tokens. A connection for which less than two trees wait fails
at its own position, and every other fault is one of the later tokens. -/
lemma grow_eq_error {tokens : List (Token α)} {position : Nat} {waiting : List (Tree α)}
    {fault : Fault} (h : grow position waiting tokens = .error fault) :
    ∃ at', fault = .malformed at' .missingOperands ∧ position ≤ at' ∧
      at' < position + tokens.length := by
  induction tokens generalizing position waiting with
  | nil => cases h
  | cons token tokens ih =>
    rw [List.length_cons]
    have hlater : ∀ {waiting'}, grow (position + 1) waiting' tokens = .error fault →
        ∃ at', fault = .malformed at' .missingOperands ∧ position ≤ at' ∧
          at' < position + (tokens.length + 1) := by
      intro waiting' hrest
      obtain ⟨at', hfault, hle, hlt⟩ := ih hrest
      exact ⟨at', hfault, by omega, by omega⟩
    cases token with
    | leaf a => exact hlater h
    | join c =>
      rcases waiting with _ | ⟨right, _ | ⟨left, below⟩⟩
      · exact ⟨position, (Except.error.inj h).symm, Nat.le_refl _, by omega⟩
      · exact ⟨position, (Except.error.inj h).symm, Nat.le_refl _, by omega⟩
      · exact hlater h

/-- A sequence with a token that is not read as a tree has a connection without operands, or several
trees wait in the end. -/
lemma grow_of_toTree_eq_error {e : Postfix α} {fault : Fault} (h : e.toTree = .error fault)
    (hne : e.tokens ≠ []) :
    grow 0 [] e.tokens = .error fault ∨ ∃ trees, grow 0 [] e.tokens = .ok trees ∧
      trees.length ≠ 1 ∧ fault = .malformed e.size (.leftoverOperands trees.length) := by
  unfold toTree at h
  split at h
  · next hgrow => exact .inl (hgrow.trans (congrArg Except.error (Except.error.inj h)))
  · next hgrow => exact absurd (written_of_grow hgrow) hne
  · cases h
  · next trees _ hone hgrow =>
    refine .inr ⟨trees, hgrow, fun hlength => ?_, (Except.error.inj h).symm⟩
    obtain ⟨t, rfl⟩ := List.length_eq_one_iff.mp hlength
    exact hone t rfl

/-- The balance counts the waiting trees. -/
lemma balance_eq_grow (tokens : List (Token α)) (position : Nat) (waiting : List (Tree α)) :
    balance position waiting.length tokens = (grow position waiting tokens).map List.length := by
  induction tokens generalizing position waiting with
  | nil => rfl
  | cons token tokens ih =>
    cases token with
    | leaf a => exact ih (position + 1) (.leaf a :: waiting)
    | join c =>
      rcases waiting with _ | ⟨right, _ | ⟨left, below⟩⟩
      · rfl
      · rfl
      · exact ih (position + 1) (.node c left right :: below)

/-- **The balance and the reader agree**: a sequence is balanced exactly if it is read as a tree,
and otherwise both find the same fault.

**Proof sketch.** The balance counts the trees that wait (`balance_eq_grow`), so both fail at the
same token, or both end with as many trees. That none are left cannot happen, since the first token
is part of one. -/
theorem check_eq (e : Postfix α) : e.check = e.toTree.map fun _ => () := by
  obtain ⟨tokens⟩ := e
  cases tokens with
  | nil => rfl
  | cons token tokens =>
    have hbalance := balance_eq_grow (token :: tokens) 0 []
    simp only [check, toTree, List.isEmpty_cons, Bool.false_eq_true, if_false]
    rw [List.length_nil] at hbalance
    rw [hbalance]
    cases hgrow : grow 0 [] (token :: tokens) with
    | error fault => rfl
    | ok waiting =>
      rcases waiting with _ | ⟨t, _ | ⟨u, waiting⟩⟩
      · -- something waits after a token
        have hwritten := written_of_grow hgrow
        cases hwritten
      · rfl
      · rfl

end Postfix

end Ohmic
