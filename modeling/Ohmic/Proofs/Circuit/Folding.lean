import Mathlib.Tactic.Lemma
import Ohmic.Proofs.Circuit.Regrouping
import Ohmic.Proofs.Number.Exact

set_option autoImplicit false

/-!
# The fold of a flat network

A group of a flat network is evaluated from left to right, and a fault is reported at a position
of the form in which `(c₀ op c₁ op c₂)` is written `c₀ c₁ op c₂ op`. That form is the postfix form
of a binary tree, the fold of the network, and the stack machine computes from it what the network
evaluates to, faults and their positions included. Only a network with an empty group has no fold,
and it has no impedance either.

## Main definitions

* `Flat.fold?` — the binary tree in which every group leans to the left.
* `Flat.tokens` — the postfix form of a flat network.
* `Flat.HasEmptyGroup` — there is a group without children, at any depth.

## Main results

* `Flat.exists_fold?`, `Flat.HasEmptyGroup.fold?_eq_none` — exactly the networks without an empty
  group have a fold.
* `Flat.tokens_fold`, `Flat.evaluateAt_fold` — the fold has the postfix form of the network, and
  evaluates like it.
* `Flat.evaluate_eq_evaluate_tokens` — evaluation of a network is evaluation of its postfix form.

## Implementation notes

Nothing is assumed of the arithmetic: the machine and the network carry out the same connections
in the same order. A group with one child is that child in the postfix form and in the fold, and a
child with the connection of its group keeps its own connections.
-/

namespace Ohmic

/-- A total with a missing impedance is missing. -/
lemma Connection.total?_eq_none_of_mem {S Z : Type} [Scalar S] [Impedance S Z] {c : Connection}
    {as : List (Option Z)} (h : none ∈ as) : c.total? as = none := by
  obtain ⟨before, after, rfl⟩ := List.append_of_mem h
  cases before with
  | nil => exact c.foldl_join?_none after
  | cons a before =>
    have hnone : c.join? (before.foldl c.join? a) none = none := Option.bind_fun_none _
    rw [List.cons_append, total?, List.foldl_append, List.foldl_cons, hnone]
    exact c.foldl_join?_none after

namespace Flat

variable {α : Type}

/-! ## The fold and the postfix form -/

mutual

/-- The tree in which every group is folded from left to right, if no group is empty. -/
def fold? : Flat α → Option (Tree α)
  | leaf a => some (.leaf a)
  | group _ [] => none
  | group c (first :: rest) => do
    let t ← first.fold?
    foldOnto? c t rest

/-- The folds of the networks joined to a tree one after the other. -/
def foldOnto? (c : Connection) (t : Tree α) : List (Flat α) → Option (Tree α)
  | [] => some t
  | child :: rest => do
    let next ← child.fold?
    foldOnto? c (.node c t next) rest

end

mutual

/-- The postfix form: a group `(c₀ op c₁ op c₂)` is written `c₀ c₁ op c₂ op`. -/
def tokens : Flat α → List (Token α)
  | leaf a => [.leaf a]
  | group _ [] => []
  | group c (first :: rest) => first.tokens ++ tokensAll c rest

/-- The postfix forms of the networks, each followed by the connection. -/
def tokensAll (c : Connection) : List (Flat α) → List (Token α)
  | [] => []
  | child :: rest => child.tokens ++ .join c :: tokensAll c rest

end

/-- There is a group without children at some depth. -/
inductive HasEmptyGroup : Flat α → Prop where
  /-- The network itself is one. -/
  | here (c : Connection) : HasEmptyGroup (group c [])
  /-- There is one in a child. -/
  | inside {c : Connection} {children : List (Flat α)} {child : Flat α} (mem : child ∈ children)
    (empty : HasEmptyGroup child) : HasEmptyGroup (group c children)

mutual

/-- The postfix form has as many tokens as `tokenCount` says. -/
lemma length_tokens : ∀ n : Flat α, n.tokens.length = n.tokenCount
  | leaf _ => rfl
  | group _ [] => rfl
  | group c (first :: rest) => by
    rw [tokens, tokenCount, List.length_append, length_tokens first, length_tokensAll c rest]

/-- The postfix forms have as many tokens as `tokenCountAll` says. -/
lemma length_tokensAll (c : Connection) :
    ∀ xs : List (Flat α), (tokensAll c xs).length = tokenCountAll xs
  | [] => rfl
  | child :: rest => by
    rw [tokensAll, tokenCountAll, List.length_append, List.length_cons, length_tokens child,
      length_tokensAll c rest]
    omega

end

mutual

/-- **A network without an empty group has a fold.** -/
lemma exists_fold? : ∀ n : Flat α, ¬ n.HasEmptyGroup → ∃ t, n.fold? = some t
  | leaf a, _ => ⟨.leaf a, rfl⟩
  | group c [], h => absurd (.here c) h
  | group c (first :: rest), h => by
    obtain ⟨t, ht⟩ := exists_fold? first fun hfirst => h (.inside List.mem_cons_self hfirst)
    obtain ⟨u, hu⟩ := exists_foldOnto? c t rest fun child hmem hchild =>
      h (.inside (List.mem_cons_of_mem _ hmem) hchild)
    exact ⟨u, by rw [fold?, ht]; exact hu⟩

/-- Networks without empty groups can be folded onto a tree. -/
lemma exists_foldOnto? (c : Connection) (t : Tree α) :
    ∀ xs : List (Flat α), (∀ x ∈ xs, ¬ x.HasEmptyGroup) → ∃ u, foldOnto? c t xs = some u
  | [], _ => ⟨t, rfl⟩
  | child :: rest, h => by
    obtain ⟨next, hnext⟩ := exists_fold? child (h child List.mem_cons_self)
    obtain ⟨u, hu⟩ := exists_foldOnto? c (.node c t next) rest fun x hx =>
      h x (List.mem_cons_of_mem _ hx)
    exact ⟨u, by rw [foldOnto?, hnext]; exact hu⟩

end

/-- The fold of a group with children is the fold of its first child with the others folded onto
it. -/
lemma fold?_group_eq_some {c : Connection} {first : Flat α} {rest : List (Flat α)} {u : Tree α} :
    (group c (first :: rest)).fold? = some u ↔
      ∃ t, first.fold? = some t ∧ foldOnto? c t rest = some u := by
  rw [fold?]
  exact Option.bind_eq_some_iff

/-- A network is folded onto a tree by joining its fold to the tree. -/
lemma foldOnto?_cons_eq_some {c : Connection} {t u : Tree α} {child : Flat α}
    {rest : List (Flat α)} :
    foldOnto? c t (child :: rest) = some u ↔
      ∃ next, child.fold? = some next ∧ foldOnto? c (.node c t next) rest = some u := by
  rw [foldOnto?]
  exact Option.bind_eq_some_iff

/-- Networks one of which has no fold cannot be folded onto a tree. -/
lemma foldOnto?_eq_none {c : Connection} {child : Flat α} (h : child.fold? = none)
    {xs : List (Flat α)} (mem : child ∈ xs) (t : Tree α) : foldOnto? c t xs = none := by
  induction xs generalizing t with
  | nil => cases mem
  | cons x xs ih =>
    rw [foldOnto?]
    cases mem with
    | head => rw [h]; rfl
    | tail _ mem =>
      cases x.fold? with
      | none => rfl
      | some next => exact ih mem (.node c t next)

/-- A network with an empty group has no fold. -/
lemma HasEmptyGroup.fold?_eq_none {n : Flat α} (h : n.HasEmptyGroup) : n.fold? = none := by
  induction h with
  | here c => rfl
  | @inside c children child mem _ ih =>
    cases mem with
    | head => rw [fold?, ih]; rfl
    | @tail first _ mem =>
      rw [fold?]
      cases first.fold? with
      | none => rfl
      | some t => exact foldOnto?_eq_none ih mem t

/-- Only networks with an empty group have no fold. -/
lemma isNone_fold?_iff {n : Flat α} : n.fold?.isNone = true ↔ n.HasEmptyGroup := by
  rw [Option.isNone_iff_eq_none]
  refine ⟨fun h => ?_, HasEmptyGroup.fold?_eq_none⟩
  by_contra hne
  obtain ⟨t, ht⟩ := exists_fold? n hne
  cases h.symm.trans ht

/-- Whether there is an empty group can be decided by folding. -/
instance instDecidableHasEmptyGroup (n : Flat α) : Decidable n.HasEmptyGroup :=
  decidable_of_iff _ isNone_fold?_iff

mutual

/-- **The fold has the postfix form** of the network. -/
lemma tokens_fold : ∀ (n : Flat α) {t : Tree α}, n.fold? = some t → t.tokens = n.tokens
  | leaf a, t, h => by
    obtain rfl : Tree.leaf a = t := Option.some.inj h
    rfl
  | group c [], t, h => nomatch h
  | group c (first :: rest), u, h => by
    obtain ⟨t, ht, hu⟩ := fold?_group_eq_some.mp h
    rw [tokens, tokens_foldOnto c rest hu, tokens_fold first ht]

/-- A tree with networks folded onto it has its own tokens, and then those of the networks. -/
lemma tokens_foldOnto (c : Connection) :
    ∀ (xs : List (Flat α)) {t u : Tree α}, foldOnto? c t xs = some u →
      u.tokens = t.tokens ++ tokensAll c xs
  | [], t, u, h => by
    obtain rfl : t = u := Option.some.inj h
    exact (List.append_nil _).symm
  | child :: rest, t, u, h => by
    obtain ⟨next, hnext, hu⟩ := foldOnto?_cons_eq_some.mp h
    rw [tokens_foldOnto c rest hu, Tree.tokens, tokens_fold child hnext, tokensAll]
    simp only [List.append_assoc, List.singleton_append]

end

/-- The fold has as many tokens as the network. -/
lemma tokenCount_fold {n : Flat α} {t : Tree α} (h : n.fold? = some t) :
    t.tokenCount = n.tokenCount := by
  rw [← Tree.length_tokens, tokens_fold n h, length_tokens]

/-! ## Evaluation -/

variable {S Z : Type} [Scalar S] [Impedance S Z]

mutual

/-- **The fold evaluates like the network**, wherever its first token is. -/
lemma evaluateAt_fold :
    ∀ (n : Flat Z) {t : Tree Z}, n.fold? = some t →
      ∀ position, n.evaluateAt position = t.evaluateAt position
  | leaf z, t, h, position => by
    obtain rfl : Tree.leaf z = t := Option.some.inj h
    rfl
  | group c [], t, h, position => nomatch h
  | group c (first :: rest), u, h, position => by
    obtain ⟨t, ht, hu⟩ := fold?_group_eq_some.mp h
    rw [evaluateAt_foldOnto c rest hu, evaluateAt, evaluateAt_fold first ht, tokenCount_fold ht]

/-- A tree with networks folded onto it evaluates like the tree, to whose impedance those of the
networks are then joined. -/
lemma evaluateAt_foldOnto (c : Connection) :
    ∀ (xs : List (Flat Z)) {t u : Tree Z}, foldOnto? c t xs = some u →
      ∀ position, u.evaluateAt position =
        t.evaluateAt position >>= fun value => joinAll c value (position + t.tokenCount) xs
  | [], t, u, h, position => by
    obtain rfl : t = u := Option.some.inj h
    exact (bind_pure _).symm
  | child :: rest, t, u, h, position => by
    obtain ⟨next, hnext, hu⟩ := foldOnto?_cons_eq_some.mp h
    -- both sides evaluate the tree, the child and their connection, in this order
    rw [evaluateAt_foldOnto c rest hu, Tree.evaluateAt, Tree.tokenCount, bind_assoc]
    refine bind_congr fun a => ?_
    rw [joinAll, evaluateAt_fold child hnext, tokenCount_fold hnext, bind_assoc]
    simp only [Nat.add_assoc]

end

/-- A network with an empty group has no value. -/
lemma HasEmptyGroup.value?_eq_none {n : Flat Z} (h : n.HasEmptyGroup) : n.value? = none := by
  induction h with
  | here c => rfl
  | @inside c children child mem _ ih =>
    rw [value?, values_eq_map]
    exact Connection.total?_eq_none_of_mem (ih ▸ List.mem_map_of_mem mem)

/-- **Evaluation of a flat network is evaluation of its postfix form**: the stack machine, whatever
an earlier evaluation left on its stack, computes the same impedance from it or stops at the same
fault with the same position. A network with an empty group has no impedance.

**Proof sketch.** The postfix form is the one of the fold (`tokens_fold`), which the machine
evaluates as the tree does. The tree evaluates like the network by induction on the network
(`evaluateAt_fold`), where the children of a group are folded onto the tree of the ones before. An
empty group has no value, and a total with a missing value is missing. -/
theorem evaluate_eq_evaluate_tokens (n : Flat Z) :
    (¬ n.HasEmptyGroup → ∀ m : Machine Z, n.evaluate = (m.evaluate n.tokens).1) ∧
      (n.HasEmptyGroup → ∀ v, n.evaluate ≠ .ok v) := by
  constructor
  · intro hne m
    obtain ⟨t, ht⟩ := exists_fold? n hne
    rw [← tokens_fold n ht, Machine.evaluate_tokens]
    exact evaluateAt_fold n ht 0
  · intro hempty v hv
    rw [evaluate_eq_ok_iff, hempty.value?_eq_none] at hv
    cases hv

/-- A one-child group and a cancelling pair, `(1) 2 + 5 -5 || +`: both evaluations stop at the
connection at position 5. In place of the pair, an empty group leaves the network without an
impedance. -/
theorem evaluate_eq_evaluate_tokens_cancelling :
    let n : Flat ℚ → Flat ℚ := fun last => group .series [group .parallel [leaf 1], leaf 2, last]
    let pair : Flat ℚ := group .parallel [leaf 5, leaf (-5)]
    ¬ (n pair).HasEmptyGroup ∧ (n pair).evaluate = .error (.degenerate 5) ∧
      (Machine.evaluate ⟨[7]⟩ (n pair).tokens).1 = .error (.degenerate 5) ∧
      (n (group .series [])).HasEmptyGroup ∧ (n (group .series [])).evaluate ≠ .ok 3 := by
  intro n pair
  have hne : ¬ (n pair).HasEmptyGroup := by decide
  have hempty : (n (group .series [])).HasEmptyGroup := by decide
  have hfault : (n pair).evaluate = .error (.degenerate 5) := by decide +kernel
  have heval := (evaluate_eq_evaluate_tokens (n pair)).1 hne ⟨[7]⟩
  exact ⟨hne, hfault, heval.symm.trans hfault, hempty,
    (evaluate_eq_evaluate_tokens (n (group .series []))).2 hempty 3⟩

end Flat

end Ohmic
