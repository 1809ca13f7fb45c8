import Mathlib.Logic.Relation
import Ohmic.Circuit.Flatten
import Ohmic.Proofs.Circuit.FlatOrder
import Ohmic.Proofs.Circuit.Trees

set_option autoImplicit false

/-!
# The canonical form decides equivalence

Two binary trees stand for one network if one becomes the other by exchanging the operands of
connections and by regrouping chains of one connection. They do exactly if their flat forms have
one canonical form.

## Main definitions

* `Tree.Rearranged` — one exchange or regrouping, anywhere in a tree.
* `Tree.key` — the canonical flat form of a tree.
* `Tree.chain` — the operands of the chain of one connection at the root of a tree.

## Main results

* `Tree.key_node` — the key of a tree from the keys of its operands.
* `Tree.key_eq_of_rearranged` — rearrangements keep the key.
* `Tree.rearranged_of_key_eq` — trees with one key are rearrangements of each other.
* `Tree.canonical_flatten_eq_iff` — both together.
-/

namespace Ohmic

/-! ## The operands of a group -/

namespace Flat

variable {α : Type}

/-- The canonical forms of a list are those of its members. -/
lemma canonicalAll_eq_map [Ord α] (xs : List (Flat α)) : canonicalAll xs = xs.map canonical := by
  induction xs with
  | nil => rfl
  | cons x xs ih => rw [canonicalAll, ih, List.map_cons]

/-- What the canonical form of a network contributes to a group: the canonical forms of what the
network itself contributes, in another order. -/
lemma spread_canonical_perm [Ord α] (c : Connection) (x : Flat α) :
    (x.canonical.spread c).Perm ((x.spread c).map canonical) := by
  cases x with
  | leaf a => exact List.Perm.refl _
  | group d xs =>
    by_cases hd : d = c
    · simp only [canonical, spread, hd, if_true, canonicalAll_eq_map]
      exact stableSort_perm _ _
    · simp only [canonical, spread, hd, if_false, List.map_cons, List.map_nil]
      exact List.Perm.refl _

end Flat

namespace Tree

variable {α : Type}

/-! ## Rearrangement -/

/-- One tree is another with the operands of one connection exchanged, or with a chain of two equal
connections regrouped, at the root or in a subtree. -/
inductive Rearranged : Tree α → Tree α → Prop where
  /-- The operands exchanged. -/
  | swap (c : Connection) (x y : Tree α) : Rearranged (node c x y) (node c y x)
  /-- The first two operands of a chain regrouped to the last two. -/
  | regroup (c : Connection) (x y z : Tree α) :
    Rearranged (node c (node c x y) z) (node c x (node c y z))
  /-- The last two operands of a chain regrouped to the first two. -/
  | regroupBack (c : Connection) (x y z : Tree α) :
    Rearranged (node c x (node c y z)) (node c (node c x y) z)
  /-- A rearrangement of the left operand. -/
  | left (c : Connection) {x x' : Tree α} (y : Tree α) (h : Rearranged x x') :
    Rearranged (node c x y) (node c x' y)
  /-- A rearrangement of the right operand. -/
  | right (c : Connection) (x : Tree α) {y y' : Tree α} (h : Rearranged y y') :
    Rearranged (node c x y) (node c x y')

/-- Finitely many rearrangements. -/
abbrev Rearrangement : Tree α → Tree α → Prop := Relation.ReflTransGen Rearranged

/-- Rearrangements can be undone. -/
lemma Rearranged.symm {s t : Tree α} (h : Rearranged s t) : Rearranged t s := by
  induction h with
  | swap c x y => exact .swap c y x
  | regroup c x y z => exact .regroupBack c x y z
  | regroupBack c x y z => exact .regroup c x y z
  | left c y _ ih => exact .left c y ih
  | right c x _ ih => exact .right c x ih

/-- A row of rearrangements can be undone. -/
lemma Rearrangement.symm {s t : Tree α} (h : Rearrangement s t) : Rearrangement t s := by
  induction h with
  | refl => exact .refl
  | tail _ h ih => exact .head h.symm ih

/-- Rearranged operands make a rearranged connection. -/
lemma Rearrangement.node (c : Connection) {x x' y y' : Tree α} (hx : Rearrangement x x')
    (hy : Rearrangement y y') : Rearrangement (node c x y) (node c x' y') :=
  (hx.lift (Tree.node c · y) fun _ _ h => .left c y h).trans
    (hy.lift (Tree.node c x' ·) fun _ _ h => .right c x' h)

/-- Rearranging keeps the number of parts. -/
lemma Rearranged.leafCount_eq {s t : Tree α} (h : Rearranged s t) : s.leafCount = t.leafCount := by
  induction h with
  | swap c x y => exact Nat.add_comm _ _
  | regroup c x y z => exact Nat.add_assoc _ _ _
  | regroupBack c x y z => exact (Nat.add_assoc _ _ _).symm
  | left c y _ ih => exact congrArg (· + y.leafCount) ih
  | right c x _ ih => exact congrArg (x.leafCount + ·) ih

/-- A row of rearrangements keeps the number of parts. -/
lemma Rearrangement.leafCount_eq {s t : Tree α} (h : Rearrangement s t) :
    s.leafCount = t.leafCount := by
  induction h with
  | refl => rfl
  | tail _ h ih => exact ih.trans h.leafCount_eq

/-! ## Chains -/

/-- The operands of the chain of `c` at the root: the largest subtrees that are not connected by
`c` themselves. -/
def chain (c : Connection) : Tree α → List (Tree α)
  | leaf a => [leaf a]
  | node d l r => if d = c then l.chain c ++ r.chain c else [node d l r]

/-- The chain of a connection at the root. -/
lemma chain_node_self (c : Connection) (l r : Tree α) :
    (node c l r).chain c = l.chain c ++ r.chain c := if_pos rfl

/-- A tree with another connection at the root is a chain of one operand. -/
lemma chain_node_of_ne {c d : Connection} (h : d ≠ c) (l r : Tree α) :
    (node d l r).chain c = [node d l r] := if_neg h

/-- A chain has an operand. -/
lemma chain_ne_nil (c : Connection) (t : Tree α) : t.chain c ≠ [] := by
  induction t with
  | leaf a => exact List.cons_ne_nil _ _
  | node d l r ihl ihr =>
    by_cases hd : d = c
    · subst hd
      rw [chain_node_self]
      exact List.append_ne_nil_of_left_ne_nil ihl _
    · rw [chain_node_of_ne hd]
      exact List.cons_ne_nil _ _

/-- **Any operand to the front**: a chain can be rearranged so that any one of its operands is
joined to all the others.

**Proof sketch.** Induction on the tree. The operand lies in the chain of the left or of the right
side. If that side is the operand itself, nothing or one exchange is left to do. Otherwise the
side is a shorter chain, which has the operand at its front by induction, and regrouping moves the
rest of it to the other side. -/
lemma exists_chain_front (c : Connection) (l r : Tree α) {p : Tree α}
    (hp : p ∈ (node c l r).chain c) :
    ∃ rest, Rearrangement (node c l r) (node c p rest) ∧
      ((node c l r).chain c).Perm (p :: rest.chain c) := by
  -- one side, with the other one arbitrary
  have side : ∀ x y : Tree α, p ∈ x.chain c → ∃ rest, Rearrangement (node c x y) (node c p rest) ∧
      (x.chain c ++ y.chain c).Perm (p :: rest.chain c) := by
    intro x
    induction x with
    | leaf a =>
      intro y hp
      obtain rfl : p = leaf a := List.mem_singleton.mp hp
      exact ⟨y, .refl, .refl _⟩
    | node d a b iha ihb =>
      intro y hp
      by_cases hd : d = c
      · subst hd
        rw [chain_node_self, List.mem_append] at hp
        rcases hp with hp | hp
        · obtain ⟨rest, hrest, hperm⟩ := iha (node d b y) hp
          refine ⟨rest, .head (.regroup d a b y) hrest, ?_⟩
          rw [chain_node_self, List.append_assoc]
          rwa [chain_node_self] at hperm
        · obtain ⟨rest, hrest, hperm⟩ := ihb (node d a y) hp
          refine ⟨rest, .head (.left d y (.swap d a b)) (.head (.regroup d b a y) hrest), ?_⟩
          rw [chain_node_self] at hperm ⊢
          refine List.Perm.trans ?_ hperm
          rw [← List.append_assoc]
          exact List.perm_append_comm.append_right _
      · rw [chain_node_of_ne hd, List.mem_singleton] at hp
        subst hp
        rw [chain_node_of_ne hd]
        exact ⟨y, .refl, .refl _⟩
  rw [chain_node_self, List.mem_append] at hp
  rw [chain_node_self]
  rcases hp with hp | hp
  · exact side l r hp
  · obtain ⟨rest, hrest, hperm⟩ := side r l hp
    exact ⟨rest, .head (.swap c l r) hrest, List.perm_append_comm.trans hperm⟩

/-! ## Keys -/

section Key

variable [Ord α]

/-- The canonical flat form of a tree. -/
def key (t : Tree α) : Flat α := t.flatten.canonical

variable [Std.TransOrd α] [Std.LawfulEqOrd α]

/-- **The key of a connection** is the group of what the keys of its operands contribute, sorted.

**Proof sketch.** The sort by size inside `flatten` only rearranges, and so does the sort inside the
keys of the operands; the last sort forgets both. -/
lemma key_node (c : Connection) (l r : Tree α) :
    (node c l r).key = .group c (Flat.sortChildren (l.key.spread c ++ r.key.spread c)) := by
  simp only [key, flatten, Flat.canonical, Flat.canonicalAll_eq_map]
  congr 1
  apply Flat.sortChildren_eq_of_perm
  have hsort := (stableSort_perm (fun x y : Flat α => decide (x.size ≤ y.size))
    (l.flatten.spread c ++ r.flatten.spread c)).map Flat.canonical
  refine hsort.trans ?_
  rw [List.map_append]
  exact ((Flat.spread_canonical_perm c l.flatten).append
    (Flat.spread_canonical_perm c r.flatten)).symm

/-- What a key contributes to a group of `c`: the keys of the operands of the chain of `c`. -/
lemma spread_key_perm (c : Connection) (t : Tree α) :
    (t.key.spread c).Perm ((t.chain c).map key) := by
  induction t with
  | leaf a => exact .refl _
  | node d l r ihl ihr =>
    by_cases hd : d = c
    · subst hd
      rw [key_node, chain_node_self, List.map_append]
      simp only [Flat.spread, if_true]
      exact (stableSort_perm _ _).trans (ihl.append ihr)
    · rw [chain_node_of_ne hd, key_node]
      simp only [Flat.spread, hd, if_false, List.map_cons, List.map_nil, key_node]
      exact .refl _

/-- The key of a connection from the keys of the operands of its chain. -/
lemma key_node_eq_chain (c : Connection) (l r : Tree α) :
    (node c l r).key = .group c (Flat.sortChildren (((node c l r).chain c).map key)) := by
  rw [key_node, chain_node_self, List.map_append]
  congr 1
  exact Flat.sortChildren_eq_of_perm ((spread_key_perm c l).append (spread_key_perm c r))

/-- Trees whose chains of `c` have operands with the same keys have one key.

**Proof sketch.** A chain has at least two operands if the last connection of the tree is `c`, and
else the tree is alone in it. The chains are equally long, so both trees are connections by `c`,
whose keys are the sorted keys of their operands, or both are alone. -/
lemma key_eq_of_chain_perm (c : Connection) {s t : Tree α}
    (h : ((s.chain c).map key).Perm ((t.chain c).map key)) : s.key = t.key := by
  have alone : ∀ u : Tree α, (∃ l r, u = node c l r) ∨ u.chain c = [u] := by
    intro u
    cases u with
    | leaf a => exact Or.inr rfl
    | node d l r =>
      by_cases hd : d = c
      · exact Or.inl ⟨l, r, by rw [hd]⟩
      · exact Or.inr (chain_node_of_ne hd l r)
  have two : ∀ l r : Tree α, 2 ≤ ((node c l r).chain c).length := by
    intro l r
    have hl := List.length_pos_of_ne_nil (chain_ne_nil c l)
    have hr := List.length_pos_of_ne_nil (chain_ne_nil c r)
    rw [chain_node_self, List.length_append]
    omega
  have hlen := h.length_eq
  rw [List.length_map, List.length_map] at hlen
  rcases alone s with ⟨l, r, rfl⟩ | hs <;> rcases alone t with ⟨l', r', rfl⟩ | ht
  · rw [key_node_eq_chain, key_node_eq_chain, Flat.sortChildren_eq_of_perm h]
  · have := two l r
    rw [ht, List.length_singleton] at hlen
    omega
  · have := two l' r'
    rw [hs, List.length_singleton] at hlen
    omega
  · rw [hs, ht] at h
    exact List.singleton_inj.mp (List.singleton_perm_singleton.mp h ▸ rfl)

/-- One rearrangement keeps the key.

**Proof sketch.** By induction on the rearrangement. Operands that change places are the same
children in another order, regrouped connections have one chain (`key_eq_of_chain_perm`), and a
rearrangement inside of an operand keeps the key of that operand. -/
lemma key_eq_of_rearranged {s t : Tree α} (h : Rearranged s t) : s.key = t.key := by
  induction h with
  | swap c x y =>
    rw [key_node, key_node]
    congr 1
    exact Flat.sortChildren_eq_of_perm List.perm_append_comm
  | regroup c x y z =>
    apply key_eq_of_chain_perm c
    simp only [chain_node_self, List.append_assoc]
    exact .refl _
  | regroupBack c x y z =>
    apply key_eq_of_chain_perm c
    simp only [chain_node_self, List.append_assoc]
    exact .refl _
  | left c y _ ih => rw [key_node, key_node, ih]
  | right c x _ ih => rw [key_node, key_node, ih]

/-- A row of rearrangements keeps the key. -/
lemma key_eq_of_rearrangement {s t : Tree α} (h : Rearrangement s t) : s.key = t.key := by
  induction h with
  | refl => rfl
  | tail _ h ih => exact ih.trans (key_eq_of_rearranged h)

/-- **Trees with one key are rearrangements of each other.**

**Proof sketch.** Induction on the number of parts. Two single parts with one key are equal. Two
connections with one key are the same connection, and the operands of their chains have the same
keys. Bring an operand of the one chain to its front, and one with the same key to the front of the
other chain (`exists_chain_front`). The two operands have one key, and so have the rests of the
chains (`key_eq_of_chain_perm`); all are smaller. -/
lemma rearranged_of_key_eq : ∀ (n : Nat) {s t : Tree α}, s.leafCount ≤ n → s.key = t.key →
    Rearrangement s t
  | 0, s, _, hn, _ => absurd s.leafCount_pos (by omega)
  | n + 1, .leaf a, .leaf b, _, h => by
    obtain rfl : a = b := Flat.leaf.inj h
    exact .refl
  | n + 1, .leaf a, .node d l r, _, h => by
    rw [key_node] at h
    cases h
  | n + 1, .node c l r, .leaf b, _, h => by
    rw [key_node] at h
    cases h
  | n + 1, .node c l r, .node d l' r', hn, h => by
    rw [key_node_eq_chain, key_node_eq_chain] at h
    obtain ⟨rfl, hsort⟩ := Flat.group.inj h
    have hkeys : (((node c l r).chain c).map key).Perm (((node c l' r').chain c).map key) :=
      Flat.perm_of_sortChildren_eq hsort
    obtain ⟨p, hp⟩ := List.exists_mem_of_ne_nil _ (chain_ne_nil c (node c l r))
    obtain ⟨q, hq, hqp⟩ := List.mem_map.mp (hkeys.mem_iff.mp (List.mem_map_of_mem hp))
    obtain ⟨rest, hrest, hperm⟩ := exists_chain_front c l r hp
    obtain ⟨rest', hrest', hperm'⟩ := exists_chain_front c l' r' hq
    have hrests : ((rest.chain c).map key).Perm ((rest'.chain c).map key) := by
      have hcons := ((hperm.map key).symm.trans hkeys).trans (hperm'.map key)
      rw [List.map_cons, List.map_cons, hqp] at hcons
      exact hcons.cons_inv
    have hcount : (node c l r).leafCount = p.leafCount + rest.leafCount := hrest.leafCount_eq
    have hpos := p.leafCount_pos
    have hpos' := rest.leafCount_pos
    have hfront : Rearrangement p q := rearranged_of_key_eq n (by omega) hqp.symm
    have hback : Rearrangement rest rest' :=
      rearranged_of_key_eq n (by omega) (key_eq_of_chain_perm c hrests)
    exact hrest.trans ((hfront.node c hback).trans hrest'.symm)

/-- **The canonical form decides equivalence**: two trees have one canonical flat form exactly if
finitely many exchanges and regroupings turn one into the other.

**Proof sketch.** Exchanges and regroupings keep the canonical form (`key_eq_of_rearrangement`).
That trees with one form are rearrangements of each other is an induction on their leaf count
(`rearranged_of_key_eq`). -/
theorem canonical_flatten_eq_iff (s t : Tree α) :
    s.flatten.canonical = t.flatten.canonical ↔ Relation.ReflTransGen Rearranged s t :=
  ⟨rearranged_of_key_eq s.leafCount le_rfl, key_eq_of_rearrangement⟩

end Key

/-- Three parts in series can be exchanged and regrouped, but series and parallel do not mix. -/
theorem canonical_flatten_eq_iff_three_parts :
    Relation.ReflTransGen Rearranged (series (leaf 3) (series (leaf 1) (leaf 2)))
        (series (series (leaf 2) (leaf 3)) (leaf 1)) ∧
      ¬ Relation.ReflTransGen Rearranged (series (leaf 3) (parallel (leaf 1) (leaf 2)))
        (parallel (leaf 1) (series (leaf 2) (leaf 3))) := by
  refine ⟨(canonical_flatten_eq_iff _ _).mp (by decide), fun h => ?_⟩
  exact absurd ((canonical_flatten_eq_iff _ _).mpr h) (by decide)

end Tree

end Ohmic
