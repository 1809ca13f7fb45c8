import Ohmic.Proofs.Circuit.CanonicalKey

set_option autoImplicit false

/-!
# The leaves of flat networks

Flattening and sorting move leaves about, but neither loses one nor adds one.

## Main definitions

* `Flat.leaves` — the leaves from first to last.

## Main results

* `Flat.size_eq_length_leaves` — a network has as many leaves as its size says.
* `Flat.leaves_canonical_perm`, `Tree.leaves_flatten_perm` — the canonical form and the flat form
  have the leaves of what they are made from.
* `Flat.mapM?_eq_some`, `Tree.mapM?_eq_some` — a change that succeeds at every leaf succeeds.
* `Flat.mapM?_map`, `Tree.mapM?_map` — a second change of every leaf may be made with the first one.
-/

namespace Ohmic

namespace Flat

variable {α β : Type}

mutual

/-- The leaves from first to last. -/
def leaves : Flat α → List α
  | leaf a => [a]
  | group _ children => leavesAll children

/-- The leaves of all the networks. -/
def leavesAll : List (Flat α) → List α
  | [] => []
  | child :: rest => child.leaves ++ leavesAll rest

end

/-- The leaves of networks are the leaves of each of them. -/
lemma leavesAll_eq_flatMap (xs : List (Flat α)) : leavesAll xs = xs.flatMap leaves := by
  induction xs with
  | nil => rfl
  | cons x xs ih => rw [leavesAll, ih, List.flatMap_cons]

/-- Networks in another order have the same leaves. -/
lemma leavesAll_perm {xs ys : List (Flat α)} (h : xs.Perm ys) :
    (leavesAll xs).Perm (leavesAll ys) := by
  rw [leavesAll_eq_flatMap, leavesAll_eq_flatMap]
  exact h.flatMap_right leaves

mutual

/-- There are as many leaves as the size says. -/
lemma size_eq_length_leaves : ∀ n : Flat α, n.size = n.leaves.length
  | leaf _ => rfl
  | group _ children => sizeAll_eq_length_leavesAll children

/-- The sizes of networks add up to the number of their leaves. -/
lemma sizeAll_eq_length_leavesAll : ∀ xs : List (Flat α), sizeAll xs = (leavesAll xs).length
  | [] => rfl
  | x :: xs => by
    rw [sizeAll, leavesAll, List.length_append, size_eq_length_leaves x,
      sizeAll_eq_length_leavesAll xs]

end

mutual

/-- A change of every leaf keeps the size. -/
lemma size_map (f : α → β) : ∀ n : Flat α, (n.map f).size = n.size
  | leaf _ => rfl
  | group _ children => sizeAll_mapAll f children

/-- A change of every leaf of some networks keeps their sizes. -/
lemma sizeAll_mapAll (f : α → β) : ∀ xs : List (Flat α), sizeAll (mapAll f xs) = sizeAll xs
  | [] => rfl
  | x :: xs => by rw [mapAll, sizeAll, sizeAll, size_map f x, sizeAll_mapAll f xs]

end

mutual

/-- **The canonical form** has the leaves of the network. -/
lemma leaves_canonical_perm [Ord α] : ∀ n : Flat α, n.canonical.leaves.Perm n.leaves
  | leaf _ => List.Perm.refl _
  | group _ children => by
    rw [canonical, leaves, leaves]
    exact (leavesAll_perm (stableSort_perm _ _)).trans (leavesAll_canonicalAll_perm children)

/-- The canonical forms of networks have the leaves of the networks. -/
lemma leavesAll_canonicalAll_perm [Ord α] :
    ∀ xs : List (Flat α), (leavesAll (canonicalAll xs)).Perm (leavesAll xs)
  | [] => List.Perm.refl _
  | x :: xs => by
    rw [canonicalAll, leavesAll, leavesAll]
    exact (leaves_canonical_perm x).append (leavesAll_canonicalAll_perm xs)

end

/-- What a network contributes to a group has its leaves. -/
lemma leavesAll_spread (c : Connection) (n : Flat α) : leavesAll (n.spread c) = n.leaves := by
  cases n with
  | leaf a => rfl
  | group d children =>
    by_cases h : d = c
    · rw [spread, if_pos h, leaves]
    · rw [spread, if_neg h, leavesAll, leavesAll, List.append_nil]

mutual

/-- A change that succeeds at every leaf succeeds. -/
lemma mapM?_eq_some {f : α → Option β} {g : α → β} :
    ∀ n : Flat α, (∀ a ∈ n.leaves, f a = some (g a)) → n.mapM? f = some (n.map g)
  | leaf a, h => by
    rw [mapM?, h a (List.mem_singleton_self a)]
    rfl
  | group c children, h => by
    rw [mapM?, mapAllM?_eq_some children h]
    rfl

/-- A change that succeeds at every leaf of some networks succeeds. -/
lemma mapAllM?_eq_some {f : α → Option β} {g : α → β} :
    ∀ xs : List (Flat α), (∀ a ∈ leavesAll xs, f a = some (g a)) →
      mapAllM? f xs = some (mapAll g xs)
  | [], _ => rfl
  | x :: xs, h => by
    rw [leavesAll, List.forall_mem_append] at h
    rw [mapAllM?, mapM?_eq_some x h.1, mapAllM?_eq_some xs h.2]
    rfl

end

mutual

/-- A change after a change that may fail. -/
lemma mapM?_map {γ : Type} (f : α → Option β) (g : β → γ) :
    ∀ n : Flat α, n.mapM? (fun a => (f a).map g) = (n.mapM? f).map (Flat.map g)
  | leaf a => by
    rw [mapM?, mapM?, Option.map_map, Option.map_map]
    rfl
  | group c children => by
    rw [mapM?, mapM?, mapAllM?_map f g children, Option.map_map, Option.map_map]
    rfl

/-- A change of some networks after a change that may fail. -/
lemma mapAllM?_map {γ : Type} (f : α → Option β) (g : β → γ) :
    ∀ xs : List (Flat α), mapAllM? (fun a => (f a).map g) xs = (mapAllM? f xs).map (mapAll g)
  | [] => rfl
  | x :: xs => by
    rw [mapAllM?, mapAllM?, mapM?_map f g x, mapAllM?_map f g xs]
    cases x.mapM? f with
    | none => rfl
    | some y => cases mapAllM? f xs <;> rfl

end

end Flat

namespace Tree

variable {α β : Type}

/-- **The flat form** has the leaves of the tree. -/
lemma leaves_flatten_perm (t : Tree α) : t.flatten.leaves.Perm t.leaves := by
  induction t with
  | leaf a => exact List.Perm.refl _
  | node c l r ihl ihr =>
    rw [flatten, Flat.leaves, leaves]
    refine (Flat.leavesAll_perm (stableSort_perm _ _)).trans ?_
    rw [Flat.leavesAll_eq_flatMap, List.flatMap_append, ← Flat.leavesAll_eq_flatMap,
      ← Flat.leavesAll_eq_flatMap, Flat.leavesAll_spread, Flat.leavesAll_spread]
    exact ihl.append ihr

/-- The key has the leaves of the tree. -/
lemma leaves_key_perm [Ord α] (t : Tree α) : t.key.leaves.Perm t.leaves :=
  (Flat.leaves_canonical_perm _).trans t.leaves_flatten_perm

/-- The size of the key is the number of parts. -/
lemma size_key [Ord α] (t : Tree α) : t.key.size = t.leafCount := by
  rw [Flat.size_eq_length_leaves, t.leaves_key_perm.length_eq, length_leaves]

/-- A change that succeeds at every leaf succeeds. -/
lemma mapM?_eq_some {f : α → Option β} {g : α → β} {t : Tree α}
    (h : ∀ a ∈ t.leaves, f a = some (g a)) : t.mapM? f = some (t.map g) := by
  induction t with
  | leaf a =>
    rw [mapM?, h a (List.mem_singleton_self a)]
    rfl
  | node c l r ihl ihr =>
    rw [mapM?, ihl fun a ha => h a (List.mem_append_left _ ha),
      ihr fun a ha => h a (List.mem_append_right _ ha)]
    rfl

/-- A change after a change that may fail. -/
lemma mapM?_map {γ : Type} (f : α → Option β) (g : β → γ) (t : Tree α) :
    t.mapM? (fun a => (f a).map g) = (t.mapM? f).map (Tree.map g) := by
  induction t with
  | leaf a =>
    rw [mapM?, mapM?, Option.map_map, Option.map_map]
    rfl
  | node c l r ihl ihr =>
    rw [mapM?, mapM?, ihl, ihr]
    cases l.mapM? f with
    | none => rfl
    | some l => cases r.mapM? f <;> rfl

end Tree

end Ohmic
