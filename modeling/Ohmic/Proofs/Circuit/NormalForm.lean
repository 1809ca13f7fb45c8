import Ohmic.Proofs.Circuit.Folding

set_option autoImplicit false

/-!
# Normal flat networks

Flattening a tree merges the chains of one connection and sorts the operands by size. What it
builds are exactly the flat networks in which every group has two children or more, none of them is
a group of the same connection, and smaller children come first: the fold of such a network is a
tree that is flattened to the network again.

## Main definitions

* `Flat.connection?` — the connection of a group.
* `Flat.Normal` — the three conditions, at every depth.

## Main results

* `Tree.normal_flatten` — flattening builds normal networks.
* `Flat.Normal.flatten_fold`, `Flat.Normal.iff_flatten_fold` — exactly the normal networks are the
  flat forms of their folds.
* `Flat.Normal.canonical`, `Flat.Normal.map` — the canonical form and a change of the leaves keep
  networks normal.
* `Flat.normal_characterization` — all of these, with the leaves.

## Implementation notes

The sort is stable, so a list of children that is in order stays as it is. This makes the fold an
exact inverse, without regard to the order of children of one size. The canonical form sorts by
size first; this alone keeps it normal, and nothing is assumed of the order of the leaves.
-/

namespace Ohmic

namespace Flat

variable {α β : Type}

/-! ## Normal networks -/

/-- The connection of a group. -/
def connection? : Flat α → Option Connection
  | leaf _ => none
  | group c _ => some c

/-- **Normal networks**: a group has two children or more, none of which is a group of its
connection, smaller ones come first, and all of them are normal. -/
inductive Normal : Flat α → Prop where
  /-- A single part. -/
  | leaf (a : α) : Normal (leaf a)
  /-- A group of normal networks. -/
  | group {c : Connection} {children : List (Flat α)} (two : 2 ≤ children.length)
    (apart : ∀ child ∈ children, child.connection? ≠ some c)
    (sorted : children.Pairwise fun x y => x.size ≤ y.size)
    (normal : ∀ child ∈ children, Normal child) : Normal (group c children)

/-- The children of a sorted group are in order. -/
lemma pairwise_sortBySize (xs : List (Flat α)) :
    (sortBySize xs).Pairwise fun x y => x.size ≤ y.size := by
  refine pairwise_stableSort_of_imp ?_ ?_ ?_ xs
  · exact fun x y h => of_decide_eq_true h
  · exact fun x y h => Nat.le_of_not_le (of_decide_eq_false h)
  · exact fun x y z => Nat.le_trans

/-- Children that are in order stay as they are. -/
lemma sortBySize_eq_self {xs : List (Flat α)} (h : xs.Pairwise fun x y => x.size ≤ y.size) :
    sortBySize xs = xs := stableSort_eq_self (h.imp fun hle => decide_eq_true hle)

/-- Children in the canonical order are in the order of their sizes. -/
lemma pairwise_sortChildren [Ord α] (xs : List (Flat α)) :
    (sortChildren xs).Pairwise fun x y => x.size ≤ y.size := by
  refine pairwise_stableSort_of_imp (fun x y h => ?_) (fun x y h => ?_) ?_ xs
  · by_contra hlt
    have hgt : Ord.compare x.size y.size = .gt := Nat.compare_eq_gt.mpr (Nat.lt_of_not_le hlt)
    simp [compareChildren, hgt, Ordering.then] at h
  · by_contra hlt
    have hlt' : Ord.compare x.size y.size = .lt := Nat.compare_eq_lt.mpr (Nat.lt_of_not_le hlt)
    simp [compareChildren, hlt', Ordering.then] at h
  · exact fun x y z => Nat.le_trans

/-- The canonical form of a group has the connection of the group. -/
lemma connection?_canonical [Ord α] (n : Flat α) : n.canonical.connection? = n.connection? := by
  cases n <;> rfl

/-- A changed group has the connection of the group. -/
lemma connection?_map (f : α → β) (n : Flat α) : (n.map f).connection? = n.connection? := by
  cases n <;> rfl

/-- The canonical form has as many parts as the network. -/
lemma size_canonical [Ord α] (n : Flat α) : n.canonical.size = n.size := by
  rw [size_eq_length_leaves, n.leaves_canonical_perm.length_eq, size_eq_length_leaves]

/-- A network that is no group of the connection contributes itself. -/
lemma spread_eq_self {c : Connection} {n : Flat α} (h : n.connection? ≠ some c) :
    n.spread c = [n] := by
  cases n with
  | leaf a => rfl
  | group d children => exact if_neg fun hd => h (congrArg some hd)

namespace Normal

variable {n : Flat α}

/-- What a normal network contributes to a group: one normal network or more, and none of them is
a group of the connection. -/
lemma spread (h : n.Normal) (c : Connection) :
    0 < (n.spread c).length ∧ ∀ x ∈ n.spread c, x.Normal ∧ x.connection? ≠ some c := by
  by_cases hc : n.connection? = some c
  · cases h with
    | leaf a => cases hc
    | group two apart sorted normal =>
      obtain rfl := Option.some.inj hc
      rw [Flat.spread, if_pos rfl]
      exact ⟨Nat.lt_of_lt_of_le Nat.two_pos two, fun x hx => ⟨normal x hx, apart x hx⟩⟩
  · rw [spread_eq_self hc]
    exact ⟨Nat.one_pos, List.forall_mem_singleton.mpr ⟨h, hc⟩⟩

/-- Networks that can be the children of a normal group are, once they are in order. -/
lemma of_perm {c : Connection} {xs ys : List (Flat α)} (hperm : ys.Perm xs) (two : 2 ≤ xs.length)
    (hmem : ∀ x ∈ xs, x.Normal ∧ x.connection? ≠ some c)
    (sorted : ys.Pairwise fun x y => x.size ≤ y.size) : (Flat.group c ys).Normal := by
  refine .group ?_ (fun y hy => ?_) sorted fun y hy => ?_
  · rwa [hperm.length_eq]
  · exact (hmem y (hperm.mem_iff.mp hy)).2
  · exact (hmem y (hperm.mem_iff.mp hy)).1

/-- A normal network has no empty group. -/
lemma not_hasEmptyGroup (h : n.Normal) : ¬ n.HasEmptyGroup := by
  induction h with
  | leaf a => exact nofun
  | group two _ _ _ ih =>
    rintro (⟨⟩ | ⟨mem, empty⟩)
    · exact absurd two (Nat.not_succ_le_zero 1)
    · exact ih _ mem empty

end Normal

end Flat

/-! ## Flattening -/

namespace Tree

variable {α : Type}

/-- **Flattening builds normal networks.** -/
lemma normal_flatten (t : Tree α) : t.flatten.Normal := by
  induction t with
  | leaf a => exact .leaf a
  | node c l r ihl ihr =>
    obtain ⟨hl, hleft⟩ := ihl.spread c
    obtain ⟨hr, hright⟩ := ihr.spread c
    rw [flatten]
    refine .of_perm (stableSort_perm _ _) ?_ ?_ (Flat.pairwise_sortBySize _)
    · rw [List.length_append]
      omega
    · exact List.forall_mem_append.mpr ⟨hleft, hright⟩

/-- A flat form has as many parts as the tree. -/
lemma size_flatten (t : Tree α) : t.flatten.size = t.leafCount := by
  rw [Flat.size_eq_length_leaves, t.leaves_flatten_perm.length_eq, length_leaves]

end Tree

/-! ## Folding a normal network -/

namespace Flat

variable {α β : Type} {c : Connection}

/-- **One step of the fold**: joined to a tree that contributes `before` to a group of the
connection, a network that is no such group becomes the last child. -/
lemma flatten_node_of_sorted {t next : Tree α} {before : List (Flat α)} {child : Flat α}
    (hspread : t.flatten.spread c = before) (hnext : next.flatten = child)
    (happart : child.connection? ≠ some c)
    (hsorted : (before ++ [child]).Pairwise fun x y => x.size ≤ y.size) :
    (Tree.node c t next).flatten = group c (before ++ [child]) := by
  rw [Tree.flatten, hspread, hnext, spread_eq_self happart, sortBySize_eq_self hsorted]

/-- **The whole fold**: the networks become the last children of the tree onto which they are
folded, if all of them are flattened to themselves. -/
lemma flatten_foldOnto {t u : Tree α} {before rest : List (Flat α)}
    (ht : t.flatten = group c before)
    (hrest : ∀ child ∈ rest, ∀ next, child.fold? = some next → next.flatten = child)
    (happart : ∀ child ∈ rest, child.connection? ≠ some c)
    (hsorted : (before ++ rest).Pairwise fun x y => x.size ≤ y.size)
    (h : foldOnto? c t rest = some u) : u.flatten = group c (before ++ rest) := by
  induction rest generalizing t before with
  | nil =>
    obtain rfl : t = u := Option.some.inj h
    rw [ht, List.append_nil]
  | cons child rest ih =>
    obtain ⟨next, hnext, hu⟩ := foldOnto?_cons_eq_some.mp h
    rw [List.forall_mem_cons] at hrest happart
    rw [List.append_cons] at hsorted ⊢
    have hspread : t.flatten.spread c = before := by rw [ht, spread, if_pos rfl]
    refine ih ?_ hrest.2 happart.2 hsorted hu
    exact flatten_node_of_sorted hspread (hrest.1 next hnext) happart.1
      (List.pairwise_append.mp hsorted).1

namespace Normal

variable {n : Flat α}

/-- **The fold of a normal network is flattened to it.**

**Proof sketch.** By induction on the normal network. The fold of a group begins with the folds of
its first two children, which are flattened to these; they are not groups of the same connection and
are in order, so neither splicing nor sorting changes them. The other children follow one by one
(`flatten_foldOnto`). -/
lemma flatten_fold (h : n.Normal) : ∀ t, n.fold? = some t → t.flatten = n := by
  induction h with
  | leaf a =>
    rintro t ⟨⟩
    rfl
  | @group c children two apart sorted _ ih =>
    match children, two with
    | first :: second :: rest, _ =>
      intro u hu
      obtain ⟨t, ht, hu⟩ := fold?_group_eq_some.mp hu
      obtain ⟨next, hnext, hu⟩ := foldOnto?_cons_eq_some.mp hu
      simp only [List.forall_mem_cons] at ih apart
      have hspread : t.flatten.spread c = [first] := by
        rw [ih.1 t ht, spread_eq_self apart.1]
      have hpair : (Tree.node c t next).flatten = .group c ([first] ++ [second]) :=
        flatten_node_of_sorted hspread (ih.2.1 next hnext) apart.2.1
          (sorted.sublist (List.sublist_append_left [first, second] rest))
      exact flatten_foldOnto hpair ih.2.2 apart.2.2 sorted hu

/-- A network is normal exactly if its fold is flattened to it. -/
lemma iff_flatten_fold : n.Normal ↔ n.fold?.map Tree.flatten = some n := by
  constructor
  · intro h
    obtain ⟨t, ht⟩ := exists_fold? n h.not_hasEmptyGroup
    rw [ht, Option.map_some, h.flatten_fold t ht]
  · intro h
    obtain ⟨t, -, rfl⟩ := Option.map_eq_some_iff.mp h
    exact t.normal_flatten

/-- Whether a network is normal can be decided by folding and flattening it. -/
instance instDecidableNormal [DecidableEq α] (n : Flat α) : Decidable n.Normal :=
  decidable_of_iff _ iff_flatten_fold.symm

/-- **The canonical form** of a normal network is normal. -/
lemma canonical [Ord α] (h : n.Normal) : n.canonical.Normal := by
  induction h with
  | leaf a => exact .leaf a
  | @group c children two apart _ _ ih =>
    rw [Flat.canonical, canonicalAll_eq_map]
    refine .of_perm (stableSort_perm _ _) ?_ ?_ (pairwise_sortChildren _)
    · rwa [List.length_map]
    · refine List.forall_mem_map.mpr fun child hchild => ⟨ih child hchild, ?_⟩
      rw [connection?_canonical]
      exact apart child hchild

/-- **A change of the leaves** of a normal network leaves it normal. -/
lemma map (f : α → β) (h : n.Normal) : (n.map f).Normal := by
  induction h with
  | leaf a => exact .leaf (f a)
  | @group c children two apart sorted _ ih =>
    rw [Flat.map, mapAll_eq_map]
    refine .group (by rwa [List.length_map]) ?_ ?_ (List.forall_mem_map.mpr ih)
    · refine List.forall_mem_map.mpr fun child hchild => ?_
      rw [connection?_map]
      exact apart child hchild
    · rw [List.pairwise_map]
      exact sorted.imp fun hle => by rwa [size_map, size_map]

end Normal

/-- **Flattening builds exactly the normal networks.** The flat form of a tree has the leaves of
the tree and is normal, the fold of a normal network exists and is flattened to the network, and
the canonical form and a change of the leaves keep networks normal and their sizes as they are.

**Proof sketch.** Both operands of a tree contribute normal networks, none of them a group of the
connection, to a list that is then sorted (`Tree.normal_flatten`). Conversely the fold of a normal
network appends one child after the other to the flat form of the tree built so far: the child
contributes itself, and a sorted list is not changed by the stable sort (`flatten_foldOnto`). -/
theorem normal_characterization :
    (∀ t : Tree α, t.flatten.Normal ∧ t.flatten.size = t.leafCount ∧
        t.flatten.leaves.Perm t.leaves) ∧
      (∀ n : Flat α, n.Normal → ∃ t, n.fold? = some t ∧ t.flatten = n) ∧
      (∀ [Ord α] (n : Flat α), (n.Normal → n.canonical.Normal) ∧ n.canonical.size = n.size) ∧
      (∀ (f : α → β) (n : Flat α), (n.Normal → (n.map f).Normal) ∧ (n.map f).size = n.size) := by
  refine ⟨fun t => ⟨t.normal_flatten, t.size_flatten, t.leaves_flatten_perm⟩, fun n hn => ?_,
    fun n => ⟨Normal.canonical, size_canonical n⟩, fun f n => ⟨Normal.map f, size_map f n⟩⟩
  exact Option.map_eq_some_iff.mp (Normal.iff_flatten_fold.mp hn)

/-- The network `(2 + 1 + (4 || 3))` is normal, though not canonical: it is the flat form of its
fold, and its canonical form and the network of ten times the values are normal too. -/
theorem normal_characterization_four_parts :
    let n : Flat ℕ := group .series [leaf 2, leaf 1, group .parallel [leaf 4, leaf 3]]
    n.Normal ∧ n.canonical ≠ n ∧ (∃ t, n.fold? = some t ∧ t.flatten = n) ∧ n.canonical.Normal ∧
      (n.map (10 * ·)).Normal := by
  intro n
  have hn : n.Normal := by decide
  obtain ⟨-, hfold, hcanonical, hmap⟩ := normal_characterization (α := ℕ) (β := ℕ)
  exact ⟨hn, by decide, hfold n hn, (hcanonical n).1 hn, (hmap (10 * ·) n).1 hn⟩

end Flat

end Ohmic
