import Ohmic.Proofs.Circuit.Mirror
import Ohmic.Proofs.Search.Progress
import Ohmic.Proofs.Search.Shapes

set_option autoImplicit false

/-!
# No network is left out

The layouts have one order of operands only, and the ties leave out some of the assignments. Still,
every tree over indices has a mirror image that is made from a layout by an assignment which
respects the ties.

## Main definitions

* `Tree.first` — the leaf farthest to the left.
* `Tree.Tied` — of two operands with equal shape, the left one has the smaller first leaf.

## Main results

* `Layout.tied_iff_respects` — a tree is tied exactly if its leaves respect the ties of its layout.
* `Tree.exists_mirrored_tied` — every tree has a mirror image with a listed shape that is tied.
* `Layout.labelled_leaves` — a tree is made from the layout of its shape by its own leaves.
* `Layout.assigned_leaves`, `Layout.respects_leaves` — these leaves fill the layout, and respect its
  ties if the tree is tied.
* `Layout.exists_mirrored_of_leafCount` — every tree has a mirror image made from a listed layout.

## Implementation notes

A tie looks at the first slots of two operands only, and these are the places of the first leaves.
So the operands can be brought in order from the inside out: exchanging the operands of one
connection changes neither the shapes of smaller operands nor their first leaves.
-/

namespace Ohmic

namespace Tree

/-! ## Tied trees -/

/-- The leaf farthest to the left. -/
def first {α : Type} : Tree α → α
  | leaf a => a
  | node _ l _ => l.first

/-- Of two operands with equal shape, the left one has the smaller first leaf, or the same. -/
def Tied : Tree Nat → Prop
  | leaf _ => True
  | node _ l r => l.Tied ∧ r.Tied ∧ (l.shape = r.shape → l.first ≤ r.first)

/-- The first leaf is the first of the leaves. -/
lemma leaves_eq_first_cons {α : Type} (t : Tree α) : ∃ rest, t.leaves = t.first :: rest := by
  induction t with
  | leaf a => exact ⟨[], rfl⟩
  | node c l r ihl _ =>
    obtain ⟨rest, hrest⟩ := ihl
    exact ⟨rest ++ r.leaves, by rw [leaves, hrest, first, List.cons_append]⟩

/-- Two tied trees with listed shapes can be joined in one order or the other. -/
lemma tied_node_or_swap (c : Connection) {l r : Tree Nat} (hl : Shape.Listed l.shape)
    (hr : Shape.Listed r.shape) (htl : l.Tied) (htr : r.Tied) :
    (Shape.Listed (node c l r).shape ∧ (node c l r).Tied) ∨
      (Shape.Listed (node c r l).shape ∧ (node c r l).Tied) := by
  have hlisted : ∀ {x y : Tree Nat}, Shape.Listed x.shape → Shape.Listed y.shape →
      Shape.Before x.shape y.shape → Shape.Listed (node c x y).shape :=
    fun hx hy hxy => Shape.listed_node.mpr ⟨hx, hy, hxy⟩
  by_cases hshape : l.shape = r.shape
  · -- operands of equal shape: the first leaves decide
    have hbefore : Shape.Before l.shape l.shape := (Shape.before_total hl hl).elim id id
    rcases Nat.le_total l.first r.first with hle | hle
    · exact .inl ⟨hlisted hl hr (hshape ▸ hbefore), htl, htr, fun _ => hle⟩
    · exact .inr ⟨hlisted hr hl (hshape ▸ hbefore), htr, htl, fun _ => hle⟩
  · rcases Shape.before_total hl hr with hbefore | hbefore
    · exact .inl ⟨hlisted hl hr hbefore, htl, htr, fun h => absurd h hshape⟩
    · exact .inr ⟨hlisted hr hl hbefore, htr, htl, fun h => absurd h.symm hshape⟩

/-- **Every tree has a mirror image** with a listed shape that is tied.

**Proof sketch.** By induction on the tree. The operands have such mirror images, and these can be
joined in one order or the other (`tied_node_or_swap`). -/
theorem exists_mirrored_tied (t : Tree Nat) :
    ∃ u, Mirrored t u ∧ Shape.Listed u.shape ∧ u.Tied := by
  induction t with
  | leaf a => exact ⟨leaf a, .leaf a, Shape.listed_single, trivial⟩
  | node c l r ihl ihr =>
    obtain ⟨l', hl, hlistedl, htl⟩ := ihl
    obtain ⟨r', hr, hlistedr, htr⟩ := ihr
    rcases tied_node_or_swap c hlistedl hlistedr htl htr with ⟨hlisted, ht⟩ | ⟨hlisted, ht⟩
    · exact ⟨node c l' r', .keep c hl hr, hlisted, ht⟩
    · exact ⟨node c r' l', .swap c hl hr, hlisted, ht⟩

end Tree

/-! ## Leaves in the slots of their places -/

namespace Layout

/-- The number of the first slot leads to the first leaf. -/
lemma getD_first (u : Tree Nat) (before after : List Nat) :
    (before ++ (u.leaves ++ after)).getD before.length 0 = u.first := by
  obtain ⟨rest, hrest⟩ := u.leaves_eq_first_cons
  rw [List.getD_append_right _ _ _ _ (Nat.le_refl _), Nat.sub_self, hrest, List.cons_append,
    List.getD_cons_zero]

/-- A tree is its numbered shape with the leaves in place of their numbers. -/
lemma map_numbered (u : Tree Nat) (before after : List Nat) :
    (u.shape.numbered before.length).map
      (fun slot => (before ++ (u.leaves ++ after)).getD slot 0) = u := by
  induction u generalizing before after with
  | leaf a => exact congrArg Tree.leaf (getD_first (.leaf a) before after)
  | node c l r ihl ihr =>
    have hl := ihl before (r.leaves ++ after)
    have hr := ihr (before ++ l.leaves) after
    rw [List.length_append, l.length_leaves, ← l.leafCount_shape, List.append_assoc] at hr
    show Tree.node c _ _ = _
    rw [Tree.leaves, List.append_assoc]
    exact congrArg₂ (Tree.node c) hl hr

/-- **A tree is made from the layout of its shape** by its own leaves. -/
theorem labelled_leaves (u : Tree Nat) : (ofShape u.shape).labelled u.leaves = u := by
  have h := map_numbered u [] []
  rwa [List.nil_append, List.append_nil] at h

/-- The leaves of a tree over indices of values fill the layout of its shape. -/
lemma assigned_leaves {u : Tree Nat} {width : Nat} (h : ∀ i ∈ u.leaves, i < width) :
    (ofShape u.shape).Assigned width u.leaves where
  length_eq := by rw [slots_ofShape, u.length_leaves, u.leafCount_shape]
  lt := h

/-- A tree is tied if its leaves are ordered along the ties of its shape, and only then.

**Proof sketch.** By induction on the tree. The ties of a connection are those inside of its
operands, which are settled by induction with the other leaves put before or after, and one more if
the operands have one shape, between their first leaves. These are found at the two slots of this
tie (`getD_first`). -/
lemma tied_iff_forall_ties (u : Tree Nat) (before after : List Nat) :
    u.Tied ↔ ∀ s p, (s, p) ∈ u.shape.ties before.length →
      (before ++ (u.leaves ++ after)).getD p 0 ≤ (before ++ (u.leaves ++ after)).getD s 0 := by
  induction u generalizing before after with
  | leaf a => exact ⟨fun _ s p htie => (List.not_mem_nil htie).elim, fun _ => trivial⟩
  | node c l r ihl ihr =>
    have hnext : before.length + l.shape.leafCount = (before ++ l.leaves).length := by
      rw [List.length_append, l.length_leaves, l.leafCount_shape]
    have hlist : before ++ ((Tree.node c l r).leaves ++ after) =
        (before ++ l.leaves) ++ (r.leaves ++ after) := by
      simp only [Tree.leaves, List.append_assoc]
    have hties : (Tree.node c l r).shape.ties before.length =
        l.shape.ties before.length ++ r.shape.ties (before.length + l.shape.leafCount) ++
          if l.shape = r.shape then [(before.length + l.shape.leafCount, before.length)] else [] :=
      rfl
    have hfirst := getD_first (.node c l r) before after
    have hsecond := getD_first r (before ++ l.leaves) after
    have hl := ihl before (r.leaves ++ after)
    have hr := ihr (before ++ l.leaves) after
    rw [← List.append_assoc] at hl
    rw [hlist] at hfirst ⊢
    simp only [hties, List.mem_append, or_imp, forall_and, hnext, ← hl, ← hr, Tree.Tied, and_assoc]
    -- the tie of this connection joins the first leaves of its operands
    refine and_congr_right fun _ => and_congr_right fun _ => ?_
    constructor
    · intro hlr s p htie
      split at htie
      · next hshape =>
        obtain ⟨rfl, rfl⟩ := Prod.mk.inj (List.mem_singleton.mp htie)
        rw [hfirst, hsecond]
        exact hlr hshape
      · cases htie
    · intro h hshape
      rw [if_pos hshape] at h
      have hle := h _ _ (List.mem_singleton_self _)
      rwa [hfirst, hsecond] at hle

/-- The tree is tied exactly if its leaves respect the ties of the layout of its shape. -/
lemma tied_iff_respects {u : Tree Nat} : u.Tied ↔ (ofShape u.shape).Respects u.leaves := by
  have hties := tied_iff_forall_ties u [] []
  rw [List.nil_append, List.append_nil] at hties
  rw [hties]
  constructor
  · exact fun h s p _ hentry => h s p (mem_of_getElem?_tieTable hentry)
  · intro h s p htie
    have hs := (u.shape.exists_of_mem_ties 0 htie).2.2
    rw [Nat.zero_add] at hs
    have hentry := getElem?_tieTable (u.shape.nodup_ties 0) hs htie
    exact h s p (by rwa [u.length_leaves, ← u.leafCount_shape]) hentry

/-- **The leaves of a tied tree** respect the ties of the layout of its shape. -/
theorem respects_leaves {u : Tree Nat} (h : u.Tied) : (ofShape u.shape).Respects u.leaves :=
  tied_iff_respects.mp h

/-- An assignment of a layout that respects the ties has an index in both slots of a tie, and the
one in the later slot is not the smaller one. -/
lemma exists_le_of_respects {l : Layout} (hl : l.Sound) {indices : List Nat}
    (hlength : indices.length = l.slots) (h : l.Respects indices) {s p : Nat}
    (htie : l.minFrom[s]? = some (some p)) :
    ∃ i ∈ indices[p]?, ∃ j ∈ indices[s]?, i ≤ j := by
  have hs : s < indices.length := by
    rw [hlength, ← hl.length_minFrom]
    exact (List.getElem?_eq_some_iff.mp htie).1
  have hp : p < indices.length := (hl.earlier s p htie).trans hs
  have hle := h s p hs htie
  rw [List.getD_eq_getElem _ _ hp, List.getD_eq_getElem _ _ hs] at hle
  exact ⟨_, List.getElem?_eq_getElem hp, _, List.getElem?_eq_getElem hs, hle⟩

/-- **Every network is covered.** For every tree with a number of leaves, over the indices of an
alphabet with `width` values, there are a layout with this number of leaves and indices of values
for its slots, of which none is smaller than the index in the slot to which its slot is tied. With
these indices in place of the slots, the tree of the layout is a mirror image of the given one.

**Proof sketch.** The tree has a mirror image with a listed shape that is tied
(`Tree.exists_mirrored_tied`). The layout of this shape becomes the mirror image if its slots are
filled with the leaves of it (`labelled_leaves`), and these respect the ties
(`respects_leaves`). -/
theorem exists_mirrored_of_leafCount {width leaves : Nat} (t : Tree Nat)
    (hcount : t.leafCount = leaves) (hlt : ∀ i ∈ t.leaves, i < width) :
    ∃ l ∈ withLeaves leaves, ∃ indices : List Nat,
      indices.length = l.slots ∧ (∀ i ∈ indices, i < width) ∧
      (∀ s p : Nat, l.minFrom[s]? = some (some p) →
        ∃ i ∈ indices[p]?, ∃ j ∈ indices[s]?, i ≤ j) ∧
      ∃ u, l.tree.mapM? (fun slot => indices[slot]?) = some u ∧ Tree.Mirrored t u := by
  obtain ⟨u, hmirror, hlisted, htied⟩ := t.exists_mirrored_tied
  have hu : ∀ i ∈ u.leaves, i < width := fun i hi =>
    hlt i (hmirror.leaves_perm.mem_iff.mpr hi)
  have hmem : ofShape u.shape ∈ withLeaves leaves := by
    rw [← hcount, hmirror.leafCount_eq, ← Tree.leafCount_shape]
    exact List.mem_map_of_mem hlisted
  have hsound := sound_ofShape u.shape
  have hassigned := assigned_leaves hu
  refine ⟨ofShape u.shape, hmem, u.leaves, hassigned.length_eq, hassigned.lt, fun s p htie => ?_,
    u, ?_, hmirror⟩
  · exact exists_le_of_respects hsound hassigned.length_eq (respects_leaves htied) htie
  · rw [mapM?_eq_labelled hsound hassigned, labelled_leaves]

/-- Two pairs in series, side by side, with the greater indices first. -/
theorem exists_mirrored_of_leafCount_four :
    let t : Tree Nat :=
      .parallel (.series (.leaf 2) (.leaf 1)) (.series (.leaf 1) (.leaf 0))
    t.leafCount = 4 ∧ (∀ i ∈ t.leaves, i < 3) ∧
      ∃ l ∈ withLeaves 4, ∃ indices : List Nat,
        indices.length = l.slots ∧ (∀ i ∈ indices, i < 3) ∧
        (∀ s p : Nat, l.minFrom[s]? = some (some p) →
          ∃ i ∈ indices[p]?, ∃ j ∈ indices[s]?, i ≤ j) ∧
        ∃ u, l.tree.mapM? (fun slot => indices[slot]?) = some u ∧ Tree.Mirrored t u := by
  intro t
  have hcount : t.leafCount = 4 := rfl
  have hlt : ∀ i ∈ t.leaves, i < 3 := by decide
  exact ⟨hcount, hlt, exists_mirrored_of_leafCount t hcount hlt⟩

end Layout

end Ohmic
