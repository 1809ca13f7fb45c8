import Ohmic.Proofs.Search.Coverage
import Ohmic.Proofs.Search.Representatives

set_option autoImplicit false

/-!
# Mirror images that are tried twice

The ties are meant to leave one of several mirror images. They compare the first leaves of two
operands of equal shape, and say nothing where these agree: `(0 + 0) || (0 + 1)` and
`(0 + 1) || (0 + 0)` are both tried. This is the only way in which a mirror image is tried again,
and it takes four leaves.

## Main definitions

* `Tree.Separated` — operands of equal shape that differ do so in their first leaves.
* `Layout.Tried` — an assignment that the search tries for a layout in the list.

## Main results

* `Tree.eq_of_mirrored` — mirror images that are separated, tied and have listed shapes are equal.
* `Tree.exists_twin` — a tied tree that is not separated has another tied mirror image.
* `Layout.tried_once_iff_separated` — which trees are tried in one of their mirror images only.
* `Layout.mirrored_twice` — two mirror images that are both tried.

## Implementation notes

A tried assignment and the tree it makes determine each other, and the trees made are the tied ones
with listed shapes. So everything is said and proved about trees first, along `Tree.Mirrored`.
-/

namespace Ohmic

namespace Tree

/-! ## Separated trees -/

/-- Operands of equal shape are equal if their first leaves are. -/
def Separated : Tree Nat → Prop
  | leaf _ => True
  | node _ l r => l.Separated ∧ r.Separated ∧ (l.shape = r.shape → l.first = r.first → l = r)

/-- Trees with a single leaf are equal if their first leaves are. -/
lemma eq_of_first_of_leafCount_one {s t : Tree Nat} (hs : s.leafCount = 1) (ht : t.leafCount = 1)
    (h : s.first = t.first) : s = t := by
  have hleaf : ∀ u : Tree Nat, u.leafCount = 1 → u = leaf u.first := by
    intro u hu
    cases u with
    | leaf a => rfl
    | node c l r =>
      have := l.leafCount_pos
      have := r.leafCount_pos
      rw [leafCount] at hu
      omega
  rw [hleaf s hs, hleaf t ht, h]

/-- Trees with fewer than four leaves are separated. -/
lemma separated_of_leafCount_lt {t : Tree Nat} (h : t.leafCount < 4) : t.Separated := by
  induction t with
  | leaf a => trivial
  | node c l r ihl ihr =>
    have hl := l.leafCount_pos
    have hr := r.leafCount_pos
    rw [leafCount] at h
    refine ⟨ihl (by omega), ihr (by omega), fun hshape => ?_⟩
    have hcount : l.leafCount = r.leafCount := by
      rw [← l.leafCount_shape, hshape, r.leafCount_shape]
    exact eq_of_first_of_leafCount_one (by omega) (by omega)

/-- **Mirror images are equal** if both are tied and have listed shapes, and one is separated.

**Proof sketch.** By induction on the mirror image. If the operands are exchanged, each of the two
shapes may stand on the left, so they are equal, and each of the first leaves is no greater than the
other. Separated operands are equal then. -/
theorem eq_of_mirrored {u v : Tree Nat} (h : Mirrored u v) (hu : Shape.Listed u.shape)
    (hv : Shape.Listed v.shape) (htu : u.Tied) (htv : v.Tied) (hsep : u.Separated) : u = v := by
  induction h with
  | leaf a => rfl
  | keep c _ _ ihl ihr =>
    obtain ⟨hl, hr, -⟩ := Shape.listed_node.mp hu
    obtain ⟨hl', hr', -⟩ := Shape.listed_node.mp hv
    rw [ihl hl hl' htu.1 htv.1 hsep.1, ihr hr hr' htu.2.1 htv.2.1 hsep.2.1]
  | swap c _ _ ihl ihr =>
    obtain ⟨hl, hr, hlr⟩ := Shape.listed_node.mp hu
    obtain ⟨hr', hl', hrl⟩ := Shape.listed_node.mp hv
    obtain rfl := ihl hl hl' htu.1 htv.2.1 hsep.1
    obtain rfl := ihr hr hr' htu.2.1 htv.1 hsep.2.1
    have hshape := hlr.antisymm hrl
    have hfirst := Nat.le_antisymm (htu.2.2 hshape) (htv.2.2 hshape.symm)
    rw [hsep.2.2 hshape hfirst]

/-- **A tied tree that is not separated** has another mirror image of the same shape that is tied.

**Proof sketch.** By induction on the tree. Two different operands with the same shape and the same
first leaf are exchanged; neither the shape nor the first leaf of the whole tree changes, so the
ties further up still hold. -/
theorem exists_twin {u : Tree Nat} (ht : u.Tied) (hsep : ¬ u.Separated) :
    ∃ v, Mirrored u v ∧ v ≠ u ∧ v.shape = u.shape ∧ v.first = u.first ∧ v.Tied := by
  induction u with
  | leaf a => exact absurd trivial hsep
  | node c l r ihl ihr =>
    obtain ⟨htl, htr, hlr⟩ := ht
    have hnode {x y : Tree Nat} (hx : x.shape = l.shape) (hy : y.shape = r.shape) :
        (node c x y).shape = (node c l r).shape := congrArg₂ (node c) hx hy
    by_cases hl : l.Separated
    · by_cases hr : r.Separated
      · have hsame : l.shape = r.shape ∧ l.first = r.first ∧ r ≠ l := by
          by_contra hnot
          refine hsep ⟨hl, hr, fun hshape hfirst => ?_⟩
          by_contra hne
          exact hnot ⟨hshape, hfirst, Ne.symm hne⟩
        obtain ⟨hshape, hfirst, hne⟩ := hsame
        exact ⟨node c r l, .swap c (.refl l) (.refl r), fun h => hne (node.inj h).2.1,
          hnode hshape.symm hshape, hfirst.symm, htr, htl, fun _ => Nat.le_of_eq hfirst.symm⟩
      · obtain ⟨r', hmirror, hne, hshape, hfirst, htr'⟩ := ihr htr hr
        refine ⟨node c l r', .keep c (.refl l) hmirror, fun h => hne (node.inj h).2.2,
          hnode rfl hshape, rfl, htl, htr', fun h => ?_⟩
        rw [hfirst]
        exact hlr (h.trans hshape)
    · obtain ⟨l', hmirror, hne, hshape, hfirst, htl'⟩ := ihl htl hl
      refine ⟨node c l' r, .keep c hmirror (.refl r), fun h => hne (node.inj h).2.1,
        hnode hshape rfl, hfirst, htl', htr, fun h => ?_⟩
      rw [hfirst]
      exact hlr (hshape.symm.trans h)

end Tree

/-! ## Tried assignments -/

namespace Layout

/-- The search tries the indices of `width` values for a layout, which is the one at this place in
the list of those with a number of leaves. -/
structure Tried (leaves width place : Nat) (l : Layout) (indices : List Nat) : Prop where
  /-- The layout is in the list. -/
  layout_eq : (withLeaves leaves)[place]? = some l
  /-- The assignment is one of those that a descent goes through. -/
  mem_allAssignments : indices ∈ l.allAssignments width

namespace Tried

variable {leaves width place : Nat} {l : Layout} {indices : List Nat}

/-- The layout is that of the shape at its place. -/
lemma exists_shape (h : Tried leaves width place l indices) :
    ∃ shape, (Shape.withLeaves leaves)[place]? = some shape ∧ l = ofShape shape := by
  have hlayout := h.layout_eq
  rw [withLeaves, List.getElem?_map] at hlayout
  obtain ⟨shape, hshape, rfl⟩ := Option.map_eq_some_iff.mp hlayout
  exact ⟨shape, hshape, rfl⟩

/-- The indices fill the layout and respect its ties. -/
lemma assigned_and_respects (h : Tried leaves width place l indices) :
    l.Assigned width indices ∧ l.Respects indices := by
  obtain ⟨shape, -, rfl⟩ := h.exists_shape
  exact (Layout.mem_allAssignments (sound_ofShape shape)).mp h.mem_allAssignments

/-- The leaves of the tree that is made are the indices. -/
lemma leaves_labelled (h : Tried leaves width place l indices) :
    (l.labelled indices).leaves = indices := by
  obtain ⟨shape, -, rfl⟩ := h.exists_shape
  exact Layout.leaves_labelled (sound_ofShape shape) h.assigned_and_respects.1

/-- The tree that is made has the shape at the place of the layout. -/
lemma getElem?_shape (h : Tried leaves width place l indices) :
    (Shape.withLeaves leaves)[place]? = some (l.labelled indices).shape ∧
      l = ofShape (l.labelled indices).shape := by
  obtain ⟨shape, hshape, rfl⟩ := h.exists_shape
  have heq : ((ofShape shape).labelled indices).shape = shape := by
    rw [labelled, Tree.shape, Tree.map_map]
    exact shape.shape_numbered 0
  rw [heq]
  exact ⟨hshape, rfl⟩

/-- The tree that is made has a listed shape and is tied. -/
lemma listed_and_tied (h : Tried leaves width place l indices) :
    Shape.Listed (l.labelled indices).shape ∧ (l.labelled indices).Tied := by
  obtain ⟨hshape, hlayout⟩ := h.getElem?_shape
  refine ⟨?_, ?_⟩
  · have hmem := List.mem_of_getElem? hshape
    rw [Shape.Listed, Shape.leafCount_of_mem_withLeaves hmem]
    exact hmem
  · rw [tied_iff_respects, ← hlayout, h.leaves_labelled]
    exact h.assigned_and_respects.2

/-- **An assignment is determined by the tree it makes.** -/
theorem eq_of_labelled_eq (h : Tried leaves width place l indices) {place' : Nat} {l' : Layout}
    {indices' : List Nat} (h' : Tried leaves width place' l' indices')
    (heq : l'.labelled indices' = l.labelled indices) : place' = place ∧ indices' = indices := by
  constructor
  · have hshape := h.getElem?_shape.1
    have hshape' := h'.getElem?_shape.1
    rw [heq] at hshape'
    have hlt := (List.getElem?_eq_some_iff.mp hshape').1
    exact (List.getElem?_inj hlt (Shape.nodup_withLeaves leaves)).mp (hshape'.trans hshape.symm)
  · rw [← h'.leaves_labelled, heq, h.leaves_labelled]

end Tried

/-- **A tied tree with a listed shape is made** by its own leaves. -/
theorem exists_tried {leaves width : Nat} {u : Tree Nat} (hcount : u.leafCount = leaves)
    (hlt : ∀ i ∈ u.leaves, i < width) (hlisted : Shape.Listed u.shape) (ht : u.Tied) :
    ∃ place, Tried leaves width place (ofShape u.shape) u.leaves := by
  have hmem : ofShape u.shape ∈ withLeaves leaves := by
    rw [← hcount, ← u.leafCount_shape]
    exact List.mem_map_of_mem hlisted
  obtain ⟨place, hplace⟩ := List.getElem?_of_mem hmem
  exact ⟨place, hplace, (Layout.mem_allAssignments (sound_ofShape u.shape)).mpr
    ⟨assigned_leaves hlt, respects_leaves ht⟩⟩

/-- **Which mirror images are tried once.** Of a tree that is made from a layout by indices that
respect its ties, no other mirror image is made in this way exactly if operands of equal shape that
have the same first leaf are equal throughout the tree; and they are if it has fewer than four
leaves.

**Proof sketch.** A tree that is made is tied and has a listed shape, and tells from which layout
and which indices it was made. Separated trees have no other such mirror image
(`Tree.eq_of_mirrored`). A tree that is not separated has one of the same shape
(`Tree.exists_twin`), and this one is made from the same layout by its own leaves. -/
theorem tried_once_iff_separated {leaves width place : Nat} {l : Layout} {indices : List Nat}
    (h : Tried leaves width place l indices) :
    ((∀ (place' : Nat) (l' : Layout) (indices' : List Nat), Tried leaves width place' l' indices' →
        Tree.Mirrored (l.labelled indices) (l'.labelled indices') →
          place' = place ∧ indices' = indices) ↔ (l.labelled indices).Separated) ∧
      (leaves < 4 → (l.labelled indices).Separated) := by
  obtain ⟨hlisted, ht⟩ := h.listed_and_tied
  have hcount : (l.labelled indices).leafCount = leaves := by
    rw [← Tree.leafCount_shape]
    exact Shape.leafCount_of_mem_withLeaves (List.mem_of_getElem? h.getElem?_shape.1)
  refine ⟨⟨fun honce => ?_, fun hsep place' l' indices' h' hmirror => ?_⟩, fun hlt => ?_⟩
  · by_contra hsep
    obtain ⟨v, hmirror, hne, hshape, -, htv⟩ := Tree.exists_twin ht hsep
    have hlt : ∀ i ∈ v.leaves, i < width := fun i hi => by
      rw [← hmirror.leaves_perm.mem_iff, h.leaves_labelled] at hi
      exact h.assigned_and_respects.1.lt i hi
    obtain ⟨place', htwin⟩ :=
      exists_tried (hmirror.leafCount_eq.symm.trans hcount) hlt (hshape ▸ hlisted) htv
    rw [← labelled_leaves v] at hmirror
    obtain ⟨-, hleaves⟩ := honce _ _ _ htwin hmirror
    refine hne ?_
    rw [← labelled_leaves v, hleaves, hshape, ← h.getElem?_shape.2]
  · obtain ⟨hlisted', ht'⟩ := h'.listed_and_tied
    exact h.eq_of_labelled_eq h' (Tree.eq_of_mirrored hmirror hlisted hlisted' ht ht' hsep).symm
  · exact Tree.separated_of_leafCount_lt (hcount ▸ hlt)

/-- Two pairs in series, one after the other. -/
def twoPairs : Layout :=
  ofShape (.series (.series Shape.single Shape.single) (.series Shape.single Shape.single))

/-- The pairs `0 + 0` and `1 + 1` differ in their first leaves, and are tried in one order. -/
theorem tried_once_of_pairs :
    Tried 4 2 8 twoPairs [0, 0, 1, 1] ∧ ∀ (place : Nat) (l : Layout) (indices : List Nat),
      Tried 4 2 place l indices →
        Tree.Mirrored (twoPairs.labelled [0, 0, 1, 1]) (l.labelled indices) →
          place = 8 ∧ indices = [0, 0, 1, 1] := by
  have htried : Tried 4 2 8 twoPairs [0, 0, 1, 1] := ⟨rfl, by decide⟩
  have hsep : (twoPairs.labelled [0, 0, 1, 1]).Separated :=
    ⟨⟨trivial, trivial, fun _ _ => rfl⟩, ⟨trivial, trivial, fun _ _ => rfl⟩,
      fun _ hfirst => absurd hfirst Nat.zero_ne_one⟩
  exact ⟨htried, (tried_once_iff_separated htried).1.mpr hsep⟩

/-- **Two mirror images that are both tried**: the pairs `0 + 0` and `0 + 1` have the same first
leaf, and are tried in both orders. -/
theorem mirrored_twice :
    Tried 4 2 8 twoPairs [0, 0, 0, 1] ∧ Tried 4 2 8 twoPairs [0, 1, 0, 0] ∧
      Tree.Mirrored (twoPairs.labelled [0, 0, 0, 1]) (twoPairs.labelled [0, 1, 0, 0]) ∧
      [0, 0, 0, 1] ≠ [0, 1, 0, 0] :=
  ⟨⟨rfl, by decide⟩, ⟨rfl, by decide⟩, .swap .series (.refl _) (.refl _), by decide⟩

end Layout

end Ohmic
