import Mathlib.Data.List.Induction
import Mathlib.Data.List.Nodup
import Mathlib.Logic.Function.Basic
import Ohmic.Proofs.Circuit.Trees
import Ohmic.Proofs.Search.Shapes
import Ohmic.Search.Layout

set_option autoImplicit false

/-!
# Layouts of shapes are sound

The search writes values into the token sequence of a layout in place. What it relies on is that
the slots are numbered from left to right, that the position of a slot is the place of its one
token, and that a slot is tied to an earlier one only.

## Main definitions

* `Tree.shape` — a tree without its leaves.
* `Layout.Sound` — what the search relies on.

## Main results

* `Shape.leaves_numbered` — the slots count up from left to right.
* `Layout.exists_set_leafPositions` — a write at the position of a slot changes this slot only.
* `Shape.exists_of_mem_ties` — a tie belongs to two operands of equal shape.
* `Shape.nodup_ties` — no slot is tied twice.
* `Layout.sound_ofShape` — the layout of a shape is sound.
-/

namespace Ohmic

/-! ## Leaves and shapes -/

namespace Tree

variable {α β : Type}

/-- The tree without its leaves. -/
def shape (t : Tree α) : Shape := t.map fun _ => ()

/-- A tree has as many parts as its shape. -/
@[simp] lemma leafCount_shape (t : Tree α) : t.shape.leafCount = t.leafCount := leafCount_map _ t

end Tree

namespace Shape

/-- The slots of a numbered shape count up from left to right. -/
lemma leaves_numbered (shape : Shape) (next : Nat) :
    (shape.numbered next).leaves = List.range' next shape.leafCount := by
  induction shape generalizing next with
  | leaf a => rfl
  | node c l r ihl ihr =>
    simp only [numbered, Tree.leaves, Tree.leafCount, ihl, ihr]
    exact List.range'_append_1

/-- Numbering keeps the shape. -/
lemma shape_numbered (shape : Shape) (next : Nat) : (shape.numbered next).shape = shape := by
  induction shape generalizing next with
  | leaf a => rfl
  | node c l r ihl ihr =>
    simp only [Tree.shape] at ihl ihr
    simp only [numbered, Tree.shape, Tree.map, ihl, ihr]

/-- A numbered shape has as many parts as the shape. -/
@[simp] lemma leafCount_numbered (shape : Shape) (next : Nat) :
    (shape.numbered next).leafCount = shape.leafCount := by
  rw [← Tree.length_leaves, leaves_numbered, List.length_range']

/-- A tie joins the first slot of a right operand to the first slot of the left one, which has the
same shape and lies just before it. -/
lemma exists_of_mem_ties (shape : Shape) (next : Nat) {s p : Nat} (h : (s, p) ∈ shape.ties next) :
    next ≤ p ∧ p < s ∧ s < next + shape.leafCount := by
  induction shape generalizing next with
  | leaf a => cases h
  | node c l r ihl ihr =>
    have hl := l.leafCount_pos
    have hr := r.leafCount_pos
    simp only [ties, List.mem_append] at h
    simp only [Tree.leafCount]
    rcases h with (h | h) | h
    · have := ihl next h
      omega
    · have := ihr (next + l.leafCount) h
      omega
    · split at h
      · obtain ⟨rfl, rfl⟩ := Prod.mk.inj (List.mem_singleton.mp h)
        omega
      · cases h

/-- No slot is tied twice.

**Proof sketch.** By induction on the shape. The tied slots inside of an operand are behind its
first slot and before its end, so those of both operands differ, and the tie of the connection
itself is at the first slot of the right operand. -/
lemma nodup_ties (shape : Shape) (next : Nat) : ((shape.ties next).map Prod.fst).Nodup := by
  induction shape generalizing next with
  | leaf a => exact List.nodup_nil
  | node c l r ihl ihr =>
    have hslots (shape : Shape) (next : Nat) {s : Nat}
        (h : s ∈ (shape.ties next).map Prod.fst) : next < s ∧ s < next + shape.leafCount := by
      obtain ⟨⟨s', p⟩, htie, rfl⟩ := List.mem_map.mp h
      have := shape.exists_of_mem_ties next htie
      omega
    rw [ties, List.map_append, List.map_append]
    -- the ties inside of an operand leave out its first slot
    refine ((ihl next).append (ihr (next + l.leafCount)) fun s hl hr => ?_).append ?_
      fun s hlr hown => ?_
    · have := hslots l next hl
      have := hslots r (next + l.leafCount) hr
      omega
    · split
      · exact List.nodup_singleton _
      · exact List.nodup_nil
    · have hs : s = next + l.leafCount := by
        split at hown
        · exact List.mem_singleton.mp hown
        · cases hown
      rcases List.mem_append.mp hlr with hl | hr
      · have := hslots l next hl
        omega
      · have := hslots r (next + l.leafCount) hr
        omega

end Shape

/-! ## Positions -/

namespace Layout

/-- **A write at the position of a slot** changes the value of this slot and of no other, in a
token sequence whose leaves are numbered from left to right.

**Proof sketch.** Induction on the tokens. In front of a leaf the first slot is this leaf, and no
later leaf has its number; all other slots lie in the rest. -/
lemma exists_set_leafPositions {tokens : List (Token Nat)} {next count : Nat}
    (h : tokens.filterMap Token.leaf? = List.range' next count) (position : Nat) {i : Nat}
    (hi : i < count) :
    ∃ place, (leafPositions position tokens)[i]? = some (position + place) ∧
      place < tokens.length ∧ ∀ {β : Type} (f : Nat → β) (b : β),
        (tokens.map (Token.map f)).set place (.leaf b) =
          tokens.map (Token.map (Function.update f (next + i) b)) := by
  induction tokens generalizing next count position i with
  | nil =>
    have hlen := congrArg List.length h
    simp only [List.filterMap_nil, List.length_nil, List.length_range'] at hlen
    omega
  | cons token rest ih =>
    cases token with
    | join c =>
      obtain ⟨place, hplace, hlt, hset⟩ := ih h (position + 1) hi
      refine ⟨place + 1, ?_, by simpa using hlt, fun f b => ?_⟩
      · rw [leafPositions, hplace, Nat.add_assoc, Nat.add_comm 1]
      · simp only [List.map_cons, List.set_cons_succ, hset f b]
        rfl
    | leaf a =>
      obtain ⟨n, rfl⟩ : ∃ n, count = n + 1 := ⟨count - 1, by omega⟩
      have hhead : a :: rest.filterMap Token.leaf? = next :: List.range' (next + 1) n := h
      obtain ⟨rfl, hrest⟩ := List.cons.inj hhead
      cases i with
      | zero =>
        refine ⟨0, rfl, Nat.zero_lt_succ _, fun f b => ?_⟩
        have hother : rest.map (Token.map f) =
            rest.map (Token.map (Function.update f (a + 0) b)) := by
          refine List.map_congr_left fun token htoken => ?_
          cases token with
          | join c => rfl
          | leaf m =>
            have hm : m ∈ rest.filterMap Token.leaf? :=
              List.mem_filterMap.mpr ⟨_, htoken, rfl⟩
            rw [hrest, List.mem_range'_1] at hm
            simp only [Token.map]
            rw [Function.update_of_ne (by omega)]
        rw [List.map_cons, List.map_cons, List.set_cons_zero, hother]
        simp only [Token.map, Nat.add_zero, Function.update_self]
      | succ i =>
        obtain ⟨place, hplace, hlt, hset⟩ := ih hrest (position + 1) (Nat.lt_of_succ_lt_succ hi)
        refine ⟨place + 1, ?_, by simpa using hlt, fun f b => ?_⟩
        · rw [leafPositions, List.getElem?_cons_succ, hplace, Nat.add_assoc, Nat.add_comm 1]
        · have hindex : a + 1 + i = a + (i + 1) := by omega
          simp only [List.map_cons, List.set_cons_succ, hset f b, hindex, Token.map]
          rw [Function.update_of_ne (by omega)]

/-- There are as many positions as leaves. -/
lemma length_leafPositions (tokens : List (Token Nat)) (position : Nat) :
    (leafPositions position tokens).length = (tokens.filterMap Token.leaf?).length := by
  induction tokens generalizing position with
  | nil => rfl
  | cons token rest ih =>
    cases token with
    | join c => exact ih (position + 1)
    | leaf a => exact congrArg (· + 1) (ih (position + 1))

/-! ## Ties -/

/-- A table of ties has a place for each slot. -/
@[simp] lemma length_tieTable (slots : Nat) (ties : List (Nat × Nat)) :
    (tieTable slots ties).length = slots := by
  have hfold : ∀ table : List (Option Nat),
      (ties.foldl (fun table tie => table.set tie.1 (some tie.2)) table).length =
        table.length := by
    induction ties with
    | nil => exact fun _ => rfl
    | cons tie ties ih => exact fun table => (ih _).trans List.length_set
  rw [tieTable, hfold, List.length_replicate]

/-- An entry of a table of ties is one of the ties.

**Proof sketch.** The table is filled by one write after the other. By induction on the ties, an
entry was there before or was written by one of them; before, the table held none. -/
lemma mem_of_getElem?_tieTable {slots s p : Nat} {ties : List (Nat × Nat)}
    (h : (tieTable slots ties)[s]? = some (some p)) : (s, p) ∈ ties := by
  have hfold : ∀ table : List (Option Nat),
      (ties.foldl (fun table tie => table.set tie.1 (some tie.2)) table)[s]? = some (some p) →
        (s, p) ∈ ties ∨ table[s]? = some (some p) := by
    clear h
    induction ties with
    | nil => exact fun _ h => Or.inr h
    | cons tie ties ih =>
      intro table h
      rcases ih (table.set tie.1 (some tie.2)) h with h | h
      · exact Or.inl (List.mem_cons_of_mem _ h)
      · rw [List.getElem?_set] at h
        split at h
        · rename_i heq
          split at h
          · obtain rfl : tie.2 = p := Option.some.inj (Option.some.inj h)
            exact Or.inl (heq ▸ List.mem_cons_self)
          · cases h
        · exact Or.inr h
  refine (hfold _ h).resolve_right fun hnone => ?_
  rw [List.getElem?_replicate] at hnone
  split at hnone <;> cases hnone

/-- A tie is an entry of the table, if no slot is tied twice.

**Proof sketch.** By induction on the ties, from the last one on, which is written last. It is at
its slot, and it does not overwrite another tie, as that is at another slot. -/
lemma getElem?_tieTable {slots s p : Nat} {ties : List (Nat × Nat)}
    (hties : (ties.map Prod.fst).Nodup) (hs : s < slots) (h : (s, p) ∈ ties) :
    (tieTable slots ties)[s]? = some (some p) := by
  induction ties using List.reverseRecOn with
  | nil => cases h
  | append_singleton ties tie ih =>
    have hset : tieTable slots (ties ++ [tie]) = (tieTable slots ties).set tie.1 (some tie.2) :=
      List.foldl_append
    rw [List.map_append, List.map_singleton] at hties
    obtain ⟨hold, -, hnew⟩ := List.nodup_append.mp hties
    rw [hset]
    rcases List.mem_append.mp h with h | h
    · have hne : tie.1 ≠ s := by
        rintro rfl
        exact hnew _ (List.mem_map_of_mem h) _ (List.mem_singleton_self _) rfl
      rw [List.getElem?_set_ne hne]
      exact ih hold h
    · obtain rfl := List.mem_singleton.mp h
      exact List.getElem?_set_self (by rwa [length_tieTable])

/-! ## Soundness -/

/-- What the search relies on in a layout. -/
structure Sound (l : Layout) : Prop where
  /-- The form is that of the tree. -/
  form_eq : l.form = l.tree.toPostfix
  /-- There is a slot. -/
  slots_pos : 0 < l.slots
  /-- The slots count up from left to right. -/
  leaves_eq : l.tree.leaves = List.range l.slots
  /-- A write at the position of a slot changes this slot only. -/
  write : ∀ s < l.slots, ∃ place, l.slotPositions[s]? = some place ∧
    place < l.tree.tokens.length ∧ ∀ {β : Type} (f : Nat → β) (b : β),
      (l.tree.tokens.map (Token.map f)).set place (.leaf b) =
        l.tree.tokens.map (Token.map (Function.update f s b))
  /-- Each slot has an entry in the table of ties. -/
  length_minFrom : l.minFrom.length = l.slots
  /-- A slot is tied to an earlier one. -/
  earlier : ∀ s p : Nat, l.minFrom[s]? = some (some p) → p < s

/-- The layout of a shape has a slot for each part. -/
@[simp] lemma slots_ofShape (shape : Shape) : (ofShape shape).slots = shape.leafCount := by
  simp only [slots, ofShape]
  rw [length_leafPositions, Tree.filterMap_tokens, Tree.length_leaves, Shape.leafCount_numbered]

/-- **The layout of a shape is sound.**

**Proof sketch.** The leaves of the numbered tree are the slots in order (`Shape.leaves_numbered`).
So the position of a slot is where its leaf stands among the tokens, and writing there changes this
leaf only (`exists_set_leafPositions`). The ties of a shape lead to earlier slots. -/
theorem sound_ofShape (shape : Shape) : (ofShape shape).Sound where
  form_eq := rfl
  slots_pos := by
    rw [slots_ofShape]
    exact shape.leafCount_pos
  leaves_eq := by
    rw [slots_ofShape, List.range_eq_range']
    exact shape.leaves_numbered 0
  write s hs := by
    rw [slots_ofShape] at hs
    have hleaves : (shape.numbered 0).tokens.filterMap Token.leaf? =
        List.range' 0 shape.leafCount := by
      rw [Tree.filterMap_tokens, Shape.leaves_numbered]
    obtain ⟨place, hplace, hlt, hset⟩ := exists_set_leafPositions hleaves 0 hs
    rw [Nat.zero_add] at hplace
    refine ⟨place, hplace, hlt, fun f b => ?_⟩
    rw [← Nat.zero_add s]
    exact hset f b
  length_minFrom := by
    rw [slots_ofShape]
    exact length_tieTable _ _
  earlier s p h := (shape.exists_of_mem_ties 0 (mem_of_getElem?_tieTable h)).2.1

/-- The layouts of a level are sound. -/
lemma sound_of_mem_withLeaves {n : Nat} {l : Layout} (h : l ∈ withLeaves n) : l.Sound := by
  obtain ⟨shape, -, rfl⟩ := List.mem_map.mp h
  exact sound_ofShape shape

/-- The layouts with a number of leaves have a slot for each of them. -/
lemma slots_of_mem_withLeaves {n : Nat} {l : Layout} (h : l ∈ withLeaves n) : l.slots = n := by
  obtain ⟨shape, hshape, rfl⟩ := List.mem_map.mp h
  rw [slots_ofShape, Shape.leafCount_of_mem_withLeaves hshape]

end Layout

end Ohmic
