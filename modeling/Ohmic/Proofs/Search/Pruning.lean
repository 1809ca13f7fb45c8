import Mathlib.Algebra.Order.Field.Rat
import Ohmic.Proofs.Circuit.Growth
import Ohmic.Proofs.Number.Exact
import Ohmic.Proofs.Search.Bounds
import Ohmic.Proofs.Search.Items

set_option autoImplicit false

/-!
# Bounds lose no hit

Where networks grow with their parts, a partial network whose bounds lie beyond the band has no
acceptable completion. So a search that gives up such networks finds the same acceptable candidates
as one that does not, in the same order.

## Main definitions

* `Bounds.Cover` — the bounds hold the values as positive reals, and their extremes.
* `Explorer.BandHolds` — acceptable positive values lie in the band.
* `Explorer.hitsOf` — the acceptable ones of some assignments.

## Main results

* `Explorer.accepted_of_exceeds`, `Explorer.accepted_of_misses` — what lies beyond the bounds is not
  acceptable.
* `Explorer.hitsOf_descentSteps` — a descent with bounds has the hits of all assignments.
* `Explorer.hits_exploreAll_of_positive` — all work items, with bounds and without.
-/

namespace Ohmic

/-- The arithmetic of impedances is monotone where they are positive reals: these are ordered, and
scalars below or above them grow together with them. -/
structure MonotoneReals (S Z : Type) [Scalar S] [Impedance S Z] : Prop where
  /-- Positive scalars are ordered. -/
  ordered : Scalar.Ordered S
  /-- The real behind an impedance that is a positive real is positive. -/
  positive : ∀ (z : Z) (r : S), Impedance.positiveReal? z = some r → Scalar.Positive r
  /-- Scalars that are below impedances stay below them in connections. -/
  below : Connection.Grows S Z
  /-- Scalars that are above impedances stay above them in connections. -/
  above : Connection.Grows Z S

/-- A monotone arithmetic of scalars is one of the real domain. -/
lemma monotoneReals_of_monotone {S : Type} [Scalar S] (hord : Scalar.Ordered S)
    (h : Connection.Monotone S) : MonotoneReals S S where
  ordered := hord
  positive z r hr := by
    obtain ⟨hpos, rfl⟩ := Connection.positiveReal?_eq_some.mp hr
    exact hpos
  below := Connection.grows_of_monotone hord h
  above := Connection.grows_of_monotone hord h

/-! ## Bounds of an alphabet -/

namespace Bounds

variable {S Z : Type} [Scalar S] [Impedance S Z]

/-- The bounds hold the values of the alphabet as positive reals, and their extremes. -/
structure Cover (alphabet : List Z) (bd : Bounds S) : Prop where
  /-- The values are those of the alphabet. -/
  reads : List.Forall₂ (fun z v => Impedance.positiveReal? z = some v) alphabet bd.values
  /-- They are positive. -/
  positive : ∀ v ∈ bd.values, Scalar.Positive v
  /-- The least one is among them. -/
  min_mem : bd.min ∈ bd.values
  /-- The greatest one is among them. -/
  max_mem : bd.max ∈ bd.values
  /-- No value is below the least one. -/
  min_le : ∀ v ∈ bd.values, bd.min ≤ v
  /-- No value is above the greatest one. -/
  le_max : ∀ v ∈ bd.values, v ≤ bd.max
  /-- If the values ascend, earlier ones are at most later ones. -/
  ascending : bd.ascending = true → bd.values.Pairwise (· ≤ ·)

/-- The bounds of an alphabet cover it. -/
lemma cover_of_of? (h : MonotoneReals S Z) {alphabet : List Z}
    {target : Z} {tolerance : Tolerance S} {bd : Bounds S}
    (hof : of? alphabet target tolerance = some bd) : bd.Cover alphabet := by
  obtain ⟨r, first, rest, -, hreads, rfl⟩ := of?_eq_some hof
  have hpositive : ∀ v ∈ first :: rest, Scalar.Positive v := by
    intro v hv
    obtain ⟨i, hi, rfl⟩ := List.mem_iff_getElem.mp hv
    have hlt : i < alphabet.length := hreads.length_eq ▸ hi
    exact h.positive _ _ (hreads.get hlt hi)
  exact {
    reads := hreads
    positive := hpositive
    min_mem := Scalar.least_mem first rest
    max_mem := Scalar.greatest_mem first rest
    min_le := Scalar.least_le h.ordered hpositive
    le_max := Scalar.le_greatest h.ordered hpositive
    ascending := Scalar.pairwise_of_ascending h.ordered }

end Bounds

/-! ## Values in slots -/

namespace Layout

variable {S Z : Type} [Scalar S] [Impedance S Z] {alphabet : List Z} {bd : Bounds S}

omit [Scalar S] in
/-- A slot holds a value or what the open slots hold. -/
lemma pick_mem {values : List S} {rest : S} (h : rest ∈ values) (indices : List Nat)
    (slot : Nat) : pick values rest indices slot ∈ values := by
  unfold pick
  cases hvalue : indices[slot]?.bind fun index => values[index]? with
  | none => exact h
  | some v =>
    obtain ⟨index, -, hv⟩ := Option.bind_eq_some_iff.mp hvalue
    exact List.mem_of_getElem? hv

/-- The value in a slot of a complete candidate is read as the positive real of its index. -/
lemma positiveReal?_pick (hbd : bd.Cover alphabet) {l : Layout} {indices : List Nat}
    (h : l.Assigned alphabet.length indices) (rest : S) {slot : Nat} (hslot : slot < l.slots) :
    Impedance.positiveReal? (pick alphabet Impedance.zero indices slot) =
      some (pick bd.values rest indices slot) := by
  rw [← h.length_eq] at hslot
  have hindex := List.getElem?_eq_getElem hslot
  have hlt := h.lt _ (List.getElem_mem hslot)
  have hlt' : indices[slot] < bd.values.length := hbd.reads.length_eq ▸ hlt
  rw [pick_of_getElem? hindex (List.getElem?_eq_getElem hlt),
    pick_of_getElem? hindex (List.getElem?_eq_getElem hlt')]
  exact hbd.reads.get hlt hlt'

/-- With the least value in all open slots, no slot is above its value in a completion. -/
lemma pick_min_le (hord : Scalar.Ordered S) (hbd : bd.Cover alphabet) {indices more : List Nat}
    {index index' : Nat} {v v' : S} (hv : bd.values[index]? = some v)
    (hv' : bd.values[index']? = some v') (hle : v ≤ v') (slot : Nat) :
    pick bd.values bd.min (indices ++ [index]) slot ≤
      pick bd.values bd.min (indices ++ index' :: more) slot := by
  have hmem := pick_mem hbd.min_mem
  rcases Nat.lt_trichotomy slot indices.length with h | rfl | h
  · have hsame : pick bd.values bd.min (indices ++ [index]) slot =
        pick bd.values bd.min (indices ++ index' :: more) slot := by
      simp only [pick, List.getElem?_append_left h]
    rw [hsame]
    exact hord.le_refl _ (hbd.positive _ (hmem _ _))
  · rw [pick_of_getElem? List.getElem?_concat_length hv, pick_of_getElem? ?_ hv']
    · exact hle
    · rw [List.getElem?_append_right (Nat.le_refl _), Nat.sub_self, List.getElem?_cons_zero]
  · rw [pick_of_length_le (by rw [List.length_append, List.length_singleton]; exact h)]
    exact hbd.min_le _ (hmem _ _)

/-- With the greatest value in all open slots, no slot is below its value in a completion. -/
lemma le_pick_max (hord : Scalar.Ordered S) (hbd : bd.Cover alphabet) (indices more : List Nat)
    (slot : Nat) :
    pick bd.values bd.max (indices ++ more) slot ≤ pick bd.values bd.max indices slot := by
  have hmem := pick_mem hbd.max_mem
  rcases Nat.lt_or_ge slot indices.length with h | h
  · have hsame : pick bd.values bd.max (indices ++ more) slot =
        pick bd.values bd.max indices slot := by
      simp only [pick, List.getElem?_append_left h]
    rw [hsame]
    exact hord.le_refl _ (hbd.positive _ (hmem _ _))
  · rw [pick_of_length_le h]
    exact hbd.le_max _ (hmem _ _)

end Layout

/-! ## Beyond the bounds -/

namespace Explorer

variable {S Z : Type} [Scalar S] [Impedance S Z]

/-- Acceptable values that are positive reals lie in the band of the bounds. -/
def BandHolds (x : Explorer S Z) (bd : Bounds S) : Prop :=
  ∀ (v : Z) (r : S), Impedance.positiveReal? v = some r →
    x.tolerance.accepts (Deviation.of v x.target).absolute (Deviation.of v x.target).relative =
      true → bd.low ≤ r ∧ r ≤ bd.high

/-- The bounds of a search are sound. -/
structure SoundBounds (x : Explorer S Z) (bd : Bounds S) : Prop where
  /-- The arithmetic is monotone. -/
  monotone : MonotoneReals S Z
  /-- The bounds cover the alphabet. -/
  cover : bd.Cover x.alphabet
  /-- The band holds all that is acceptable. -/
  band : x.BandHolds bd

/-- In the real domain the band of the bounds holds all that is acceptable if it does so for
positive scalars. -/
lemma bandHolds_of_of? {S : Type} [Scalar S] {x : Explorer S S} {bd : Bounds S}
    (hof : Bounds.of? x.alphabet x.target x.tolerance = some bd)
    (hband : Scalar.Positive x.target → ∀ v, Scalar.Positive v →
      x.tolerance.accepts (Deviation.of v x.target).absolute (Deviation.of v x.target).relative =
        true →
      (x.tolerance.band x.target).1 * (1 - Scalar.slack) ≤ v ∧
        v ≤ (x.tolerance.band x.target).2 * (1 + Scalar.slack)) : x.BandHolds bd := by
  intro v r hr haccept
  obtain ⟨hpos, rfl⟩ := Connection.positiveReal?_eq_some.mp hr
  obtain ⟨target, first, rest, htarget, -, rfl⟩ := Bounds.of?_eq_some hof
  obtain ⟨hpos', rfl⟩ := Connection.positiveReal?_eq_some.mp htarget
  exact hband hpos' r hpos haccept

variable {x : Explorer S Z} {bd : Bounds S} {l : Layout} {layout : Nat}

/-- **Above the band** no completion is acceptable: the slots of the completion are not below those
of a partial network whose least value exceeds the band.

**Proof sketch.** A tree grows with its positive leaves (`Tree.value?_of_grows`), so the completion
is not below the least value of the partial network. That value is above the band, in which all
accepted ones lie. -/
lemma accepted_of_exceeds (hbd : x.SoundBounds bd) (hl : l.Sound) {indices assigned : List Nat}
    (hassigned : l.Assigned x.alphabet.length assigned)
    (hover : bd.exceeds (l.filled bd.values bd.min indices).value? = true)
    (hle : ∀ slot, Layout.pick bd.values bd.min indices slot ≤
      Layout.pick bd.values bd.min assigned slot)
    {c : Candidate S Z} (hc : x.candidate? l layout assigned = some c) : x.accepted c = false := by
  obtain ⟨v, hv, rfl⟩ := Option.map_eq_some_iff.mp hc
  have hleaf : ∀ s ∈ l.tree.leaves,
      Impedance.isFinite (Layout.pick bd.values bd.min indices s) = true ∧ ∃ r r',
        Impedance.positiveReal? (Layout.pick bd.values bd.min indices s) = some r ∧
        Impedance.positiveReal? (Layout.pick x.alphabet Impedance.zero assigned s) = some r' ∧
        r ≤ r' := by
    intro s hs
    rw [hl.leaves_eq, List.mem_range] at hs
    have hpos := hbd.cover.positive _ (Layout.pick_mem hbd.cover.min_mem indices s)
    exact ⟨hpos.2, _, _, Connection.positiveReal?_eq_some.mpr ⟨hpos, rfl⟩,
      Layout.positiveReal?_pick hbd.cover hassigned bd.min hs, hle s⟩
  obtain ⟨w, r, r', hw, hr, hr', hrr⟩ := Tree.value?_of_grows hbd.monotone.below hleaf hv
  rw [Layout.filled, hw, Bounds.exceeds, decide_eq_true_eq] at hover
  obtain ⟨-, rfl⟩ := Connection.positiveReal?_eq_some.mp hr
  rw [← Bool.not_eq_true]
  intro haccept
  have hhigh := (hbd.band v r' hr' haccept).2
  exact hbd.monotone.ordered.not_lt_of_le _ _
    (hbd.monotone.ordered.le_trans _ _ _ hrr hhigh) hover

/-- **Below the band** no completion is acceptable: the slots of the completion are not above those
of a partial network whose greatest value falls short of the band.

**Proof sketch.** Here the leaves of the completion are the smaller ones (`Tree.value?_of_grows`),
so the completion is not above the greatest value of the partial network. That value is below the
band, in which all accepted ones lie. Without a greatest value nothing falls short of the band. -/
lemma accepted_of_misses (hbd : x.SoundBounds bd) (hx : x.Ready) (hl : l.Sound)
    {indices assigned : List Nat} (hassigned : l.Assigned x.alphabet.length assigned)
    (hunder : bd.misses (l.filled bd.values bd.max indices).value? = true)
    (hle : ∀ slot, Layout.pick bd.values bd.max assigned slot ≤
      Layout.pick bd.values bd.max indices slot)
    {c : Candidate S Z} (hc : x.candidate? l layout assigned = some c) : x.accepted c = false := by
  obtain ⟨v, hv, rfl⟩ := Option.map_eq_some_iff.mp hc
  have hleaf : ∀ s ∈ l.tree.leaves,
      Impedance.isFinite (Layout.pick x.alphabet Impedance.zero assigned s) = true ∧ ∃ r r',
        Impedance.positiveReal? (Layout.pick x.alphabet Impedance.zero assigned s) = some r ∧
        Impedance.positiveReal? (Layout.pick bd.values bd.max indices s) = some r' ∧ r ≤ r' := by
    intro s hs
    have hmem : Layout.pick x.alphabet Impedance.zero assigned s ∈
        (l.filled x.alphabet Impedance.zero assigned).leaves := by
      rw [Layout.filled, Tree.leaves_map]
      exact List.mem_map_of_mem hs
    rw [hl.leaves_eq, List.mem_range] at hs
    have hpos := hbd.cover.positive _ (Layout.pick_mem hbd.cover.max_mem indices s)
    exact ⟨hx.finite _ (Layout.mem_of_mem_leaves_filled hl hassigned hmem), _, _,
      Layout.positiveReal?_pick hbd.cover hassigned bd.max hs,
      Connection.positiveReal?_eq_some.mpr ⟨hpos, rfl⟩, hle s⟩
  cases hu : (l.filled bd.values bd.max indices).value? with
  | none =>
    rw [hu] at hunder
    cases hunder
  | some u =>
    obtain ⟨w, r, r', hw, hr, hr', hrr⟩ := Tree.value?_of_grows hbd.monotone.above hleaf hu
    rw [hu, Bounds.misses, decide_eq_true_eq] at hunder
    obtain rfl := Option.some.inj (hw.symm.trans hv)
    obtain ⟨-, rfl⟩ := Connection.positiveReal?_eq_some.mp hr'
    rw [← Bool.not_eq_true]
    intro haccept
    have hlow := (hbd.band w r hr haccept).1
    exact hbd.monotone.ordered.not_lt_of_le _ _
      (hbd.monotone.ordered.le_trans _ _ _ hlow hrr) hunder

/-! ## Hits of a descent -/

/-- The acceptable ones of some assignments, as candidates. -/
def hitsOf (x : Explorer S Z) (l : Layout) (layout : Nat) (assignments : List (List Nat)) :
    List (Candidate S Z) :=
  (assignments.filterMap (x.candidate? l layout)).filter x.accepted

/-- The hits of assignments that follow others. -/
lemma hitsOf_append (assignments more : List (List Nat)) :
    x.hitsOf l layout (assignments ++ more) =
      x.hitsOf l layout assignments ++ x.hitsOf l layout more := by
  rw [hitsOf, List.filterMap_append, List.filter_append]
  rfl

/-- Assignments of which none is acceptable have no hits. -/
lemma hitsOf_eq_nil {assignments : List (List Nat)}
    (h : ∀ assigned ∈ assignments, ∀ c, x.candidate? l layout assigned = some c →
      x.accepted c = false) : x.hitsOf l layout assignments = [] := by
  rw [hitsOf, List.filter_eq_nil_iff]
  intro c hc
  obtain ⟨assigned, hmem, hsome⟩ := List.mem_filterMap.mp hc
  rw [h assigned hmem c hsome]
  exact Bool.false_ne_true

/-- The tally of a work item has its hits. -/
lemma hits_tallyOf_eq_hitsOf (steps : List Step) :
    (x.tallyOf l layout steps).hits = x.hitsOf l layout (Step.candidates steps) :=
  hits_tallyOf steps

/-- A partial network with a verdict has no acceptable completion. After an overshoot of an
ascending slot the same holds with any later value in that slot.

**Proof sketch.** After an overshoot the open slots of the partial network have the least value, and
the slot itself has its own or, in the completion, a later one of an ascending alphabet, so the
completion is above the band (`accepted_of_exceeds`). After an undershoot the slots have the
greatest value (`accepted_of_misses`), and later values are still tried. -/
lemma accepted_of_cut (hbounds : x.bounds = some bd) (hbd : x.SoundBounds bd) (hx : x.Ready)
    (hl : l.Sound) {indices more : List Nat} {index index' : Nat}
    (hcut : x.verdictOf l (indices ++ [index]) ≠ .feasible)
    (hlater : index' = index ∨
      (index < index' ∧ x.endsSlot (x.verdictOf l (indices ++ [index])) = true))
    (hindex : index < x.alphabet.length)
    (hassigned : l.Assigned x.alphabet.length (indices ++ index' :: more)) {c : Candidate S Z}
    (hc : x.candidate? l layout (indices ++ index' :: more) = some c) : x.accepted c = false := by
  have hlength := hbd.cover.reads.length_eq
  have hindex' : index' < x.alphabet.length :=
    hassigned.lt index' (List.mem_append_right _ List.mem_cons_self)
  simp only [verdictOf, hbounds, endsSlot, Bounds.verdictOf] at hcut hlater
  split at hcut
  · next hover =>
    refine accepted_of_exceeds hbd hl hassigned hover (fun slot => ?_) hc
    have hv := List.getElem?_eq_getElem (hlength ▸ hindex)
    have hv' := List.getElem?_eq_getElem (hlength ▸ hindex')
    refine Layout.pick_min_le hbd.monotone.ordered hbd.cover hv hv' ?_ slot
    -- the value of the slot is the same, or a later one of an ascending alphabet
    rcases hlater with rfl | ⟨hlt, hends⟩
    · exact hbd.monotone.ordered.le_refl _ (hbd.cover.positive _ (List.getElem_mem _))
    · rw [if_pos hover] at hends
      exact List.pairwise_iff_getElem.mp (hbd.cover.ascending hends) _ _ _ _ hlt
  · next hover =>
    split at hcut
    · next hunder =>
      rcases hlater with rfl | ⟨-, hends⟩
      · refine accepted_of_misses hbd hx hl hassigned hunder (fun slot => ?_) hc
        rw [List.append_cons]
        exact Layout.le_pick_max hbd.monotone.ordered hbd.cover _ _ slot
      · rw [if_neg hover, if_pos hunder] at hends
        cases hends
    · exact absurd rfl hcut

/-- **The hits of one slot** are those that its values lead to, if a partial network is given up
only if it has no acceptable completion.

**Proof sketch.** By induction on the values that are left. A feasible value has the hits of the
descent behind it. A value that is cut has none, and if the cut ends the slot, no later one has
any. -/
lemma hitsOf_slotSteps {steps : List Nat → List Step} {full : Nat → List (List Nat)}
    {indices others : List Nat} (hsorted : others.Pairwise (· < ·))
    (hfeasible : ∀ index ∈ others, x.verdictOf l (indices ++ [index]) = .feasible →
      x.hitsOf l layout (Step.candidates (steps (indices ++ [index]))) =
        x.hitsOf l layout (full index))
    (hcut : ∀ index ∈ others, x.verdictOf l (indices ++ [index]) ≠ .feasible →
      x.hitsOf l layout (full index) = [])
    (hends : ∀ index ∈ others, ∀ index' ∈ others, index < index' →
      x.verdictOf l (indices ++ [index]) ≠ .feasible →
      x.endsSlot (x.verdictOf l (indices ++ [index])) = true →
      x.hitsOf l layout (full index') = []) :
    x.hitsOf l layout (Step.candidates (x.slotSteps l (some steps) indices others)) =
      x.hitsOf l layout (others.flatMap full) := by
  induction others with
  | nil => rfl
  | cons index others ih =>
    rw [List.pairwise_cons] at hsorted
    have hrest := ih hsorted.2
      (fun i hi => hfeasible i (List.mem_cons_of_mem _ hi))
      (fun i hi => hcut i (List.mem_cons_of_mem _ hi))
      (fun i hi i' hi' => hends i (List.mem_cons_of_mem _ hi) i' (List.mem_cons_of_mem _ hi'))
    rw [List.flatMap_cons, hitsOf_append]
    by_cases hv : x.verdictOf l (indices ++ [index]) = .feasible
    · rw [slotSteps_of_feasible hv, Step.candidates_tick, Step.candidates_append, hitsOf_append,
        hfeasible index List.mem_cons_self hv, hrest]
    · rw [slotSteps_of_cut hv, Step.candidates_tick, Step.candidates_cut,
        hcut index List.mem_cons_self hv, List.nil_append]
      split
      · next hend =>
        refine (hitsOf_eq_nil fun assigned hmem c hc => ?_).symm
        obtain ⟨index', hindex', hmem⟩ := List.mem_flatMap.mp hmem
        have hnone := hends index List.mem_cons_self index' (List.mem_cons_of_mem _ hindex')
          (hsorted.1 index' hindex') hv hend
        rw [hitsOf, List.filter_eq_nil_iff] at hnone
        exact Bool.eq_false_iff.mpr (hnone c (List.mem_filterMap.mpr ⟨assigned, hmem, hc⟩))
      · exact hrest

/-- **A descent with bounds** has the hits of all assignments.

**Proof sketch.** By induction on the slots behind the current one. A partial network that is given
up has no acceptable completion (`accepted_of_cut`); the values that an overshoot skips have none
either, since the indices of a slot count up and the alphabet ascends. -/
theorem hitsOf_descentSteps (hbounds : x.bounds = some bd) (hbd : x.SoundBounds bd)
    (hx : x.Ready) (hl : l.Sound) (after : Nat) {first stop : Nat} {indices : List Nat}
    (hslots : indices.length + after + 1 = l.slots) (hstop : stop ≤ x.alphabet.length)
    (hlt : ∀ i ∈ indices, i < x.alphabet.length) :
    x.hitsOf l layout (Step.candidates (x.descentSteps l after first stop indices)) =
      x.hitsOf l layout (l.assignments x.alphabet.length after first stop indices) := by
  induction after generalizing first stop indices with
  | zero => rw [candidates_descentSteps_zero]
  | succ after ih =>
    have hrange : ∀ index ∈ List.range' (l.firstIndex indices first)
        (stop - l.firstIndex indices first), index < x.alphabet.length := fun index hindex =>
      Nat.lt_of_lt_of_le (Layout.mem_range'_firstIndex.mp hindex).1.2 hstop
    have hnext : ∀ index < x.alphabet.length, ∀ i ∈ indices ++ [index],
        i < x.alphabet.length := fun index hindex =>
      List.forall_mem_append.mpr ⟨hlt, List.forall_mem_singleton.mpr hindex⟩
    have hlength : ∀ index, (indices ++ [index]).length + after + 1 = l.slots := by
      intro index
      rw [List.length_append, List.length_singleton]
      omega
    -- a value that is cut, or a later one after an overshoot, leads to no hit
    have hnone : ∀ index < x.alphabet.length, ∀ index' < x.alphabet.length,
        x.verdictOf l (indices ++ [index]) ≠ .feasible →
        (index' = index ∨
          (index < index' ∧ x.endsSlot (x.verdictOf l (indices ++ [index])) = true)) →
        x.hitsOf l layout
          (l.assignments x.alphabet.length after 0 x.alphabet.length (indices ++ [index'])) =
            [] := by
      intro index hindex index' hindex' hcut hlater
      refine hitsOf_eq_nil fun assigned hmem c hc => ?_
      obtain ⟨hassigned, more, rfl⟩ := Layout.assigned_of_mem_assignments (hlength index')
        (Nat.le_refl _) (hnext index' hindex') hmem
      rw [← List.append_cons] at hassigned hc
      exact accepted_of_cut hbounds hbd hx hl hcut hlater hindex hassigned hc
    rw [descentSteps, Layout.assignments]
    refine hitsOf_slotSteps (List.pairwise_lt_range' _) (fun index hindex _ => ?_)
      (fun index hindex hcut => ?_) fun index hindex index' hindex' hlt' hcut hends => ?_
    · exact ih (hlength index) (Nat.le_refl _) (hnext index (hrange index hindex))
    · exact hnone index (hrange index hindex) index (hrange index hindex) hcut (.inl rfl)
    · exact hnone index (hrange index hindex) index' (hrange index' hindex') hcut
        (.inr ⟨hlt', hends⟩)

/-- The hits of a work item are those of all its assignments, with sound bounds or without
bounds. -/
theorem hits_itemSteps (hx : x.Ready) (hl : l.Sound)
    (hbounds : ∀ bd, x.bounds = some bd → x.SoundBounds bd) {first : Nat}
    (hfirst : first < x.alphabet.length) :
    (x.tallyOf l layout (x.itemSteps l first)).hits =
      x.hitsOf l layout (l.itemAssignments x.alphabet.length first) := by
  have hslots := hl.slots_pos
  rw [hits_tallyOf_eq_hitsOf, itemSteps, Layout.itemAssignments]
  cases hb : x.bounds with
  | none => rw [candidates_descentSteps_of_bounds_none x l hb]
  | some bd =>
    exact hitsOf_descentSteps hb (hbounds bd hb) hx hl _ (by rw [List.length_nil]; omega) hfirst
      fun i hi => absurd hi List.not_mem_nil

/-- The hits of work items are those of all their assignments. -/
lemma hits_items (hx : x.Ready) (hbounds : ∀ bd, x.bounds = some bd → x.SoundBounds bd)
    {layouts : List Layout} (hsound : ∀ l ∈ layouts, l.Sound) {work : List (Nat × Nat)}
    (hwork : ∀ w ∈ work, w.1 < layouts.length ∧ w.2 < x.alphabet.length) :
    ((x.items layouts work).map x.tally).map Tally.hits = work.filterMap fun w =>
      layouts[w.1]?.map fun l => x.hitsOf l w.1 (l.itemAssignments x.alphabet.length w.2) := by
  induction work with
  | nil => rfl
  | cons w work ih =>
    obtain ⟨layout, first⟩ := w
    obtain ⟨⟨hplace : layout < layouts.length, hfirst : first < x.alphabet.length⟩, hwork⟩ :=
      List.forall_mem_cons.mp hwork
    have hlayout := List.getElem?_eq_getElem hplace
    have hl := hsound _ (List.mem_of_getElem? hlayout)
    rw [items_cons hlayout, List.map_cons, List.map_cons, ih hwork, tally,
      hits_itemSteps hx hl hbounds hfirst, List.filterMap_cons_some]
    rw [hlayout, Option.map_some]

/-- The same search with other bounds, or without them. -/
def withBounds (x : Explorer S Z) (bounds : Option (Bounds S)) : Explorer S Z :=
  { x with bounds := bounds }

end Explorer

/-- The bounds of an alphabet and a target are available if all of them are positive. -/
lemma Bounds.isSome_of?_of_positive {S : Type} [Scalar S] {alphabet : List S} {target : S}
    (tolerance : Tolerance S) (hne : alphabet ≠ []) (halphabet : ∀ a ∈ alphabet, Scalar.Positive a)
    (htarget : Scalar.Positive target) : (of? alphabet target tolerance).isSome = true := by
  have hvalues : alphabet.mapM Impedance.positiveReal? = some alphabet := by
    rw [mapM_eq_some_iff, List.forall₂_same]
    exact fun a ha => Connection.positiveReal?_eq_some.mpr ⟨halphabet a ha, rfl⟩
  have hread : Impedance.positiveReal? target = some target :=
    Connection.positiveReal?_eq_some.mpr ⟨htarget, rfl⟩
  cases alphabet with
  | nil => exact absurd rfl hne
  | cons first rest => simp only [of?, hread, hvalues, bind, Option.bind_some]; rfl

namespace Explorer

variable {S : Type} [Scalar S]

/-- **Bounds lose no hit.** Take an alphabet of positive finite scalars, in any order and with
repetitions, and a positive finite target. Suppose that connections are monotone on positive
scalars, and that positive values which the tolerance accepts lie in the opened band. Then exploring
all work items of a number of leaves with the bounds of the alphabet and without bounds succeeds
both times, and each work item has the same hits in the same order.

**Proof sketch.** Without a limit each work item takes all its steps (`exploreAll_of_allows`). With
sound bounds or without bounds the hits of these steps are the hits of all assignments of the work
item (`hits_itemSteps`). -/
theorem hits_exploreAll_of_positive (hord : Scalar.Ordered S) (hgrow : Connection.Monotone S)
    (x : Explorer S S) (halphabet : ∀ a ∈ x.alphabet, Scalar.Positive a)
    (htarget : Scalar.Positive x.target)
    (hband : ∀ v, Scalar.Positive v →
      x.tolerance.accepts (Deviation.of v x.target).absolute (Deviation.of v x.target).relative =
        true →
      (x.tolerance.band x.target).1 * (1 - Scalar.slack) ≤ v ∧
        v ≤ (x.tolerance.band x.target).2 * (1 + Scalar.slack)) (leaves : Nat) :
    (x.alphabet ≠ [] → (Bounds.of? x.alphabet x.target x.tolerance).isSome = true) ∧
    ∃ tallies tallies' budget,
      (x.withBounds (Bounds.of? x.alphabet x.target x.tolerance)).exploreAll
          (Layout.withLeaves leaves) {} { deadline := none, maxCandidates := none } []
          (workItems (Layout.withLeaves leaves) x.alphabet.length) = .ok (tallies, budget) ∧
      (x.withBounds none).exploreAll
          (Layout.withLeaves leaves) {} { deadline := none, maxCandidates := none } []
          (workItems (Layout.withLeaves leaves) x.alphabet.length) = .ok (tallies', budget) ∧
      tallies.map Tally.hits = tallies'.map Tally.hits := by
  refine ⟨fun hne => Bounds.isSome_of?_of_positive x.tolerance hne halphabet htarget, ?_⟩
  have hmonotone := monotoneReals_of_monotone hord hgrow
  have hsound : ∀ l ∈ Layout.withLeaves leaves, l.Sound := fun _ hl =>
    Layout.sound_of_mem_withLeaves hl
  have hwork : ∀ w ∈ workItems (Layout.withLeaves leaves) x.alphabet.length,
      w.1 < (Layout.withLeaves leaves).length ∧ w.2 < x.alphabet.length := fun _ hw =>
    lt_of_mem_workItems hw
  -- either search explores all its work items
  have hexplore : ∀ bounds : Option (Bounds S), (∀ bd, bounds = some bd →
        Bounds.of? x.alphabet x.target x.tolerance = some bd) →
      ∃ tallies, (x.withBounds bounds).exploreAll (Layout.withLeaves leaves) {}
          { deadline := none, maxCandidates := none } []
          (workItems (Layout.withLeaves leaves) x.alphabet.length) =
            .ok (tallies, { deadline := none, maxCandidates := none }) ∧
        tallies.map Tally.hits = (workItems (Layout.withLeaves leaves)
          x.alphabet.length).filterMap fun w => (Layout.withLeaves leaves)[w.1]?.map fun l =>
            x.hitsOf l w.1 (l.itemAssignments x.alphabet.length w.2) := by
    intro bounds hof
    have hx : (x.withBounds bounds).Ready :=
      ⟨fun a ha => (halphabet a ha).2, fun bd hbd => Bounds.length_values (hof bd hbd)⟩
    have hbounds : ∀ bd, (x.withBounds bounds).bounds = some bd →
        (x.withBounds bounds).SoundBounds bd := by
      intro bd hbd
      exact ⟨hmonotone, Bounds.cover_of_of? hmonotone (hof bd hbd),
        bandHolds_of_of? (hof bd hbd) fun _ => hband⟩
    have htime : Budget.Timeless { deadline := none, maxCandidates := none } := rfl
    have hall := exploreAll_of_allows hx hsound hwork {} htime rfl (fun n hn => by cases hn) []
    exact ⟨_, hall, hits_items hx hbounds hsound hwork⟩
  obtain ⟨tallies, htallies, hhits⟩ := hexplore _ fun bd hbd => hbd
  obtain ⟨tallies', htallies', hhits'⟩ := hexplore none fun bd hbd => by cases hbd
  exact ⟨tallies, tallies', _, htallies, htallies', hhits.trans hhits'.symm⟩

/-- The values one, two, two and one, in this order, around five thirds, with networks of three
leaves. -/
theorem hits_exploreAll_of_five_thirds :
    let x : Explorer ℚ ℚ := ⟨[1, 2, 2, 1], 5 / 3, .relative (1 / 100), none, Clock.still⟩
    (∀ a ∈ x.alphabet, Scalar.Positive a) ∧ Scalar.Positive x.target ∧
      ∃ tallies tallies' budget,
        (x.withBounds (Bounds.of? x.alphabet x.target x.tolerance)).exploreAll
            (Layout.withLeaves 3) {} { deadline := none, maxCandidates := none } []
            (workItems (Layout.withLeaves 3) x.alphabet.length) = .ok (tallies, budget) ∧
        (x.withBounds none).exploreAll
            (Layout.withLeaves 3) {} { deadline := none, maxCandidates := none } []
            (workItems (Layout.withLeaves 3) x.alphabet.length) = .ok (tallies', budget) ∧
        tallies.map Tally.hits = tallies'.map Tally.hits := by
  intro x
  have halphabet : ∀ a ∈ x.alphabet, Scalar.Positive a := by
    intro a ha
    rw [Exact.positive_iff]
    simp only [x, List.mem_cons, List.not_mem_nil, or_false] at ha
    rcases ha with rfl | rfl | rfl | rfl <;> norm_num
  have htarget : Scalar.Positive x.target := Exact.positive_iff.mpr (by norm_num [x])
  have hband := fun v (hv : Scalar.Positive v) => Exact.band_of_accepts x.tolerance
    (Exact.positive_iff.mp htarget) (Exact.positive_iff.mp hv)
  obtain ⟨-, hhits⟩ :=
    hits_exploreAll_of_positive Exact.ordered Exact.monotone x halphabet htarget hband 3
  exact ⟨halphabet, htarget, hhits⟩

end Explorer

end Ohmic
