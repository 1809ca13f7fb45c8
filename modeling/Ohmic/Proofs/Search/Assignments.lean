import Mathlib.Data.List.Flatten
import Mathlib.Data.List.GetD
import Ohmic.Proofs.Search.Tallies

set_option autoImplicit false

/-!
# The assignments of a layout

Without bounds the search handles every assignment of values to the slots of a layout in which no
slot has a smaller index than the slot to which it is tied. With bounds it handles some of them, in
the same order.

## Main definitions

* `Layout.Respects` — no slot has a smaller index than the slot to which it is tied.
* `Layout.assignments` — the assignments that extend some indices, in search order.
* `Layout.allAssignments` — the assignments of all work items of a layout.

## Main results

* `Layout.mem_allAssignments` — they are all indices of values that respect the ties.
* `Explorer.candidates_descentSteps_sublist`, `Explorer.candidates_descentSteps_of_bounds_none` —
  the candidates of a descent are some of the assignments, and all of them if there are no bounds.
-/

namespace Ohmic

namespace Layout

/-- No slot has a smaller index than the slot to which it is tied. -/
def Respects (l : Layout) (indices : List Nat) : Prop :=
  ∀ s p, s < indices.length → l.minFrom[s]? = some (some p) →
    indices.getD p 0 ≤ indices.getD s 0

/-- The assignments that extend some indices by one for the next slot, from `first` on and below
`stop`, and by one for each of the `after` slots behind it. -/
def assignments (l : Layout) (width : Nat) :
    (after first stop : Nat) → List Nat → List (List Nat)
  | 0, first, stop, indices =>
    (List.range' (l.firstIndex indices first) (stop - l.firstIndex indices first)).map
      fun index => indices ++ [index]
  | after + 1, first, stop, indices =>
    (List.range' (l.firstIndex indices first) (stop - l.firstIndex indices first)).flatMap
      fun index => l.assignments width after 0 width (indices ++ [index])

/-- The assignments of a work item. -/
def itemAssignments (l : Layout) (width first : Nat) : List (List Nat) :=
  l.assignments width (l.slots - 1) first (first + 1) []

/-- The assignments of all work items of a layout. -/
def allAssignments (l : Layout) (width : Nat) : List (List Nat) :=
  (List.range width).flatMap (l.itemAssignments width)

/-- Nothing is tied among no indices. -/
lemma respects_nil (l : Layout) : l.Respects [] := fun _ _ hs => absurd hs (Nat.not_lt_zero _)

/-- The first index to try is not below the given one nor below that of a tie. -/
lemma firstIndex_le_iff (l : Layout) (indices : List Nat) (first index : Nat) :
    l.firstIndex indices first ≤ index ↔ first ≤ index ∧ l.firstIndex indices 0 ≤ index := by
  unfold firstIndex
  split <;> omega

/-- The first indices respect the ties if all do. -/
lemma Respects.of_append {l : Layout} (hl : l.Sound) {indices more : List Nat}
    (h : l.Respects (indices ++ more)) : l.Respects indices := by
  intro s p hs htie
  have hp := hl.earlier s p htie
  have hle := h s p (by rw [List.length_append]; omega) htie
  rwa [List.getD_append _ _ _ _ hs, List.getD_append _ _ _ _ (by omega)] at hle

/-- One more index respects the ties if it is not below the first index to try.

**Proof sketch.** The ties of the old slots are not touched, since a slot is tied to an earlier one.
The new slot has at most one tie, to a slot whose index is the first one to try; without a tie every
index will do. -/
lemma respects_append_singleton {l : Layout} (hl : l.Sound) {indices : List Nat} {index : Nat} :
    l.Respects (indices ++ [index]) ↔
      l.Respects indices ∧ l.firstIndex indices 0 ≤ index := by
  have hold : ∀ s < indices.length, (indices ++ [index]).getD s 0 = indices.getD s 0 :=
    fun s hs => List.getD_append _ _ _ _ hs
  have hnew : (indices ++ [index]).getD indices.length 0 = index := by
    rw [List.getD_append_right _ _ _ _ (Nat.le_refl _), Nat.sub_self, List.getD_cons_zero]
  have hlength : (indices ++ [index]).length = indices.length + 1 := by
    rw [List.length_append, List.length_singleton]
  constructor
  · intro h
    refine ⟨h.of_append hl, ?_⟩
    unfold firstIndex
    split
    · next p htie =>
      have hle := h indices.length p (by omega) htie
      rw [hnew, hold p (hl.earlier _ p htie)] at hle
      rwa [Nat.zero_max]
    · exact Nat.zero_le _
  · rintro ⟨h, hfirst⟩ s p hs htie
    have hp := hl.earlier s p htie
    rw [hlength] at hs
    rcases Nat.lt_or_eq_of_le (Nat.le_of_lt_succ hs) with hs | rfl
    · rw [hold s hs, hold p (by omega)]
      exact h s p hs htie
    · simp only [firstIndex, htie, Nat.zero_max] at hfirst
      rwa [hnew, hold p hp]

/-- The indices to try in the next slot. -/
lemma mem_range'_firstIndex {l : Layout} {indices : List Nat} {first stop index : Nat} :
    index ∈ List.range' (l.firstIndex indices first) (stop - l.firstIndex indices first) ↔
      (first ≤ index ∧ index < stop) ∧ l.firstIndex indices 0 ≤ index := by
  have hfirst := firstIndex_le_iff l indices first index
  rw [List.mem_range'_1]
  omega

/-- **The assignments that extend some indices** are those with indices of values in all later
slots that respect the ties.

**Proof sketch.** By induction on the slots behind the next one. The next slot takes an index in the
range from the first one to try (`respects_append_singleton`), and the later slots extend the
indices with it, from zero on. -/
theorem mem_assignments {l : Layout} (hl : l.Sound) {width after first stop : Nat}
    {indices assigned : List Nat} (h : l.Respects indices) :
    assigned ∈ l.assignments width after first stop indices ↔
      ∃ index rest, assigned = indices ++ index :: rest ∧ rest.length = after ∧
        (first ≤ index ∧ index < stop) ∧ (∀ i ∈ rest, i < width) ∧ l.Respects assigned := by
  induction after generalizing indices first stop with
  | zero =>
    simp only [assignments, List.mem_map, mem_range'_firstIndex]
    constructor
    · rintro ⟨index, ⟨hindex, hfirst⟩, rfl⟩
      exact ⟨index, [], rfl, rfl, hindex, fun i hi => absurd hi List.not_mem_nil,
        (respects_append_singleton hl).mpr ⟨h, hfirst⟩⟩
    · rintro ⟨index, rest, rfl, hrest, hindex, -, hties⟩
      obtain rfl := List.length_eq_zero_iff.mp hrest
      exact ⟨index, ⟨hindex, ((respects_append_singleton hl).mp hties).2⟩, rfl⟩
  | succ after ih =>
    simp only [assignments, List.mem_flatMap, mem_range'_firstIndex]
    constructor
    · rintro ⟨index, ⟨hindex, hfirst⟩, hmem⟩
      have hties := (respects_append_singleton hl).mpr ⟨h, hfirst⟩
      obtain ⟨next, rest, rfl, hrest, hnext, hlt, hall⟩ := (ih hties).mp hmem
      exact ⟨index, next :: rest, List.append_assoc _ _ _, congrArg (· + 1) hrest, hindex,
        List.forall_mem_cons.mpr ⟨hnext.2, hlt⟩, hall⟩
    · rintro ⟨index, rest, rfl, hrest, hindex, hlt, hall⟩
      obtain ⟨next, rest, rfl⟩ := List.exists_cons_of_length_eq_add_one hrest
      rw [List.forall_mem_cons] at hlt
      have hnext := List.append_cons indices index (next :: rest)
      have hties : l.Respects (indices ++ [index]) := (hnext ▸ hall).of_append hl
      refine ⟨index, ⟨hindex, ((respects_append_singleton hl).mp hties).2⟩, ?_⟩
      exact (ih hties).mpr ⟨next, rest, hnext, Nat.succ.inj hrest, ⟨Nat.zero_le _, hlt.1⟩, hlt.2,
        hall⟩

/-- **The assignments of a layout** are all indices of values that respect the ties.

**Proof sketch.** The assignments of a work item are those that extend no indices and begin with its
own (`mem_assignments`), and there is a work item for every first index. -/
theorem mem_allAssignments {l : Layout} (hl : l.Sound) {width : Nat} {indices : List Nat} :
    indices ∈ l.allAssignments width ↔ l.Assigned width indices ∧ l.Respects indices := by
  have hslots := hl.slots_pos
  simp only [allAssignments, itemAssignments, List.mem_flatMap, List.mem_range,
    mem_assignments hl l.respects_nil, List.nil_append]
  constructor
  · rintro ⟨first, hfirst, index, rest, rfl, hrest, hindex, hlt, hties⟩
    refine ⟨⟨?_, List.forall_mem_cons.mpr ⟨by omega, hlt⟩⟩, hties⟩
    rw [List.length_cons, hrest]
    omega
  · rintro ⟨⟨hlength, hlt⟩, hties⟩
    obtain ⟨index, rest, rfl⟩ := List.exists_cons_of_length_pos (hlength ▸ hslots)
    rw [List.forall_mem_cons] at hlt
    rw [List.length_cons] at hlength
    exact ⟨index, hlt.1, index, rest, rfl, by omega, by omega, hlt.2, hties⟩

/-- The assignments that extend some indices fill all slots.

**Proof sketch.** By induction on the slots behind the next one, which takes one index below the
stop. So each slot adds one index, and in the end there are as many as slots. -/
lemma assigned_of_mem_assignments {l : Layout} {width after first stop : Nat}
    {indices assigned : List Nat} (hslots : indices.length + after + 1 = l.slots)
    (hstop : stop ≤ width) (hlt : ∀ i ∈ indices, i < width)
    (h : assigned ∈ l.assignments width after first stop indices) :
    l.Assigned width assigned ∧ ∃ more, assigned = indices ++ more := by
  induction after generalizing indices first stop with
  | zero =>
    obtain ⟨index, hindex, rfl⟩ := List.mem_map.mp h
    have hindex' : index < width :=
      Nat.lt_of_lt_of_le (mem_range'_firstIndex.mp hindex).1.2 hstop
    refine ⟨⟨?_, ?_⟩, _, rfl⟩
    · rw [List.length_append, List.length_singleton, ← hslots]
    · exact List.forall_mem_append.mpr ⟨hlt, List.forall_mem_singleton.mpr hindex'⟩
  | succ after ih =>
    obtain ⟨index, hindex, hmem⟩ := List.mem_flatMap.mp h
    have hindex' : index < width :=
      Nat.lt_of_lt_of_le (mem_range'_firstIndex.mp hindex).1.2 hstop
    have hnext : ∀ i ∈ indices ++ [index], i < width :=
      List.forall_mem_append.mpr ⟨hlt, List.forall_mem_singleton.mpr hindex'⟩
    have hlength : (indices ++ [index]).length + after + 1 = l.slots := by
      rw [List.length_append, List.length_singleton]
      omega
    obtain ⟨hassigned, more, rfl⟩ := ih hlength (Nat.le_refl width) hnext hmem
    exact ⟨hassigned, [index] ++ more, List.append_assoc _ _ _⟩

/-- The assignments of a work item are among those of all. -/
lemma mem_allAssignments_of_mem_itemAssignments {l : Layout} {width first : Nat}
    (hfirst : first < width) {indices : List Nat} (h : indices ∈ l.itemAssignments width first) :
    indices ∈ l.allAssignments width :=
  List.mem_flatMap.mpr ⟨first, List.mem_range.mpr hfirst, h⟩

end Layout

namespace Explorer

variable {S Z : Type} [Scalar S] (x : Explorer S Z) (l : Layout)

/-- The candidates of the last slot. -/
lemma candidates_slotSteps_none (indices others : List Nat) :
    Step.candidates (x.slotSteps l none indices others) =
      others.map fun index => indices ++ [index] := by
  induction others with
  | nil => rfl
  | cons index others ih =>
    rw [slotSteps, Step.candidates_tick, Step.candidates_candidate, ih, List.map_cons]

/-- The candidates of another slot are some of those that its values lead to. -/
lemma candidates_slotSteps_some_sublist (steps : List Nat → List Step) (indices others : List Nat) :
    List.Sublist (Step.candidates (x.slotSteps l (some steps) indices others))
      (others.flatMap fun index => Step.candidates (steps (indices ++ [index]))) := by
  induction others with
  | nil => exact List.Sublist.slnil
  | cons index others ih =>
    rw [List.flatMap_cons]
    by_cases h : x.verdictOf l (indices ++ [index]) = .feasible
    · rw [slotSteps_of_feasible h, Step.candidates_tick, Step.candidates_append]
      exact (List.Sublist.refl _).append ih
    · rw [slotSteps_of_cut h, Step.candidates_tick, Step.candidates_cut]
      split
      · exact List.nil_sublist _
      · exact ih.trans (List.sublist_append_right _ _)

/-- Without bounds they are all that its values lead to. -/
lemma candidates_slotSteps_some_of_bounds_none (h : x.bounds = none) (steps : List Nat → List Step)
    (indices others : List Nat) :
    Step.candidates (x.slotSteps l (some steps) indices others) =
      others.flatMap fun index => Step.candidates (steps (indices ++ [index])) := by
  induction others with
  | nil => rfl
  | cons index others ih =>
    have hfeasible : x.verdictOf l (indices ++ [index]) = .feasible := by rw [verdictOf, h]
    rw [slotSteps_of_feasible hfeasible, Step.candidates_tick, Step.candidates_append, ih,
      List.flatMap_cons]

/-- The candidates of a descent into the last slot are the assignments. -/
lemma candidates_descentSteps_zero (first stop : Nat) (indices : List Nat) :
    Step.candidates (x.descentSteps l 0 first stop indices) =
      l.assignments x.alphabet.length 0 first stop indices := by
  rw [descentSteps, candidates_slotSteps_none, Layout.assignments]

/-- **The candidates of a descent** are some of the assignments, in the same order. -/
theorem candidates_descentSteps_sublist (after first stop : Nat) (indices : List Nat) :
    List.Sublist (Step.candidates (x.descentSteps l after first stop indices))
      (l.assignments x.alphabet.length after first stop indices) := by
  induction after generalizing first stop indices with
  | zero => exact x.candidates_descentSteps_zero l first stop indices ▸ List.Sublist.refl _
  | succ after ih =>
    rw [descentSteps, Layout.assignments]
    exact (x.candidates_slotSteps_some_sublist l _ _ _).trans
      (List.Sublist.flatMap_right _ fun index _ => ih 0 _ _)

/-- Without bounds the candidates of a descent are the assignments. -/
theorem candidates_descentSteps_of_bounds_none (h : x.bounds = none) (after first stop : Nat)
    (indices : List Nat) :
    Step.candidates (x.descentSteps l after first stop indices) =
      l.assignments x.alphabet.length after first stop indices := by
  induction after generalizing first stop indices with
  | zero => exact x.candidates_descentSteps_zero l first stop indices
  | succ after ih =>
    rw [descentSteps, candidates_slotSteps_some_of_bounds_none x l h, Layout.assignments]
    exact congrArg (List.flatMap · _) (funext fun index => ih 0 _ _)

/-- The candidates of a work item fill all slots with indices of values. -/
lemma assigned_of_mem_itemSteps {l : Layout} (hl : l.Sound) {first : Nat}
    (hfirst : first < x.alphabet.length) {indices : List Nat}
    (h : indices ∈ Step.candidates (x.itemSteps l first)) :
    l.Assigned x.alphabet.length indices := by
  have hmem := (x.candidates_descentSteps_sublist l _ _ _ _).subset h
  exact ((Layout.mem_allAssignments hl).mp
    (Layout.mem_allAssignments_of_mem_itemAssignments hfirst hmem)).1

end Explorer

end Ohmic
