import Ohmic.Proofs.Search.Enumeration
import Ohmic.Proofs.Search.Interrupted

set_option autoImplicit false

/-!
# What a search evaluates

The candidates of a search have a place in its order: by the number of leaves, then by layout, then
by the indices of their values. Those that a search handles before anything stops it come one after
the other in this order, and the ones among them with an impedance are its trials.

## Main definitions

* `Earlier` — the order of search of candidates.
* `Trial` — a candidate with an impedance, and the number of its leaves.
* `Search.trials` — the trials of a search, in its order.

## Main results

* `Search.pairwise_course` — the candidates of a course are in the order of search.
* `Search.pairwise_trials` — so are the trials of a search.
* `Search.trialsOf_stage` — the trials of a level, work item by work item.
* `Search.exists_trial_course` — every value of the alphabet is a trial of the course.

## Implementation notes

What stops a search is its budget, and a report says how many candidates were handled. These are
the first ones of the course of the search without limits (`Search.exists_course_run`), so the
trials are defined by that number, for any limits and any clock.
-/

namespace Ohmic

/-! ## The order of search -/

/-- A candidate comes earlier than another one: it has fewer leaves, or as many and an earlier
layout, or the same layout and indices that come first in lexicographic order. -/
def Earlier (a b : Nat × Nat × List Nat) : Prop :=
  a.1 < b.1 ∨ a.1 = b.1 ∧ (a.2.1 < b.2.1 ∨ a.2.1 = b.2.1 ∧ a.2.2 < b.2.2)

/-- Work items come layout by layout, and with smaller indices first. -/
lemma Explorer.pairwise_workItems (layouts : List Layout) (width : Nat) :
    (workItems layouts width).Pairwise fun w v => w.1 < v.1 ∨ w.1 = v.1 ∧ w.2 < v.2 := by
  refine List.pairwise_flatMap.mpr ⟨fun layout _ => ?_, ?_⟩
  · exact List.pairwise_map.mpr (List.pairwise_lt_range.imp fun hlt => .inr ⟨rfl, hlt⟩)
  · refine List.pairwise_lt_range.imp fun hlt w hw v hv => ?_
    obtain ⟨first, -, rfl⟩ := List.mem_map.mp hw
    obtain ⟨first', -, rfl⟩ := List.mem_map.mp hv
    exact .inl hlt

/-- The candidates of a work item begin with its index. -/
lemma Explorer.exists_of_mem_itemSteps {S Z : Type} [Scalar S] {x : Explorer S Z} {l : Layout}
    {first : Nat} {indices : List Nat} (h : indices ∈ Step.candidates (x.itemSteps l first)) :
    ∃ rest, indices = first :: rest := by
  obtain ⟨index, rest, hindex, rfl⟩ :=
    Layout.exists_of_mem_assignments ((x.candidates_descentSteps_sublist l _ _ _ _).subset h)
  obtain rfl : index = first := by omega
  exact ⟨rest, rfl⟩

variable {S Z : Type} [Scalar S] [Impedance S Z]

namespace Search

variable {s : Search S Z} {clock : Clock}

/-- The candidates of a level have its number of leaves. -/
lemma leaves_of_mem_stage {leaves : Nat} {a : Nat × Nat × List Nat}
    (h : a ∈ (s.stage clock leaves).candidates) : a.1 = leaves := by
  obtain ⟨i, -, hmem⟩ := List.mem_flatMap.mp h
  obtain ⟨indices, -, rfl⟩ := List.mem_map.mp hmem
  rfl

/-- The candidates of a level are in the order of search.

**Proof sketch.** Within a work item the candidates are in the order of its assignments
(`pairwise_assignments`). The work items are in the order of their layouts and first indices
(`pairwise_workItems`), and all candidates of a work item begin with its first index. -/
lemma pairwise_stage (s : Search S Z) (clock : Clock) (leaves : Nat) :
    (s.stage clock leaves).candidates.Pairwise Earlier := by
  refine List.pairwise_flatMap.mpr ⟨fun i hi => ?_, ?_⟩
  · -- within a work item the indices are in lexicographic order
    obtain ⟨w, -, hw⟩ := List.mem_filterMap.mp hi
    obtain ⟨l, -, rfl⟩ := Option.map_eq_some_iff.mp hw
    have hsorted := (l.pairwise_assignments s.alphabet.length _ _ _ _).sublist
      ((s.explorer clock).candidates_descentSteps_sublist l (l.slots - 1) w.2 (w.2 + 1) [])
    exact List.pairwise_map.mpr (hsorted.imp fun hlt => .inr ⟨rfl, .inr ⟨rfl, hlt⟩⟩)
  · refine List.Pairwise.filterMap _ ?_ (Explorer.pairwise_workItems _ _)
    rintro ⟨place, first⟩ ⟨place', first'⟩ horder i hi j hj a ha b hb
    obtain ⟨l, hl, rfl⟩ := Option.map_eq_some_iff.mp (Option.mem_def.mp hi)
    obtain ⟨l', hl', rfl⟩ := Option.map_eq_some_iff.mp (Option.mem_def.mp hj)
    obtain ⟨indices, hmem, rfl⟩ := List.mem_map.mp ha
    obtain ⟨indices', hmem', rfl⟩ := List.mem_map.mp hb
    obtain ⟨rest, rfl⟩ := Explorer.exists_of_mem_itemSteps hmem
    obtain ⟨rest', rfl⟩ := Explorer.exists_of_mem_itemSteps hmem'
    rcases horder with hlt | ⟨heq, hlt⟩
    · exact .inr ⟨rfl, .inl hlt⟩
    · exact .inr ⟨rfl, .inr ⟨heq, List.cons_lt_cons_iff.mpr (.inl hlt)⟩⟩

/-- **The candidates of a course** are in the order of search. -/
theorem pairwise_course (s : Search S Z) (clock : Clock) (count leaves : Nat)
    (p : Progress S Z) :
    (Course.candidates (s.courseFrom clock count leaves p)).Pairwise Earlier := by
  have hlevels : (Course.candidates ((List.range' leaves count).map (s.stage clock))).Pairwise
      Earlier := by
    rw [Course.candidates, List.flatMap_map, List.pairwise_flatMap]
    refine ⟨fun n _ => s.pairwise_stage clock n, ?_⟩
    have hrange : (List.range' leaves count).Pairwise (· < ·) := List.pairwise_lt_range'
    refine hrange.imp fun hlt a ha b hb => .inl ?_
    rwa [leaves_of_mem_stage ha, leaves_of_mem_stage hb]
  exact hlevels.sublist ((s.courseFrom_prefix clock count leaves p).sublist.flatMap _)

end Search

/-! ## Trials -/

/-- A candidate with an impedance, and the number of its leaves. -/
structure Trial (S Z : Type) where
  /-- The number of leaves. -/
  leaves : Nat
  /-- The candidate. -/
  candidate : Candidate S Z

namespace Trial

/-- The relative deviation from the target. -/
def relative {S Z : Type} (t : Trial S Z) : S := t.candidate.deviation.relative

/-- The place in the order of search. -/
def position {S Z : Type} (t : Trial S Z) : Nat × Nat × List Nat :=
  (t.leaves, t.candidate.layout, t.candidate.indices)

/-- The finding of a trial, if its layout is in the list. -/
def finding? {S Z : Type} [Impedance S Z] (alphabet : List Z) (t : Trial S Z) :
    Option (Finding S Z) :=
  t.candidate.finding? (Layout.withLeaves t.leaves) alphabet

end Trial

namespace Search

/-- What becomes of a candidate that is handled: a trial, if it has an impedance. -/
def trial? (s : Search S Z) (clock : Clock) (a : Nat × Nat × List Nat) : Option (Trial S Z) :=
  (Layout.withLeaves a.1)[a.2.1]?.bind fun l =>
    ((s.explorer clock).candidate? l a.2.1 a.2.2).map fun c => ⟨a.1, c⟩

/-- The trials among some candidates. -/
def trialsOf (s : Search S Z) (clock : Clock) (candidates : List (Nat × Nat × List Nat)) :
    List (Trial S Z) := candidates.filterMap (s.trial? clock)

/-- **The trials of a search**: the candidates with an impedance among those that it handles, which
are the first ones of its course. -/
def trials (s : Search S Z) (clock : Clock) : List (Trial S Z) :=
  s.trialsOf clock ((s.course clock).candidates.take (s.run clock).handled)

variable {s : Search S Z} {clock : Clock}

/-- A trial is at the place of its candidate. -/
lemma position_of_trial? {a : Nat × Nat × List Nat} {t : Trial S Z}
    (h : s.trial? clock a = some t) : t.position = a := by
  obtain ⟨l, -, hl⟩ := Option.bind_eq_some_iff.mp h
  obtain ⟨c, hc, rfl⟩ := Option.map_eq_some_iff.mp hl
  obtain ⟨value, -, rfl⟩ := Option.map_eq_some_iff.mp hc
  rfl

/-- **The trials of a search** are in its order. -/
theorem pairwise_trials (s : Search S Z) (clock : Clock) :
    (s.trials clock).Pairwise fun t u => Earlier t.position u.position := by
  refine List.Pairwise.filterMap _ (fun a b hab t ht u hu => ?_)
    ((s.pairwise_course clock _ _ _).sublist (List.take_sublist _ _))
  rwa [position_of_trial? ht, position_of_trial? hu]

/-- The trials of a work item. -/
def trialsAt (s : Search S Z) (clock : Clock) (leaves : Nat) (i : Item) : List (Trial S Z) :=
  ((Step.candidates i.steps).filterMap ((s.explorer clock).candidate? i.layout i.place)).map
    (Trial.mk leaves)

/-- **The trials of a valid level** are those of its work items. -/
lemma trialsOf_stage {g : Stage} {width : Nat} (h : g.Valid width) :
    s.trialsOf clock g.candidates = g.items.flatMap (s.trialsAt clock g.leaves) := by
  rw [trialsOf, Stage.candidates, List.filterMap_flatMap]
  refine List.flatMap_congr fun i hi => ?_
  have htrial : ∀ indices, s.trial? clock (g.leaves, i.place, indices) =
      ((s.explorer clock).candidate? i.layout i.place indices).map (Trial.mk g.leaves) := by
    intro indices
    have hlayout : (Layout.withLeaves g.leaves)[i.place]? = some i.layout := (h i hi).at_place
    rw [trial?, hlayout, Option.bind_some]
  rw [List.filterMap_map, trialsAt, List.map_filterMap]
  exact congrArg (List.filterMap · _) (funext htrial)

/-- The trials of the first level and of the others. -/
lemma trialsOf_cons (g : Stage) (course : Course) :
    s.trialsOf clock (Course.candidates (g :: course)) =
      s.trialsOf clock g.candidates ++ s.trialsOf clock course.candidates := by
  rw [trialsOf, Course.candidates_cons, List.filterMap_append]
  rfl

/-! ## Single parts -/

/-- The layout of a single part is the only one with one leaf. -/
lemma layout_single : (Layout.withLeaves 1)[0]? = some (Layout.ofShape .single) := rfl

/-- It is sound. -/
lemma sound_single : (Layout.ofShape .single).Sound :=
  Layout.sound_of_mem_withLeaves (List.mem_of_getElem? layout_single)

omit [Impedance S Z] in
/-- Every value is tried in the slot of a single part: there is no partial network before it that
the bounds could rule out. -/
lemma mem_itemSteps_single (x : Explorer S Z) (index : Nat) :
    [index] ∈ Step.candidates (x.itemSteps (Layout.ofShape .single) index) := by
  have hslots : (Layout.ofShape .single).slots - 1 = 0 := rfl
  have hrespects : (Layout.ofShape .single).Respects [index] := by
    intro slot earlier hslot htie
    have hearlier := sound_single.earlier slot earlier htie
    rw [List.length_singleton] at hslot
    omega
  rw [Explorer.itemSteps, hslots, Explorer.candidates_descentSteps_zero,
    Layout.mem_assignments sound_single (Layout.respects_nil _)]
  exact ⟨index, [], rfl, rfl, ⟨Nat.le_refl _, Nat.lt_succ_self _⟩, nofun, hrespects⟩

/-- A single part has the impedance of its value. -/
lemma candidate?_single {x : Explorer S Z} {index : Nat} (hindex : index < x.alphabet.length)
    (hfinite : Impedance.isFinite x.alphabet[index] = true) :
    x.candidate? (Layout.ofShape .single) 0 [index] =
      some ⟨0, [index], x.alphabet[index], Deviation.of x.alphabet[index] x.target⟩ := by
  have hassigned : (Layout.ofShape .single).Assigned x.alphabet.length [index] :=
    ⟨rfl, List.forall_mem_singleton.mpr hindex⟩
  have hat : valueAt x.alphabet index = x.alphabet[index] := List.getD_eq_getElem _ _ hindex
  have hvalue : ((Layout.ofShape .single).filled x.alphabet Impedance.zero [index]).value? =
      some x.alphabet[index] := by
    rw [Layout.filled_eq_map_labelled sound_single hassigned]
    show (Tree.leaf (valueAt x.alphabet index)).value? = some x.alphabet[index]
    rw [hat, Tree.value?, if_pos hfinite]
  exact Option.map_eq_some_iff.mpr ⟨_, hvalue, rfl⟩

/-- **Every value of the alphabet** is a candidate with one leaf, and a trial. -/
lemma exists_trial_one (clock : Clock) (hfinite : ∀ z ∈ s.alphabet, Impedance.isFinite z = true)
    {z : Z} (hz : z ∈ s.alphabet) :
    ∃ t ∈ s.trialsOf clock (s.stage clock 1).candidates,
      t.candidate.deviation = Deviation.of z s.settings.target := by
  obtain ⟨index, hindex, rfl⟩ := List.getElem_of_mem hz
  let i : Item := ⟨0, .ofShape .single, (s.explorer clock).itemSteps (.ofShape .single) index⟩
  have hitem : i ∈ (s.stage clock 1).items := by
    refine List.mem_filterMap.mpr ⟨(0, index), Explorer.mem_workItems Nat.one_pos hindex, ?_⟩
    rw [layout_single, Option.map_some]
  let c : Candidate S Z :=
    ⟨0, [index], s.alphabet[index], Deviation.of s.alphabet[index] s.settings.target⟩
  have hc : c ∈ (Step.candidates i.steps).filterMap
      ((s.explorer clock).candidate? i.layout i.place) :=
    List.mem_filterMap.mpr ⟨[index], mem_itemSteps_single _ index,
      candidate?_single (x := s.explorer clock) hindex (hfinite _ hz)⟩
  refine ⟨⟨1, c⟩, ?_, rfl⟩
  rw [trialsOf_stage (s.valid_stage clock 1)]
  exact List.mem_flatMap.mpr ⟨i, hitem, List.mem_map_of_mem hc⟩

/-- A course begins with the level of one leaf, so every value of the alphabet is a trial of it. -/
lemma exists_trial_course (clock : Clock) (hleaves : 1 ≤ s.settings.maxLeaves)
    (hfinite : ∀ z ∈ s.alphabet, Impedance.isFinite z = true) {z : Z} (hz : z ∈ s.alphabet) :
    ∃ t ∈ s.trialsOf clock (s.course clock).candidates,
      t.candidate.deviation = Deviation.of z s.settings.target := by
  obtain ⟨count, hcount⟩ := Nat.exists_eq_add_of_le' hleaves
  obtain ⟨t, ht, hdeviation⟩ := exists_trial_one clock hfinite hz
  refine ⟨t, ?_, hdeviation⟩
  rw [course, hcount, courseFrom, trialsOf_cons]
  exact List.mem_append_left _ ht

end Search

end Ohmic
