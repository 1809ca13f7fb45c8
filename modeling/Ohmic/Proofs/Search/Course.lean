import Ohmic.Proofs.Search.Bounds
import Ohmic.Proofs.Search.Progress

set_option autoImplicit false

/-!
# The course of a search

The course of a search is all that it does if nothing stops it: level after level, work item after
work item, step after step. A search without a time limit makes of its course what a replay makes
of it, up to the first candidate that the budget does not allow.

## Main definitions

* `Stage` — a level of a search with its work items.
* `Course` — the levels of a search, with its steps, its candidates and its beginnings.
* `Search.course` — the course of a search without limits.
* `Search.replay`, `Search.reportOf` — the progress and the report that a course leads to.

## Main results

* `Search.runLevels_of_allows`, `Search.runLevels_of_not_allows` — the levels of a search are a
  replay of its course, or of a beginning of it.
* `Search.courseFrom_prefix` — the levels of a course are the first ones of the search.
* `Search.exists_replayStage` — what a valid level does.
* `Search.replay_of_valid` — a replay of valid levels does not fail, and counts what they hold.

## Implementation notes

A replay takes in tallies with the functions of the search itself. Work items stay apart in a
course, since each of them reports a closest candidate of its own.
-/

namespace Ohmic

/-- A number of leaves with its work items. -/
structure Stage where
  /-- The number of leaves. -/
  leaves : Nat
  /-- The work items. -/
  items : List Item

namespace Stage

/-- The layouts of the work items. -/
def layouts (g : Stage) : List Layout := Layout.withLeaves g.leaves

/-- The steps of all work items. -/
def steps (g : Stage) : List Step := g.items.flatMap Item.steps

/-- The level with the beginning of its steps. -/
def within (n : Nat) (g : Stage) : Stage :=
  { g with items := withinParts Item.steps Item.within n g.items }

/-- The candidates of all work items, each with the number of its leaves and the place of its
layout. -/
def candidates (g : Stage) : List (Nat × Nat × List Nat) :=
  g.items.flatMap fun i => (Step.candidates i.steps).map fun indices => (g.leaves, i.place, indices)

/-- The candidates of the first work item come before those of the others. -/
lemma candidates_cons (leaves : Nat) (i : Item) (items : List Item) :
    (Stage.mk leaves (i :: items)).candidates =
      (Step.candidates i.steps).map (fun indices => (leaves, i.place, indices)) ++
        (Stage.mk leaves items).candidates := List.flatMap_cons

/-- The work items are valid. -/
def Valid (width : Nat) (g : Stage) : Prop := ∀ i ∈ g.items, i.Valid g.layouts width

/-- The steps of a beginning are the beginning of the steps. -/
lemma steps_within (n : Nat) (g : Stage) : (g.within n).steps = Step.within n g.steps :=
  steps_withinParts (fun _ _ => rfl) n g.items

/-- There is a candidate for each candidate among the steps. -/
lemma length_candidates (g : Stage) :
    g.candidates.length = (Step.candidates g.steps).length := by
  obtain ⟨leaves, items⟩ := g
  induction items with
  | nil => rfl
  | cons i items ih =>
    simp only [candidates, steps, List.flatMap_cons, List.length_append, List.length_map,
      Step.candidates_append] at ih ⊢
    rw [ih]

/-- The candidates of a beginning are the first candidates. -/
lemma candidates_within (n : Nat) (g : Stage) :
    (g.within n).candidates = g.candidates.take n := by
  refine flatMap_withinParts (fun i => List.length_map _) (fun n i => ?_) n g.items
  rw [Item.within, Step.candidates_within, List.map_take]

/-- The beginning of a valid level is valid. -/
lemma Valid.within {width : Nat} {g : Stage} (h : g.Valid width) (n : Nat) :
    (g.within n).Valid width := fun _ hi => Item.valid_of_mem_withinParts h hi

end Stage

/-- The levels of a search, one after the other. -/
abbrev Course := List Stage

namespace Course

/-- The steps of all levels. -/
def steps (course : Course) : List Step := course.flatMap Stage.steps

/-- The beginning of a course, up to a candidate that is one more than `n`. The levels after it are
left out. -/
def within (n : Nat) (course : Course) : Course := withinParts Stage.steps Stage.within n course

/-- The candidates of all levels. -/
def candidates (course : Course) : List (Nat × Nat × List Nat) := course.flatMap Stage.candidates

/-- Without levels there are no candidates. -/
lemma candidates_nil : candidates [] = [] := rfl

/-- The candidates of the first level come before those of the others. -/
lemma candidates_cons (g : Stage) (course : Course) :
    candidates (g :: course) = g.candidates ++ candidates course := List.flatMap_cons

/-- The steps of a beginning are the beginning of the steps. -/
lemma steps_within (n : Nat) (course : Course) :
    (course.within n).steps = Step.within n course.steps :=
  steps_withinParts Stage.steps_within n course

/-- There is a candidate for each candidate among the steps. -/
lemma length_candidates (course : Course) :
    course.candidates.length = (Step.candidates course.steps).length := by
  induction course with
  | nil => rfl
  | cons g course ih =>
    simp only [candidates, steps, List.flatMap_cons, List.length_append,
      Step.candidates_append, Stage.length_candidates] at ih ⊢
    rw [ih]

/-- The candidates of a beginning are the first candidates. -/
lemma candidates_within (n : Nat) (course : Course) :
    (course.within n).candidates = course.candidates.take n :=
  flatMap_withinParts Stage.length_candidates Stage.candidates_within n course

/-- The beginning of valid levels is valid. -/
lemma valid_of_mem_within {width : Nat} {course : Course} (h : ∀ g ∈ course, g.Valid width)
    {n : Nat} {g : Stage} (hg : g ∈ course.within n) : g.Valid width := by
  induction course generalizing n with
  | nil => cases hg
  | cons first rest ih =>
    rw [List.forall_mem_cons] at h
    rw [within, withinParts] at hg
    split at hg
    · rcases List.mem_cons.mp hg with rfl | hg
      · exact h.1
      · exact ih h.2 hg
    · exact List.mem_singleton.mp hg ▸ h.1.within n

end Course

/-- The number of complete candidates that were handled. -/
def Level.handled (level : Level) : Nat := level.evaluated + level.degenerate + level.overflowed

/-- The number of complete candidates that were handled. -/
def Stats.handled (stats : Stats) : Nat := stats.evaluated + stats.degenerate + stats.overflowed

variable {S Z : Type} [Scalar S] [Impedance S Z]

/-- The progress after a search that its budget stopped. -/
def Progress.truncate (p : Progress S Z) : Progress S Z := { p with stats.truncated := true }

namespace Search

/-- The level with a number of leaves. -/
def stage (s : Search S Z) (clock : Clock) (leaves : Nat) : Stage where
  leaves := leaves
  items := (s.explorer clock).items (Layout.withLeaves leaves)
    (Explorer.workItems (Layout.withLeaves leaves) s.alphabet.length)

/-- The progress after the tallies of a level. -/
def replayStage (s : Search S Z) (clock : Clock) (p : Progress S Z) (g : Stage) :
    Except Defect (Progress S Z) := do
  let (level, p) ← p.absorb s.alphabet { leaves := g.leaves, layouts := g.layouts }
    (g.items.map (s.explorer clock).tally)
  return p.close level false

/-- The progress after the levels of a course. -/
def replay (s : Search S Z) (clock : Clock) (p : Progress S Z) :
    Course → Except Defect (Progress S Z)
  | [] => .ok p
  | g :: rest =>
    match s.replayStage clock p g with
    | .error defect => .error defect
    | .ok p => s.replay clock p rest

omit [Scalar S] [Impedance S Z] in
/-- A search that was not stopped goes on to larger networks. -/
def goesOn (s : Search S Z) (p : Progress S Z) : Bool :=
  p.findings.isEmpty || s.settings.exhaustive

/-- The course from a number of leaves on, for some more levels. -/
def courseFrom (s : Search S Z) (clock : Clock) :
    (count leaves : Nat) → Progress S Z → Course
  | 0, _, _ => []
  | count + 1, leaves, p =>
    s.stage clock leaves ::
      match s.replayStage clock p (s.stage clock leaves) with
      | .error _ => []
      | .ok p => if s.goesOn p then s.courseFrom clock count (leaves + 1) p else []

/-- **The course of a search** without limits. -/
def course (s : Search S Z) (clock : Clock) : Course :=
  s.courseFrom clock s.settings.maxLeaves 1 {}

/-- The report of a search that ends with a progress. -/
def reportOf (s : Search S Z) : Except Defect (Progress S Z) → Report S Z
  | .error defect => ⟨[], .error (.defect defect)⟩
  | .ok p => ⟨p.levels.reverse, s.conclude p⟩

/-! ## Levels -/

section

variable {s : Search S Z} {clock : Clock}

/-- A search with finite values is ready. -/
lemma ready_explorer (h : ∀ z ∈ s.alphabet, Impedance.isFinite z = true) (clock : Clock) :
    (s.explorer clock).Ready where
  finite := h
  length_values _ hbd := Bounds.length_values hbd

/-- Every work item of a search names a layout and the index of a value. -/
lemma valid_stage (clock : Clock) (leaves : Nat) :
    (s.stage clock leaves).Valid s.alphabet.length := by
  intro i hi
  exact Explorer.valid_of_mem_items (x := s.explorer clock)
    (fun _ hl => Layout.sound_of_mem_withLeaves hl)
    (fun _ hw => Explorer.lt_of_mem_workItems hw) hi

variable (s clock) in
/-- **The levels of a course** are the first ones of the search. -/
lemma courseFrom_prefix (count leaves : Nat) (p : Progress S Z) :
    s.courseFrom clock count leaves p <+: (List.range' leaves count).map (s.stage clock) := by
  induction count generalizing leaves p with
  | zero => exact List.prefix_refl _
  | succ count ih =>
    rw [courseFrom, List.range'_succ, List.map_cons, List.prefix_cons_inj]
    split
    · exact List.nil_prefix
    · split
      · exact ih (leaves + 1) _
      · exact List.nil_prefix

/-- The levels of a course are those of the search. -/
lemma eq_stage_of_mem_courseFrom {count leaves : Nat} {p : Progress S Z} {g : Stage}
    (hg : g ∈ s.courseFrom clock count leaves p) :
    g = s.stage clock g.leaves ∧ leaves ≤ g.leaves ∧ g.leaves < leaves + count := by
  obtain ⟨n, hn, rfl⟩ := List.mem_map.mp ((s.courseFrom_prefix clock count leaves p).subset hg)
  exact ⟨rfl, List.mem_range'_1.mp hn⟩

/-- The levels of a course are valid. -/
lemma valid_of_mem_courseFrom {count leaves : Nat} {p : Progress S Z} {g : Stage}
    (hg : g ∈ s.courseFrom clock count leaves p) : g.Valid s.alphabet.length := by
  rw [(eq_stage_of_mem_courseFrom hg).1]
  exact s.valid_stage clock g.leaves

/-- Searches with the same levels, which go on after the same ones, come to the same progress. -/
lemma runLevels_congr {s' : Search S Z}
    (hlevel : ∀ leaves budget p, s'.runLevel clock leaves budget p =
      s.runLevel clock leaves budget p)
    (hcontinues : ∀ budget p, s'.continues budget p = s.continues budget p) (count leaves : Nat)
    (budget : Budget) (p : Progress S Z) :
    s'.runLevels clock count leaves budget p = s.runLevels clock count leaves budget p := by
  induction count generalizing leaves budget p with
  | zero => rfl
  | succ count ih =>
    rw [runLevels, runLevels, hlevel]
    cases s.runLevel clock leaves budget p with
    | error defect => rfl
    | ok r => simp only [hcontinues, ih]

/-- A level takes in the tallies of its work items. -/
lemma runLevel_of_exploreAll {leaves : Nat} {budget b : Budget} {tallies : List (Tally S Z)}
    (h : (s.explorer clock).exploreAll (Layout.withLeaves leaves) {} budget []
      (Explorer.workItems (Layout.withLeaves leaves) s.alphabet.length) = .ok (tallies, b))
    (p : Progress S Z) :
    s.runLevel clock leaves budget p =
      (p.absorb s.alphabet { leaves := leaves, layouts := Layout.withLeaves leaves } tallies).map
        fun r => (b, r.2.close r.1 b.stopped) := by
  simp only [runLevel, h, bind, Except.bind]
  rcases p.absorb s.alphabet { leaves := leaves, layouts := Layout.withLeaves leaves } tallies
    with defect | ⟨level, p'⟩ <;> rfl

/-- The progress after a level in terms of its tallies. -/
lemma replayStage_eq (p : Progress S Z) (g : Stage) :
    s.replayStage clock p g =
      (p.absorb s.alphabet { leaves := g.leaves, layouts := g.layouts }
        (g.items.map (s.explorer clock).tally)).map fun r => r.2.close r.1 false := by
  simp only [replayStage, bind, Except.bind]
  rcases p.absorb s.alphabet { leaves := g.leaves, layouts := g.layouts }
    (g.items.map (s.explorer clock).tally) with defect | ⟨level, p'⟩ <;> rfl

variable (hfinite : ∀ z ∈ s.alphabet, Impedance.isFinite z = true)

include hfinite

/-- A level whose candidates are all allowed. -/
lemma runLevel_of_allows (leaves : Nat) {budget : Budget} (htime : budget.Timeless)
    (hrun : budget.stopped = false)
    (hallows : budget.Allows (Step.candidates (s.stage clock leaves).steps).length)
    (p : Progress S Z) :
    s.runLevel clock leaves budget p =
      (s.replayStage clock p (s.stage clock leaves)).map fun p =>
        (budget.spend (Step.candidates (s.stage clock leaves).steps).length, p) := by
  have hall : (s.explorer clock).exploreAll (Layout.withLeaves leaves) {} budget []
      (Explorer.workItems (Layout.withLeaves leaves) s.alphabet.length) =
      .ok ((s.stage clock leaves).items.map (s.explorer clock).tally,
        budget.spend (Step.candidates (s.stage clock leaves).steps).length) :=
    Explorer.exploreAll_of_allows (ready_explorer hfinite clock)
      (fun _ hl => Layout.sound_of_mem_withLeaves hl)
      (fun _ hw => Explorer.lt_of_mem_workItems hw) {} htime hrun hallows []
  rw [runLevel_of_exploreAll hall, replayStage_eq, Budget.stopped_spend, hrun]
  exact LawfulFunctor.comp_map (f := Except Defect) _ _ _

variable (clock) in
/-- A level some of whose candidates are not allowed.

**Proof sketch.** The work items take the steps within the limit and then are idle
(`Explorer.exploreAll_of_not_allows`). Idle work items add nothing to the progress
(`Progress.absorb_append_idle`), which is marked as truncated because the budget was stopped. -/
lemma runLevel_of_not_allows (leaves : Nat) {budget : Budget} (htime : budget.Timeless)
    (hrun : budget.stopped = false) {n : Nat} (hallows : budget.Allows n)
    (hnot : ¬ budget.Allows (n + 1))
    (hn : n < (Step.candidates (s.stage clock leaves).steps).length) (p : Progress S Z) :
    ∃ b, s.runLevel clock leaves budget p =
        (s.replayStage clock p ((s.stage clock leaves).within n)).map (fun p => (b, p.truncate)) ∧
      b.stopped = true := by
  obtain ⟨idle, b, hall, hb⟩ : ∃ idle b,
      (s.explorer clock).exploreAll (Layout.withLeaves leaves) {} budget []
        (Explorer.workItems (Layout.withLeaves leaves) s.alphabet.length) =
      .ok (((s.stage clock leaves).within n).items.map (s.explorer clock).tally ++
        List.replicate idle ({} : Tally S Z), b) ∧ b.stopped = true :=
    Explorer.exploreAll_of_not_allows (ready_explorer hfinite clock)
      (fun _ hl => Layout.sound_of_mem_withLeaves hl)
      (fun _ hw => Explorer.lt_of_mem_workItems hw) {} htime hrun hallows hnot hn []
  refine ⟨b, ?_, hb⟩
  have hstage : s.replayStage clock p ((s.stage clock leaves).within n) =
      (p.absorb s.alphabet { leaves := leaves, layouts := Layout.withLeaves leaves }
        (((s.stage clock leaves).within n).items.map (s.explorer clock).tally)).map
          fun r => r.2.close r.1 false := replayStage_eq p _
  rw [runLevel_of_exploreAll hall, hstage, Progress.absorb_append_idle, hb]
  cases p.absorb s.alphabet { leaves := leaves, layouts := Layout.withLeaves leaves }
    (((s.stage clock leaves).within n).items.map (s.explorer clock).tally) <;> rfl

/-! ## All levels -/

/-- **A search whose candidates are all allowed** is a replay of its course.

**Proof sketch.** By induction on the number of levels. A level is a replay of its work items, and
its budget still runs, so the search goes on exactly if its course does. -/
theorem runLevels_of_allows (count leaves : Nat) {budget : Budget} (htime : budget.Timeless)
    (hrun : budget.stopped = false) (p : Progress S Z)
    (hallows : budget.Allows
      (Step.candidates (Course.steps (s.courseFrom clock count leaves p))).length) :
    s.runLevels clock count leaves budget p =
      s.replay clock p (s.courseFrom clock count leaves p) := by
  induction count generalizing leaves budget p with
  | zero => rfl
  | succ count ih =>
    rw [courseFrom, Course.steps, List.flatMap_cons, Step.candidates_append, List.length_append]
      at hallows
    rw [runLevels, runLevel_of_allows hfinite leaves htime hrun
      (hallows.mono (Nat.le_add_right _ _)), courseFrom, replay]
    cases hstage : s.replayStage clock p (s.stage clock leaves) with
    | error defect => rfl
    | ok p' =>
      simp only [hstage, Except.map] at hallows ⊢
      simp only [continues, Budget.stopped_spend, hrun, Bool.not_false, Bool.true_and]
      rw [← goesOn]
      split
      · next hon =>
        rw [if_pos hon] at hallows
        exact ih (leaves + 1) (Budget.timeless_spend _ |>.mpr htime)
          ((Budget.stopped_spend _ _).trans hrun) p' (Budget.allows_spend.mpr hallows)
      · rfl

/-- **A search some of whose candidates are not allowed** is a replay of the beginning of its
course, and is truncated.

**Proof sketch.** By induction on the number of levels. Levels that the budget allows are as in a
search without limits; the first level that it does not allow stops the budget, and then no level
follows. -/
theorem runLevels_of_not_allows (count leaves : Nat) {budget : Budget} (htime : budget.Timeless)
    (hrun : budget.stopped = false) (p : Progress S Z) {n : Nat} (hallows : budget.Allows n)
    (hnot : ¬ budget.Allows (n + 1))
    (hn : n < (Step.candidates (Course.steps (s.courseFrom clock count leaves p))).length) :
    s.runLevels clock count leaves budget p =
      (s.replay clock p (Course.within n (s.courseFrom clock count leaves p))).map
        Progress.truncate := by
  induction count generalizing leaves budget p n with
  | zero => cases hn
  | succ count ih =>
    rw [courseFrom, Course.steps, List.flatMap_cons, Step.candidates_append, List.length_append]
      at hn
    rw [runLevels, courseFrom, Course.within, withinParts]
    by_cases hle : (Step.candidates (s.stage clock leaves).steps).length ≤ n
    · rw [runLevel_of_allows hfinite leaves htime hrun (hallows.mono hle), if_pos hle, replay]
      cases hstage : s.replayStage clock p (s.stage clock leaves) with
      | error defect => rfl
      | ok p' =>
        simp only [hstage, Except.map] at hn ⊢
        simp only [continues, Budget.stopped_spend, hrun, Bool.not_false, Bool.true_and]
        rw [← goesOn]
        split
        · next hon =>
          rw [if_pos hon] at hn
          have hrest := ih (leaves + 1) (Budget.timeless_spend _ |>.mpr htime)
            ((Budget.stopped_spend _ _).trans hrun) p'
            (n := n - (Step.candidates (s.stage clock leaves).steps).length)
            (Budget.allows_spend.mpr (by rwa [Nat.add_sub_cancel' hle]))
            (fun h => hnot (by
              rwa [Budget.allows_spend, ← Nat.add_assoc, Nat.add_sub_cancel' hle] at h))
            (by rw [Course.steps]; omega)
          exact hrest
        · next hon =>
          rw [if_neg hon, List.flatMap_nil, Step.candidates_nil, List.length_nil] at hn
          omega
    · obtain ⟨b, hlevel, hb⟩ := runLevel_of_not_allows clock hfinite leaves htime hrun
        hallows hnot (Nat.lt_of_not_le hle) p
      rw [hlevel, if_neg hle, replay]
      cases s.replayStage clock p ((s.stage clock leaves).within n) with
      | error defect => rfl
      | ok p' =>
        simp only [Except.map, continues, hb, Bool.not_true, Bool.false_and, Bool.false_eq_true,
          if_false]
        rfl

end

/-! ## Replays of valid levels -/

section

variable {s : Search S Z} {clock : Clock}

/-- The findings of the acceptable candidates of a level. -/
def findingsOf (s : Search S Z) (clock : Clock) (g : Stage) : List (Finding S Z) :=
  (g.items.flatMap fun i => ((s.explorer clock).tally i).hits).filterMap
    (·.finding? g.layouts s.alphabet)

/-- What the progress after a course has more than the progress before it. -/
structure After (s : Search S Z) (clock : Clock) (p : Progress S Z) (course : Course)
    (p' : Progress S Z) : Prop where
  /-- The findings with new keys. -/
  findings : p'.findings = Finding.keepNew p.findings (course.flatMap (s.findingsOf clock))
  /-- The levels. -/
  leaves : p'.levels.map Level.leaves = (course.map Stage.leaves).reverse ++
    p.levels.map Level.leaves
  /-- The handled candidates of the levels. -/
  handled : (p'.levels.map Level.handled).sum =
    (p.levels.map Level.handled).sum + (Step.candidates course.steps).length
  /-- The cuts of the levels. -/
  pruned : (p'.levels.map Level.pruned).sum =
    (p.levels.map Level.pruned).sum + Step.cuts course.steps
  /-- The handled candidates in the counters of the search. -/
  stats_handled : p'.stats.handled = p.stats.handled + (Step.candidates course.steps).length
  /-- The cuts in the counters of the search. -/
  stats_pruned : p'.stats.pruned = p.stats.pruned + Step.cuts course.steps
  /-- Nothing stopped the search. -/
  truncated : p.stats.truncated = false → p'.stats.truncated = false

/-- An empty course changes nothing. -/
lemma After.refl (p : Progress S Z) : s.After clock p [] p where
  findings := rfl
  leaves := rfl
  handled := rfl
  pruned := rfl
  stats_handled := rfl
  stats_pruned := rfl
  truncated := id

/-- One level after the other. -/
lemma After.cons {p p' p'' : Progress S Z} {g : Stage} {rest : Course}
    (h : s.After clock p [g] p') (h' : s.After clock p' rest p'') :
    s.After clock p (g :: rest) p'' := by
  have hsteps : Course.steps (g :: rest) = Course.steps [g] ++ Course.steps rest := by
    simp only [Course.steps, List.flatMap_cons, List.flatMap_nil, List.append_nil]
  refine ⟨?_, ?_, ?_, ?_, ?_, ?_, fun hp => h'.truncated (h.truncated hp)⟩
  · rw [h'.findings, h.findings, ← Finding.keepNew_append, List.flatMap_cons, List.flatMap_cons,
      List.flatMap_nil, List.append_nil]
  · rw [h'.leaves, h.leaves]
    simp only [List.map_cons, List.map_nil, List.reverse_cons, List.reverse_nil, List.nil_append,
      List.append_assoc]
  · rw [h'.handled, h.handled, hsteps, Step.candidates_append, List.length_append, Nat.add_assoc]
  · rw [h'.pruned, h.pruned, hsteps, Step.cuts, Step.cuts, Step.cuts, List.count_append,
      Nat.add_assoc]
  · rw [h'.stats_handled, h.stats_handled, hsteps, Step.candidates_append, List.length_append,
      Nat.add_assoc]
  · rw [h'.stats_pruned, h.stats_pruned, hsteps, Step.cuts, Step.cuts, Step.cuts,
      List.count_append, Nat.add_assoc]

/-- The tallies of valid work items count all their candidates. -/
lemma sum_handled_tally {x : Explorer S Z} (hx : x.Ready) {layouts : List Layout}
    {items : List Item} (h : ∀ i ∈ items, i.Valid layouts x.alphabet.length) :
    ((items.map x.tally).map Tally.evaluated).sum +
        ((items.map x.tally).map Tally.degenerate).sum +
        ((items.map x.tally).map Tally.overflowed).sum =
      (Step.candidates (items.flatMap Item.steps)).length := by
  induction items with
  | nil => rfl
  | cons i items ih =>
    rw [List.forall_mem_cons] at h
    have hitem := Explorer.handled_tallyOf i.place hx h.1.sound h.1.assigned
    have hrest := ih h.2
    simp only [List.map_cons, List.sum_cons, List.flatMap_cons, Step.candidates_append,
      List.length_append, Tally.handled, Explorer.tally] at hitem hrest ⊢
    omega

/-- The tallies of work items count all their cuts. -/
lemma sum_pruned_tally {x : Explorer S Z} (items : List Item) :
    ((items.map x.tally).map Tally.pruned).sum = Step.cuts (items.flatMap Item.steps) := by
  induction items with
  | nil => rfl
  | cons i items ih =>
    rw [List.map_cons, List.map_cons, List.sum_cons, ih, List.flatMap_cons, Step.cuts, Step.cuts,
      List.count_append, Explorer.tally, Explorer.pruned_tallyOf, Step.cuts]

/-- The tallies of a valid level are valid. -/
lemma valid_of_mem_tallies {x : Explorer S Z} {g : Stage} {width : Nat} (h : g.Valid width)
    {t : Tally S Z} (ht : t ∈ g.items.map x.tally) : t.Valid g.layouts width := by
  obtain ⟨i, hi, rfl⟩ := List.mem_map.mp ht
  exact (h i hi).tally

variable (clock) in
/-- **What a valid level does**: findings with new keys are kept, a closer one replaces the closest
one, and a level is added with the sums of the counters. -/
lemma exists_replayStage {g : Stage} (h : g.Valid s.alphabet.length) (p : Progress S Z) :
    ∃ hits, s.replayStage clock p g = .ok (Progress.close
      { p with
        findings := Finding.keepNew p.findings (s.findingsOf clock g)
        closest := ((g.items.map (s.explorer clock).tally).map Tally.closest).foldl
          (Progress.nearer g.layouts s.alphabet) p.closest }
      { leaves := g.leaves
        layouts := g.layouts
        evaluated := ((g.items.map (s.explorer clock).tally).map Tally.evaluated).sum
        pruned := ((g.items.map (s.explorer clock).tally).map Tally.pruned).sum
        degenerate := ((g.items.map (s.explorer clock).tally).map Tally.degenerate).sum
        overflowed := ((g.items.map (s.explorer clock).tally).map Tally.overflowed).sum
        hits := hits } false) := by
  obtain ⟨hits, habsorb⟩ :=
    Progress.absorb_of_valid { leaves := g.leaves, layouts := g.layouts }
      (fun _ => valid_of_mem_tallies (x := s.explorer clock) h) p
  refine ⟨hits, ?_⟩
  simp only [replayStage_eq, habsorb, Except.map, Nat.zero_add, findingsOf, List.flatMap_map]

/-- A replay of several levels is one of the first level and then one of the others. -/
lemma replay_cons_eq_ok {g : Stage} {rest : Course} {p p' : Progress S Z} :
    s.replay clock p (g :: rest) = .ok p' ↔
      ∃ q, s.replayStage clock p g = .ok q ∧ s.replay clock q rest = .ok p' := by
  rw [replay]
  cases s.replayStage clock p g with
  | error defect =>
    constructor
    · intro h
      cases h
    · rintro ⟨q, h, -⟩
      cases h
  | ok q =>
    constructor
    · intro h
      exact ⟨q, rfl, h⟩
    · rintro ⟨q', hq, h⟩
      obtain rfl := Except.ok.inj hq
      exact h

variable (hfinite : ∀ z ∈ s.alphabet, Impedance.isFinite z = true)

include hfinite

variable (clock) in
/-- The replay of a valid level. -/
lemma replayStage_of_valid {g : Stage} (h : g.Valid s.alphabet.length) (p : Progress S Z) :
    ∃ p', s.replayStage clock p g = .ok p' ∧ s.After clock p [g] p' := by
  have hx := ready_explorer hfinite clock
  obtain ⟨hits, hstage⟩ := exists_replayStage clock h p
  have hhandled := sum_handled_tally hx h
  have hpruned := sum_pruned_tally (x := s.explorer clock) g.items
  have hsteps : Course.steps [g] = g.items.flatMap Item.steps := by
    simp only [Course.steps, List.flatMap_cons, List.flatMap_nil, List.append_nil, Stage.steps]
  refine ⟨_, hstage, ?_, rfl, ?_, ?_, ?_, ?_, fun _ => rfl⟩
  · simp only [Progress.close, List.flatMap_cons, List.flatMap_nil, List.append_nil]
  · simp only [Progress.close, Level.handled, List.map_cons, List.sum_cons, hsteps]
    omega
  · simp only [Progress.close, List.map_cons, List.sum_cons, hsteps]
    omega
  · simp only [Progress.close, Stats.handled, hsteps]
    omega
  · simp only [Progress.close, hsteps]
    omega

variable (clock) in
/-- **A replay of valid levels** does not fail, and counts what the levels hold. -/
theorem replay_of_valid {course : Course} (h : ∀ g ∈ course, g.Valid s.alphabet.length)
    (p : Progress S Z) : ∃ p', s.replay clock p course = .ok p' ∧ s.After clock p course p' := by
  induction course generalizing p with
  | nil => exact ⟨p, rfl, .refl p⟩
  | cons g rest ih =>
    rw [List.forall_mem_cons] at h
    obtain ⟨p', hstage, hafter⟩ := replayStage_of_valid clock hfinite h.1 p
    obtain ⟨p'', hrest, hafter'⟩ := ih h.2 p'
    exact ⟨p'', replay_cons_eq_ok.mpr ⟨p', hstage, hrest⟩, hafter.cons hafter'⟩

end

end Search

end Ohmic
