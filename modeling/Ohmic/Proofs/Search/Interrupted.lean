import Ohmic.Proofs.Search.Limit

set_option autoImplicit false

/-!
# Interrupted searches

A clock or a limit on candidates may interrupt a search at any step. Whatever it is that does so,
every work item takes a beginning of its steps, so the search reports on a replay of beginnings:
on a course with less in it.

## Main definitions

* `Item.Begins`, `Stage.Begins` — a work item or a level takes the first of some steps.
* `Search.Admits` — the levels of a course have no more leaves than allowed.

## Main results

* `Explorer.exists_prefix_serve` — a budget lets a beginning of the steps through.
* `Explorer.exists_begins_exploreAll` — every work item takes a beginning of its steps.
* `Search.exists_course_run` — a search that is not refused reports on a replay.
* `Search.exists_replay_of_results`, `Search.exists_replay_of_noNetwork` — where the results of a
  search and its closest finding come from.

## Implementation notes

Nothing is said of where the steps end. With a limit on candidates alone, `Search.run_withLimit`
says it; with a clock it depends on the clock. What is said is that nothing follows the end: the
steps of later work items are none, and no level comes after it.
-/

namespace Ohmic

/-! ## Beginnings of work items -/

/-- A work item takes the first steps of another one of the same layout. -/
structure Item.Begins (part i : Item) : Prop where
  /-- The layouts are at the same place. -/
  place_eq : part.place = i.place
  /-- They are the same. -/
  layout_eq : part.layout = i.layout
  /-- The steps are the first ones. -/
  steps : part.steps <+: i.steps

/-- The beginning of a valid work item is valid. -/
lemma Item.Begins.valid {part i : Item} (h : part.Begins i) {layouts : List Layout} {width : Nat}
    (hi : i.Valid layouts width) : part.Valid layouts width := by
  obtain ⟨place, layout, steps⟩ := part
  obtain ⟨rfl, rfl, hsteps⟩ := h
  exact ⟨hi.at_place, hi.sound, fun indices hmem =>
    hi.assigned indices ((hsteps.filterMap _).subset hmem)⟩

/-- A level takes the first steps of each work item of another one. -/
structure Stage.Begins (g full : Stage) : Prop where
  /-- The numbers of leaves agree. -/
  leaves_eq : g.leaves = full.leaves
  /-- Each work item takes first steps. -/
  items : List.Forall₂ Item.Begins g.items full.items

/-- The beginning of a valid level is valid. -/
lemma Stage.Begins.valid {g full : Stage} (h : g.Begins full) {width : Nat}
    (hfull : full.Valid width) : g.Valid width := by
  obtain ⟨leaves, items⟩ := g
  obtain ⟨rfl, hitems⟩ := h
  obtain ⟨leaves, fullItems⟩ := full
  simp only [Stage.Valid, Stage.layouts] at hfull hitems ⊢
  induction hitems with
  | nil => exact fun i hi => absurd hi List.not_mem_nil
  | cons hbegins _ ih =>
    rw [List.forall_mem_cons] at hfull ⊢
    exact ⟨hbegins.valid hfull.1, ih hfull.2⟩

variable {S Z : Type} [Scalar S] [Impedance S Z]

/-! ## Work items -/

namespace Explorer

/-- A step has its effect on the tally, or else it stops the budget and has none. -/
lemma tally_serveStep (x : Explorer S Z) (l : Layout) (layout : Nat) (j : Journal S Z)
    (step : Step) :
    (x.serveStep l layout j step).tally = x.effect l layout j.tally step ∨
      (x.serveStep l layout j step).tally = j.tally ∧
        (x.serveStep l layout j step).budget.stopped = true := by
  cases step with
  | tick => exact .inl rfl
  | cut => exact .inl rfl
  | candidate indices =>
    cases hgrant : j.budget.grant.1 with
    | true =>
      left
      simp only [serveStep, hgrant, if_true, effect]
    | false =>
      right
      have hstep : x.serveStep l layout j (.candidate indices) =
          { j with budget := j.budget.grant.2 } := by
        simp only [serveStep, hgrant, Bool.false_eq_true, if_false]
      rw [hstep]
      exact ⟨rfl, j.budget.stopped_of_denied hgrant⟩

/-- **A budget lets a beginning of the steps through**, whatever its limits and whatever its clock
shows: all of them if it still runs afterwards, and none if it was stopped before.

**Proof sketch.** By induction on the steps. While the budget runs, a step has its effect or stops
the budget (`tally_serveStep`). After that no step has an effect, so the steps taken are those
before it. -/
theorem exists_prefix_serve (x : Explorer S Z) (l : Layout) (layout : Nat) (steps : List Step)
    (j : Journal S Z) :
    ∃ taken, taken <+: steps ∧
      (x.serve l layout j steps).tally = taken.foldl (x.effect l layout) j.tally ∧
      ((x.serve l layout j steps).budget.stopped = false → taken = steps) ∧
      (j.budget.stopped = true → taken = []) := by
  induction steps generalizing j with
  | nil => exact ⟨[], List.prefix_refl _, rfl, fun _ => rfl, fun _ => rfl⟩
  | cons step rest ih =>
    cases hstop : j.budget.stopped with
    | true =>
      rw [serve_of_stopped x l layout hstop, hstop]
      exact ⟨[], List.nil_prefix, rfl, fun h => Bool.noConfusion h, fun _ => rfl⟩
    | false =>
      rw [serve_cons x l layout hstop]
      rcases x.tally_serveStep l layout j step with heffect | ⟨hsame, hstop'⟩
      · obtain ⟨taken, htaken, htally, hall, -⟩ := ih (x.serveStep l layout j step)
        refine ⟨step :: taken, List.prefix_cons_inj step |>.mpr htaken, ?_,
          fun hrun => congrArg (step :: ·) (hall hrun), fun h => Bool.noConfusion h⟩
        rw [htally, heffect, List.foldl_cons]
      · rw [serve_of_stopped x l layout hstop', hstop']
        exact ⟨[], List.nil_prefix, hsame, fun h => Bool.noConfusion h, fun _ => rfl⟩

variable {x : Explorer S Z} {layouts : List Layout}

/-- A work item takes a beginning of its steps: all of them if the budget still runs afterwards, and
none if it was stopped before. -/
lemma exists_begins_explore (hx : x.Ready) {l : Layout} (hl : l.Sound) {layout first : Nat}
    (hlayout : layouts[layout]? = some l) (hfirst : first < x.alphabet.length)
    (bench : Bench S Z) (budget : Budget) :
    ∃ e part, x.explore layouts layout first bench budget = .ok e ∧
      part.Begins ⟨layout, l, x.itemSteps l first⟩ ∧ e.tally = x.tally part ∧
      (e.budget.stopped = false → part = ⟨layout, l, x.itemSteps l first⟩) ∧
      (budget.stopped = true → e.budget.stopped = true ∧ part.steps = []) := by
  obtain ⟨e, hexplore, hkeeps⟩ := explore_run hx hl hlayout hfirst bench budget
  obtain ⟨taken, htaken, htally, hall, hnone⟩ :=
    x.exists_prefix_serve l layout (x.itemSteps l first) (x.opening budget bench.ticks)
  refine ⟨e, ⟨layout, l, taken⟩, hexplore, ⟨rfl, rfl, htaken⟩, hkeeps.tally.trans htally,
    fun hrun => ?_, fun hstop => ?_⟩
  · rw [hall (hkeeps.stopped.symm.trans hrun)]
  · have hopening : (x.opening budget bench.ticks).budget.stopped = true :=
      stopped_look_of_stopped x.clock hstop
    refine ⟨?_, hnone hopening⟩
    rw [hkeeps.stopped, serve_of_stopped x l layout hopening, hopening]

/-- **Every work item takes a beginning of its steps**, whatever interrupts the search: all of them
until the budget is stopped, and none after that. So together the work items handle the first of
their candidates.

**Proof sketch.** By induction on the work items. The first one takes a beginning of its steps
(`exists_begins_explore`). If it leaves the budget stopped, the other ones take no steps, so their
candidates do not matter. Otherwise it has taken all its steps, and the candidates of the others
follow its own. -/
theorem exists_begins_exploreAll (hx : x.Ready) (hsound : ∀ l ∈ layouts, l.Sound)
    {work : List (Nat × Nat)}
    (hwork : ∀ w ∈ work, w.1 < layouts.length ∧ w.2 < x.alphabet.length) (bench : Bench S Z)
    (budget : Budget) (done : List (Tally S Z)) :
    ∃ parts b, x.exploreAll layouts bench budget done work =
        .ok (done.reverse ++ parts.map x.tally, b) ∧
      List.Forall₂ Item.Begins parts (x.items layouts work) ∧
      (b.stopped = false → parts = x.items layouts work) ∧
      (budget.stopped = true → b.stopped = true ∧ ∀ part ∈ parts, part.steps = []) ∧
      ∀ leaves, (Stage.mk leaves parts).candidates <+:
        (Stage.mk leaves (x.items layouts work)).candidates := by
  induction work generalizing bench budget done with
  | nil =>
    refine ⟨[], budget, by rw [exploreAll, List.map_nil, List.append_nil], .nil, fun _ => rfl,
      fun hstop => ⟨hstop, fun part hpart => absurd hpart List.not_mem_nil⟩,
      fun leaves => List.prefix_refl _⟩
  | cons w work ih =>
    obtain ⟨layout, first⟩ := w
    obtain ⟨⟨hplace : layout < layouts.length, hfirst : first < x.alphabet.length⟩, hwork⟩ :=
      List.forall_mem_cons.mp hwork
    have hlayout := List.getElem?_eq_getElem hplace
    have hl := hsound _ (List.mem_of_getElem? hlayout)
    obtain ⟨e, part, hexplore, hbegins, htally, hwhole, hnone⟩ :=
      exists_begins_explore hx hl hlayout hfirst bench budget
    obtain ⟨parts, b, hrest, hparts, hall, hidle, hfirst⟩ :=
      ih hwork e.bench e.budget (e.tally :: done)
    rw [items_cons hlayout]
    refine ⟨part :: parts, b, ?_, .cons hbegins hparts, fun hrun => ?_, fun hstop => ?_,
      fun leaves => ?_⟩
    · simp only [exploreAll, hexplore]
      rw [hrest, htally, List.reverse_cons, List.append_assoc, List.singleton_append,
        List.map_cons]
    · cases hstop : e.budget.stopped with
      | true => exact Bool.noConfusion (hrun.symm.trans (hidle hstop).1)
      | false => rw [hwhole hstop, hall hrun]
    · obtain ⟨hstop', hpart⟩ := hnone hstop
      exact ⟨(hidle hstop').1, List.forall_mem_cons.mpr ⟨hpart, (hidle hstop').2⟩⟩
    · cases hstop : e.budget.stopped with
      | true =>
        -- what follows a stop has no candidates
        have hempty : (Stage.mk leaves parts).candidates = [] :=
          List.flatMap_eq_nil_iff.mpr fun part hpart => by rw [(hidle hstop).2 part hpart]; rfl
        rw [Stage.candidates_cons, Stage.candidates_cons, hempty, List.append_nil,
          hbegins.place_eq]
        exact ((hbegins.steps.filterMap _).map _).trans (List.prefix_append _ _)
      | false =>
        rw [hwhole hstop, Stage.candidates_cons, Stage.candidates_cons,
          List.prefix_append_right_inj]
        exact hfirst leaves

end Explorer

/-! ## Levels -/

namespace Search

variable {s : Search S Z} {clock : Clock}

section

variable (hfinite : ∀ z ∈ s.alphabet, Impedance.isFinite z = true)

include hfinite

variable (clock) in
/-- A level is a replay of a beginning of it, truncated if the budget is stopped, and of the whole
level if it is not. -/
lemma exists_begins_runLevel (leaves : Nat) (budget : Budget) (p : Progress S Z) :
    ∃ g b, g.Begins (s.stage clock leaves) ∧
      s.runLevel clock leaves budget p = (s.replayStage clock p g).map (fun p =>
        (b, if b.stopped then p.truncate else p)) ∧
      (b.stopped = false → g = s.stage clock leaves) ∧
      g.candidates <+: (s.stage clock leaves).candidates := by
  obtain ⟨parts, b, hall, hparts, hwhole, -, hfirst⟩ := Explorer.exists_begins_exploreAll
    (ready_explorer hfinite clock) (fun _ hl => Layout.sound_of_mem_withLeaves hl)
    (fun _ hw => Explorer.lt_of_mem_workItems hw) {} budget []
  refine ⟨⟨leaves, parts⟩, b, ⟨rfl, hparts⟩, ?_, fun hrun => by rw [hwhole hrun]; rfl,
    hfirst leaves⟩
  rw [runLevel_of_exploreAll hall, replayStage_eq]
  simp only [List.reverse_nil, List.nil_append, Stage.layouts]
  cases p.absorb s.alphabet { leaves := leaves, layouts := Layout.withLeaves leaves }
    (parts.map (s.explorer clock).tally) with
  | error defect => rfl
  | ok r => cases b.stopped <;> rfl

variable (clock) in
/-- **The levels of a search** are a replay of beginnings of levels, which together handle the first
candidates of the course. It is truncated, or a replay of the whole course.

**Proof sketch.** By induction on the levels that are left. One level is a beginning of the whole
one (`exists_begins_runLevel`), which a replay takes in without failing. If the budget is stopped
after it, no level follows and the report is marked as truncated. Otherwise it is the whole level,
and the search goes on exactly if the course does, to the next level by induction. -/
theorem exists_course_runLevels (count leaves : Nat) (budget : Budget) (p : Progress S Z) :
    ∃ course : Course, (∀ g ∈ course, g.Begins (s.stage clock g.leaves) ∧ leaves ≤ g.leaves ∧
        g.leaves < leaves + count) ∧
      course.candidates <+: Course.candidates (s.courseFrom clock count leaves p) ∧
      (s.runLevels clock count leaves budget p = s.replay clock p course ∧
          course = s.courseFrom clock count leaves p ∨
        s.runLevels clock count leaves budget p =
          (s.replay clock p course).map Progress.truncate) := by
  induction count generalizing leaves budget p with
  | zero =>
    exact ⟨[], fun g hg => absurd hg List.not_mem_nil, List.prefix_refl _, .inl ⟨rfl, rfl⟩⟩
  | succ count ih =>
    obtain ⟨g, b, hbegins, hlevel, hwhole, hfirst⟩ :=
      exists_begins_runLevel clock hfinite leaves budget p
    have hleaves : g.leaves = leaves := hbegins.leaves_eq
    have hhead : g.Begins (s.stage clock g.leaves) ∧ leaves ≤ g.leaves ∧
        g.leaves < leaves + (count + 1) := by
      refine ⟨by rwa [hleaves], ?_, ?_⟩ <;> omega
    obtain ⟨p', hstage, -⟩ :=
      replayStage_of_valid clock hfinite (hbegins.valid (s.valid_stage clock leaves)) p
    rw [runLevels, hlevel, hstage, courseFrom]
    cases hstop : b.stopped with
    | true =>
      -- no level follows one that was stopped
      refine ⟨[g], List.forall_mem_singleton.mpr hhead, ?_, .inr ?_⟩
      · rw [Course.candidates_cons, Course.candidates_cons, Course.candidates_nil,
          List.append_nil]
        exact hfirst.trans (List.prefix_append _ _)
      · simp only [replay, hstage, Except.map, continues, hstop, if_true, Bool.not_true,
          Bool.false_and, Bool.false_eq_true, if_false]
    | false =>
      obtain rfl := hwhole hstop
      have hon : s.continues b p' = s.goesOn p' := by
        rw [continues, hstop, Bool.not_false, Bool.true_and, goesOn]
      simp only [Except.map, Bool.false_eq_true, if_false, hstage, hon]
      by_cases hgoes : s.goesOn p' = true
      · obtain ⟨course, hcourse, hmore, hrest⟩ := ih (leaves + 1) b p'
        rw [if_pos hgoes, if_pos hgoes]
        refine ⟨_ :: course, List.forall_mem_cons.mpr ⟨hhead, fun g hg => ?_⟩, ?_, ?_⟩
        · obtain ⟨hg, hle, hlt⟩ := hcourse g hg
          exact ⟨hg, by omega, by omega⟩
        · rw [Course.candidates_cons, Course.candidates_cons, List.prefix_append_right_inj]
          exact hmore
        · rw [replay, hstage]
          exact hrest.imp_left fun h => ⟨h.1, congrArg _ h.2⟩
      · rw [if_neg hgoes, if_neg hgoes]
        refine ⟨[_], List.forall_mem_singleton.mpr hhead, List.prefix_refl _, .inl ⟨?_, rfl⟩⟩
        simp only [replay, hstage]

end

/-- The levels of a course are valid, and have no more leaves than the settings allow. -/
def Admits (s : Search S Z) (course : Course) : Prop :=
  ∀ g ∈ course, g.Valid s.alphabet.length ∧ 1 ≤ g.leaves ∧ g.leaves ≤ s.settings.maxLeaves

/-- **The report of a search that is not refused** is that of a replay of a course, whatever
interrupts the search. The course has the first candidates of that of the search without limits; the
replay is truncated, or else the course is the same. -/
theorem exists_course_run (clock : Clock) (hcheck : s.check = .ok ()) :
    ∃ (course : Course) (p : Progress S Z), s.Admits course ∧ s.replay clock {} course = .ok p ∧
      course.candidates <+: (s.course clock).candidates ∧
      (s.run clock = s.reportOf (.ok p) ∧ course = s.course clock ∨
        s.run clock = s.reportOf (.ok p.truncate)) := by
  have hfinite := (check_eq_ok hcheck).2.1
  obtain ⟨course, hcourse, hfirst, hlevels⟩ := exists_course_runLevels clock hfinite
    s.settings.maxLeaves 1 (Budget.ofSettings s.settings) {}
  have hadmits : s.Admits course := by
    intro g hg
    obtain ⟨hbegins, hle, hlt⟩ := hcourse g hg
    exact ⟨hbegins.valid (s.valid_stage clock g.leaves), hle, by omega⟩
  obtain ⟨p, hreplay, -⟩ := replay_of_valid clock hfinite (fun g hg => (hadmits g hg).1) {}
  refine ⟨course, p, hadmits, hreplay, hfirst, ?_⟩
  rw [run_of_check hcheck]
  rw [hreplay] at hlevels
  exact hlevels.imp (fun h => ⟨congrArg s.reportOf h.1, h.2⟩) (congrArg s.reportOf)

/-- A replay of an admitted course adds what the course holds. -/
lemma after_of_replay (hcheck : s.check = .ok ()) {course : Course} (hadmits : s.Admits course)
    {p p' : Progress S Z} (hreplay : s.replay clock p course = .ok p') :
    s.After clock p course p' := by
  obtain ⟨q, hreplay', hafter⟩ := replay_of_valid clock (check_eq_ok hcheck).2.1
    (fun g hg => (hadmits g hg).1) p
  obtain rfl := Except.ok.inj (hreplay.symm.trans hreplay')
  exact hafter

/-! ## Outcomes -/

omit [Impedance S Z] in
/-- Results are the first of the ranked findings. -/
lemma of_conclude_eq_ok {p : Progress S Z} {results : Results S Z}
    (h : s.conclude p = .ok results) :
    results.findings <+: Finding.ranked p.findings.reverse := by
  rw [conclude] at h
  split at h
  · cases h
  · obtain rfl := Except.ok.inj h
    simp only
    split
    · exact List.take_prefix _ _
    · exact List.prefix_refl _

omit [Impedance S Z] in
/-- A search without results reports its closest finding. -/
lemma of_conclude_eq_error {p : Progress S Z} {closest : Option (Finding S Z)} {truncated : Bool}
    (h : s.conclude p = .error (.noNetwork closest truncated)) :
    p.findings = [] ∧ closest = p.closest := by
  rw [conclude] at h
  split at h
  · next hnil =>
    obtain ⟨rfl, -⟩ := SearchError.noNetwork.inj (Except.error.inj h)
    exact ⟨List.isEmpty_iff.mp hnil, rfl⟩
  · cases h

/-- A search with an outcome of its own was not refused. -/
lemma check_of_outcome {r : Except (SearchError S Z) (Results S Z)}
    (h : (s.run clock).outcome = r) (hr : ∀ reason, r ≠ .error (.settings reason)) :
    s.check = .ok () := by
  cases hcheck : s.check with
  | ok u => rfl
  | error reason =>
    rw [run, hcheck] at h
    exact absurd h.symm (hr reason)

/-- A search whose levels lead to some progress reports on it. -/
lemma exists_progress_of_runLevels {α : Type} {view : Progress S Z → α} {a : α}
    (hcheck : s.check = .ok ())
    (h : (s.runLevels clock s.settings.maxLeaves 1 (Budget.ofSettings s.settings) {}).toOption.map
      view = some a) : ∃ p, s.run clock = s.reportOf (.ok p) ∧ view p = a := by
  cases hlevels : s.runLevels clock s.settings.maxLeaves 1 (Budget.ofSettings s.settings) {} with
  | error defect =>
    rw [hlevels] at h
    cases h
  | ok p =>
    rw [hlevels] at h
    exact ⟨p, (run_of_check hcheck).trans (congrArg s.reportOf hlevels), Option.some.inj h⟩

/-- A search whose levels lead to a single finding has that finding as its only result. -/
lemma exists_single_of_runLevels {α β : Type} (view : Finding S Z → α) (counters : Stats → β)
    {a : α} {b : β} (hcheck : s.check = .ok ()) (hresults : s.settings.maxResults = none)
    (h : (s.runLevels clock s.settings.maxLeaves 1 (Budget.ofSettings s.settings) {}).toOption.map
      (fun p => (p.findings.map view, counters p.stats)) = some ([a], b)) :
    ∃ f stats, (s.run clock).outcome = .ok ⟨[f], stats⟩ ∧ view f = a ∧ counters stats = b := by
  obtain ⟨p, hrun, hview⟩ := exists_progress_of_runLevels hcheck h
  obtain ⟨hfindings, hcounters⟩ := Prod.mk.inj hview
  obtain ⟨f, hf, hfinding⟩ := List.map_eq_singleton_iff.mp hfindings
  refine ⟨f, p.stats, ?_, hfinding, hcounters⟩
  rw [hrun, outcome_reportOf_of_singleton hresults hf]

/-- A search whose levels lead to no finding reports the closest one. -/
lemma exists_miss_of_runLevels {α : Type} (view : Finding S Z → α) {a : α} {truncated : Bool}
    (hcheck : s.check = .ok ()) (hresults : s.settings.maxResults = none)
    (h : (s.runLevels clock s.settings.maxLeaves 1 (Budget.ofSettings s.settings) {}).toOption.map
      (fun p => (p.findings.isEmpty, p.closest.map view, p.stats.truncated)) =
        some (true, some a, truncated)) :
    ∃ f, (s.run clock).outcome = .error (.noNetwork (some f) truncated) ∧ view f = a := by
  obtain ⟨p, hrun, hview⟩ := exists_progress_of_runLevels hcheck h
  obtain ⟨hempty, hview⟩ := Prod.mk.inj hview
  obtain ⟨hclosest, htruncated⟩ := Prod.mk.inj hview
  obtain ⟨f, hf, hfinding⟩ := Option.map_eq_some_iff.mp hclosest
  refine ⟨f, ?_, hfinding⟩
  rw [hrun, reportOf, conclude_eq hresults, if_pos (List.isEmpty_iff.mp hempty), hf, htruncated]

/-- **The results of a search** are the first of the ranked findings of a replay. -/
theorem exists_replay_of_results {results : Results S Z}
    (h : (s.run clock).outcome = .ok results) :
    s.check = .ok () ∧ ∃ (course : Course) (p : Progress S Z), s.Admits course ∧
      s.replay clock {} course = .ok p ∧
      results.findings <+: Finding.ranked p.findings.reverse := by
  have hcheck := check_of_outcome h fun reason hr => by cases hr
  refine ⟨hcheck, ?_⟩
  obtain ⟨course, p, hadmits, hreplay, -, ⟨hrun, -⟩ | hrun⟩ := exists_course_run clock hcheck
  · rw [hrun] at h
    exact ⟨course, p, hadmits, hreplay, of_conclude_eq_ok h⟩
  · rw [hrun] at h
    exact ⟨course, p, hadmits, hreplay, of_conclude_eq_ok (p := p.truncate) h⟩

/-- **A search without results** reports the closest finding of a replay without findings, which is
one of the whole course if the search is not truncated.

**Proof sketch.** The search is a replay of beginnings of its levels (`exists_course_run`), marked
as truncated or a replay of the whole course. What it reports without results is what the replay has
(`of_conclude_eq_error`). -/
theorem exists_replay_of_noNetwork {closest : Option (Finding S Z)} {truncated : Bool}
    (h : (s.run clock).outcome = .error (.noNetwork closest truncated)) :
    s.check = .ok () ∧ ∃ (course : Course) (p : Progress S Z), s.Admits course ∧
      s.replay clock {} course = .ok p ∧ p.findings = [] ∧ closest = p.closest ∧
      (s.run clock).levels = p.levels.reverse ∧
      course.candidates <+: (s.course clock).candidates ∧
      (truncated = false → course = s.course clock) := by
  have hcheck := check_of_outcome h fun reason hr => by cases hr
  have htruncated : (s.run clock).truncated = truncated := by rw [Report.truncated, h]
  refine ⟨hcheck, ?_⟩
  obtain ⟨course, p, hadmits, hreplay, hfirst, ⟨hrun, hwhole⟩ | hrun⟩ :=
    exists_course_run clock hcheck
  · rw [hrun] at h
    obtain ⟨hempty, hclosest⟩ := of_conclude_eq_error h
    exact ⟨course, p, hadmits, hreplay, hempty, hclosest, congrArg Report.levels hrun, hfirst,
      fun _ => hwhole⟩
  · rw [hrun] at h
    obtain ⟨hempty, hclosest⟩ := of_conclude_eq_error (p := p.truncate) h
    refine ⟨course, p, hadmits, hreplay, hempty, hclosest, congrArg Report.levels hrun, hfirst,
      fun hnot => ?_⟩
    rw [hrun, truncated_reportOf, hnot] at htruncated
    cases htruncated

end Search

end Ohmic
