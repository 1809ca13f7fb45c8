import Mathlib.Algebra.Order.Field.Rat
import Ohmic.Proofs.Number.Exact
import Ohmic.Proofs.Search.Course

set_option autoImplicit false

/-!
# A limit on candidates keeps a beginning of the search

A search that may handle only so many candidates handles the first ones of the same search without
the limit, and no others. It stops at the first request above the limit, and only then; nothing is
tried or counted after it.

## Main definitions

* `Settings.Permitted` — settings that are not refused.
* `Search.withLimit` — the search with another limit on candidates.
* `Report.handled`, `Report.pruned`, `Report.truncated` — what a report says of the levels taken
  together, and whether the budget stopped the search.

## Main results

* `Settings.check_eq_ok_iff`, `Settings.checkAlphabet_eq_ok_iff` — what is not refused.
* `Search.run_withLimit_of_allows`, `Search.run_withLimit_of_not_allows` — the report of a search
  without a time limit.
* `Search.run_of_unlimited`, `Search.run_withLimit_some` — the report of a search without limits,
  and with a limit.
* `Search.run_withLimit` — the search with a limit and without it.
-/

namespace Ohmic

variable {S Z : Type}

namespace Report

/-- The number of complete candidates that were handled, over all levels. -/
def handled (r : Report S Z) : Nat := (r.levels.map Level.handled).sum

/-- The number of partial networks that were given up, over all levels. -/
def pruned (r : Report S Z) : Nat := (r.levels.map Level.pruned).sum

/-- The budget stopped the search early. -/
def truncated (r : Report S Z) : Bool :=
  match r.outcome with
  | .ok results => results.stats.truncated
  | .error (.noNetwork _ truncated) => truncated
  | .error _ => false

end Report

variable [Scalar S] [Impedance S Z]

/-! ## What is refused -/

namespace Settings

/-- Settings that are not refused. -/
structure Permitted (s : Settings S Z) : Prop where
  /-- The target is finite. -/
  finite_target : Impedance.isFinite s.target = true
  /-- The target is not zero. -/
  target_ne_zero : (Impedance.magnitude s.target == 0) = false
  /-- The bound is finite. -/
  finite_bound : Scalar.isFinite s.tolerance.bound = true
  /-- The bound is not negative. -/
  bound_not_neg : ¬ s.tolerance.bound < 0
  /-- There may be a leaf. -/
  leaves_pos : 1 ≤ s.maxLeaves
  /-- There may not be too many leaves. -/
  leaves_le : s.maxLeaves ≤ maxLeafCount
  /-- Some result is wanted. -/
  results_ne_zero : s.maxResults ≠ some 0

/-- Settings are checked for being permitted.

**Proof sketch.** Each condition is one of the four tests, in their order, and settings pass if none
of the tests is met. -/
lemma check_eq_ok_iff {s : Settings S Z} : s.check = .ok () ↔ s.Permitted := by
  rw [check]
  constructor
  · intro h
    split at h
    · cases h
    · next htarget =>
      split at h
      · cases h
      · next hbound =>
        split at h
        · cases h
        · next hleaves =>
          split at h
          · cases h
          · next hresults =>
            simp only [Bool.or_eq_true, Bool.not_eq_true', not_or, Bool.not_eq_false,
              Bool.not_eq_true, decide_eq_true_eq] at htarget hbound
            exact ⟨htarget.1, htarget.2, hbound.1, hbound.2, by omega, by omega, hresults⟩
  · intro h
    have htarget : (!Impedance.isFinite s.target || Impedance.magnitude s.target == 0) = false := by
      rw [h.finite_target, h.target_ne_zero]
      rfl
    have hbound : (!Scalar.isFinite s.tolerance.bound || decide (s.tolerance.bound < 0)) =
        false := by
      rw [h.finite_bound, decide_eq_false h.bound_not_neg]
      rfl
    have hleaves := h.leaves_pos
    have hmost := h.leaves_le
    rw [htarget, hbound, if_neg Bool.false_ne_true, if_neg Bool.false_ne_true,
      if_neg (by omega), if_neg h.results_ne_zero]

omit [Scalar S] in
/-- Values to build with are checked for being finite, and for being there at all. -/
lemma checkAlphabet_eq_ok_iff {alphabet : List Z} :
    checkAlphabet (S := S) alphabet = .ok () ↔
      alphabet ≠ [] ∧ ∀ z ∈ alphabet, Impedance.isFinite z = true := by
  rw [checkAlphabet]
  cases alphabet with
  | nil => exact ⟨fun h => (by cases h), fun h => absurd rfl h.1⟩
  | cons first rest =>
    rw [List.isEmpty_cons, if_neg Bool.false_ne_true]
    split
    · next z hfind =>
      refine ⟨fun h => (by cases h), fun h => ?_⟩
      have hz := h.2 z (List.mem_of_find?_eq_some hfind)
      have hbad := List.find?_some hfind
      rw [hz] at hbad
      cases hbad
    · next hfind =>
      refine ⟨fun _ => ⟨List.cons_ne_nil _ _, fun z hz => ?_⟩, fun _ => rfl⟩
      have hgood := List.find?_eq_none.mp hfind z hz
      rwa [Bool.not_eq_true, Bool.not_eq_false'] at hgood

end Settings

namespace Search

/-- A search is not refused if neither its settings nor its values are. -/
lemma check_eq_ok_iff {s : Search S Z} :
    s.check = .ok () ↔
      s.settings.check = .ok () ∧ Settings.checkAlphabet (S := S) s.alphabet = .ok () := by
  simp only [check, bind, Except.bind]
  cases s.settings.check with
  | error reason => exact ⟨fun h => (by cases h), fun h => (by cases h.1)⟩
  | ok u => exact ⟨fun h => ⟨rfl, h⟩, fun h => h.2⟩

/-- What a search that is not refused builds with, and how large its networks may be. -/
lemma check_eq_ok {s : Search S Z} (h : s.check = .ok ()) :
    s.alphabet ≠ [] ∧ (∀ z ∈ s.alphabet, Impedance.isFinite z = true) ∧
      1 ≤ s.settings.maxLeaves := by
  obtain ⟨hsettings, halphabet⟩ := check_eq_ok_iff.mp h
  obtain ⟨hne, hfinite⟩ := Settings.checkAlphabet_eq_ok_iff.mp halphabet
  exact ⟨hne, hfinite, (Settings.check_eq_ok_iff.mp hsettings).leaves_pos⟩

/-! ## The search with a limit -/

/-- The search with another limit on candidates. -/
def withLimit (s : Search S Z) (limit : Option Nat) : Search S Z :=
  { s with settings.maxCandidates := limit }

section

variable {s : Search S Z} {clock : Clock}

/-- The limit on candidates has no part in the replay of a course. -/
lemma replay_withLimit (limit : Option Nat) (p : Progress S Z) (course : Course) :
    (s.withLimit limit).replay clock p course = s.replay clock p course := by
  induction course generalizing p with
  | nil => rfl
  | cons g rest ih =>
    have hstage : (s.withLimit limit).replayStage clock p g = s.replayStage clock p g := rfl
    rw [replay, replay, hstage]
    cases s.replayStage clock p g with
    | error defect => rfl
    | ok p' => exact ih p'

/-- The limit on candidates has no part in the course of a search. -/
lemma courseFrom_withLimit (limit : Option Nat) (count leaves : Nat) (p : Progress S Z) :
    (s.withLimit limit).courseFrom clock count leaves p = s.courseFrom clock count leaves p := by
  induction count generalizing leaves p with
  | zero => rfl
  | succ count ih =>
    have hstage : (s.withLimit limit).replayStage clock p ((s.withLimit limit).stage clock leaves) =
      s.replayStage clock p (s.stage clock leaves) := rfl
    rw [courseFrom, courseFrom, hstage]
    cases s.replayStage clock p (s.stage clock leaves) with
    | error defect => rfl
    | ok p' =>
      simp only [ih]
      rfl

/-- The report of a search that is not refused. -/
lemma run_of_check (hcheck : s.check = .ok ()) :
    s.run clock = s.reportOf
      (s.runLevels clock s.settings.maxLeaves 1 (Budget.ofSettings s.settings) {}) := by
  rw [run, hcheck]
  rfl

/-- **A search whose candidates are all allowed** reports on its course. -/
theorem run_withLimit_of_allows (hcheck : s.check = .ok ())
    (htime : s.settings.timeBudget = none) {limit : Option Nat}
    (hallows : ∀ n, limit = some n → (s.course clock).candidates.length ≤ n) :
    (s.withLimit limit).run clock = s.reportOf (s.replay clock {} (s.course clock)) := by
  have hrun : (s.withLimit limit).run clock = s.reportOf ((s.withLimit limit).runLevels clock
      s.settings.maxLeaves 1 (Budget.ofSettings (s.withLimit limit).settings) {}) :=
    run_of_check (s := s.withLimit limit) hcheck
  have hbudget : (Budget.ofSettings (s.withLimit limit).settings).Timeless := by
    simp only [Budget.Timeless, Budget.ofSettings, withLimit, htime, Option.map_none]
  rw [hrun, runLevels_of_allows (s := s.withLimit limit) (check_eq_ok hcheck).2.1 _ _ hbudget rfl,
    courseFrom_withLimit, replay_withLimit]
  · rfl
  · intro n hn
    rw [courseFrom_withLimit, ← course, ← Course.length_candidates]
    exact (Nat.zero_add _).le.trans (hallows n hn)

/-- **A search without limits** reports on its course. -/
lemma run_of_unlimited (hcheck : s.check = .ok ()) (htime : s.settings.timeBudget = none)
    (hlimit : s.settings.maxCandidates = none) :
    s.run clock = s.reportOf (s.replay clock {} (s.course clock)) := by
  have hself : s.withLimit none = s := by
    obtain ⟨alphabet, settings⟩ := s
    cases settings
    cases hlimit
    rfl
  have hrun : (s.withLimit none).run clock = s.reportOf (s.replay clock {} (s.course clock)) :=
    run_withLimit_of_allows hcheck htime fun n hn => by cases hn
  rwa [hself] at hrun

/-- **A search some of whose candidates are not allowed** reports on the beginning of its course,
and is truncated.

**Proof sketch.** With this limit the budget allows `n` candidates and no more, and there is no time
limit, so the levels are a replay of the beginning of the course (`runLevels_of_not_allows`). -/
theorem run_withLimit_of_not_allows (hcheck : s.check = .ok ())
    (htime : s.settings.timeBudget = none) {n : Nat}
    (hn : n < (s.course clock).candidates.length) :
    (s.withLimit (some n)).run clock =
      s.reportOf ((s.replay clock {} ((s.course clock).within n)).map Progress.truncate) := by
  have hrun : (s.withLimit (some n)).run clock = s.reportOf ((s.withLimit (some n)).runLevels clock
      s.settings.maxLeaves 1 (Budget.ofSettings (s.withLimit (some n)).settings) {}) :=
    run_of_check (s := s.withLimit (some n)) hcheck
  have hbudget : (Budget.ofSettings (s.withLimit (some n)).settings).Timeless := by
    simp only [Budget.Timeless, Budget.ofSettings, withLimit, htime, Option.map_none]
  have hallows : ∀ k, (Budget.ofSettings (s.withLimit (some n)).settings).Allows k ↔ k ≤ n := by
    intro k
    simp only [Budget.Allows, Budget.ofSettings, withLimit, Option.some.injEq, forall_eq',
      Nat.zero_add]
  rw [hrun, runLevels_of_not_allows (s := s.withLimit (some n)) (check_eq_ok hcheck).2.1 _ _
    hbudget rfl _ ((hallows n).mpr (Nat.le_refl n))
    (fun h => Nat.not_succ_le_self n ((hallows _).mp h)), courseFrom_withLimit, replay_withLimit]
  · rfl
  · rwa [courseFrom_withLimit, ← course, ← Course.length_candidates]

/-- **A search with a limit** reports on the beginning of its course, and is truncated if the course
goes on after it. -/
theorem run_withLimit_some (hcheck : s.check = .ok ()) (htime : s.settings.timeBudget = none)
    (n : Nat) :
    (s.withLimit (some n)).run clock =
      s.reportOf ((s.replay clock {} ((s.course clock).within n)).map fun p =>
        if n < (s.course clock).candidates.length then p.truncate else p) := by
  by_cases hlt : n < (s.course clock).candidates.length
  · rw [run_withLimit_of_not_allows hcheck htime hlt]
    simp only [hlt, if_true]
  · have hle : (s.course clock).candidates.length ≤ n := Nat.le_of_not_lt hlt
    have hall : (s.course clock).within n = s.course clock := by
      apply withinParts_of_length_le
      rwa [Course.length_candidates] at hle
    rw [run_withLimit_of_allows hcheck htime fun m hm => Option.some.inj hm ▸ hle, hall]
    simp only [hlt, if_false]
    cases s.replay clock {} (s.course clock) <;> rfl

/-! ## What reports say -/

/-- The report of a course. -/
lemma reportOf_of_after {p : Progress S Z} {course : Course} (h : s.After clock {} course p) :
    (s.reportOf (.ok p)).handled = course.candidates.length ∧
      (s.reportOf (.ok p)).pruned = Step.cuts course.steps ∧
      (s.reportOf (.ok p)).levels.map Level.leaves = course.map Stage.leaves := by
  refine ⟨?_, ?_, ?_⟩
  · rw [Report.handled, reportOf, List.map_reverse, List.sum_reverse, h.handled,
      Course.length_candidates]
    exact Nat.zero_add _
  · rw [Report.pruned, reportOf, List.map_reverse, List.sum_reverse, h.pruned]
    exact Nat.zero_add _
  · rw [reportOf, List.map_reverse, h.leaves, List.map_nil, List.append_nil, List.reverse_reverse]

omit [Impedance S Z] in
/-- A search without findings has no network, and one with findings has results. -/
lemma conclude_eq (hresults : s.settings.maxResults = none) (p : Progress S Z) :
    s.conclude p = if p.findings = [] then .error (.noNetwork p.closest p.stats.truncated)
      else .ok ⟨Finding.ranked p.findings.reverse, p.stats⟩ := by
  simp only [conclude, hresults, List.isEmpty_iff]

omit [Impedance S Z] in
/-- A search with one finding has one result. -/
lemma outcome_reportOf_of_singleton (hresults : s.settings.maxResults = none) {p : Progress S Z}
    {f : Finding S Z} (hf : p.findings = [f]) :
    (s.reportOf (.ok p)).outcome = .ok ⟨[f], p.stats⟩ := by
  rw [reportOf, conclude_eq hresults, hf, if_neg (List.cons_ne_nil f []), List.reverse_singleton,
    Finding.ranked, List.mergeSort_singleton]

omit [Impedance S Z] in
/-- A report is truncated if the progress is. -/
lemma truncated_reportOf (p : Progress S Z) :
    (s.reportOf (.ok p)).truncated = p.stats.truncated := by
  cases hempty : p.findings.isEmpty <;>
  · simp only [Report.truncated, reportOf, conclude, hempty, Bool.false_eq_true, if_true, if_false]

omit [Impedance S Z] in
/-- The counters of the results are those of the progress. -/
lemma stats_of_reportOf {p : Progress S Z} {results : Results S Z}
    (h : (s.reportOf (.ok p)).outcome = .ok results) : results.stats = p.stats := by
  simp only [reportOf, conclude] at h
  split at h
  · cases h
  · obtain rfl := Except.ok.inj h
    rfl

end

/-! ## With and without a limit -/

/-- **A limit keeps a beginning of the search.** Take a search without a time limit. Without a limit
on candidates it reports on its course, and handles all candidates of it. With a limit of `n`
candidates it reports on the beginning of the same course, cut off before the candidate number
`n + 1`:

* its candidates are the first `n` ones, its steps all those before the next candidate, and the
  counters say so, in its levels and in its results;
* it is truncated exactly if the search without the limit handles more than `n` candidates;
* its levels are those of the beginning, the last one being that of the first candidate which is
  not allowed.

**Proof sketch.** Both searches are replays of a course (`run_withLimit_of_allows`,
`run_withLimit_some`), a replay does not fail and counts what its levels hold
(`replay_of_valid`), and the beginning of a course has the first candidates
(`Course.candidates_within`). -/
theorem run_withLimit (s : Search S Z) (clock : Clock) (n : Nat) (hcheck : s.check = .ok ())
    (htime : s.settings.timeBudget = none) :
    -- the search without a limit
    ((s.withLimit none).run clock = s.reportOf (s.replay clock {} (s.course clock)) ∧
      ((s.withLimit none).run clock).handled = (s.course clock).candidates.length ∧
      ((s.withLimit none).run clock).truncated = false) ∧
    -- the search with a limit
    ((s.withLimit (some n)).run clock =
        s.reportOf ((s.replay clock {} ((s.course clock).within n)).map fun p =>
          if n < ((s.withLimit none).run clock).handled then p.truncate else p) ∧
      ((s.withLimit (some n)).run clock).handled =
        min n ((s.withLimit none).run clock).handled ∧
      ((s.withLimit (some n)).run clock).pruned =
        Step.cuts (Step.within n (s.course clock).steps) ∧
      (∀ results, ((s.withLimit (some n)).run clock).outcome = .ok results →
        results.stats.handled = min n ((s.withLimit none).run clock).handled ∧
        results.stats.pruned = Step.cuts (Step.within n (s.course clock).steps)) ∧
      (((s.withLimit (some n)).run clock).truncated = true ↔
        n < ((s.withLimit none).run clock).handled) ∧
      ((s.withLimit (some n)).run clock).levels.map Level.leaves =
        ((s.course clock).within n).map Stage.leaves) ∧
    -- the beginning of the course
    (((s.course clock).within n).candidates = (s.course clock).candidates.take n ∧
      ((s.course clock).within n).steps = Step.within n (s.course clock).steps ∧
      (n < ((s.withLimit none).run clock).handled → ∃ indices rest,
        (s.course clock).steps =
          ((s.course clock).within n).steps ++ .candidate indices :: rest)) := by
  have hvalid : ∀ g ∈ s.course clock, g.Valid s.alphabet.length := fun g hg =>
    s.valid_of_mem_courseFrom hg
  have hfinite := (check_eq_ok hcheck).2.1
  -- the search without a limit
  obtain ⟨p, hreplay, hafter⟩ := replay_of_valid clock hfinite hvalid {}
  have hfree : (s.withLimit none).run clock =
      s.reportOf (s.replay clock {} (s.course clock)) :=
    run_withLimit_of_allows hcheck htime fun n hn => by cases hn
  have hhandled : ((s.withLimit none).run clock).handled =
      (s.course clock).candidates.length := by
    rw [hfree, hreplay, (reportOf_of_after hafter).1]
  have hnot : ((s.withLimit none).run clock).truncated = false := by
    rw [hfree, hreplay, truncated_reportOf, hafter.truncated rfl]
  -- the search with a limit
  obtain ⟨p', hreplay', hafter'⟩ := replay_of_valid clock hfinite
    (fun g hg => Course.valid_of_mem_within hvalid (n := n) hg) {}
  have hcandidates := Course.candidates_within n (s.course clock)
  have hsteps := Course.steps_within n (s.course clock)
  have hcut : (s.withLimit (some n)).run clock = s.reportOf (.ok
      (if n < ((s.withLimit none).run clock).handled then p'.truncate else p')) := by
    rw [run_withLimit_some hcheck htime, hreplay', hhandled]
    rfl
  have hlevels : ((s.withLimit (some n)).run clock).levels = (s.reportOf (.ok p')).levels := by
    rw [hcut]
    split <;> rfl
  have hmin : ((s.course clock).within n).candidates.length =
      min n ((s.withLimit none).run clock).handled := by
    rw [hcandidates, List.length_take, hhandled]
  obtain ⟨hsum, hcuts, hleaves⟩ := reportOf_of_after hafter'
  refine ⟨⟨hfree, hhandled, hnot⟩, ⟨?_, ?_, ?_, fun results hresults => ?_, ?_, ?_⟩,
    hcandidates, hsteps, fun hlt => ?_⟩
  · rw [hcut, hreplay']
    rfl
  · rw [Report.handled, hlevels, ← Report.handled, hsum, hmin]
  · rw [Report.pruned, hlevels, ← Report.pruned, hcuts, hsteps]
  · have hstats : results.stats.handled = p'.stats.handled ∧
        results.stats.pruned = p'.stats.pruned := by
      rw [hcut] at hresults
      rw [stats_of_reportOf hresults]
      split <;> exact ⟨rfl, rfl⟩
    rw [hstats.1, hstats.2, hafter'.stats_handled, hafter'.stats_pruned, ← hmin,
      Course.length_candidates, ← hsteps]
    exact ⟨Nat.zero_add _, Nat.zero_add _⟩
  · rw [hcut, truncated_reportOf]
    split
    · next hlt => exact iff_of_true rfl hlt
    · next hle => exact iff_of_false (by rw [hafter'.truncated rfl]; exact Bool.false_ne_true) hle
  · rw [hlevels, hleaves]
  · rw [hhandled, Course.length_candidates] at hlt
    rw [hsteps]
    exact Step.eq_within_append hlt

/-- One and two ohms, to be joined to three, with a limit of five candidates. -/
theorem run_withLimit_three_ohms :
    let s : Search ℚ ℚ := ⟨[1, 2], Settings.of 3 (.relative (1 / 100)) 2⟩
    s.check = .ok () ∧ s.settings.timeBudget = none ∧
      ((s.withLimit (some 5)).run Clock.still).handled =
        min 5 ((s.withLimit none).run Clock.still).handled ∧
      ((s.course Clock.still).within 5).candidates = (s.course Clock.still).candidates.take 5 := by
  intro s
  have hcheck : s.check = .ok () := by decide +kernel
  obtain ⟨-, ⟨-, hhandled, -⟩, hcandidates, -⟩ := run_withLimit s Clock.still 5 hcheck rfl
  exact ⟨hcheck, rfl, hhandled, hcandidates⟩

end Search

end Ohmic
