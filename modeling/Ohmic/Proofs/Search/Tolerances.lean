import Ohmic.Proofs.Search.Coherence
import Ohmic.Proofs.Search.Completeness
import Ohmic.Proofs.Search.Deviations
import Ohmic.Proofs.Search.Levels

set_option autoImplicit false

/-!
# Searches with other tolerances

The tolerance of a search decides what is acceptable, which partial networks the bounds give up, and
so where the search ends. What is tried without giving anything up does not depend on it: an
assignment that one search met is one of the assignments of every other, and where the bounds
are sound it is found if it is acceptable.

## Main definitions

* `Search.withTolerance` — the search with another tolerance.
* `Search.SoundPruning` — giving up partial networks loses no acceptable one.
* `Search.Offers` — a candidate is that of an assignment of a layout, whatever the tolerance.

## Main results

* `Search.exists_offers_of_meets` — what is met on the course of a search is offered.
* `Search.exists_results_of_offers` — an acceptable offer is found.
* `Search.run_tolerances` — searches with a larger bound, and with the deviation of a miss as their
  bound.

## Implementation notes

Nothing is asked of the arithmetic if the bounds are not in use. Of comparisons only what holds of
all doubles is asked.
-/

namespace Ohmic

/-- The tolerance with another bound. -/
def Tolerance.withBound {S : Type} (t : Tolerance S) (bound : S) : Tolerance S :=
  match t with
  | .relative _ => .relative bound
  | .absolute _ => .absolute bound

variable {S Z : Type} [Scalar S] [Impedance S Z]

/-- What is acceptable with a bound is so with a larger one. -/
lemma Tolerance.accepts_withBound [Deviation.Comparable S Z] (t : Tolerance S) {b b' : S}
    (hle : b ≤ b') {absolute relative : S}
    (h : (t.withBound b).accepts absolute relative = true) :
    (t.withBound b').accepts absolute relative = true := by
  cases t with
  | relative bound =>
    simp only [withBound, accepts, decide_eq_true_eq] at h ⊢
    exact Deviation.Comparable.le_trans Z _ _ _ h hle
  | absolute bound =>
    simp only [withBound, accepts, decide_eq_true_eq] at h ⊢
    exact Deviation.Comparable.le_trans Z _ _ _ h hle

namespace Search

/-- The search with another tolerance. -/
def withTolerance (s : Search S Z) (tolerance : Tolerance S) : Search S Z :=
  { s with settings.tolerance := tolerance }

/-- If the bounds are in use, connections are monotone on positive reals and acceptable positive
reals lie in the opened band. -/
def SoundPruning (s : Search S Z) (clock : Clock) : Prop :=
  ∀ bd, (s.explorer clock).bounds = some bd →
    MonotoneReals S Z ∧ (s.explorer clock).BandHolds bd

/-- A candidate with an impedance is that of an assignment of a layout with a number of leaves, and
`f` is its finding. -/
def Offers (s : Search S Z) (clock : Clock) (leaves : Nat) (c : Candidate S Z)
    (f : Finding S Z) : Prop :=
  ∃ l, (Layout.withLeaves leaves)[c.layout]? = some l ∧
    c.indices ∈ l.allAssignments s.alphabet.length ∧
    (s.explorer clock).candidate? l c.layout c.indices = some c ∧ f = l.finding s.alphabet c

variable {s : Search S Z} {clock : Clock}

/-! ## What is refused -/

/-- A search is not refused because of a tolerance whose bound is finite and not negative. -/
lemma check_withTolerance {t : Tolerance S} (hfinite : Scalar.isFinite t.bound = true)
    (hneg : ¬ t.bound < 0) (h : s.check = .ok ()) : (s.withTolerance t).check = .ok () := by
  obtain ⟨hsettings, halphabet⟩ := check_eq_ok_iff.mp h
  have hpermitted := Settings.check_eq_ok_iff.mp hsettings
  exact check_eq_ok_iff.mpr ⟨Settings.check_eq_ok_iff.mpr
    { hpermitted with finite_bound := hfinite, bound_not_neg := hneg }, halphabet⟩

/-! ## What is offered -/

/-- The course of a search is admitted. -/
lemma admits_course (s : Search S Z) (clock : Clock) : s.Admits (s.course clock) := by
  intro g hg
  obtain ⟨-, hle, hlt⟩ := eq_stage_of_mem_courseFrom hg
  exact ⟨s.valid_of_mem_courseFrom hg, hle, by omega⟩

/-- **What is met on the course of a search** is offered. -/
theorem exists_offers_of_meets {c : Candidate S Z} {f : Finding S Z}
    (h : s.Meets clock (s.course clock) c f) :
    ∃ leaves, 1 ≤ leaves ∧ leaves ≤ s.settings.maxLeaves ∧ s.Offers clock leaves c f := by
  obtain ⟨g, hg, i, hi, hc, rfl⟩ := h
  obtain ⟨hstage, hle, hlt⟩ := eq_stage_of_mem_courseFrom hg
  refine ⟨g.leaves, hle, by omega, ?_⟩
  rw [hstage, stage, Explorer.items, List.mem_filterMap] at hi
  obtain ⟨⟨layout, first⟩, hw, hitem⟩ := hi
  obtain ⟨l, hl, rfl⟩ := Option.map_eq_some_iff.mp hitem
  obtain ⟨indices, hmem, hcandidate⟩ := List.mem_filterMap.mp hc
  obtain ⟨v, -, rfl⟩ := Option.map_eq_some_iff.mp hcandidate
  have hassignment := ((s.explorer clock).candidates_descentSteps_sublist l _ _ _ _).subset hmem
  exact ⟨l, hl, Layout.mem_allAssignments_of_mem_itemAssignments
    (Explorer.lt_of_mem_workItems hw).2 hassignment, hcandidate, rfl⟩

/-- An acceptable offer is found on its level. -/
lemma mem_keys_of_offers (hfinite : ∀ z ∈ s.alphabet, Impedance.isFinite z = true)
    (hsound : s.SoundPruning clock) {leaves : Nat} {c : Candidate S Z} {f : Finding S Z}
    (h : s.Offers clock leaves c f) (haccepted : (s.explorer clock).accepted c = true) :
    f.key ∈ (s.findingsOf clock (s.stage clock leaves)).map Finding.key := by
  obtain ⟨l, hl, hmem, hcandidate, rfl⟩ := h
  refine List.mem_map_of_mem (List.mem_filterMap.mpr ⟨c, ?_, ?_⟩)
  · exact (mem_hits_stage hfinite hsound).mpr ⟨l, hl, hmem, hcandidate, haccepted⟩
  · exact Option.map_eq_some_iff.mpr ⟨l, hl, rfl⟩

/-- **An acceptable offer is found** by an exhaustive search without limits.

**Proof sketch.** The search is a replay of its whole course, which has the level of the offer. The
key of an acceptable offer is one of the keys of that level (`mem_keys_of_offers`) and is kept, so
the search has findings and reports them all. -/
theorem exists_results_of_offers (hcheck : s.check = .ok ())
    (hexhaustive : s.settings.exhaustive = true) (hresults : s.settings.maxResults = none)
    (htime : s.settings.timeBudget = none) (hlimit : s.settings.maxCandidates = none)
    (hsound : s.SoundPruning clock) {leaves : Nat} (hpos : 1 ≤ leaves)
    (hle : leaves ≤ s.settings.maxLeaves) {c : Candidate S Z} {f : Finding S Z}
    (h : s.Offers clock leaves c f) (haccepted : (s.explorer clock).accepted c = true) :
    ∃ results, (s.run clock).outcome = .ok results ∧
      f.key ∈ results.findings.map Finding.key := by
  have hfinite := (check_eq_ok hcheck).2.1
  obtain ⟨p, hreplay, hafter⟩ := replay_of_valid clock hfinite
    (fun g hg => (s.admits_course clock g hg).1) {}
  have hkey : f.key ∈ p.findings.map Finding.key := by
    have hstage : s.stage clock leaves ∈ s.course clock := by
      rw [course, courseFrom_of_exhaustive hfinite hexhaustive]
      exact List.mem_map_of_mem (List.mem_range'_1.mpr (by omega))
    rw [hafter.findings, Finding.mem_keys_keepNew, List.map_flatMap, List.mem_flatMap]
    exact .inr ⟨_, hstage, mem_keys_of_offers hfinite hsound h haccepted⟩
  have hsome : p.findings ≠ [] := by
    rintro hempty
    rw [hempty] at hkey
    cases hkey
  have hrun : (s.run clock).outcome = .ok ⟨Finding.ranked p.findings.reverse, p.stats⟩ := by
    rw [run_of_unlimited hcheck htime hlimit, hreplay, reportOf, conclude_eq hresults,
      if_neg hsome]
  have hperm := ((Finding.ranked_perm _).trans (List.reverse_perm p.findings)).map Finding.key
  exact ⟨_, hrun, hperm.mem_iff.mpr hkey⟩

/-! ## What is reported -/

/-- A search without limits reports on its course. -/
lemma exists_replay_of_unlimited (clock : Clock) (hcheck : s.check = .ok ())
    (htime : s.settings.timeBudget = none) (hlimit : s.settings.maxCandidates = none) :
    ∃ p, s.replay clock {} (s.course clock) = .ok p ∧ s.run clock = s.reportOf (.ok p) := by
  obtain ⟨p, hreplay, -⟩ := replay_of_valid clock (check_eq_ok hcheck).2.1
    (fun g hg => (s.admits_course clock g hg).1) {}
  exact ⟨p, hreplay, by rw [run_of_unlimited hcheck htime hlimit, hreplay]⟩

/-- A result of a search without limits is the finding of an acceptable offer. -/
lemma exists_offers_of_mem_findings (hresults : s.settings.maxResults = none)
    (htime : s.settings.timeBudget = none) (hlimit : s.settings.maxCandidates = none)
    {f : Finding S Z} (hf : f ∈ (s.run clock).findings) :
    s.check = .ok () ∧ ∃ c leaves, 1 ≤ leaves ∧ leaves ≤ s.settings.maxLeaves ∧
      s.Offers clock leaves c f ∧ (s.explorer clock).accepted c = true := by
  cases hcheck : s.check with
  | error reason =>
    rw [findings_of_refused hcheck] at hf
    cases hf
  | ok u =>
    obtain ⟨p, hreplay, hrun⟩ := exists_replay_of_unlimited clock hcheck htime hlimit
    rw [hrun, findings_reportOf hresults, (Finding.ranked_perm _).mem_iff, List.mem_reverse] at hf
    obtain ⟨c, hmet, haccepted⟩ :=
      exists_accepted_of_mem_findings hcheck (s.admits_course clock) hreplay hf
    obtain ⟨leaves, hpos, hle, hoffers⟩ := exists_offers_of_meets hmet
    exact ⟨rfl, c, leaves, hpos, hle, hoffers, haccepted⟩

/-- The closest finding of a search without limits is that of an offer, of the same deviation. -/
lemma exists_offers_of_noNetwork (htime : s.settings.timeBudget = none)
    (hlimit : s.settings.maxCandidates = none) {f : Finding S Z} {truncated : Bool}
    (h : (s.run clock).outcome = .error (.noNetwork (some f) truncated)) :
    s.check = .ok () ∧ ∃ c leaves, 1 ≤ leaves ∧ leaves ≤ s.settings.maxLeaves ∧
      s.Offers clock leaves c f ∧ f.Coherent s ∧ f.deviation = c.deviation := by
  have hcheck := check_of_outcome h fun reason hr => by cases hr
  obtain ⟨p, hreplay, hrun⟩ := exists_replay_of_unlimited clock hcheck htime hlimit
  rw [hrun] at h
  obtain ⟨-, hclosest⟩ := of_conclude_eq_error h
  obtain ⟨c, hmet, -⟩ :=
    exists_meets_of_closest hcheck (s.admits_course clock) hreplay hclosest.symm
  obtain ⟨leaves, hpos, hle, hoffers⟩ := exists_offers_of_meets hmet
  obtain ⟨hcoherent, hdeviation⟩ := coherent_of_meets (s.admits_course clock) hmet
  exact ⟨hcheck, c, leaves, hpos, hle, hoffers, hcoherent, hdeviation⟩

/-- **A search in which an acceptable candidate is offered** has results, exhaustive or not.

**Proof sketch.** The exhaustive search has results (`exists_results_of_offers`), and a search that
is not exhaustive fails only if that one does (`error_withExhaustive`). -/
theorem exists_results_of_offers_accepted (hcheck : s.check = .ok ())
    (hresults : s.settings.maxResults = none) (htime : s.settings.timeBudget = none)
    (hlimit : s.settings.maxCandidates = none) (hsound : s.SoundPruning clock) {leaves : Nat}
    (hpos : 1 ≤ leaves) (hle : leaves ≤ s.settings.maxLeaves) {c : Candidate S Z}
    {f : Finding S Z} (h : s.Offers clock leaves c f)
    (haccepted : (s.explorer clock).accepted c = true) :
    ∃ results, (s.run clock).outcome = .ok results := by
  obtain ⟨results, hall, -⟩ := exists_results_of_offers (s := s.withExhaustive true) hcheck rfl
    hresults htime hlimit hsound hpos hle h haccepted
  have hself : s.withExhaustive s.settings.exhaustive = s := rfl
  cases hexhaustive : s.settings.exhaustive with
  | true =>
    rw [hexhaustive] at hself
    rw [hself] at hall
    exact ⟨results, hall⟩
  | false =>
    -- a search that fails would fail exhaustively as well
    rw [hexhaustive] at hself
    cases houtcome : (s.run clock).outcome with
    | ok results => exact ⟨results, rfl⟩
    | error reason =>
      have hfails := (error_withExhaustive hresults clock reason).mp (hself ▸ houtcome)
      rw [hall] at hfails
      cases hfails

/-- In exact arithmetic giving up partial networks loses no acceptable one. -/
lemma soundPruning_exact {K : Type} [Field K] [LinearOrder K] [IsStrictOrderedRing K]
    (s : Search K K) (clock : Clock) : s.SoundPruning clock := fun _ hbd =>
  ⟨monotoneReals_of_monotone Exact.ordered Exact.monotone,
    Explorer.bandHolds_of_of? hbd fun htarget _ hv => Exact.band_of_accepts _
      (Exact.positive_iff.mp htarget) (Exact.positive_iff.mp hv)⟩

/-- **Tolerances and what is found.** Take a search without limits.

* If it is exhaustive, then with a larger bound of the same kind it finds every network that it
  finds with a smaller one.
* If it finds no network and reports a closest one whose relative deviation is finite, then with
  this relative deviation as its bound it has results, and all of them are as near.

If the bounds of partial networks are in use with the new tolerance, connections are supposed to be
monotone on positive reals, and acceptable positive reals to lie in the opened band; nothing else
is supposed of the arithmetic.

**Proof sketch.** What a search meets on its course is offered by every search over the same values
(`exists_offers_of_meets`), whatever their tolerances and bounds. What is offered and acceptable
is found on its level if the search comes that far (`exists_results_of_offers`), and a search that
does not come so far has results already. -/
theorem run_tolerances [Deviation.Comparable S Z] (s : Search S Z) (clock : Clock)
    (hresults : s.settings.maxResults = none) (htime : s.settings.timeBudget = none)
    (hlimit : s.settings.maxCandidates = none) :
    (s.settings.exhaustive = true → ∀ (t : Tolerance S) (b b' : S), b ≤ b' →
      Scalar.isFinite b' = true → ¬ b' < 0 →
      (s.withTolerance (t.withBound b')).SoundPruning clock →
      ((s.withTolerance (t.withBound b)).run clock).findings.map Finding.key ⊆
        ((s.withTolerance (t.withBound b')).run clock).findings.map Finding.key) ∧
    ∀ f truncated, (s.run clock).outcome = .error (.noNetwork (some f) truncated) →
      Scalar.isFinite f.deviation.relative = true →
      (s.withTolerance (.relative f.deviation.relative)).SoundPruning clock →
      ∃ results,
        ((s.withTolerance (.relative f.deviation.relative)).run clock).outcome = .ok results ∧
        ∀ g ∈ results.findings, g.deviation.relative ≤ f.deviation.relative := by
  constructor
  · intro hexhaustive t b b' hle hfinite hneg hsound key hkey
    obtain ⟨f, hf, rfl⟩ := List.mem_map.mp hkey
    obtain ⟨hcheck, c, leaves, hpos, hsize, hoffers, haccepted⟩ :=
      exists_offers_of_mem_findings (s := s.withTolerance (t.withBound b)) hresults htime hlimit hf
    have hbound : (t.withBound b').bound = b' := by cases t <;> rfl
    have hcheck' : (s.withTolerance (t.withBound b')).check = .ok () :=
      check_withTolerance (s := s.withTolerance (t.withBound b)) (hbound.symm ▸ hfinite)
        (hbound.symm ▸ hneg) hcheck
    obtain ⟨results, houtcome, hmem⟩ :=
      exists_results_of_offers (s := s.withTolerance (t.withBound b')) hcheck' hexhaustive
        hresults htime hlimit hsound hpos hsize hoffers
        (t.accepts_withBound (Z := Z) hle haccepted)
    rwa [Report.findings, houtcome]
  · intro f truncated h hfinite hsound
    obtain ⟨hcheck, c, leaves, hpos, hsize, hoffers, hcoherent, hdeviation⟩ :=
      exists_offers_of_noNetwork htime hlimit h
    have hneg : ¬ f.deviation.relative < 0 := by
      rw [hcoherent.deviation_eq]
      exact Deviation.Comparable.not_neg _ _
    have haccepted : ((s.withTolerance
        (.relative f.deviation.relative)).explorer clock).accepted c = true := by
      show decide (c.deviation.relative ≤ f.deviation.relative) = true
      rw [← hdeviation, decide_eq_true_eq]
      exact Deviation.Comparable.le_refl Z _ hfinite
    obtain ⟨results, houtcome⟩ := exists_results_of_offers_accepted
      (s := s.withTolerance (.relative f.deviation.relative))
      (check_withTolerance hfinite hneg hcheck) hresults htime hlimit hsound hpos hsize hoffers
      haccepted
    refine ⟨results, houtcome, fun g hg => ?_⟩
    have haccepts := (coherent_of_mem_results houtcome hg).2
    exact of_decide_eq_true haccepts

/-- Three ohms are found within one half since they are found within one hundredth. Ten ohms are
missed, the best being two ohms, four fifths away, and within four fifths there are results.

**Proof sketch.** Bounds are sound in exact arithmetic (`soundPruning_exact`). What is found within
one hundredth, and the closest finding for ten ohms, are evaluated, and the rest is the theorem. -/
theorem run_tolerances_three_ohms :
    let s : Search ℚ ℚ :=
      ⟨[1, 2], { Settings.of 3 (.relative (1 / 100)) 2 with exhaustive := true }⟩
    let miss : Search ℚ ℚ := ⟨[1, 2], Settings.of 10 (.relative (1 / 100)) 2⟩
    Flat.group .series [.leaf 0, .leaf 1] ∈
        ((s.withTolerance (.relative (1 / 2))).run Clock.still).findings.map Finding.key ∧
      ∃ f truncated, (miss.run Clock.still).outcome = .error (.noNetwork (some f) truncated) ∧
        f.deviation.relative = 4 / 5 ∧
        ∃ results,
          ((miss.withTolerance (.relative (4 / 5))).run Clock.still).outcome = .ok results ∧
          ∀ g ∈ results.findings, g.deviation.relative ≤ 4 / 5 := by
  intro s miss
  constructor
  · have hlevels : ((s.withTolerance (.relative (1 / 100))).runLevels Clock.still
        (s.withTolerance (.relative (1 / 100))).settings.maxLeaves 1
        (Budget.ofSettings (s.withTolerance (.relative (1 / 100))).settings) {}).toOption.map
          (fun p => p.findings.map Finding.key) = some [.group .series [.leaf 0, .leaf 1]] := by
      decide +kernel
    have hcheck : (s.withTolerance (.relative (1 / 100))).check = .ok () := by decide +kernel
    obtain ⟨p, hrun, hkeys⟩ := exists_progress_of_runLevels hcheck hlevels
    refine (run_tolerances s Clock.still rfl rfl rfl).1 rfl (.relative 0) (1 / 100) (1 / 2)
      (by decide +kernel) rfl (by decide +kernel) (soundPruning_exact _ _) ?_
    show _ ∈ ((s.withTolerance (.relative (1 / 100))).run Clock.still).findings.map Finding.key
    rw [hrun, findings_reportOf rfl, ((Finding.ranked_perm _).map Finding.key).mem_iff,
      List.map_reverse, List.mem_reverse, hkeys]
    exact List.mem_singleton_self _
  · have hlevels : (miss.runLevels Clock.still 2 1
        (Budget.ofSettings miss.settings) {}).toOption.map
        (fun p => (p.findings.isEmpty, p.closest.map fun f => f.deviation.relative,
          p.stats.truncated)) = some (true, some (4 / 5), false) := by decide +kernel
    obtain ⟨f, houtcome, hrelative⟩ := exists_miss_of_runLevels
      (fun f => f.deviation.relative) (by decide +kernel) rfl hlevels
    have hsecond := (run_tolerances miss Clock.still rfl rfl rfl).2 f _ houtcome rfl
      (soundPruning_exact _ _)
    rw [hrelative] at hsecond
    exact ⟨f, _, houtcome, hrelative, hsecond⟩

end Search

end Ohmic
