import Ohmic.Number.Binary64
import Ohmic.Proofs.Circuit.FlatOrder
import Ohmic.Proofs.Search.Interrupted

set_option autoImplicit false

/-!
# The ranking of results

Results are ranked by their number of leaves, then by relative deviation, then by key. No two of
them have one key, so each of them comes strictly before all later ones, and no other list of the
same results does so. A limit on results keeps the first ones and changes nothing else.

## Main definitions

* `Finding.Precedes` — a finding is ranked strictly before another one.
* `Search.withResults`, `Report.take` — the search with another limit on results, and the report
  with its first results.

## Main results

* `Finding.pairwise_ranked` — ranked findings with different keys are strictly in order.
* `Finding.eq_of_pairwise_precedes` — there is only one such list of the same findings.
* `Search.run_withResults` — the search with a limit on results.
* `Search.run_ranked` — the results of a search.

## Implementation notes

Relative deviations are compared by `Scalar.rank`, which orders all doubles, the undefined ones
included. That it is an order is assumed of other scalars.
-/

namespace Ohmic

/-- The ranking of doubles is a total order. -/
instance instTransCmpRankFloat : Std.TransCmp (Scalar.rank (S := Float)) :=
  inferInstanceAs (Std.TransCmp (compareOn Binary64.orderKey))

variable {S Z : Type} [Scalar S]

namespace Finding

/-- **The strict order of findings**: fewer leaves, or as many and a smaller relative deviation, or
the same of that too and a smaller key. -/
def Precedes (f g : Finding S Z) : Prop :=
  f.leafCount < g.leafCount ∨ f.leafCount = g.leafCount ∧
    (Scalar.rank f.deviation.relative g.deviation.relative = .lt ∨
      Scalar.rank f.deviation.relative g.deviation.relative = .eq ∧ f.key.compare g.key = .lt)

/-- The comparison of findings decides their strict order. -/
lemma compare_eq_lt_iff {f g : Finding S Z} : f.compare g = .lt ↔ f.Precedes g := by
  simp only [Finding.compare, Ordering.then_eq_lt, Nat.compare_eq_lt, Nat.compare_eq_eq, Precedes]

/-- Findings that compare equal have one key. -/
lemma key_eq_of_compare {f g : Finding S Z} (h : f.compare g = .eq) : f.key = g.key := by
  rw [Finding.compare, Ordering.then_eq_eq, Ordering.then_eq_eq] at h
  exact Std.LawfulEqCmp.eq_of_compare h.2.2

variable [Std.TransCmp (Scalar.rank (S := S))]

/-- The comparison of relative deviations is a total order. -/
instance instTransCmpRankRelative : Std.TransCmp fun f g : Finding S Z =>
    Scalar.rank f.deviation.relative g.deviation.relative where
  eq_swap {f g} := (Std.OrientedCmp.eq_swap :
    Scalar.rank f.deviation.relative g.deviation.relative = _)
  isLE_trans {_ _ _} hfg hgh := Std.TransCmp.isLE_trans hfg hgh

/-- The comparison of findings is a total order. -/
instance instTransCmpFinding : Std.TransCmp (Finding.compare (S := S) (Z := Z)) :=
  have : Std.TransOrd (Flat Nat) := inferInstanceAs (Std.TransCmp Flat.compare)
  inferInstanceAs (Std.TransCmp (compareLex (compareOn leafCount)
    (compareLex (fun f g : Finding S Z => Scalar.rank f.deviation.relative g.deviation.relative)
      (compareOn key))))

/-- The strict order of findings is one. -/
instance instIsStrictOrderPrecedes : IsStrictOrder (Finding S Z) Precedes where
  irrefl f h := by
    have hself : f.compare f = .eq := Std.ReflCmp.compare_self
    rw [← compare_eq_lt_iff, hself] at h
    cases h
  trans f g h hfg hgh := by
    rw [← compare_eq_lt_iff] at hfg hgh ⊢
    exact Std.TransCmp.lt_trans hfg hgh

/-- Of two findings with different keys one comes first. -/
lemma precedes_or_precedes {f g : Finding S Z} (h : f.key ≠ g.key) :
    f.Precedes g ∨ g.Precedes f := by
  rw [← compare_eq_lt_iff, ← compare_eq_lt_iff]
  cases hcompare : f.compare g with
  | lt => exact .inl rfl
  | eq => exact absurd (key_eq_of_compare hcompare) h
  | gt => exact .inr (Std.OrientedCmp.lt_of_gt hcompare)

/-- **Ranked findings with different keys** are strictly in order.

**Proof sketch.** Ranked findings are sorted, and their keys are still different. Findings that
compare equal have the same key (`key_eq_of_compare`), so each comes strictly before the later
ones. -/
theorem pairwise_ranked {findings : List (Finding S Z)} (h : (findings.map key).Nodup) :
    (ranked findings).Pairwise Precedes := by
  have hordered : (ranked findings).Pairwise fun f g => (f.compare g).isLE = true := by
    refine List.pairwise_mergeSort (fun f g h => ?_) (fun f g => ?_) findings
    · exact Std.TransCmp.isLE_trans
    · have hswap : g.compare f = (f.compare g).swap := Std.OrientedCmp.eq_swap
      rw [hswap, Bool.or_eq_true]
      cases f.compare g <;> decide
  have hkeys : (ranked findings).Pairwise fun f g => f.key ≠ g.key := by
    rw [← List.pairwise_map]
    exact ((ranked_perm findings).map key).nodup_iff.mpr h
  refine (hordered.and hkeys).imp fun {f g} ⟨hle, hne⟩ => ?_
  rw [← compare_eq_lt_iff]
  rcases Ordering.isLE_iff_eq_lt_or_eq_eq.mp hle with hlt | heq
  · exact hlt
  · exact absurd (key_eq_of_compare heq) hne

/-- Findings that are strictly in order have no duplicates. -/
lemma nodup_of_pairwise_precedes {findings : List (Finding S Z)}
    (h : findings.Pairwise Precedes) : findings.Nodup := by
  refine h.imp fun {f g} hfg heq => ?_
  subst heq
  exact irrefl_of Precedes f hfg

/-- **There is one ranking** of given findings: two lists of the same findings that are both
strictly in order are the same list. -/
theorem eq_of_pairwise_precedes {fs gs : List (Finding S Z)} (hmem : ∀ f, f ∈ fs ↔ f ∈ gs)
    (hf : fs.Pairwise Precedes) (hg : gs.Pairwise Precedes) : fs = gs := by
  have hperm : fs.Perm gs := (List.perm_ext_iff_of_nodup (nodup_of_pairwise_precedes hf)
    (nodup_of_pairwise_precedes hg)).mpr hmem
  exact hperm.eq_of_pairwise (fun f g _ _ hfg hgf => absurd hgf (asymm_of Precedes hfg)) hf hg

/-- Findings that are strictly in order are the ranking of any list of them. -/
lemma ranked_eq_of_perm {found findings : List (Finding S Z)} (hperm : found.Perm findings)
    (hkeys : (findings.map key).Nodup) (h : findings.Pairwise Precedes) :
    ranked found = findings := by
  refine eq_of_pairwise_precedes (fun f => ?_) (pairwise_ranked ?_) h
  · rw [(ranked_perm found).mem_iff, hperm.mem_iff]
  · exact (hperm.map key).nodup_iff.mpr hkeys

end Finding

/-! ## A limit on results -/

omit [Scalar S] in
/-- The first results; the counters stay. -/
def Results.take (n : Nat) (r : Results S Z) : Results S Z :=
  { r with findings := r.findings.take n }

/-- The report with its first results; the levels, the counters and an error stay. -/
def Report.take (n : Nat) (r : Report S Z) : Report S Z :=
  { r with outcome := r.outcome.map (Results.take n) }

variable [Impedance S Z]

namespace Search

/-- The search with another limit on results. -/
def withResults (s : Search S Z) (limit : Option Nat) : Search S Z :=
  { s with settings.maxResults := limit }

variable {s : Search S Z} {clock : Clock}

/-- The limit on results has no part in the levels. -/
lemma runLevels_withResults (limit : Option Nat) (count leaves : Nat) (budget : Budget)
    (p : Progress S Z) :
    (s.withResults limit).runLevels clock count leaves budget p =
      s.runLevels clock count leaves budget p := by
  have hlevel : ∀ leaves budget p, (s.withResults limit).runLevel clock leaves budget p =
      s.runLevel clock leaves budget p := fun _ _ _ => rfl
  exact runLevels_congr hlevel (fun _ _ => rfl) count leaves budget p

omit [Impedance S Z] in
/-- The limit keeps the first results of a finished search. -/
lemma reportOf_withResults (n : Nat) (r : Except Defect (Progress S Z)) :
    (s.withResults (some n)).reportOf r = ((s.withResults none).reportOf r).take n := by
  cases r with
  | error defect => rfl
  | ok p =>
    have hconclude : (s.withResults (some n)).conclude p =
        ((s.withResults none).conclude p).map (Results.take n) := by
      simp only [conclude, withResults]
      split <;> rfl
    rw [reportOf, hconclude, Report.take]
    rfl

/-- A limit other than zero is no reason to refuse a search. -/
lemma check_withResults {n : Nat} (hn : 0 < n) :
    (s.withResults (some n)).check = (s.withResults none).check := by
  have hsome : (some n = some 0) = False := by
    rw [Option.some.injEq, eq_iff_iff, iff_false]
    omega
  simp only [check, Settings.check, withResults, hsome, reduceCtorEq, if_false]
  rfl

/-- **A limit on results** keeps the first ones, and changes nothing else. -/
theorem run_withResults {n : Nat} (hn : 0 < n) (s : Search S Z) (clock : Clock) :
    (s.withResults (some n)).run clock = ((s.withResults none).run clock).take n := by
  have hlevels : (s.withResults (some n)).runLevels clock s.settings.maxLeaves 1
      (Budget.ofSettings s.settings) {} = (s.withResults none).runLevels clock
        s.settings.maxLeaves 1 (Budget.ofSettings s.settings) {} := by
    rw [runLevels_withResults, runLevels_withResults]
  cases hcheck : (s.withResults none).check with
  | error reason =>
    rw [run, run, check_withResults hn, hcheck]
    rfl
  | ok u =>
    rw [run_of_check hcheck, run_of_check ((check_withResults hn).trans hcheck)]
    exact (congrArg _ hlevels).trans (reportOf_withResults n _)

/-! ## The results of a search -/

/-- **Results are strictly ranked.** Findings are strictly ordered, and any two of them with
different keys are in order one way or the other. Whatever interrupts a search, its results are
strictly in order, no two of them have one key, no other list of the same results is strictly in
order, and ranking them again in any order gives the same list. A limit on results keeps the first
ones; the levels, the counters and the errors are those of the search without the limit.

**Proof sketch.** The findings of a replay have different keys, so the ranking, which is in order,
is strictly in order (`Finding.pairwise_ranked`), and so are its first findings. The limit has no
part in a search before its end (`run_withResults`). -/
theorem run_ranked [Std.TransCmp (Scalar.rank (S := S))] (s : Search S Z) (clock : Clock) :
    (IsStrictOrder (Finding S Z) Finding.Precedes ∧
      ∀ f g : Finding S Z, f.key ≠ g.key → f.Precedes g ∨ g.Precedes f) ∧
    (∀ results, (s.run clock).outcome = .ok results →
      results.findings.Pairwise Finding.Precedes ∧
      (results.findings.map Finding.key).Nodup ∧
      (∀ others : List (Finding S Z), (∀ f, f ∈ others ↔ f ∈ results.findings) →
        others.Pairwise Finding.Precedes → others = results.findings) ∧
      ∀ found, found.Perm results.findings → Finding.ranked found = results.findings) ∧
    ∀ n, 0 < n →
      (s.withResults (some n)).run clock = ((s.withResults none).run clock).take n := by
  refine ⟨⟨inferInstance, fun f g => Finding.precedes_or_precedes⟩, fun results h => ?_,
    fun n hn => run_withResults hn s clock⟩
  obtain ⟨hcheck, course, p, hadmits, hreplay, hfirst⟩ := exists_replay_of_results h
  have hkeys : (p.findings.reverse.map Finding.key).Nodup := by
    rw [List.map_reverse, List.nodup_reverse, (after_of_replay hcheck hadmits hreplay).findings]
    exact Finding.nodup_keepNew List.nodup_nil
  have hranked := Finding.pairwise_ranked hkeys
  have hordered : results.findings.Pairwise Finding.Precedes := hranked.sublist hfirst.sublist
  have hnodup : (results.findings.map Finding.key).Nodup :=
    (((Finding.ranked_perm _).map Finding.key).nodup_iff.mpr hkeys).sublist
      (hfirst.sublist.map Finding.key)
  exact ⟨hordered, hnodup,
    fun others hmem hothers => Finding.eq_of_pairwise_precedes hmem hothers hordered,
    fun found hperm => Finding.ranked_eq_of_perm hperm hnodup hordered⟩

/-- Two parts of one ohm make two ohms in three ways, which differ in their keys only. -/
theorem run_ranked_two_ohms :
    let s : Search Float Float := ⟨[1, 1], Settings.of 2 (.relative 0.01) 2⟩
    (∃ results, (s.run Clock.still).outcome = .ok results ∧
        (results.findings.map Finding.key).Perm [.group .series [.leaf 0, .leaf 0],
          .group .series [.leaf 0, .leaf 1], .group .series [.leaf 1, .leaf 1]] ∧
        results.findings.Pairwise Finding.Precedes) ∧
      0 < 2 ∧
        (s.withResults (some 2)).run Clock.still = ((s.withResults none).run Clock.still).take 2 := by
  intro s
  obtain ⟨-, hranked, htake⟩ := run_ranked s Clock.still
  refine ⟨?_, by decide, htake 2 (by decide)⟩
  have hlevels : (s.runLevels Clock.still 2 1 (Budget.ofSettings s.settings) {}).toOption.map
      (fun p => p.findings.reverse.map Finding.key) = some [.group .series [.leaf 0, .leaf 0],
        .group .series [.leaf 0, .leaf 1], .group .series [.leaf 1, .leaf 1]] := by
    decide +kernel
  obtain ⟨p, hrun, hkeys⟩ := exists_progress_of_runLevels (by decide +kernel) hlevels
  have hsome : p.findings ≠ [] := fun hempty => by
    rw [hempty] at hkeys
    cases hkeys
  have houtcome : (s.run Clock.still).outcome =
      .ok ⟨Finding.ranked p.findings.reverse, p.stats⟩ := by
    rw [hrun, reportOf, conclude_eq rfl, if_neg hsome]
  refine ⟨_, houtcome, ?_, (hranked _ houtcome).1⟩
  rw [← hkeys]
  exact (Finding.ranked_perm _).map Finding.key

end Search

end Ohmic
