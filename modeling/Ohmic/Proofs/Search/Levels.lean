import Ohmic.Proofs.Search.Ranking

set_option autoImplicit false

/-!
# Searches with other numbers of leaves

A search goes from one number of leaves to the next, and ends when its budget is stopped, when it
has findings and is not exhaustive, or when no number is left. Two searches that differ in the
second or in the third of these go the same way as long as both go on, so what one of them finds
can be read off the other.

## Main definitions

* `Search.withExhaustive`, `Search.withMaxLeaves` — the search with another choice of levels.
* `Progress.Grows` — the findings of some numbers of leaves were added.
* `Report.findings`, `Finding.smallest` — what a search reports, and the smallest networks of it.

## Main results

* `Search.runLevels_grows` — what levels add to the findings.
* `Search.runLevels_exhaustive` — the levels of a search and those of the exhaustive one.
* `Search.runLevels_more`, `Search.runLevels_enough` — the levels of a search and more of them.
* `Search.run_levels` — the reports of such searches.

## Implementation notes

The two searches are compared as they run, and nothing is said of where a budget stops them: it
has the same state at the same level, and so stops both of them or none.
-/

namespace Ohmic

variable {S Z : Type}

/-- The findings that a search reports, none if it has no results. -/
def Report.findings (r : Report S Z) : List (Finding S Z) :=
  match r.outcome with
  | .ok results => results.findings
  | .error _ => []

namespace Finding

/-- The findings than which no other one has fewer leaves. -/
def smallest (fs : List (Finding S Z)) : List (Finding S Z) :=
  fs.filter fun f => fs.all fun g => decide (f.leafCount ≤ g.leafCount)

/-- The findings with the fewest leaves. -/
lemma mem_smallest {fs : List (Finding S Z)} {f : Finding S Z} :
    f ∈ smallest fs ↔ f ∈ fs ∧ ∀ g ∈ fs, f.leafCount ≤ g.leafCount := by
  simp only [smallest, List.mem_filter, List.all_eq_true, decide_eq_true_eq]

/-- The findings that are added come before the old ones. -/
lemma exists_keepNew_eq (old new : List (Finding S Z)) :
    ∃ added, keepNew old new = added ++ old ∧ ∀ f ∈ added, f ∈ new := by
  induction new generalizing old with
  | nil => exact ⟨[], rfl, fun f hf => absurd hf List.not_mem_nil⟩
  | cons g new ih =>
    rw [keepNew, List.foldl_cons, ← keepNew]
    split
    · obtain ⟨added, hadded, hmem⟩ := ih old
      exact ⟨added, hadded, fun f hf => List.mem_cons_of_mem _ (hmem f hf)⟩
    · obtain ⟨added, hadded, hmem⟩ := ih (g :: old)
      refine ⟨added ++ [g], by rw [hadded, List.append_assoc, List.singleton_append], ?_⟩
      rw [List.forall_mem_append, List.forall_mem_singleton]
      exact ⟨fun f hf => List.mem_cons_of_mem _ (hmem f hf), List.mem_cons_self⟩

/-- The ranking of some of the findings is that of all of them without the others. -/
lemma ranked_eq_filter [Scalar S] [Std.TransCmp (Scalar.rank (S := S))]
    {some all : List (Finding S Z)} (hsome : (some.map key).Nodup) (hall : (all.map key).Nodup)
    {keep : Finding S Z → Bool} (hmem : ∀ f, f ∈ some ↔ f ∈ all ∧ keep f = true) :
    ranked some = (ranked all).filter keep := by
  refine eq_of_pairwise_precedes (fun f => ?_) (pairwise_ranked hsome)
    ((pairwise_ranked hall).filter keep)
  rw [(ranked_perm some).mem_iff, List.mem_filter, (ranked_perm all).mem_iff, hmem]

end Finding

/-! ## Findings of some numbers of leaves -/

/-- The findings of `q` are those of `p` and further ones, which have at least `least` leaves but
fewer than `stop`. Their keys are new. -/
structure Progress.Grows (least stop : Nat) (p q : Progress S Z) : Prop where
  /-- The findings are added. -/
  added : ∃ later, q.findings = later ++ p.findings ∧
    ∀ f ∈ later, least ≤ f.leafCount ∧ f.leafCount < stop
  /-- No key is added that is there. -/
  nodup : (p.findings.map Finding.key).Nodup → (q.findings.map Finding.key).Nodup

namespace Progress

variable {least middle stop : Nat} {p q r : Progress S Z}

/-- Nothing may be added. -/
lemma Grows.refl (least stop : Nat) (p : Progress S Z) : p.Grows least stop p where
  added := ⟨[], rfl, fun _ hf => absurd hf List.not_mem_nil⟩
  nodup := id

/-- Findings of more leaves are added after those of fewer leaves. -/
lemma Grows.trans (h : p.Grows least middle q) (h' : q.Grows middle stop r)
    (hleast : least ≤ middle) (hstop : middle ≤ stop) : p.Grows least stop r := by
  obtain ⟨later, hlater, hcount⟩ := h.added
  obtain ⟨latest, hlatest, hcount'⟩ := h'.added
  refine ⟨⟨latest ++ later, by rw [hlatest, hlater, List.append_assoc], ?_⟩, h'.nodup ∘ h.nodup⟩
  rw [List.forall_mem_append]
  exact ⟨fun f hf => ⟨hleast.trans (hcount' f hf).1, (hcount' f hf).2⟩,
    fun f hf => ⟨(hcount f hf).1, (hcount f hf).2.trans_le hstop⟩⟩

/-- A finding that was there stays. -/
lemma Grows.subset (h : p.Grows least stop q) {f : Finding S Z} (hf : f ∈ p.findings) :
    f ∈ q.findings := by
  obtain ⟨later, hlater, -⟩ := h.added
  rw [hlater]
  exact List.mem_append_right later hf

/-- A finding was there or has one of the numbers of leaves. -/
lemma Grows.mem_or (h : p.Grows least stop q) {f : Finding S Z} (hf : f ∈ q.findings) :
    f ∈ p.findings ∨ least ≤ f.leafCount ∧ f.leafCount < stop := by
  obtain ⟨later, hlater, hcount⟩ := h.added
  rw [hlater, List.mem_append] at hf
  exact hf.symm.imp_right (hcount f)

end Progress

variable [Scalar S] [Impedance S Z]

omit [Scalar S] in
/-- The finding of a complete candidate has as many leaves as its layout has slots. -/
lemma Layout.leafCount_finding {l : Layout} (hl : l.Sound) {width : Nat} {c : Candidate S Z}
    (h : l.Assigned width c.indices) (alphabet : List Z) :
    (l.finding alphabet c).leafCount = l.slots := by
  have hcount : (l.labelled c.indices).leafCount = l.slots := by
    rw [← Tree.length_leaves, leaves_labelled hl h, h.length_eq]
  exact (Tree.size_key _).trans hcount

namespace Search

/-- The search that goes on after a level with findings, or does not. -/
def withExhaustive (s : Search S Z) (exhaustive : Bool) : Search S Z :=
  { s with settings.exhaustive := exhaustive }

/-- The search with another largest number of leaves. -/
def withMaxLeaves (s : Search S Z) (count : Nat) : Search S Z :=
  { s with settings.maxLeaves := count }

variable {s : Search S Z} {clock : Clock}

/-- The findings of a level have the number of its leaves. -/
lemma leafCount_of_mem_findingsOf {g : Stage} (h : g.Valid s.alphabet.length) {f : Finding S Z}
    (hf : f ∈ s.findingsOf clock g) : f.leafCount = g.leaves := by
  obtain ⟨c, hhit, hc⟩ := List.mem_filterMap.mp hf
  obtain ⟨i, hi, hmem⟩ := List.mem_flatMap.mp hhit
  obtain ⟨l, hlayout, hl, hassigned⟩ := (h i hi).tally.hits c hmem
  rw [Candidate.finding?, hlayout, Option.map_some] at hc
  obtain rfl := Option.some.inj hc
  exact (Layout.leafCount_finding hl hassigned _).trans
    (Layout.slots_of_mem_withLeaves (List.mem_of_getElem? hlayout))

/-! ## Levels -/

section

variable (hfinite : ∀ z ∈ s.alphabet, Impedance.isFinite z = true)

include hfinite

/-- A level adds findings with the number of its leaves.

**Proof sketch.** The level is a replay of a beginning of it (`exists_begins_runLevel`), which adds
findings of its candidates only (`Finding.exists_keepNew_eq`). These have as many leaves as their
layouts have slots. -/
lemma exists_grows_runLevel (clock : Clock) (leaves : Nat) (budget : Budget)
    (p : Progress S Z) :
    ∃ b q, s.runLevel clock leaves budget p = .ok (b, q) ∧ p.Grows leaves (leaves + 1) q := by
  obtain ⟨g, b, hbegins, hlevel, -⟩ := exists_begins_runLevel clock hfinite leaves budget p
  have hvalid : g.Valid s.alphabet.length := hbegins.valid (s.valid_stage clock leaves)
  obtain ⟨q, hstage, hafter⟩ := replayStage_of_valid clock hfinite hvalid p
  rw [hstage] at hlevel
  refine ⟨b, _, hlevel, ?_⟩
  have hfindings : (if b.stopped then q.truncate else q).findings =
      Finding.keepNew p.findings (s.findingsOf clock g) := by
    rw [← List.append_nil (s.findingsOf clock g), ← List.flatMap_nil, ← List.flatMap_cons,
      ← hafter.findings]
    split <;> rfl
  obtain ⟨later, hlater, hmem⟩ := Finding.exists_keepNew_eq p.findings (s.findingsOf clock g)
  refine ⟨⟨later, hfindings.trans hlater, fun f hf => ?_⟩, fun hnodup => ?_⟩
  · have hcount : f.leafCount = leaves :=
      (leafCount_of_mem_findingsOf hvalid (hmem f hf)).trans hbegins.leaves_eq
    omega
  · rw [hfindings]
    exact Finding.nodup_keepNew hnodup

/-- **What levels add**: some levels do not fail, and add findings with the numbers of their
leaves. -/
theorem runLevels_grows (clock : Clock) (count leaves : Nat) (budget : Budget)
    (p : Progress S Z) :
    ∃ q, s.runLevels clock count leaves budget p = .ok q ∧
      p.Grows leaves (leaves + count) q := by
  induction count generalizing leaves budget p with
  | zero => exact ⟨p, rfl, .refl _ _ p⟩
  | succ count ih =>
    obtain ⟨b, p', hlevel, hgrows⟩ := exists_grows_runLevel hfinite clock leaves budget p
    rw [runLevels, hlevel]
    simp only
    split
    · obtain ⟨q, hrest, hgrows'⟩ := ih (leaves + 1) b p'
      refine ⟨q, hrest, ?_⟩
      rw [Nat.add_right_comm, Nat.add_assoc] at hgrows'
      exact hgrows.trans hgrows' (Nat.le_succ _) (by omega)
    · exact ⟨p', rfl, (hgrows.trans (.refl _ _ p') (Nat.le_succ _) (by omega))⟩

/-- **The levels of a search and those of the exhaustive one**, from a level before which nothing
was found. If the search finds nothing the exhaustive one does the same; and if it does, its
findings have one number of leaves, and the exhaustive search adds to them findings of more
leaves.

**Proof sketch.** By induction on the number of levels. As long as nothing is found both searches
go on or both are stopped. The first level with findings is the last one of the search, and what
the exhaustive one does after it only adds findings of more leaves (`runLevels_grows`). -/
theorem runLevels_exhaustive (clock : Clock) (count leaves : Nat) (budget : Budget)
    {p q q' : Progress S Z} (hnone : p.findings = [])
    (h : (s.withExhaustive false).runLevels clock count leaves budget p = .ok q)
    (h' : (s.withExhaustive true).runLevels clock count leaves budget p = .ok q') :
    (q.findings = [] → q' = q) ∧ ∃ size, (∀ f ∈ q.findings, f.leafCount = size) ∧
      q.Grows (size + 1) (leaves + count) q' := by
  induction count generalizing leaves budget p with
  | zero =>
    obtain rfl := Except.ok.inj h
    obtain rfl := Except.ok.inj h'
    refine ⟨fun _ => rfl, 0, fun f hf => ?_, .refl _ _ _⟩
    rw [hnone] at hf
    cases hf
  | succ count ih =>
    obtain ⟨b, p', hlevel, hgrows⟩ := exists_grows_runLevel hfinite clock leaves budget p
    have hlevels : ∀ exhaustive, (s.withExhaustive exhaustive).runLevel clock leaves budget p =
        .ok (b, p') := fun _ => hlevel
    have hsize : ∀ f ∈ p'.findings, f.leafCount = leaves := by
      intro f hf
      rcases hgrows.mem_or hf with hold | hcount
      · rw [hnone] at hold
        cases hold
      · omega
    have hrest : leaves + (count + 1) = leaves + 1 + count := by omega
    rw [hrest]
    rw [runLevels, hlevels] at h h'
    simp only [continues, withExhaustive, Bool.or_false, Bool.or_true, Bool.and_true] at h h'
    cases hstop : b.stopped with
    | true =>
      simp only [hstop, Bool.not_true, Bool.false_and, Bool.false_eq_true, if_false] at h h'
      obtain rfl := Except.ok.inj h
      obtain rfl := Except.ok.inj h'
      exact ⟨fun _ => rfl, leaves, hsize, .refl _ _ _⟩
    | false =>
      simp only [hstop, Bool.not_false, Bool.true_and, if_true] at h h'
      cases hfound : p'.findings with
      | nil =>
        rw [hfound, List.isEmpty_nil, if_pos rfl] at h
        exact ih (leaves + 1) b hfound h h'
      | cons f fs =>
        rw [hfound, List.isEmpty_cons, if_neg Bool.false_ne_true] at h
        obtain rfl := Except.ok.inj h
        refine ⟨fun hnil => absurd (hfound.symm.trans hnil) (List.cons_ne_nil f fs), leaves, hsize,
          ?_⟩
        obtain ⟨r, hr, hgrows'⟩ := runLevels_grows (s := s.withExhaustive true) hfinite clock count
          (leaves + 1) b p'
        obtain rfl := Except.ok.inj (h'.symm.trans hr)
        exact hgrows'

/-- **The levels of a search and more of them**: findings of more leaves are added.

**Proof sketch.** By induction on the levels of the shorter search. Both searches run the first
level alike and go on, or not, alike. When the shorter one has no levels left, the other one only
adds larger findings (`runLevels_grows`). -/
theorem runLevels_more (clock : Clock) {count more : Nat} (hmore : count ≤ more) (leaves : Nat)
    (budget : Budget) {p q q' : Progress S Z}
    (h : s.runLevels clock count leaves budget p = .ok q)
    (h' : s.runLevels clock more leaves budget p = .ok q') :
    q.Grows (leaves + count) (leaves + more) q' := by
  induction count generalizing more leaves budget p with
  | zero =>
    obtain rfl := Except.ok.inj h
    obtain ⟨r, hr, hgrows⟩ := runLevels_grows hfinite clock more leaves budget p
    obtain rfl := Except.ok.inj (h'.symm.trans hr)
    exact hgrows
  | succ count ih =>
    obtain ⟨more, rfl⟩ : ∃ k, more = k + 1 := ⟨more - 1, by omega⟩
    obtain ⟨b, p', hlevel, -⟩ := exists_grows_runLevel hfinite clock leaves budget p
    rw [runLevels, hlevel] at h h'
    by_cases hon : s.continues b p' = true
    · simp only [hon, if_true] at h h'
      have hgrows := ih (Nat.le_of_succ_le_succ hmore) (leaves + 1) b h h'
      rwa [Nat.add_right_comm, Nat.add_right_comm leaves 1] at hgrows
    · simp only [hon, if_false, Bool.false_eq_true] at h h'
      obtain rfl := Except.ok.inj h
      obtain rfl := Except.ok.inj h'
      exact .refl _ _ _

/-- **The levels of a search that finds something and more of them**: the search ends at the same
level, if it is not exhaustive.

**Proof sketch.** By induction on the levels. The search goes on only as long as nothing is found,
so it ends before its levels do, and then at the same level with more of them. -/
theorem runLevels_enough (clock : Clock) {count more : Nat} (hmore : count ≤ more) (leaves : Nat)
    (budget : Budget) {p q : Progress S Z} (hexhaustive : s.settings.exhaustive = false)
    (hnone : p.findings = []) (hsome : q.findings ≠ [])
    (h : s.runLevels clock count leaves budget p = .ok q) :
    s.runLevels clock more leaves budget p = .ok q := by
  induction count generalizing more leaves budget p with
  | zero =>
    obtain rfl := Except.ok.inj h
    exact absurd hnone hsome
  | succ count ih =>
    obtain ⟨more, rfl⟩ : ∃ k, more = k + 1 := ⟨more - 1, by omega⟩
    obtain ⟨b, p', hlevel, -⟩ := exists_grows_runLevel hfinite clock leaves budget p
    rw [runLevels, hlevel] at h ⊢
    by_cases hon : s.continues b p' = true
    · simp only [hon, if_true] at h ⊢
      rw [continues, hexhaustive, Bool.or_false, Bool.and_eq_true, List.isEmpty_iff] at hon
      exact ih (Nat.le_of_succ_le_succ hmore) (leaves + 1) b hon.2 h
    · simp only [hon, if_false, Bool.false_eq_true] at h ⊢
      exact h

end

/-! ## Reports -/

omit [Impedance S Z] in
/-- A search without a limit on results reports its findings in their ranking. -/
lemma findings_reportOf (hresults : s.settings.maxResults = none) (p : Progress S Z) :
    (s.reportOf (.ok p)).findings = Finding.ranked p.findings.reverse := by
  rw [Report.findings, reportOf, conclude_eq hresults]
  by_cases hnone : p.findings = []
  · rw [if_pos hnone, hnone, List.reverse_nil, Finding.ranked, List.mergeSort_nil]
  · rw [if_neg hnone]

/-- A search that is refused reports no findings. -/
lemma findings_of_refused {reason : SettingsError S Z} (h : s.check = .error reason) :
    (s.run clock).findings = [] := by
  rw [run, h]
  rfl

/-- A search that is not refused reports on the progress of its levels. -/
lemma exists_grows_run (clock : Clock) (hcheck : s.check = .ok ()) :
    ∃ p, s.runLevels clock s.settings.maxLeaves 1 (Budget.ofSettings s.settings) {} = .ok p ∧
      s.run clock = s.reportOf (.ok p) ∧
      Progress.Grows 1 (1 + s.settings.maxLeaves) {} p := by
  obtain ⟨p, hlevels, hgrows⟩ := runLevels_grows (check_eq_ok hcheck).2.1 clock
    s.settings.maxLeaves 1 (Budget.ofSettings s.settings) {}
  exact ⟨p, hlevels, by rw [run_of_check hcheck, hlevels], hgrows⟩

/-- The largest number of leaves has no part in a given number of levels. -/
lemma runLevels_withMaxLeaves (m count leaves : Nat) (budget : Budget) (p : Progress S Z) :
    (s.withMaxLeaves m).runLevels clock count leaves budget p =
      s.runLevels clock count leaves budget p := by
  have hlevel : ∀ leaves budget p, (s.withMaxLeaves m).runLevel clock leaves budget p =
      s.runLevel clock leaves budget p := fun _ _ _ => rfl
  exact runLevels_congr hlevel (fun _ _ => rfl) count leaves budget p

/-- Two numbers of leaves in the allowed range are refused for the same other reason, if any. -/
lemma check_withMaxLeaves {m more : Nat} (hm : 1 ≤ m) (hmore : m ≤ more)
    (hle : more ≤ maxLeafCount) : (s.withMaxLeaves m).check = (s.withMaxLeaves more).check := by
  have hm' : ¬ (m < 1 ∨ maxLeafCount < m) := by omega
  have hmore' : ¬ (more < 1 ∨ maxLeafCount < more) := by omega
  simp only [check, Settings.check, withMaxLeaves, hm', hmore', if_false]
  rfl

/-- A search that is not refused and the exhaustive one: if nothing is found they have one progress,
and else the exhaustive one adds findings of more leaves. -/
lemma exists_runs_withExhaustive (clock : Clock) (hcheck : s.check = .ok ()) :
    ∃ q q', (s.withExhaustive false).run clock = s.reportOf (.ok q) ∧
      (s.withExhaustive true).run clock = s.reportOf (.ok q') ∧
      (q.findings.map Finding.key).Nodup ∧ (q'.findings.map Finding.key).Nodup ∧
      (q.findings = [] → q' = q) ∧ ∃ size, (∀ f ∈ q.findings, f.leafCount = size) ∧
        q.Grows (size + 1) (1 + s.settings.maxLeaves) q' := by
  obtain ⟨q, hq, hrun, hgrows⟩ := exists_grows_run (s := s.withExhaustive false) clock hcheck
  obtain ⟨q', hq', hrun', hgrows'⟩ := exists_grows_run (s := s.withExhaustive true) clock hcheck
  exact ⟨q, q', hrun, hrun', hgrows.nodup List.nodup_nil, hgrows'.nodup List.nodup_nil,
    runLevels_exhaustive (check_eq_ok hcheck).2.1 clock s.settings.maxLeaves 1
      (Budget.ofSettings s.settings) rfl hq hq'⟩

/-- **A search and the exhaustive one fail alike.**

**Proof sketch.** A refused search is refused either way. Otherwise the exhaustive search has all
findings of the other one, and if that one has none, both have the same progress
(`exists_runs_withExhaustive`). -/
theorem error_withExhaustive (hresults : s.settings.maxResults = none) (clock : Clock)
    (error : SearchError S Z) :
    ((s.withExhaustive false).run clock).outcome = .error error ↔
      ((s.withExhaustive true).run clock).outcome = .error error := by
  cases hcheck : s.check with
  | error reason =>
    have hrun : ∀ exhaustive, (s.withExhaustive exhaustive).run clock =
        ⟨[], .error (.settings reason)⟩ := fun exhaustive => by
      rw [run, show (s.withExhaustive exhaustive).check = .error reason from hcheck]
    rw [hrun, hrun]
  | ok u =>
    obtain ⟨q, q', hrun, hrun', -, -, hnone, size, -, hlater⟩ :=
      exists_runs_withExhaustive clock hcheck
    rw [hrun, hrun']
    by_cases hempty : q.findings = []
    · rw [hnone hempty]
    · obtain ⟨g, hg⟩ := List.exists_mem_of_ne_nil _ hempty
      have hempty' : q'.findings ≠ [] := List.ne_nil_of_mem (hlater.subset hg)
      simp only [reportOf, conclude_eq hresults, if_neg hempty, if_neg hempty', reduceCtorEq]

/-- **The results of a search** are the smallest ones of the exhaustive search.

**Proof sketch.** The exhaustive search goes through the same levels and on from there
(`exists_runs_withExhaustive`). So all findings of the search are of one size and are kept, and what
the exhaustive one finds besides is larger. If the search finds nothing, so does the other one. Both
reports are ranked, and a ranked list is determined by its findings (`Finding.ranked_eq_filter`). -/
theorem findings_withExhaustive [Std.TransCmp (Scalar.rank (S := S))]
    (hresults : s.settings.maxResults = none) (clock : Clock) :
    ((s.withExhaustive false).run clock).findings =
      Finding.smallest ((s.withExhaustive true).run clock).findings := by
  cases hcheck : s.check with
  | error reason =>
    rw [findings_of_refused (s := s.withExhaustive false) hcheck,
      findings_of_refused (s := s.withExhaustive true) hcheck]
    rfl
  | ok u =>
    obtain ⟨q, q', hrun, hrun', hkeys, hkeys', hnone, size, hsize, hlater⟩ :=
      exists_runs_withExhaustive clock hcheck
    rw [hrun, hrun', findings_reportOf hresults, findings_reportOf hresults]
    refine Finding.ranked_eq_filter ?_ ?_ fun f => ?_
    · rwa [List.map_reverse, List.nodup_reverse]
    · rwa [List.map_reverse, List.nodup_reverse]
    · simp only [List.mem_reverse, List.all_eq_true, decide_eq_true_eq,
        (Finding.ranked_perm _).mem_iff]
      constructor
      · intro hf
        refine ⟨hlater.subset hf, fun f' hf' => ?_⟩
        rw [hsize f hf]
        rcases hlater.mem_or hf' with hold | ⟨hlt, -⟩
        · exact (hsize f' hold).ge
        · omega
      · rintro ⟨hf, hleast⟩
        rcases hlater.mem_or hf with hold | ⟨hlt, -⟩
        · exact hold
        · -- a later finding is larger than the ones of the search
          have hempty : q.findings ≠ [] := fun hempty => by
            rw [hnone hempty, hempty] at hf
            cases hf
          obtain ⟨g, hg⟩ := List.exists_mem_of_ne_nil _ hempty
          have hle := hleast g (hlater.subset hg)
          rw [hsize g hg] at hle
          omega

/-- **A search and one for larger networks**: the search reports those results of the other one that
are not too large.

**Proof sketch.** Both searches run the same first levels, after which one ends and the other one
may go on (`runLevels_more`). What was found up to then is kept, and every later finding has more
than `m` leaves. As all findings have different keys and are ranked, the report of the one is a part
of that of the other (`Finding.ranked_eq_filter`). Searches that are refused, and `m = 0`, report
nothing. -/
theorem run_withMaxLeaves [Std.TransCmp (Scalar.rank (S := S))]
    (hresults : s.settings.maxResults = none) (clock : Clock) {m more : Nat} (hmore : m ≤ more)
    (hle : more ≤ maxLeafCount) :
    ((s.withMaxLeaves m).run clock).findings =
      ((s.withMaxLeaves more).run clock).findings.filter fun f => decide (f.leafCount ≤ m) := by
  have hreport : ∀ n p, (s.withMaxLeaves n).reportOf (.ok p) = s.reportOf (.ok p) :=
    fun _ _ => rfl
  cases hcheck : (s.withMaxLeaves more).check with
  | error reason =>
    have hnone : ((s.withMaxLeaves m).run clock).findings = [] := by
      cases hcheck' : (s.withMaxLeaves m).check with
      | error reason' => exact findings_of_refused hcheck'
      | ok u =>
        have hm : 1 ≤ m := (check_eq_ok hcheck').2.2
        rw [check_withMaxLeaves hm hmore hle, hcheck] at hcheck'
        cases hcheck'
    rw [hnone, findings_of_refused hcheck, List.filter_nil]
  | ok u =>
    obtain ⟨q', hq', hrun', hgrows'⟩ := exists_grows_run clock hcheck
    rw [runLevels_withMaxLeaves] at hq'
    rw [hrun', hreport, findings_reportOf hresults]
    rcases Nat.eq_zero_or_pos m with rfl | hm
    · -- a search for no leaves is refused, and no network has no leaves
      have hnone : ((s.withMaxLeaves 0).run clock).findings = [] := by
        cases hcheck' : (s.withMaxLeaves 0).check with
        | error reason' => exact findings_of_refused hcheck'
        | ok u => exact absurd (check_eq_ok hcheck').2.2 (Nat.not_succ_le_zero 0)
      rw [hnone, eq_comm, List.filter_eq_nil_iff]
      intro f hf
      rw [(Finding.ranked_perm _).mem_iff, List.mem_reverse] at hf
      rw [decide_eq_true_eq]
      rcases hgrows'.mem_or hf with hold | ⟨hle, -⟩
      · cases hold
      · omega
    · rw [← check_withMaxLeaves hm hmore hle] at hcheck
      obtain ⟨q, hq, hrun, hgrows⟩ := exists_grows_run clock hcheck
      rw [runLevels_withMaxLeaves] at hq
      have hlater : q.Grows (1 + m) (1 + more) q' :=
        runLevels_more (s := s) (check_eq_ok hcheck).2.1 clock hmore 1 _ hq hq'
      rw [hrun, hreport, findings_reportOf hresults]
      refine Finding.ranked_eq_filter ?_ ?_ fun f => ?_
      · rw [List.map_reverse, List.nodup_reverse]
        exact hgrows.nodup List.nodup_nil
      · rw [List.map_reverse, List.nodup_reverse]
        exact hgrows'.nodup List.nodup_nil
      · rw [List.mem_reverse, List.mem_reverse, decide_eq_true_eq]
        constructor
        · intro hf
          rcases hgrows.mem_or hf with hold | ⟨-, hlt⟩
          · cases hold
          · exact ⟨hlater.subset hf, Nat.le_of_lt_succ (hlt.trans_eq (Nat.add_comm 1 m))⟩
        · rintro ⟨hf, hcount⟩
          rcases hlater.mem_or hf with hold | ⟨hlt, -⟩
          · exact hold
          · omega

/-- **A search with results and one for larger networks** have the same results, if they are not
exhaustive.

**Proof sketch.** Neither search is refused. A search that is not exhaustive ends after the first
level with findings, so more levels make no difference (`runLevels_enough`). -/
theorem run_withMaxLeaves_of_ok (hexhaustive : s.settings.exhaustive = false) (clock : Clock)
    {m more : Nat} (hmore : m ≤ more) (hle : more ≤ maxLeafCount) {results : Results S Z}
    (h : ((s.withMaxLeaves m).run clock).outcome = .ok results) :
    ((s.withMaxLeaves more).run clock).outcome = .ok results := by
  have hcheck : (s.withMaxLeaves m).check = .ok () :=
    check_of_outcome h fun reason hr => by cases hr
  have hm : 1 ≤ m := (check_eq_ok hcheck).2.2
  have hcheck' := (check_withMaxLeaves hm hmore hle).symm.trans hcheck
  obtain ⟨q, hq, hrun, -⟩ := exists_grows_run clock hcheck
  rw [runLevels_withMaxLeaves] at hq
  rw [hrun] at h
  have hsome : q.findings ≠ [] := by
    rintro hnone
    rw [reportOf, conclude, hnone] at h
    cases h
  have hmore' : s.runLevels clock more 1 (Budget.ofSettings s.settings) {} = .ok q :=
    runLevels_enough (s := s) (check_eq_ok hcheck).2.1 clock hmore 1 _ hexhaustive rfl hsome hq
  rw [run_of_check hcheck', runLevels_withMaxLeaves]
  exact (congrArg (fun r => (s.reportOf r).outcome) hmore').trans h

/-- **The choice of levels is consistent.** Take any search without a limit on results, whatever
the limits of its budget and whatever the clock shows.

* The search that is not exhaustive and the exhaustive one fail with the same errors: they are
  refused for the same reason, or report the same closest finding, and both were stopped or
  neither. If they have results, those of the first are the smallest ones of the second.
* With a smaller number of leaves allowed, the exhaustive search has those results that are not
  larger than that. If the search that is not exhaustive has results then, it has the same results
  and the same counters with more leaves allowed.

**Proof sketch.** Both searches of a pair do the same at the same level as long as both go on. Where
one of them ends first, the other one adds findings of more leaves and leaves the earlier ones as
they are (`runLevels_exhaustive`, `runLevels_more`, `runLevels_enough`), and in the ranking
findings of fewer leaves come first. -/
theorem run_levels [Std.TransCmp (Scalar.rank (S := S))] (s : Search S Z) (clock : Clock)
    (hresults : s.settings.maxResults = none) :
    ((∀ error, ((s.withExhaustive false).run clock).outcome = .error error ↔
        ((s.withExhaustive true).run clock).outcome = .error error) ∧
      ((s.withExhaustive false).run clock).findings =
        Finding.smallest ((s.withExhaustive true).run clock).findings) ∧
    ∀ m more, m ≤ more → more ≤ maxLeafCount →
      (((s.withExhaustive true).withMaxLeaves m).run clock).findings =
        (((s.withExhaustive true).withMaxLeaves more).run clock).findings.filter
          (fun f => decide (f.leafCount ≤ m)) ∧
      ∀ results, (((s.withExhaustive false).withMaxLeaves m).run clock).outcome = .ok results →
        (((s.withExhaustive false).withMaxLeaves more).run clock).outcome = .ok results :=
  ⟨⟨error_withExhaustive hresults clock, findings_withExhaustive hresults clock⟩,
    fun _ _ hmore hle =>
    ⟨run_withMaxLeaves (s := s.withExhaustive true) hresults clock hmore hle, fun _ =>
      run_withMaxLeaves_of_ok (s := s.withExhaustive false) rfl clock hmore hle⟩⟩

/-- Two ohms are one part, or two parts of one ohm. The search goes on to the second network if it
is exhaustive, and is stopped after it.

**Proof sketch.** The keys that the exhaustive search finds, and that it is truncated, are
evaluated; how the other searches compare to it is the theorem. -/
theorem run_levels_two_ohms :
    let s : Search Float Float :=
      ⟨[1, 2], { Settings.of 2 (.relative 0.01) 2 with maxCandidates := some 3 }⟩
    s.settings.maxResults = none ∧
      (((s.withExhaustive true).run Clock.still).findings.map Finding.key).Perm
        [.leaf 1, .group .series [.leaf 0, .leaf 0]] ∧
      ((s.withExhaustive true).run Clock.still).truncated = true ∧
      ((s.withExhaustive false).run Clock.still).findings =
        Finding.smallest ((s.withExhaustive true).run Clock.still).findings ∧
      1 ≤ 2 ∧ 2 ≤ maxLeafCount ∧
      (((s.withExhaustive true).withMaxLeaves 1).run Clock.still).findings =
        (((s.withExhaustive true).withMaxLeaves 2).run Clock.still).findings.filter
          (fun f => decide (f.leafCount ≤ 1)) := by
  intro s
  obtain ⟨⟨-, hsmallest⟩, hmore⟩ := run_levels s Clock.still rfl
  have hle : 2 ≤ maxLeafCount := by decide
  have hlevels : ((s.withExhaustive true).runLevels Clock.still
      (s.withExhaustive true).settings.maxLeaves 1
      (Budget.ofSettings (s.withExhaustive true).settings) {}).toOption.map
        (fun p => (p.findings.reverse.map Finding.key, p.stats.truncated)) =
      some ([.leaf 1, .group .series [.leaf 0, .leaf 0]], true) := by
    decide +kernel
  have hcheck : (s.withExhaustive true).check = .ok () := by decide +kernel
  obtain ⟨p, hrun, hview⟩ := exists_progress_of_runLevels hcheck hlevels
  obtain ⟨hkeys, htruncated⟩ := Prod.mk.inj hview
  refine ⟨rfl, ?_, ?_, hsmallest, by decide, hle, (hmore 1 2 (by decide) hle).1⟩
  · rw [hrun, findings_reportOf rfl, ← hkeys]
    exact (Finding.ranked_perm _).map Finding.key
  · rw [hrun, truncated_reportOf, htruncated]

end Search

end Ohmic
