import Ohmic.Proofs.Circuit.Reading
import Ohmic.Proofs.Search.Interrupted

set_option autoImplicit false

/-!
# Reported networks are coherent

A search computes the impedance of a candidate from tokens that it overwrites in place, and makes
the forms of a finding later, from the indices it saved. All of these are of one network: the
impedance that is reported is the one that the reported tree and its postfix form evaluate to.

## Main definitions

* `Search.Meets` — a course meets a candidate, of which there is a finding.
* `Finding.Coherent` — all that is said of a finding is said of one network over the alphabet.

## Main results

* `Search.exists_accepted_of_mem_findings`, `Search.exists_meets_of_closest` — what a replay
  reports was met on its course.
* `Search.coherent_of_meets` — a candidate that was met has a coherent finding.
* `Search.coherent_of_mem_results` — and so is every result, which also is acceptable.
* `Search.coherent_of_noNetwork` — and the closest finding of a search without results, which is
  not.
* `Search.run_coherent` — every reported finding is coherent, whatever interrupts the search.
-/

namespace Ohmic

variable {S Z : Type} [Scalar S] [Impedance S Z]

/-- **A coherent finding** of a search: its forms are those of one network over the alphabet, and
its impedance is that of this network. -/
structure Finding.Coherent (s : Search S Z) (f : Finding S Z) : Prop where
  /-- The tree has the impedance. -/
  evaluate_tree : f.tree.evaluate = .ok f.impedance
  /-- So has the postfix form, whatever the machine held before. -/
  evaluate_form : ∀ m : Machine Z, (m.evaluate f.form.tokens).1 = .ok f.impedance
  /-- The postfix form is read as the tree. -/
  toTree_form : f.form.toTree = .ok f.tree
  /-- The deviation is that of the impedance from the target. -/
  deviation_eq : f.deviation = Deviation.of f.impedance s.settings.target
  /-- Every leaf is a value of the alphabet. -/
  leaves_mem : ∀ z ∈ f.tree.leaves, z ∈ s.alphabet
  /-- The tree has the number of leaves. -/
  leafCount_tree : f.tree.leafCount = f.leafCount
  /-- So has the flat form. -/
  size_network : f.network.size = f.leafCount
  /-- There is a leaf. -/
  leafCount_pos : 1 ≤ f.leafCount
  /-- There are no more leaves than allowed. -/
  leafCount_le : f.leafCount ≤ s.settings.maxLeaves
  /-- Tree, key and flat form are made from one tree over indices. -/
  indexed : ∃ t : Tree Nat, t.mapM? (fun index => s.alphabet[index]?) = some f.tree ∧
    t.flatten.canonical = f.key ∧ f.key.mapM? (fun index => s.alphabet[index]?) = some f.network

/-- A candidate met in a valid work item has a finding, that of its layout. -/
lemma Item.Valid.finding?_eq {x : Explorer S Z} {layouts : List Layout} {alphabet : List Z}
    {width : Nat} {i : Item} (h : i.Valid layouts width) {c : Candidate S Z}
    (hc : c ∈ (Step.candidates i.steps).filterMap (x.candidate? i.layout i.place)) :
    c.finding? layouts alphabet = some (i.layout.finding alphabet c) := by
  obtain ⟨indices, -, hsome⟩ := List.mem_filterMap.mp hc
  obtain ⟨value, -, rfl⟩ := Option.map_eq_some_iff.mp hsome
  rw [Candidate.finding?, h.at_place, Option.map_some]

namespace Search

/-! ## What a course meets -/

/-- On the course of a search a candidate with an impedance is met, of which `f` is the finding. -/
def Meets (s : Search S Z) (clock : Clock) (course : Course) (c : Candidate S Z)
    (f : Finding S Z) : Prop :=
  ∃ g ∈ course, ∃ i ∈ g.items,
    c ∈ (Step.candidates i.steps).filterMap ((s.explorer clock).candidate? i.layout i.place) ∧
      f = i.layout.finding s.alphabet c

section

variable {s : Search S Z} {clock : Clock} {course : Course} {c : Candidate S Z} {f : Finding S Z}

/-- What is met on a level of a course is met on the course. -/
lemma Meets.of_mem {g : Stage} (hg : g ∈ course) (h : s.Meets clock [g] c f) :
    s.Meets clock course c f := by
  obtain ⟨g', hg', hmet⟩ := h
  obtain rfl := List.mem_singleton.mp hg'
  exact ⟨g', hg, hmet⟩

/-- The findings of a course are those of its acceptable candidates. -/
lemma mem_findingsOf_iff (hadmits : s.Admits course) :
    f ∈ course.flatMap (s.findingsOf clock) ↔
      ∃ c, s.Meets clock course c f ∧ (s.explorer clock).accepted c = true := by
  rw [List.mem_flatMap]
  constructor
  · rintro ⟨g, hg, hmem⟩
    obtain ⟨c, hhit, hf⟩ := List.mem_filterMap.mp hmem
    obtain ⟨i, hi, hc⟩ := List.mem_flatMap.mp hhit
    rw [Explorer.tally, Explorer.hits_tallyOf, List.mem_filter] at hc
    rw [((hadmits g hg).1 i hi).finding?_eq hc.1] at hf
    exact ⟨c, ⟨g, hg, i, hi, hc.1, (Option.some.inj hf).symm⟩, hc.2⟩
  · rintro ⟨c, ⟨g, hg, i, hi, hc, rfl⟩, haccepted⟩
    refine ⟨g, hg, List.mem_filterMap.mpr ⟨c, List.mem_flatMap.mpr ⟨i, hi, ?_⟩, ?_⟩⟩
    · rw [Explorer.tally, Explorer.hits_tallyOf, List.mem_filter]
      exact ⟨hc, haccepted⟩
    · exact ((hadmits g hg).1 i hi).finding?_eq hc

/-- The closest finding after a level is the one before it, or was met on the level. -/
lemma closest_of_replayStage {g : Stage} (hvalid : g.Valid s.alphabet.length)
    {p p' : Progress S Z} (h : s.replayStage clock p g = .ok p') (hf : p'.closest = some f) :
    p.closest = some f ∨ ∃ c, s.Meets clock [g] c f := by
  obtain ⟨hits, hstage⟩ := exists_replayStage clock hvalid p
  obtain rfl := Except.ok.inj (hstage.symm.trans h)
  rcases Progress.exists_of_foldl_nearer hf with hbest | ⟨c, hnear, hc⟩
  · exact .inl hbest
  · rw [List.map_map, List.mem_map] at hnear
    obtain ⟨i, hi, hclosest⟩ := hnear
    rw [Function.comp_apply, Explorer.tally, Explorer.closest_tallyOf] at hclosest
    rcases Explorer.mem_of_foldl_nearer hclosest with hnone | hmem
    · cases hnone
    · rw [(hvalid i hi).finding?_eq hmem] at hc
      exact .inr ⟨c, g, List.mem_cons_self, i, hi, hmem, (Option.some.inj hc).symm⟩

/-- The closest finding after a course is the one before it, or was met on the course. -/
lemma closest_of_replay (hvalid : ∀ g ∈ course, g.Valid s.alphabet.length) {p p' : Progress S Z}
    (h : s.replay clock p course = .ok p') (hf : p'.closest = some f) :
    p.closest = some f ∨ ∃ c, s.Meets clock course c f := by
  induction course generalizing p with
  | nil =>
    obtain rfl := Except.ok.inj h
    exact .inl hf
  | cons g rest ih =>
    rw [List.forall_mem_cons] at hvalid
    obtain ⟨q, hstage, hrest⟩ := replay_cons_eq_ok.mp h
    rcases ih hvalid.2 hrest with hq | ⟨c, g', hg', hmet⟩
    · rcases closest_of_replayStage hvalid.1 hstage hq with hp | ⟨c, hmet⟩
      · exact .inl hp
      · exact .inr ⟨c, hmet.of_mem List.mem_cons_self⟩
    · exact .inr ⟨c, g', List.mem_cons_of_mem _ hg', hmet⟩

variable {p : Progress S Z} (hcheck : s.check = .ok ()) (hadmits : s.Admits course)
  (hreplay : s.replay clock {} course = .ok p)

include hcheck hadmits hreplay

/-- **What a search finds** are the findings of acceptable candidates that it met. -/
theorem exists_accepted_of_mem_findings (hf : f ∈ p.findings) :
    ∃ c, s.Meets clock course c f ∧ (s.explorer clock).accepted c = true := by
  rw [(after_of_replay hcheck hadmits hreplay).findings] at hf
  rcases Finding.mem_of_mem_keepNew hf with hold | hnew
  · cases hold
  · exact (mem_findingsOf_iff hadmits).mp hnew

/-- **The closest finding** is that of a candidate that was met, and if nothing was found, it is not
acceptable. -/
theorem exists_meets_of_closest (hf : p.closest = some f) :
    ∃ c, s.Meets clock course c f ∧
      (p.findings = [] → (s.explorer clock).accepted c = false) := by
  rcases closest_of_replay (fun g hg => (hadmits g hg).1) hreplay hf with hnone | ⟨c, hmet⟩
  · cases hnone
  refine ⟨c, hmet, fun hempty => ?_⟩
  -- an acceptable candidate would have left a finding with its key
  by_contra haccepted
  rw [Bool.not_eq_false] at haccepted
  have hmem : f.key ∈ p.findings.map Finding.key := by
    rw [(after_of_replay hcheck hadmits hreplay).findings, Finding.mem_keys_keepNew]
    exact .inr (List.mem_map_of_mem ((mem_findingsOf_iff hadmits).mpr ⟨c, hmet, haccepted⟩))
  rw [hempty] at hmem
  cases hmem

end

/-! ## Coherence -/

section

variable {s : Search S Z} {clock : Clock} {course : Course} {c : Candidate S Z} {f : Finding S Z}

/-- The finding of a complete candidate of a sound layout is coherent.

**Proof sketch.** The tree of the finding is the layout with its slots labelled by the indices, with
the values put in for these. Its leaves are the indices in order, so it has as many leaves as the
layout has slots, and so has its key. Its impedance is the one given, and it is the same for the
postfix form. -/
lemma coherent_finding {l : Layout} (hl : l.Sound) (hslots : l.slots ≤ s.settings.maxLeaves)
    {indices : List Nat} (hassigned : l.Assigned s.alphabet.length indices) {value : Z}
    (hvalue : (l.filled s.alphabet Impedance.zero indices).value? = some value) (place : Nat) :
    (l.finding s.alphabet
      ⟨place, indices, value, Deviation.of value s.settings.target⟩).Coherent s := by
  have hfilled : l.filled s.alphabet Impedance.zero indices =
      (l.labelled indices).map (valueAt s.alphabet) := Layout.filled_eq_map_labelled hl hassigned
  have hleaves : (l.labelled indices).leaves = indices := Layout.leaves_labelled hl hassigned
  have hcount : (l.labelled indices).leafCount = l.slots := by
    rw [← Tree.length_leaves, hleaves, hassigned.length_eq]
  have hkey : (l.labelled indices).key.size = l.slots := (Tree.size_key _).trans hcount
  have hevaluate : ((l.labelled indices).map (valueAt s.alphabet)).evaluate = .ok value := by
    rw [← hfilled, Tree.evaluate_eq_ok_iff]
    exact hvalue
  have hat : ∀ i ∈ (l.labelled indices).leaves, s.alphabet[i]? = some (valueAt s.alphabet i) := by
    intro i hi
    rw [hleaves] at hi
    exact getElem?_eq_valueAt (hassigned.lt i hi)
  exact {
    evaluate_tree := hevaluate
    evaluate_form := fun m => (Machine.evaluate_tokens m _).trans hevaluate
    toTree_form := Postfix.toTree_toPostfix _
    deviation_eq := rfl
    leaves_mem := fun z (hz : z ∈ ((l.labelled indices).map (valueAt s.alphabet)).leaves) => by
      rw [← hfilled] at hz
      exact Layout.mem_of_mem_leaves_filled hl hassigned hz
    leafCount_tree := (Tree.leafCount_map _ _).trans (hcount.trans hkey.symm)
    size_network := Flat.size_map _ _
    leafCount_pos := hl.slots_pos.trans_eq hkey.symm
    leafCount_le := hkey.trans_le hslots
    indexed := ⟨l.labelled indices, Tree.mapM?_eq_some hat, rfl, Flat.mapM?_eq_some _
      fun i hi => hat i ((Tree.leaves_key_perm _).mem_iff.mp hi)⟩ }

/-- **A candidate that was met** has a coherent finding, of the same deviation. -/
theorem coherent_of_meets (hadmits : s.Admits course) (h : s.Meets clock course c f) :
    f.Coherent s ∧ f.deviation = c.deviation := by
  obtain ⟨g, hg, i, hi, hc, rfl⟩ := h
  obtain ⟨hvalid, -, hle⟩ := hadmits g hg
  have hitem := hvalid i hi
  have hslots : i.layout.slots = g.leaves :=
    Layout.slots_of_mem_withLeaves (List.mem_of_getElem? hitem.at_place)
  obtain ⟨indices, hmem, hsome⟩ := List.mem_filterMap.mp hc
  obtain ⟨value, hvalue, rfl⟩ := Option.map_eq_some_iff.mp hsome
  exact ⟨coherent_finding hitem.sound (hslots.trans_le hle) (hitem.assigned indices hmem) hvalue _,
    rfl⟩

end

/-- **What is among the results** is coherent, and acceptable. -/
lemma coherent_of_mem_results {s : Search S Z} {clock : Clock} {results : Results S Z}
    (h : (s.run clock).outcome = .ok results) {f : Finding S Z} (hf : f ∈ results.findings) :
    f.Coherent s ∧
      s.settings.tolerance.accepts f.deviation.absolute f.deviation.relative = true := by
  obtain ⟨hcheck, course, p, hadmits, hreplay, htaken⟩ := exists_replay_of_results h
  have hmem : f ∈ p.findings :=
    List.mem_reverse.mp ((Finding.ranked_perm _).mem_iff.mp (htaken.subset hf))
  obtain ⟨c, hmet, haccepted⟩ := exists_accepted_of_mem_findings hcheck hadmits hreplay hmem
  obtain ⟨hcoherent, hdeviation⟩ := coherent_of_meets hadmits hmet
  rw [hdeviation]
  exact ⟨hcoherent, haccepted⟩

/-- **The closest finding** of a search without results is coherent, and not acceptable. -/
lemma coherent_of_noNetwork {s : Search S Z} {clock : Clock} {f : Finding S Z} {truncated : Bool}
    (h : (s.run clock).outcome = .error (.noNetwork (some f) truncated)) :
    f.Coherent s ∧
      s.settings.tolerance.accepts f.deviation.absolute f.deviation.relative = false := by
  obtain ⟨hcheck, course, p, hadmits, hreplay, hempty, hclosest, -⟩ :=
    exists_replay_of_noNetwork h
  obtain ⟨c, hmet, haccepted⟩ := exists_meets_of_closest hcheck hadmits hreplay hclosest.symm
  obtain ⟨hcoherent, hdeviation⟩ := coherent_of_meets hadmits hmet
  rw [hdeviation]
  exact ⟨hcoherent, haccepted hempty⟩

/-- **Every reported network is coherent.** Whatever the arithmetic, the values and the settings,
and whatever the clock shows: each result is coherent and acceptable, and the closest finding of a
search without results is coherent and not acceptable.

**Proof sketch.** A search is a replay of beginnings of its levels (`exists_course_run`), and what a
replay reports was met on its course. The tokens of a candidate that was met are those of its
layout with the values of its indices (`Explorer.descend_run`), from which its finding is made, so
they evaluate alike. -/
theorem run_coherent (s : Search S Z) (clock : Clock) :
    (∀ results, (s.run clock).outcome = .ok results → ∀ f ∈ results.findings,
      f.Coherent s ∧
        s.settings.tolerance.accepts f.deviation.absolute f.deviation.relative = true) ∧
    (∀ f truncated, (s.run clock).outcome = .error (.noNetwork (some f) truncated) →
      f.Coherent s ∧
        s.settings.tolerance.accepts f.deviation.absolute f.deviation.relative = false) := by
  constructor
  · intro results h f hf
    exact coherent_of_mem_results h hf
  · intro f truncated h
    exact coherent_of_noNetwork h

/-- One and two ohms are joined to three, the search being stopped after its fourth candidate, and
not to ten. -/
theorem run_coherent_three_ohms :
    let hit : Search ℚ ℚ :=
      ⟨[1, 2], { Settings.of 3 (.relative (1 / 100)) 2 with maxCandidates := some 4 }⟩
    let miss : Search ℚ ℚ := ⟨[1, 2], Settings.of 10 (.relative (1 / 100)) 2⟩
    (∃ results f, (hit.run Clock.still).outcome = .ok results ∧ results.findings = [f] ∧
        results.stats.truncated = true ∧ f.impedance = 3 ∧ f.Coherent hit) ∧
      ∃ f truncated, (miss.run Clock.still).outcome = .error (.noNetwork (some f) truncated) ∧
        f.impedance = 2 ∧ f.Coherent miss := by
  intro hit miss
  constructor
  · have hlevels : (hit.runLevels Clock.still 2 1 (Budget.ofSettings hit.settings) {}).toOption.map
        (fun p => (p.findings.map Finding.impedance, p.stats.truncated)) = some ([3], true) := by
      decide +kernel
    obtain ⟨f, stats, houtcome, himpedance, htruncated⟩ :=
      exists_single_of_runLevels Finding.impedance Stats.truncated (by decide +kernel) rfl hlevels
    exact ⟨_, f, houtcome, rfl, htruncated, himpedance,
      ((run_coherent hit Clock.still).1 _ houtcome f (List.mem_singleton_self f)).1⟩
  · have hlevels :
        (miss.runLevels Clock.still 2 1 (Budget.ofSettings miss.settings) {}).toOption.map
          (fun p => (p.findings.isEmpty, p.closest.map Finding.impedance, p.stats.truncated)) =
            some (true, some 2, false) := by decide +kernel
    obtain ⟨f, houtcome, himpedance⟩ :=
      exists_miss_of_runLevels Finding.impedance (by decide +kernel) rfl hlevels
    exact ⟨f, _, houtcome, himpedance, ((run_coherent miss Clock.still).2 f _ houtcome).1⟩

end Search

end Ohmic
