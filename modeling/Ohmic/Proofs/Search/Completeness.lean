import Ohmic.Proofs.Search.Coverage
import Ohmic.Proofs.Search.Limit
import Ohmic.Proofs.Search.Pruning

set_option autoImplicit false

/-!
# An exhaustive search finds every network

An exhaustive search without limits reports the networks of all trees over its alphabet that are
acceptable, each of them once, and no others.

## Main definitions

* `Search.Acceptable` — a tree over indices of values that is near enough to the target.

## Main results

* `Search.Acceptable.of_mirrored` — mirror images are acceptable together.
* `Search.mem_keys_findingsOf` — the keys found with a number of leaves.
* `Search.courseFrom_of_exhaustive` — an exhaustive search goes through all levels.
* `Search.keys_of_after` — the keys that an exhaustive course leads to.
* `Search.run_exhaustive` — the outcome of an exhaustive search.
-/

namespace Ohmic

variable {S Z : Type} [Scalar S] [Impedance S Z]

namespace Search

/-! ## Acceptable trees -/

/-- A tree over indices of values of the alphabet whose impedance exists and is near enough to the
target. -/
structure Acceptable (s : Search S Z) (t : Tree Nat) : Prop where
  /-- The leaves are indices of values. -/
  lt : ∀ i ∈ t.leaves, i < s.alphabet.length
  /-- With the values in place of their indices, the tree has an acceptable impedance. -/
  accepted : ∃ v, (t.map (valueAt s.alphabet)).evaluate = .ok v ∧
    s.settings.tolerance.accepts (Deviation.of v s.settings.target).absolute
      (Deviation.of v s.settings.target).relative = true

section

variable {s : Search S Z} {clock : Clock}

/-- **Mirror images are acceptable together**, if connections commute. -/
lemma Acceptable.of_mirrored (hcomm : ∀ (c : Connection) (a b : Z), c.join a b = c.join b a)
    {t u : Tree Nat} (h : s.Acceptable t) (hmirror : Tree.Mirrored t u) : s.Acceptable u := by
  obtain ⟨v, hv, haccept⟩ := h.accepted
  refine ⟨fun i hi => h.lt i (hmirror.leaves_perm.mem_iff.mpr hi), v, ?_, haccept⟩
  rw [Tree.evaluate_eq_ok_iff] at hv ⊢
  rw [← hv]
  exact ((hmirror.map _).value?_eq hcomm).symm

variable (clock) in
/-- An assignment makes an acceptable tree exactly if its candidate is acceptable.

**Proof sketch.** The layout with the values put in is the labelled tree with its leaves looked up
(`Layout.filled_eq_map_labelled`), so the candidate has the impedance of the tree. -/
lemma acceptable_labelled_iff {l : Layout} (hl : l.Sound) {indices : List Nat}
    (h : l.Assigned s.alphabet.length indices) (layout : Nat) :
    s.Acceptable (l.labelled indices) ↔
      ∃ c, (s.explorer clock).candidate? l layout indices = some c ∧
        (s.explorer clock).accepted c = true := by
  have hvalue : ∀ v, (l.filled s.alphabet Impedance.zero indices).value? = some v ↔
      ((l.labelled indices).map (valueAt s.alphabet)).evaluate = .ok v := by
    intro v
    rw [Layout.filled_eq_map_labelled hl h, Tree.evaluate_eq_ok_iff]
  constructor
  · rintro ⟨-, v, hv, haccept⟩
    refine ⟨⟨layout, indices, v, Deviation.of v s.settings.target⟩, ?_, haccept⟩
    exact Option.map_eq_some_iff.mpr ⟨v, (hvalue v).mpr hv, rfl⟩
  · rintro ⟨c, hc, haccept⟩
    obtain ⟨v, hv, rfl⟩ := Option.map_eq_some_iff.mp hc
    refine ⟨fun i hi => ?_, v, (hvalue v).mp hv, haccept⟩
    rw [Layout.leaves_labelled hl h] at hi
    exact h.lt i hi

/-! ## The hits of a level -/

variable (hfinite : ∀ z ∈ s.alphabet, Impedance.isFinite z = true)
  (hbounds : ∀ bd, (s.explorer clock).bounds = some bd →
    MonotoneReals S Z ∧ (s.explorer clock).BandHolds bd)

include hfinite hbounds

/-- The hits of a level are the acceptable candidates of all its assignments.

**Proof sketch.** The hits of the work items are the acceptable candidates of their assignments,
with sound bounds too (`Explorer.hits_items`). A work item is a layout with a first index, and the
assignments of a layout are those of its work items together. -/
lemma mem_hits_stage {leaves : Nat} {c : Candidate S Z} :
    c ∈ (s.stage clock leaves).items.flatMap (fun i => ((s.explorer clock).tally i).hits) ↔
      ∃ l, (Layout.withLeaves leaves)[c.layout]? = some l ∧
        c.indices ∈ l.allAssignments s.alphabet.length ∧
        (s.explorer clock).candidate? l c.layout c.indices = some c ∧
        (s.explorer clock).accepted c = true := by
  have hsound : ∀ bd, (s.explorer clock).bounds = some bd →
      (s.explorer clock).SoundBounds bd := fun bd hbd =>
    ⟨(hbounds bd hbd).1, Bounds.cover_of_of? (hbounds bd hbd).1 hbd, (hbounds bd hbd).2⟩
  have hwork : ∀ w ∈ Explorer.workItems (Layout.withLeaves leaves) s.alphabet.length,
      w.1 < (Layout.withLeaves leaves).length ∧ w.2 < (s.explorer clock).alphabet.length :=
    fun _ hw => Explorer.lt_of_mem_workItems hw
  have hhits := Explorer.hits_items (ready_explorer hfinite clock) hsound
    (fun _ hl => Layout.sound_of_mem_withLeaves hl) hwork
  have hflat : (s.stage clock leaves).items.flatMap
      (fun i => ((s.explorer clock).tally i).hits) =
        (((s.stage clock leaves).items.map (s.explorer clock).tally).map Tally.hits).flatten := by
    rw [List.map_map, List.flatMap_def]
    rfl
  rw [hflat, stage, hhits]
  simp only [List.mem_flatten, List.mem_filterMap, Option.map_eq_some_iff]
  constructor
  · rintro ⟨-, ⟨⟨layout, first⟩, hw, l, hl, rfl⟩, hc⟩
    obtain ⟨hsome, haccept⟩ := List.mem_filter.mp hc
    obtain ⟨indices, hmem, hcandidate⟩ := List.mem_filterMap.mp hsome
    obtain ⟨v, hv, rfl⟩ := Option.map_eq_some_iff.mp hcandidate
    exact ⟨l, hl, Layout.mem_allAssignments_of_mem_itemAssignments
      (Explorer.lt_of_mem_workItems hw).2 hmem, hcandidate, haccept⟩
  · rintro ⟨l, hl, hmem, hcandidate, haccept⟩
    obtain ⟨first, hfirst, hmem⟩ := List.mem_flatMap.mp hmem
    have hlayout : c.layout < (Layout.withLeaves leaves).length :=
      (List.getElem?_eq_some_iff.mp hl).1
    refine ⟨_, ⟨(c.layout, first), Explorer.mem_workItems hlayout (List.mem_range.mp hfirst), l,
      hl, rfl⟩, ?_⟩
    exact List.mem_filter.mpr ⟨List.mem_filterMap.mpr ⟨c.indices, hmem, hcandidate⟩, haccept⟩

/-- **The keys found with a number of leaves** are those of the acceptable trees with so many
leaves.

**Proof sketch.** A hit is the candidate of an assignment, which makes an acceptable tree with its
key (`acceptable_labelled_iff`). An acceptable tree has a tied mirror image with a listed shape
(`Tree.exists_mirrored_tied`), which is made from a layout by its leaves; it is acceptable as well
and has the same key. -/
theorem mem_keys_findingsOf (hcomm : ∀ (c : Connection) (a b : Z), c.join a b = c.join b a)
    {leaves : Nat} {key : Flat Nat} :
    key ∈ (s.findingsOf clock (s.stage clock leaves)).map Finding.key ↔
      ∃ t, s.Acceptable t ∧ t.leafCount = leaves ∧ t.key = key := by
  simp only [findingsOf, List.mem_map, List.mem_filterMap, mem_hits_stage hfinite hbounds]
  constructor
  · rintro ⟨f, ⟨c, ⟨l, hl, hmem, hcandidate, haccept⟩, hfinding⟩, rfl⟩
    have hlisted := List.mem_of_getElem? hl
    have hsound := Layout.sound_of_mem_withLeaves hlisted
    obtain ⟨hassigned, -⟩ := (Layout.mem_allAssignments hsound).mp hmem
    refine ⟨l.labelled c.indices, (acceptable_labelled_iff clock hsound hassigned c.layout).mpr
      ⟨c, hcandidate, haccept⟩, ?_, ?_⟩
    · rw [← Tree.length_leaves, Layout.leaves_labelled hsound hassigned, hassigned.length_eq,
        Layout.slots_of_mem_withLeaves hlisted]
    · obtain ⟨l', hl', rfl⟩ := Option.map_eq_some_iff.mp hfinding
      obtain rfl := Option.some.inj (hl.symm.trans hl')
      rfl
  · rintro ⟨t, ht, rfl, rfl⟩
    obtain ⟨u, hmirror, hlisted, htied⟩ := t.exists_mirrored_tied
    have hu := ht.of_mirrored hcomm hmirror
    have hmem : Layout.ofShape u.shape ∈ Layout.withLeaves t.leafCount := by
      rw [hmirror.leafCount_eq, ← Tree.leafCount_shape]
      exact List.mem_map_of_mem hlisted
    obtain ⟨layout, hlayout, hplace⟩ := List.mem_iff_getElem.mp hmem
    have hl := hplace ▸ List.getElem?_eq_getElem hlayout
    have hassigned := Layout.assigned_leaves hu.lt
    have hsound := Layout.sound_ofShape u.shape
    obtain ⟨c, hcandidate, haccept⟩ :=
      (acceptable_labelled_iff clock hsound hassigned layout).mp
        ((Layout.labelled_leaves u).symm ▸ hu)
    obtain ⟨v, -, rfl⟩ := Option.map_eq_some_iff.mp hcandidate
    have hall : u.leaves ∈ (Layout.ofShape u.shape).allAssignments s.alphabet.length :=
      (Layout.mem_allAssignments hsound).mpr ⟨hassigned, Layout.respects_leaves htied⟩
    refine ⟨(Layout.ofShape u.shape).finding s.alphabet
        ⟨layout, u.leaves, v, Deviation.of v (s.explorer clock).target⟩,
      ⟨_, ⟨Layout.ofShape u.shape, hl, hall, hcandidate, haccept⟩, ?_⟩, ?_⟩
    · exact Option.map_eq_some_iff.mpr ⟨_, hl, rfl⟩
    · show ((Layout.ofShape u.shape).labelled u.leaves).key = t.key
      rw [Layout.labelled_leaves, hmirror.key_eq]

end

/-! ## All levels -/

section

variable {s : Search S Z} {clock : Clock}

/-- An exhaustive search goes through all levels. -/
lemma courseFrom_of_exhaustive (hfinite : ∀ z ∈ s.alphabet, Impedance.isFinite z = true)
    (hexhaustive : s.settings.exhaustive = true) (count leaves : Nat) (p : Progress S Z) :
    s.courseFrom clock count leaves p = (List.range' leaves count).map (s.stage clock) := by
  induction count generalizing leaves p with
  | zero => rfl
  | succ count ih =>
    obtain ⟨p', hstage, -⟩ := replayStage_of_valid clock hfinite (s.valid_stage clock leaves) p
    have hon : s.goesOn p' = true := by rw [goesOn, hexhaustive, Bool.or_true]
    rw [courseFrom, List.range'_succ, List.map_cons, hstage]
    simp only [hon, if_true, ih]

end

/-! ## The outcome -/

section

variable {s : Search S Z} {clock : Clock}

/-- **The keys that an exhaustive course leads to** are those of the acceptable trees with at most
the largest number of leaves, each of them once.

**Proof sketch.** An exhaustive course consists of all levels. Each of them leads to the keys of the
acceptable trees with its number of leaves (`mem_keys_findingsOf`), no key gets lost and none is
kept twice. -/
lemma keys_of_after (hfinite : ∀ z ∈ s.alphabet, Impedance.isFinite z = true)
    (hbounds : ∀ bd, (s.explorer clock).bounds = some bd →
      MonotoneReals S Z ∧ (s.explorer clock).BandHolds bd)
    (hcomm : ∀ (c : Connection) (a b : Z), c.join a b = c.join b a)
    (hexhaustive : s.settings.exhaustive = true) {p : Progress S Z}
    (hafter : s.After clock {} (s.course clock) p) :
    (p.findings.map Finding.key).Nodup ∧ ∀ key, key ∈ p.findings.map Finding.key ↔
      ∃ t, s.Acceptable t ∧ t.leafCount ≤ s.settings.maxLeaves ∧ t.key = key := by
  have hcourse : s.course clock = (List.range' 1 s.settings.maxLeaves).map (s.stage clock) :=
    courseFrom_of_exhaustive hfinite hexhaustive _ _ _
  rw [hafter.findings]
  refine ⟨Finding.nodup_keepNew List.nodup_nil, fun key => ?_⟩
  rw [Finding.mem_keys_keepNew, hcourse, List.flatMap_map, List.map_flatMap, List.mem_flatMap]
  constructor
  · rintro (hold | ⟨leaves, hleaves, hmem⟩)
    · cases hold
    · obtain ⟨t, ht, rfl, hkey⟩ := (mem_keys_findingsOf hfinite hbounds hcomm).mp hmem
      rw [List.mem_range'_1] at hleaves
      exact ⟨t, ht, by omega, hkey⟩
  · rintro ⟨t, ht, hle, hkey⟩
    have hpos := t.leafCount_pos
    refine .inr ⟨t.leafCount, List.mem_range'_1.mpr (by omega), ?_⟩
    exact (mem_keys_findingsOf hfinite hbounds hcomm).mpr ⟨t, ht, rfl, hkey⟩

end

/-- **An exhaustive search finds every network.** Take a search that is not refused, is exhaustive
and has no limits. Suppose that connections commute and, if the bounds are in use, that connections
are monotone on positive reals and that acceptable positive reals lie in the opened band. Then the
search has results exactly if some tree over its alphabet, with at most the largest number of
leaves, is acceptable, and otherwise it reports that there is no network. The keys of the results
are the canonical flat forms of all these trees, and no key occurs twice.

**Proof sketch.** The search is a replay of its course (`run_of_unlimited`), which goes through all
levels and keeps one finding for each key that these lead to (`keys_of_after`). The keys of a level
are those of the acceptable trees with its number of leaves (`mem_keys_findingsOf`). -/
theorem run_exhaustive (s : Search S Z) (clock : Clock) (hcheck : s.check = .ok ())
    (hexhaustive : s.settings.exhaustive = true) (hresults : s.settings.maxResults = none)
    (htime : s.settings.timeBudget = none) (hlimit : s.settings.maxCandidates = none)
    (hcomm : ∀ (c : Connection) (a b : Z), c.join a b = c.join b a)
    (hbounds : ∀ bd, (s.explorer clock).bounds = some bd →
      MonotoneReals S Z ∧ (s.explorer clock).BandHolds bd) :
    ((∃ results, (s.run clock).outcome = .ok results) ↔
      ∃ t, s.Acceptable t ∧ t.leafCount ≤ s.settings.maxLeaves) ∧
    ((∃ closest truncated, (s.run clock).outcome = .error (.noNetwork closest truncated)) ↔
      ¬ ∃ t, s.Acceptable t ∧ t.leafCount ≤ s.settings.maxLeaves) ∧
    ∀ results, (s.run clock).outcome = .ok results →
      (results.findings.map Finding.key).Nodup ∧
      ∀ key, key ∈ results.findings.map Finding.key ↔
        ∃ t, s.Acceptable t ∧ t.leafCount ≤ s.settings.maxLeaves ∧
          t.flatten.canonical = key := by
  have hfinite := (check_eq_ok hcheck).2.1
  have hvalid : ∀ g ∈ s.course clock, g.Valid s.alphabet.length := fun g hg =>
    s.valid_of_mem_courseFrom hg
  obtain ⟨p, hreplay, hafter⟩ := replay_of_valid clock hfinite hvalid {}
  have hrun : (s.run clock).outcome = s.conclude p := by
    rw [run_of_unlimited hcheck htime hlimit, hreplay, reportOf]
  obtain ⟨hnodup, hkeys⟩ := keys_of_after hfinite hbounds hcomm hexhaustive hafter
  have hsome : p.findings ≠ [] ↔ ∃ t, s.Acceptable t ∧ t.leafCount ≤ s.settings.maxLeaves := by
    constructor
    · intro hne
      obtain ⟨f, hf⟩ := List.exists_mem_of_ne_nil _ hne
      obtain ⟨t, ht, hle, -⟩ := (hkeys f.key).mp (List.mem_map_of_mem hf)
      exact ⟨t, ht, hle⟩
    · rintro ⟨t, ht, hle⟩ hempty
      have hkey := (hkeys t.key).mpr ⟨t, ht, hle, rfl⟩
      rw [hempty] at hkey
      cases hkey
  rw [hrun, conclude_eq hresults, ← hsome]
  by_cases hempty : p.findings = []
  · -- no tree is acceptable
    rw [if_pos hempty]
    refine ⟨iff_of_false ?_ (not_not.mpr hempty),
      iff_of_true ⟨_, _, rfl⟩ (not_not.mpr hempty), ?_⟩
    · rintro ⟨results, h⟩
      cases h
    · intro results h
      cases h
  · rw [if_neg hempty]
    refine ⟨iff_of_true ⟨_, rfl⟩ hempty, iff_of_false ?_ (not_not.mpr hempty), ?_⟩
    · rintro ⟨closest, truncated, h⟩
      cases h
    · intro results h
      obtain rfl := Except.ok.inj h
      have hperm := ((Finding.ranked_perm _).trans (List.reverse_perm p.findings)).map Finding.key
      exact ⟨hperm.nodup_iff.mpr hnodup, fun key => hperm.mem_iff.trans (hkeys key)⟩

/-- One and two ohms make three, in series. -/
theorem run_exhaustive_three_ohms :
    let s : Search ℚ ℚ :=
      ⟨[1, 2], { Settings.of 3 (.relative (1 / 100)) 2 with exhaustive := true }⟩
    s.check = .ok () ∧ s.Acceptable (.series (.leaf 0) (.leaf 1)) ∧
      ∃ results, (s.run Clock.still).outcome = .ok results ∧
        Flat.group .series [.leaf 0, .leaf 1] ∈ results.findings.map Finding.key := by
  intro s
  have hcheck : s.check = .ok () := by decide +kernel
  have hthree : s.Acceptable (.series (.leaf 0) (.leaf 1)) :=
    ⟨by decide, 3, by decide +kernel, by decide +kernel⟩
  obtain ⟨hok, -, hkeys⟩ := run_exhaustive s Clock.still hcheck rfl rfl rfl rfl Exact.join_comm
    fun bd hbd => ⟨monotoneReals_of_monotone Exact.ordered Exact.monotone,
      Explorer.bandHolds_of_of? hbd fun htarget v hv => Exact.band_of_accepts _
        (Exact.positive_iff.mp htarget) (Exact.positive_iff.mp hv)⟩
  have hsize : (Tree.series (.leaf 0) (.leaf 1)).leafCount ≤ s.settings.maxLeaves := by decide
  obtain ⟨results, hresults⟩ := hok.mpr ⟨_, hthree, hsize⟩
  exact ⟨hcheck, hthree, results, hresults,
    ((hkeys results hresults).2 _).mpr ⟨_, hthree, hsize, by decide⟩⟩

end Search

end Ohmic
