import Mathlib.Algebra.GroupWithZero.Nat
import Ohmic.Proofs.Circuit.FlatLeaves
import Ohmic.Proofs.Search.Items
import Ohmic.Search.Run

set_option autoImplicit false

/-!
# What a search makes of its tallies

The findings of valid candidates exist, so taking in the tallies of a level never fails. Of the
findings with one key the first one is kept.

## Main definitions

* `Layout.labelled` — the tree of a layout with the indices at its leaves.
* `Layout.finding` — the finding of a candidate of a layout.
* `Finding.keepNew` — the findings after further ones, of which only those with new keys are kept.
* `Tally.Valid` — the candidates of a tally fill a layout in the list with indices of values.

## Main results

* `Finding.ofCandidate_eq` — the finding of a valid candidate.
* `Finding.nodup_keepNew`, `Finding.mem_keys_keepNew` — the keys of the findings that are kept.
* `Progress.absorb_of_valid` — taking in valid tallies.
-/

namespace Ohmic

variable {S Z : Type}

/-! ## Findings of candidates -/

/-- The tree of a layout with the indices at its leaves. -/
def Layout.labelled (l : Layout) (indices : List Nat) : Tree Nat :=
  l.tree.map fun slot => indices.getD slot 0

/-- The value of an index. -/
def valueAt [Impedance S Z] (alphabet : List Z) (index : Nat) : Z :=
  alphabet.getD index Impedance.zero

/-- Every index has a value. -/
lemma getElem?_eq_valueAt [Impedance S Z] {alphabet : List Z} {index : Nat}
    (h : index < alphabet.length) : alphabet[index]? = some (valueAt alphabet index) := by
  rw [valueAt, List.getElem?_eq_getElem h, List.getD_eq_getElem _ _ h]

/-- The finding of a candidate of a layout. -/
def Layout.finding [Impedance S Z] (l : Layout) (alphabet : List Z) (c : Candidate S Z) :
    Finding S Z where
  tree := (l.labelled c.indices).map (valueAt alphabet)
  impedance := c.value
  deviation := c.deviation
  key := (l.labelled c.indices).key
  network := (l.labelled c.indices).key.map (valueAt alphabet)

section

variable [Impedance S Z] {layouts : List Layout} {l : Layout} {alphabet : List Z}

/-- The leaves of a labelled tree are the indices of a complete candidate. -/
lemma Layout.leaves_labelled (hl : l.Sound) {width : Nat} {indices : List Nat}
    (h : l.Assigned width indices) : (l.labelled indices).leaves = indices := by
  rw [labelled, Tree.leaves_map, hl.leaves_eq, ← h.length_eq]
  refine List.ext_getElem (by rw [List.length_map, List.length_range]) fun i hi hi' => ?_
  rw [List.getElem_map, List.getElem_range, List.getD_eq_getElem _ _ hi']

/-- Every slot of a complete candidate has an index. -/
lemma Layout.mapM?_eq_labelled (hl : l.Sound) {width : Nat} {indices : List Nat}
    (h : l.Assigned width indices) :
    l.tree.mapM? (fun slot => indices[slot]?) = some (l.labelled indices) := by
  refine Tree.mapM?_eq_some fun s hs => ?_
  rw [hl.leaves_eq, List.mem_range, ← h.length_eq] at hs
  rw [List.getElem?_eq_getElem hs, List.getD_eq_getElem _ _ hs]

/-- A complete candidate is its labelled tree with values in place of indices. -/
lemma Layout.filled_eq_map_labelled (hl : l.Sound) {indices : List Nat}
    (h : l.Assigned alphabet.length indices) :
    l.filled alphabet Impedance.zero indices = (l.labelled indices).map (valueAt alphabet) := by
  rw [filled, labelled, Tree.map_map]
  refine Tree.map_congr fun s hs => ?_
  rw [hl.leaves_eq, List.mem_range, ← h.length_eq] at hs
  have hindex := List.getElem?_eq_getElem hs
  have hlt := h.lt _ (List.getElem_mem hs)
  rw [pick_of_getElem? hindex (List.getElem?_eq_getElem hlt), Function.comp_apply, valueAt,
    List.getD_eq_getElem _ _ hs, List.getD_eq_getElem _ _ hlt]

/-- **The finding of a valid candidate** exists. -/
theorem Finding.ofCandidate_eq {c : Candidate S Z} (hlayout : layouts[c.layout]? = some l)
    (hl : l.Sound) (h : l.Assigned alphabet.length c.indices) :
    Finding.ofCandidate layouts alphabet c = .ok (l.finding alphabet c) := by
  have hslot := Layout.mapM?_eq_labelled hl h
  have hvalue : ∀ i ∈ (l.labelled c.indices).leaves, alphabet[i]? = some (valueAt alphabet i) := by
    intro i hi
    rw [Layout.leaves_labelled hl h] at hi
    exact getElem?_eq_valueAt (h.lt i hi)
  have htree := Tree.mapM?_eq_some hvalue
  have hnetwork := Flat.mapM?_eq_some (l.labelled c.indices).flatten.canonical fun i hi =>
    hvalue i ((Tree.leaves_key_perm _).mem_iff.mp hi)
  simp only [ofCandidate, readAt_of_getElem? hlayout, hslot, htree, hnetwork, bind, Except.bind,
    pure, Except.pure]
  rfl

end

/-! ## Keeping new findings -/

namespace Finding

/-- The findings after further ones, the latest first. One whose key is there already is left
out. -/
def keepNew (old new : List (Finding S Z)) : List (Finding S Z) :=
  new.foldl (fun kept f => if kept.any fun g => decide (g.key = f.key) then kept else f :: kept) old

/-- Findings are added one after the other. -/
lemma keepNew_append (old new more : List (Finding S Z)) :
    keepNew old (new ++ more) = keepNew (keepNew old new) more := List.foldl_append

/-- A key is there already. -/
lemma any_key_eq_iff {fs : List (Finding S Z)} {key : Flat Nat} :
    (fs.any fun g => decide (g.key = key)) = true ↔ key ∈ fs.map Finding.key := by
  simp only [List.any_eq_true, decide_eq_true_eq, List.mem_map]

/-- The keys of the findings that are kept: no key gets lost.

**Proof sketch.** By induction on the new findings. A finding that is not kept has the key of one
that is there. -/
lemma mem_keys_keepNew {old new : List (Finding S Z)} {key : Flat Nat} :
    key ∈ (keepNew old new).map Finding.key ↔
      key ∈ old.map Finding.key ∨ key ∈ new.map Finding.key := by
  induction new generalizing old with
  | nil => simp [keepNew]
  | cons f new ih =>
    rw [keepNew, List.foldl_cons, ← keepNew, ih, List.map_cons, List.mem_cons]
    split
    · next h =>
      rw [any_key_eq_iff] at h
      constructor
      · rintro (hold | hnew)
        · exact .inl hold
        · exact .inr (.inr hnew)
      · rintro (hold | rfl | hnew)
        · exact .inl hold
        · exact .inl h
        · exact .inr hnew
    · rw [List.map_cons, List.mem_cons, or_assoc, or_left_comm]

/-- No two findings that are kept have the same key. -/
lemma nodup_keepNew {old new : List (Finding S Z)} (h : (old.map Finding.key).Nodup) :
    ((keepNew old new).map Finding.key).Nodup := by
  induction new generalizing old with
  | nil => exact h
  | cons f new ih =>
    rw [keepNew, List.foldl_cons, ← keepNew]
    apply ih
    split
    · exact h
    · next hnew =>
      rw [List.map_cons, List.nodup_cons]
      exact ⟨fun hmem => hnew (any_key_eq_iff.mpr hmem), h⟩

/-- What is kept was there or is new. -/
lemma mem_of_mem_keepNew {old new : List (Finding S Z)} {f : Finding S Z}
    (h : f ∈ keepNew old new) : f ∈ old ∨ f ∈ new := by
  induction new generalizing old with
  | nil => exact .inl h
  | cons g new ih =>
    rw [keepNew, List.foldl_cons, ← keepNew] at h
    rcases ih h with hold | hnew
    · split at hold
      · exact .inl hold
      · rcases List.mem_cons.mp hold with rfl | hold
        · exact .inr List.mem_cons_self
        · exact .inl hold
    · exact .inr (List.mem_cons_of_mem _ hnew)

/-- Ranked findings are the findings in another order. -/
lemma ranked_perm [Scalar S] (findings : List (Finding S Z)) :
    (ranked findings).Perm findings := List.mergeSort_perm _ _

end Finding

/-! ## Valid tallies -/

/-- The candidate fills a layout in the list with indices of values. -/
def Candidate.Valid (layouts : List Layout) (width : Nat) (c : Candidate S Z) : Prop :=
  ∃ l, layouts[c.layout]? = some l ∧ l.Sound ∧ l.Assigned width c.indices

/-- The candidates of the tally fill a layout in the list with indices of values. -/
structure Tally.Valid (layouts : List Layout) (width : Nat) (t : Tally S Z) : Prop where
  /-- The acceptable candidates do. -/
  hits : ∀ c ∈ t.hits, c.Valid layouts width
  /-- The closest candidate does. -/
  closest : ∀ c, t.closest = some c → c.Valid layouts width

/-- The finding of a candidate, if its layout is in the list. -/
def Candidate.finding? [Impedance S Z] (layouts : List Layout) (alphabet : List Z)
    (c : Candidate S Z) : Option (Finding S Z) :=
  layouts[c.layout]?.map fun l => l.finding alphabet c

section

variable [Impedance S Z] {layouts : List Layout} {alphabet : List Z}

/-- A valid candidate has a finding. -/
lemma Candidate.Valid.exists_finding {c : Candidate S Z}
    (h : c.Valid layouts alphabet.length) :
    ∃ f, Finding.ofCandidate layouts alphabet c = .ok f ∧ c.finding? layouts alphabet = some f := by
  obtain ⟨l, hlayout, hl, hassigned⟩ := h
  refine ⟨l.finding alphabet c, Finding.ofCandidate_eq hlayout hl hassigned, ?_⟩
  rw [finding?, hlayout, Option.map_some]

end

section

variable [Scalar S] [Impedance S Z]

/-- The candidates with an impedance of a valid work item are valid. -/
lemma Item.Valid.of_mem_filterMap {x : Explorer S Z} {layouts : List Layout} {width : Nat}
    {i : Item} (h : i.Valid layouts width) {c : Candidate S Z}
    (hc : c ∈ (Step.candidates i.steps).filterMap (x.candidate? i.layout i.place)) :
    c.Valid layouts width := by
  obtain ⟨indices, hmem, hsome⟩ := List.mem_filterMap.mp hc
  obtain ⟨value, -, rfl⟩ := Option.map_eq_some_iff.mp hsome
  exact ⟨i.layout, h.at_place, h.sound, h.assigned indices hmem⟩

/-- The tally of a valid work item is valid. -/
lemma Item.Valid.tally {x : Explorer S Z} {layouts : List Layout} {width : Nat} {i : Item}
    (h : i.Valid layouts width) : (x.tally i).Valid layouts width where
  hits c hc := by
    rw [Explorer.tally, Explorer.hits_tallyOf] at hc
    exact h.of_mem_filterMap (List.mem_of_mem_filter hc)
  closest c hc := by
    rw [Explorer.tally, Explorer.closest_tallyOf] at hc
    rcases Explorer.mem_of_foldl_nearer hc with hnone | hmem
    · cases hnone
    · exact h.of_mem_filterMap hmem

/-! ## Taking in tallies -/

namespace Progress

/-- The nearer one of the closest finding so far and the closest candidate of a work item. -/
def nearer (layouts : List Layout) (alphabet : List Z) (best : Option (Finding S Z))
    (near : Option (Candidate S Z)) : Option (Finding S Z) :=
  match near with
  | none => best
  | some c => if improves { closest := best } c then c.finding? layouts alphabet else best

variable {layouts : List Layout} {alphabet : List Z}

/-- The nearest one is the closest finding so far, or that of a closest candidate. -/
lemma exists_of_foldl_nearer {nears : List (Option (Candidate S Z))}
    {best : Option (Finding S Z)} {f : Finding S Z}
    (h : nears.foldl (nearer layouts alphabet) best = some f) :
    best = some f ∨ ∃ c, some c ∈ nears ∧ c.finding? layouts alphabet = some f := by
  induction nears generalizing best with
  | nil => exact .inl h
  | cons near nears ih =>
    rcases ih h with hbest | ⟨c, hmem, hc⟩
    · cases near with
      | none => exact .inl hbest
      | some c =>
        rw [nearer] at hbest
        split at hbest
        · exact .inr ⟨c, List.mem_cons_self, hbest⟩
        · exact .inl hbest
    · exact .inr ⟨c, List.mem_cons_of_mem _ hmem, hc⟩

omit [Scalar S] in
/-- The hits of a work item are taken in. -/
lemma addHits_of_valid {hits : List (Candidate S Z)}
    (h : ∀ c ∈ hits, c.Valid layouts alphabet.length) (count : Nat) (p : Progress S Z) :
    ∃ n, p.addHits layouts alphabet count hits = .ok (n, { p with
      findings := Finding.keepNew p.findings (hits.filterMap (·.finding? layouts alphabet)) }) := by
  induction hits generalizing count p with
  | nil => exact ⟨count, rfl⟩
  | cons c hits ih =>
    rw [List.forall_mem_cons] at h
    obtain ⟨f, hof, hfinding⟩ := h.1.exists_finding
    simp only [addHits, hof, List.filterMap_cons_some hfinding, Finding.keepNew, List.foldl_cons]
    rw [contains]
    split
    · exact ih h.2 count p
    · exact ih h.2 (count + 1) { p with findings := f :: p.findings }

/-- The closest candidate of a work item is taken in. -/
lemma addClosest_of_valid {near : Option (Candidate S Z)}
    (h : ∀ c, near = some c → c.Valid layouts alphabet.length) (p : Progress S Z) :
    p.addClosest layouts alphabet near =
      .ok { p with closest := nearer layouts alphabet p.closest near } := by
  cases near with
  | none => rfl
  | some c =>
    obtain ⟨f, hof, hfinding⟩ := (h c rfl).exists_finding
    have himproves : p.improves c = improves { closest := p.closest } c := rfl
    rw [addClosest, nearer, himproves]
    split
    · rw [hof, hfinding]
      rfl
    · rfl

/-- **Taking in valid tallies** does not fail. The findings with new keys are kept, the closest
candidate is the nearest one, and the counters of the level add up.

**Proof sketch.** By induction on the tallies. Hits and the closest candidate of a valid tally are
turned into findings without failing (`addHits_of_valid`, `addClosest_of_valid`), and then the
others are taken in. -/
theorem absorb_of_valid {tallies : List (Tally S Z)} (level : Level)
    (h : ∀ t ∈ tallies, t.Valid level.layouts alphabet.length) (p : Progress S Z) :
    ∃ hits, p.absorb alphabet level tallies = .ok ({ level with
        evaluated := level.evaluated + (tallies.map Tally.evaluated).sum
        pruned := level.pruned + (tallies.map Tally.pruned).sum
        degenerate := level.degenerate + (tallies.map Tally.degenerate).sum
        overflowed := level.overflowed + (tallies.map Tally.overflowed).sum
        hits := hits },
      { p with
        findings := Finding.keepNew p.findings
          ((tallies.flatMap Tally.hits).filterMap (·.finding? level.layouts alphabet))
        closest := (tallies.map Tally.closest).foldl (nearer level.layouts alphabet)
          p.closest }) := by
  induction tallies generalizing level p with
  | nil => exact ⟨level.hits, rfl⟩
  | cons t tallies ih =>
    rw [List.forall_mem_cons] at h
    obtain ⟨hits, hhits⟩ := addHits_of_valid h.1.hits level.hits p
    obtain ⟨total, hrest⟩ := ih { level with
        evaluated := level.evaluated + t.evaluated
        pruned := level.pruned + t.pruned
        degenerate := level.degenerate + t.degenerate
        overflowed := level.overflowed + t.overflowed
        hits := hits } h.2 { p with
          findings := Finding.keepNew p.findings
            (t.hits.filterMap (·.finding? level.layouts alphabet))
          closest := nearer level.layouts alphabet p.closest t.closest }
    refine ⟨total, ?_⟩
    simp only [absorb, hhits, addClosest_of_valid h.1.closest, hrest, List.map_cons,
      List.sum_cons, List.flatMap_cons, List.filterMap_append, Finding.keepNew_append,
      List.foldl_cons, Nat.add_assoc]

omit [Impedance S Z] in
/-- Tallies in which nothing happened change nothing. -/
lemma absorb_idle (level : Level) (p : Progress S Z) (idle : Nat) :
    p.absorb alphabet level (List.replicate idle ({} : Tally S Z)) = .ok (level, p) := by
  induction idle with
  | zero => rfl
  | succ idle ih =>
    rw [List.replicate_succ, absorb]
    exact ih

omit [Impedance S Z] in
/-- Tallies in which nothing happened may follow. -/
lemma absorb_append_idle (level : Level) (p : Progress S Z) (tallies : List (Tally S Z))
    (idle : Nat) :
    p.absorb alphabet level (tallies ++ List.replicate idle ({} : Tally S Z)) =
      p.absorb alphabet level tallies := by
  induction tallies generalizing level p with
  | nil => exact absorb_idle level p idle
  | cons t tallies ih =>
    rw [List.cons_append, absorb, absorb]
    split
    · rfl
    · split
      · rfl
      · exact ih _ _

end Progress

end

end Ohmic
