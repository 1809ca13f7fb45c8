import Ohmic.Proofs.Circuit.Embedding
import Ohmic.Proofs.Search.Limit

set_option autoImplicit false

/-!
# The search in two domains

A search may be run over resistances, or over phasors without reactive parts. If the impedances of
one domain lie in another one, then the search in the larger domain does step by step what the
search in the smaller one does, and reports the same.

## Main definitions

* `Settings.map`, `Search.map` — a search with its impedances taken to another domain.
* `Candidate.Matches`, `Finding.Matches`, `Report.Matches` — what two searches have found is the
  same, except that impedances are those of two domains.

## Main results

* `Explorer.itemSteps_map` — the same values are tried, and the same partial networks are given up.
* `Explorer.tallyOf_matches` — the same is found and counted.
* `Search.run_map` — the same is reported.

## Implementation notes

Without a time limit a search is a replay of its course (`Search.run_withLimit_some`), so benches
and budgets need not be compared.
-/

namespace Ohmic

variable {S Z W : Type}

/-! ## Searches in another domain -/

/-- The settings with the target in another domain. -/
def Settings.map (embed : Z → W) (s : Settings S Z) : Settings S W where
  target := embed s.target
  tolerance := s.tolerance
  maxLeaves := s.maxLeaves
  exhaustive := s.exhaustive
  maxResults := s.maxResults
  timeBudget := s.timeBudget
  maxCandidates := s.maxCandidates
  parallel := s.parallel

/-- The reason to refuse a search, with its impedance in another domain. -/
def SettingsError.map (embed : Z → W) : SettingsError S Z → SettingsError S W
  | target z => target (embed z)
  | bound b => bound b
  | leaves n => leaves n
  | results => results
  | emptyAlphabet => emptyAlphabet
  | alphabetValue z => alphabetValue (embed z)

/-- The search with its values and its target in another domain. -/
def Search.map (embed : Z → W) (s : Search S Z) : Search S W where
  alphabet := s.alphabet.map embed
  settings := s.settings.map embed

/-- What stays fixed during a search, with its impedances in another domain. -/
def Explorer.map (embed : Z → W) (x : Explorer S Z) : Explorer S W where
  alphabet := x.alphabet.map embed
  target := embed x.target
  tolerance := x.tolerance
  bounds := x.bounds
  clock := x.clock

/-! ## What is the same in two domains -/

/-- The candidates are the same, with related impedances as far from the target. -/
structure Candidate.Matches (r : Z → W → Prop) (c : Candidate S Z) (d : Candidate S W) : Prop where
  /-- The layouts are the same. -/
  layout_eq : d.layout = c.layout
  /-- The slots are filled from the same places of the alphabet. -/
  indices_eq : d.indices = c.indices
  /-- The impedances are related. -/
  value : r c.value d.value
  /-- The differences from the target are equally large. -/
  absolute_eq : d.deviation.absolute = c.deviation.absolute
  /-- So are the differences in relation to the target. -/
  relative_eq : d.deviation.relative = c.deviation.relative

/-- The findings are the same networks, with related impedances as far from the target. -/
structure Finding.Matches (embed : Z → W) (r : Z → W → Prop) (f : Finding S Z) (g : Finding S W) :
    Prop where
  /-- The trees are the same, with their leaves in the other domain. -/
  tree_eq : g.tree = f.tree.map embed
  /-- The impedances are related. -/
  impedance : r f.impedance g.impedance
  /-- The differences from the target are equally large. -/
  absolute_eq : g.deviation.absolute = f.deviation.absolute
  /-- So are the differences in relation to the target. -/
  relative_eq : g.deviation.relative = f.deviation.relative
  /-- The canonical forms over the indices are the same. -/
  key_eq : g.key = f.key
  /-- The canonical forms are the same, with their leaves in the other domain. -/
  network_eq : g.network = f.network.map embed

/-- The same was found and counted in a work item. -/
structure Tally.Matches (r : Z → W → Prop) (t : Tally S Z) (u : Tally S W) : Prop where
  /-- The acceptable candidates match, in the order in which they were met. -/
  hits : List.Forall₂ (Candidate.Matches r) t.hits u.hits
  /-- The closest candidates match, or there is none in either domain. -/
  closest : Option.Rel (Candidate.Matches r) t.closest u.closest
  /-- As many candidates have an impedance. -/
  evaluated_eq : u.evaluated = t.evaluated
  /-- As many partial networks were given up. -/
  pruned_eq : u.pruned = t.pruned
  /-- As many candidates have a cancelling connection. -/
  degenerate_eq : u.degenerate = t.degenerate
  /-- As many candidates have a combination that is not finite. -/
  overflowed_eq : u.overflowed = t.overflowed

/-- The same was found and counted so far. -/
structure Progress.Matches (embed : Z → W) (r : Z → W → Prop) (p : Progress S Z)
    (q : Progress S W) : Prop where
  /-- The findings match, in the order in which they are kept. -/
  findings : List.Forall₂ (Finding.Matches embed r) p.findings q.findings
  /-- The closest candidates match, or there is none in either domain. -/
  closest : Option.Rel (Finding.Matches embed r) p.closest q.closest
  /-- The counters are the same. -/
  stats_eq : q.stats = p.stats
  /-- The same levels were searched. -/
  levels_eq : q.levels = p.levels

/-- Searches end without results for the same reason. -/
inductive SearchError.Matches (embed : Z → W) (r : Z → W → Prop) :
    SearchError S Z → SearchError S W → Prop
  /-- No network was found, and the closest ones are the same. -/
  | noNetwork {closest : Option (Finding S Z)} {closest' : Option (Finding S W)}
      (h : Option.Rel (Finding.Matches embed r) closest closest') (truncated : Bool) :
      Matches embed r (.noNetwork closest truncated) (.noNetwork closest' truncated)
  /-- The search was refused. -/
  | settings (reason : SettingsError S Z) :
      Matches embed r (.settings reason) (.settings (reason.map embed))
  /-- The search itself failed. -/
  | defect (defect : Defect) : Matches embed r (.defect defect) (.defect defect)

/-- Searches report the same levels, and either the same results in the same order with the same
counters, or the same reason for having none. -/
inductive Report.Matches (embed : Z → W) (r : Z → W → Prop) : Report S Z → Report S W → Prop
  /-- Both have results. -/
  | ok (levels : List Level) {findings : List (Finding S Z)} {findings' : List (Finding S W)}
      (h : List.Forall₂ (Finding.Matches embed r) findings findings') (stats : Stats) :
      Matches embed r ⟨levels, .ok ⟨findings, stats⟩⟩ ⟨levels, .ok ⟨findings', stats⟩⟩
  /-- Neither has results. -/
  | error (levels : List Level) {reason : SearchError S Z} {reason' : SearchError S W}
      (h : reason.Matches embed r reason') :
      Matches embed r ⟨levels, .error reason⟩ ⟨levels, .error reason'⟩

variable {embed : Z → W} {r : Z → W → Prop}

/-- If one search has results, then so has the other one. -/
lemma Report.Matches.exists_results {a : Report S Z} {b : Report S W} (h : a.Matches embed r b)
    {results : Results S Z} (ha : a.outcome = .ok results) :
    ∃ findings, b.outcome = .ok ⟨findings, results.stats⟩ ∧
      List.Forall₂ (Finding.Matches embed r) results.findings findings := by
  cases h with
  | ok levels hfindings stats =>
    obtain rfl := Except.ok.inj ha
    exact ⟨_, rfl, hfindings⟩
  | error levels hreason => cases ha

/-! ## Findings -/

/-- The keys of findings are the same. -/
lemma Finding.keys_eq {fs : List (Finding S Z)} {gs : List (Finding S W)}
    (h : List.Forall₂ (Finding.Matches embed r) fs gs) :
    gs.map Finding.key = fs.map Finding.key := by
  induction h with
  | nil => rfl
  | cons hfg _ ih => rw [List.map_cons, List.map_cons, hfg.key_eq, ih]

/-- **The finding of a candidate** is the same in both domains.

**Proof sketch.** Both findings read the same layout at the same indices. Looking up a value in the
other alphabet is looking it up here and taking it to the other domain, so all look-ups fail alike,
and the tree and the network are those of the other domain. -/
theorem Finding.ofCandidate_alike (embed : Z → W) (layouts : List Layout) (alphabet : List Z)
    {c : Candidate S Z} {d : Candidate S W} (h : c.Matches r d) :
    Alike (Finding.Matches embed r) (Finding.ofCandidate layouts alphabet c)
      (Finding.ofCandidate layouts (alphabet.map embed) d) := by
  have hvalue : (fun index => (alphabet.map embed)[index]?) =
      fun index => (alphabet[index]?).map embed := funext fun _ => List.getElem?_map
  rw [ofCandidate, ofCandidate, h.layout_eq, h.indices_eq, hvalue]
  refine .bind_same _ fun l => ?_
  cases l.tree.mapM? fun slot => c.indices[slot]? with
  | none => exact .error _
  | some indexTree =>
    dsimp only
    rw [Tree.mapM?_map, Flat.mapM?_map]
    cases indexTree.mapM? fun index => alphabet[index]? with
    | none => exact .error _
    | some tree =>
      cases indexTree.flatten.canonical.mapM? fun index => alphabet[index]? with
      | none => exact .error _
      | some network => exact .ok ⟨rfl, h.value, h.absolute_eq, h.relative_eq, rfl, rfl⟩

variable [Scalar S] [Impedance S Z] [Impedance S W]

/-! ## Steps -/

section

omit [Impedance S Z] [Impedance S W]

variable (embed) (x : Explorer S Z) (l : Layout)

/-- The steps for a slot are the same if those of the later slots are. -/
lemma Explorer.slotSteps_map (deeper : Option (List Nat → List Step)) (indices others : List Nat) :
    (x.map embed).slotSteps l deeper indices others = x.slotSteps l deeper indices others := by
  induction others with
  | nil => rfl
  | cons index others ih =>
    cases deeper with
    | none =>
      simp only [slotSteps, ih]
    | some steps =>
      simp only [slotSteps, ih]
      rfl

/-- The steps of a descent are the same. -/
lemma Explorer.descentSteps_map (after first stop : Nat) :
    (x.map embed).descentSteps l after first stop = x.descentSteps l after first stop := by
  funext indices
  induction after generalizing first stop indices with
  | zero => exact x.slotSteps_map embed l _ _ _
  | succ after ih =>
    have hdeeper : (x.map embed).descentSteps l after 0 (x.map embed).alphabet.length =
        x.descentSteps l after 0 x.alphabet.length := by
      have hlength : (x.map embed).alphabet.length = x.alphabet.length := List.length_map embed
      funext indices
      rw [hlength, ih]
    rw [descentSteps, descentSteps, hdeeper, slotSteps_map]

/-- **The steps of a work item** are the same. -/
theorem Explorer.itemSteps_map (first : Nat) :
    (x.map embed).itemSteps l first = x.itemSteps l first :=
  congrFun (x.descentSteps_map embed l _ _ _) []

/-- The work items are the same. -/
lemma Explorer.items_map (layouts : List Layout) (work : List (Nat × Nat)) :
    (x.map embed).items layouts work = x.items layouts work := by
  simp only [items, itemSteps_map]

end

/-! ## Candidates -/

omit [Scalar S] [Impedance S Z] [Impedance S W] in
/-- A filled layout in the other domain. -/
lemma Layout.filled_map (embed : Z → W) (l : Layout) (values : List Z) (rest : Z)
    (indices : List Nat) :
    l.filled (values.map embed) (embed rest) indices =
      (l.filled values rest indices).map embed := by
  rw [filled, filled, Tree.map_map]
  congr 1
  funext slot
  simp only [pick, Function.comp_apply, List.getElem?_map]
  cases indices[slot]? with
  | none => rfl
  | some index => exact Option.getD_map embed rest values[index]?

namespace Tally

variable {t : Tally S Z} {u : Tally S W}

omit [Impedance S Z] [Impedance S W] in
/-- A candidate is as near in both domains. -/
lemma isCloser_eq {c : Candidate S Z} {d : Candidate S W} (hcd : c.Matches r d)
    {best : Option (Candidate S Z)} {best' : Option (Candidate S W)}
    (h : Option.Rel (Candidate.Matches r) best best') :
    isCloser d.deviation best' = isCloser c.deviation best := by
  cases h with
  | none => rfl
  | some hbest => rw [isCloser, isCloser, hcd.relative_eq, hbest.relative_eq]

omit [Impedance S Z] [Impedance S W] in
/-- One more candidate with an impedance is counted in both domains. -/
lemma Matches.count (h : t.Matches r u) {c : Candidate S Z} {d : Candidate S W}
    (hcd : c.Matches r d) (accepted : Bool) :
    (t.count accepted c).Matches r (u.count accepted d) where
  hits := by
    cases accepted with
    | false => exact h.hits
    | true => exact List.rel_append h.hits (.cons hcd .nil)
  closest := by
    rw [Tally.count, Tally.count]
    dsimp only
    rw [isCloser_eq hcd h.closest]
    split
    · exact .some hcd
    · exact h.closest
  evaluated_eq := congrArg (· + 1) h.evaluated_eq
  pruned_eq := h.pruned_eq
  degenerate_eq := h.degenerate_eq
  overflowed_eq := h.overflowed_eq

end Tally

namespace Explorer

variable (h : Impedance.Embedding embed r) (x : Explorer S Z) (l : Layout) (layout : Nat)
  {t : Tally S Z} {u : Tally S W}

include h

/-- A complete candidate has the same effect in both domains.

**Proof sketch.** The filled trees are the same with related leaves, so evaluating them fails alike
or gives related impedances (`evaluateAt_alike`). A fault is counted by its kind. Related impedances
are as far from their targets, and hence accepted alike and compared alike to the closest
candidate. -/
lemma meet_matches (htu : t.Matches r u) (indices : List Nat) :
    (x.meet l layout t indices).Matches r ((x.map embed).meet l layout u indices) := by
  have hfilled : l.filled (x.map embed).alphabet Impedance.zero indices =
      (l.filled x.alphabet Impedance.zero indices).map embed := by
    rw [← h.embed_zero, map, Layout.filled_map]
  have hvalue := h.evaluateAt_alike (l.filled x.alphabet Impedance.zero indices) 0
  rw [meet, meet, hfilled, Tree.evaluate, Tree.evaluate]
  rcases hvalue.error_or_ok with ⟨fault, hv, hw⟩ | ⟨v, w, hv, hw, hvw, -⟩
  · rw [hv, hw]
    cases fault with
    | malformed position reason => exact htu
    | degenerate position => exact { htu with degenerate_eq := congrArg (· + 1) htu.degenerate_eq }
    | overflow position => exact { htu with overflowed_eq := congrArg (· + 1) htu.overflowed_eq }
  · rw [hv, hw]
    have habsolute : (Deviation.of w (embed x.target)).absolute =
        (Deviation.of v x.target).absolute := h.distance_eq hvw x.target
    have hrelative : (Deviation.of w (embed x.target)).relative =
        (Deviation.of v x.target).relative := by
      show Impedance.magnitude _ / Impedance.magnitude _ = _
      rw [h.distance_eq hvw, h.magnitude_eq]
      rfl
    dsimp only [map]
    rw [habsolute, hrelative]
    exact htu.count ⟨rfl, rfl, hvw, habsolute, hrelative⟩ _

/-- **The tally of steps** is the same in both domains. -/
theorem tallyOf_matches (steps : List Step) :
    (x.tallyOf l layout steps).Matches r ((x.map embed).tallyOf l layout steps) := by
  suffices hfold : ∀ (t : Tally S Z) (u : Tally S W), t.Matches r u →
      (steps.foldl (x.effect l layout) t).Matches r
        (steps.foldl ((x.map embed).effect l layout) u) from
    hfold {} {} ⟨.nil, .none, rfl, rfl, rfl, rfl⟩
  induction steps with
  | nil => exact fun t u htu => htu
  | cons step steps ih =>
    intro t u htu
    refine ih _ _ ?_
    cases step with
    | tick => exact htu
    | cut => exact { htu with pruned_eq := congrArg (· + 1) htu.pruned_eq }
    | candidate indices => exact x.meet_matches h l layout htu indices

end Explorer

/-! ## Progress -/

namespace Progress

variable {p : Progress S Z} {q : Progress S W}

section

omit [Impedance S Z] [Impedance S W]

variable (layouts : List Layout) (alphabet : List Z)

omit [Scalar S] in
/-- The hits of a work item are taken in alike.

**Proof sketch.** By induction on the hits. Their findings match (`Finding.ofCandidate_alike`),
hence have the same keys, and so the finding is new in both domains or in neither. -/
lemma addHits_alike {hits : List (Candidate S Z)} {hits' : List (Candidate S W)}
    (h : List.Forall₂ (Candidate.Matches r) hits hits') (count : Nat)
    (hpq : p.Matches embed r q) :
    Alike (fun a b => b.1 = a.1 ∧ a.2.Matches embed r b.2) (p.addHits layouts alphabet count hits)
      (q.addHits layouts (alphabet.map embed) count hits') := by
  induction h generalizing count p q with
  | nil => exact .ok ⟨rfl, hpq⟩
  | cons hcd _ ih =>
    rw [addHits, addHits]
    rcases (Finding.ofCandidate_alike embed layouts alphabet hcd).error_or_ok with
      ⟨defect, hf, hg⟩ | ⟨f, g, hf, hg, hfg⟩
    · rw [hf, hg]
      exact .error defect
    · rw [hf, hg]
      have hcontains : q.contains g.key = p.contains f.key := by
        rw [Bool.eq_iff_iff, contains, contains, Finding.any_key_eq_iff, Finding.any_key_eq_iff,
          Finding.keys_eq hpq.findings, hfg.key_eq]
      dsimp only
      rw [hcontains]
      split
      · exact ih count hpq
      · exact ih (count + 1) { hpq with findings := .cons hfg hpq.findings }

/-- A candidate is an improvement in both domains. -/
lemma improves_eq (hpq : p.Matches embed r q) {c : Candidate S Z} {d : Candidate S W}
    (hcd : c.Matches r d) : q.improves d = p.improves c := by
  obtain ⟨findings, closest, stats, levels⟩ := p
  obtain ⟨findings', closest', stats', levels'⟩ := q
  have hclosest : Option.Rel (Finding.Matches embed r) closest closest' := hpq.closest
  rw [improves, improves]
  cases hclosest with
  | none => rfl
  | some hfg =>
    dsimp only
    rw [hcd.relative_eq, hfg.relative_eq]

/-- The closest candidate of a work item is taken in alike. -/
lemma addClosest_alike {near : Option (Candidate S Z)} {near' : Option (Candidate S W)}
    (h : Option.Rel (Candidate.Matches r) near near') (hpq : p.Matches embed r q) :
    Alike (Progress.Matches embed r) (p.addClosest layouts alphabet near)
      (q.addClosest layouts (alphabet.map embed) near') := by
  cases h with
  | none => exact .ok hpq
  | some hcd =>
    rw [addClosest, addClosest, improves_eq hpq hcd]
    split
    · exact (Finding.ofCandidate_alike embed layouts alphabet hcd).bind fun f g hfg =>
        .ok { hpq with closest := .some hfg }
    · exact .ok hpq

/-- **The tallies of a level** are taken in alike.

**Proof sketch.** By induction on the tallies. The hits of a tally are added alike, with the same
number of new ones (`addHits_alike`), and so is its closest candidate (`addClosest_alike`); its
counters are the same. -/
theorem absorb_alike {tallies : List (Tally S Z)} {tallies' : List (Tally S W)}
    (h : List.Forall₂ (Tally.Matches r) tallies tallies') (level : Level)
    (hpq : p.Matches embed r q) :
    Alike (fun a b => b.1 = a.1 ∧ a.2.Matches embed r b.2) (p.absorb alphabet level tallies)
      (q.absorb (alphabet.map embed) level tallies') := by
  induction h generalizing level p q with
  | nil => exact .ok ⟨rfl, hpq⟩
  | cons htu _ ih =>
    rw [absorb, absorb]
    rcases (addHits_alike level.layouts alphabet htu.hits level.hits hpq).error_or_ok with
      ⟨defect, hp, hq⟩ | ⟨⟨hits, p'⟩, ⟨hits', q'⟩, hp, hq, hhits, hpq'⟩
    · rw [hp, hq]
      exact .error defect
    · rw [hp, hq]
      dsimp only at hhits hpq' ⊢
      subst hhits
      rcases (addClosest_alike level.layouts alphabet htu.closest hpq').error_or_ok with
        ⟨defect, hp, hq⟩ | ⟨p'', q'', hp, hq, hpq''⟩
      · rw [hp, hq]
        exact .error defect
      · rw [hp, hq]
        dsimp only
        rw [htu.evaluated_eq, htu.pruned_eq, htu.degenerate_eq, htu.overflowed_eq]
        exact ih _ hpq''

omit [Scalar S] in
/-- A level is closed alike. -/
lemma Matches.close (hpq : p.Matches embed r q) (level : Level) (stopped : Bool) :
    (p.close level stopped).Matches embed r (q.close level stopped) where
  findings := hpq.findings
  closest := hpq.closest
  stats_eq := by rw [Progress.close, Progress.close, hpq.stats_eq]
  levels_eq := congrArg (level :: ·) hpq.levels_eq

omit [Scalar S] in
/-- A search is truncated alike. -/
lemma Matches.truncate (hpq : p.Matches embed r q) : p.truncate.Matches embed r q.truncate where
  findings := hpq.findings
  closest := hpq.closest
  stats_eq := by rw [Progress.truncate, Progress.truncate, hpq.stats_eq]
  levels_eq := hpq.levels_eq

omit [Scalar S] in
/-- Both searches have findings, or neither. -/
lemma Matches.isEmpty_eq (hpq : p.Matches embed r q) :
    q.findings.isEmpty = p.findings.isEmpty := by
  rw [Bool.eq_iff_iff, List.isEmpty_iff_length_eq_zero, List.isEmpty_iff_length_eq_zero,
    hpq.findings.length_eq]

end

end Progress

/-! ## Replays -/

namespace Search

variable {s : Search S Z} {p : Progress S Z} {q : Progress S W}

section

variable (h : Impedance.Embedding embed r) (clock : Clock)

include h

/-- The bounds are available in both domains, and the same. -/
lemma bounds_map (alphabet : List Z) (target : Z) (tolerance : Tolerance S) :
    Bounds.of? (alphabet.map embed) (embed target) tolerance =
      Bounds.of? alphabet target tolerance := by
  have hvalues : (alphabet.map embed).mapM Impedance.positiveReal? =
      alphabet.mapM Impedance.positiveReal? := by
    rw [List.mapM_map]
    exact congrArg alphabet.mapM (funext fun z => h.positiveReal?_eq z)
  rw [Bounds.of?, Bounds.of?, h.positiveReal?_eq, hvalues]

/-- What stays fixed during the search in the other domain. -/
lemma explorer_map (s : Search S Z) :
    (s.map embed).explorer clock = (s.explorer clock).map embed := by
  rw [explorer, Explorer.map]
  exact congrArg (fun bounds => (⟨_, _, _, bounds, _⟩ : Explorer S W))
    (bounds_map h s.alphabet s.settings.target s.settings.tolerance)

/-- The levels of a search are the same. -/
lemma stage_map (s : Search S Z) (leaves : Nat) :
    (s.map embed).stage clock leaves = s.stage clock leaves := by
  have hlength : (s.map embed).alphabet.length = s.alphabet.length := List.length_map embed
  rw [stage, stage, explorer_map h, Explorer.items_map, hlength]

/-- The progress after a level is the same. -/
lemma replayStage_alike (hpq : p.Matches embed r q) (g : Stage) :
    Alike (Progress.Matches embed r) (s.replayStage clock p g)
      ((s.map embed).replayStage clock q g) := by
  have htallies : List.Forall₂ (Tally.Matches r) (g.items.map (s.explorer clock).tally)
      (g.items.map ((s.map embed).explorer clock).tally) := by
    rw [explorer_map h, List.forall₂_map_left_iff, List.forall₂_map_right_iff, List.forall₂_same]
    exact fun i _ => (s.explorer clock).tallyOf_matches h i.layout i.place i.steps
  refine (Progress.absorb_alike s.alphabet htallies _ hpq).bind ?_
  rintro ⟨level, p'⟩ ⟨level', q'⟩ ⟨rfl, hpq'⟩
  exact .ok (hpq'.close level' false)

/-- **The progress after a course** is the same. -/
theorem replay_alike (hpq : p.Matches embed r q) (course : Course) :
    Alike (Progress.Matches embed r) (s.replay clock p course)
      ((s.map embed).replay clock q course) := by
  induction course generalizing p q with
  | nil => exact .ok hpq
  | cons g course ih =>
    rw [replay, replay]
    rcases (replayStage_alike h clock hpq g).error_or_ok with
      ⟨defect, hp, hq⟩ | ⟨p', q', hp, hq, hpq'⟩
    · rw [hp, hq]
      exact .error defect
    · rw [hp, hq]
      exact ih hpq'

/-- The courses are the same. -/
lemma courseFrom_map (count leaves : Nat) (hpq : p.Matches embed r q) :
    (s.map embed).courseFrom clock count leaves q = s.courseFrom clock count leaves p := by
  induction count generalizing leaves p q with
  | zero => rfl
  | succ count ih =>
    rw [courseFrom, courseFrom, stage_map h]
    rcases (replayStage_alike h clock hpq (s.stage clock leaves)).error_or_ok
      with ⟨defect, hp, hq⟩ | ⟨p', q', hp, hq, hpq'⟩
    · rw [hp, hq]
    · rw [hp, hq]
      dsimp only
      rw [goesOn, goesOn, hpq'.isEmpty_eq, ih (leaves + 1) hpq']
      rfl

end

omit [Impedance S Z] [Impedance S W] in
/-- Ranked findings are ranked alike.

**Proof sketch.** Findings that match compare alike, by leaf count, deviation and key. So the list
of the pairs, sorted by the first component, is sorted by the second one too. Both ranked lists are
the components of this one list, and its pairs match. -/
lemma ranked_matches {fs : List (Finding S Z)} {gs : List (Finding S W)}
    (h : List.Forall₂ (Finding.Matches embed r) fs gs) :
    List.Forall₂ (Finding.Matches embed r) (Finding.ranked fs) (Finding.ranked gs) := by
  -- both lists are sorted as the list of their pairs is
  have hpairs : ∀ a ∈ fs.zip gs, a.1.Matches embed r a.2 := fun a ha => List.forall₂_zip h ha
  have hcompare : ∀ a ∈ fs.zip gs, ∀ b ∈ fs.zip gs,
      a.2.compare b.2 = a.1.compare b.1 := by
    intro a ha b hb
    rw [Finding.compare, Finding.compare, Finding.leafCount, Finding.leafCount,
      Finding.leafCount, Finding.leafCount, (hpairs a ha).key_eq, (hpairs b hb).key_eq,
      (hpairs a ha).relative_eq, (hpairs b hb).relative_eq]
  have hleft : (fs.zip gs).map Prod.fst = fs := List.map_fst_zip h.length_eq.le
  have hright : (fs.zip gs).map Prod.snd = gs := List.map_snd_zip h.length_eq.ge
  have hranked : ((fs.zip gs).mergeSort fun a b => (a.1.compare b.1).isLE).map Prod.fst =
      Finding.ranked fs := by
    rw [List.map_mergeSort (s := fun f g : Finding S Z => (f.compare g).isLE)
      (fun _ _ _ _ => rfl), hleft]
    rfl
  have hranked' : ((fs.zip gs).mergeSort fun a b => (a.1.compare b.1).isLE).map Prod.snd =
      Finding.ranked gs := by
    rw [List.map_mergeSort (s := fun f g : Finding S W => (f.compare g).isLE)
      (fun a ha b hb => by rw [← hcompare a ha b hb]), hright]
    rfl
  rw [← hranked, ← hranked', List.forall₂_map_left_iff, List.forall₂_map_right_iff,
    List.forall₂_same]
  exact fun a ha => hpairs a ((List.mergeSort_perm _ _).mem_iff.mp ha)

omit [Impedance S Z] [Impedance S W] in
/-- Finished searches report alike. -/
lemma reportOf_matches {m : Except Defect (Progress S Z)} {m' : Except Defect (Progress S W)}
    (h : Alike (Progress.Matches embed r) m m') :
    (s.reportOf m).Matches embed r ((s.map embed).reportOf m') := by
  cases h with
  | error defect => exact .error _ (.defect defect)
  | ok hpq =>
    rename_i p q
    rw [reportOf, reportOf, hpq.levels_eq, conclude, conclude, hpq.isEmpty_eq, hpq.stats_eq]
    split
    · exact .error _ (.noNetwork hpq.closest _)
    · have hranked := ranked_matches (List.forall₂_reverse_iff.mpr hpq.findings)
      have hlimit : (s.map embed).settings.maxResults = s.settings.maxResults := rfl
      refine .ok _ ?_ _
      rw [hlimit]
      cases s.settings.maxResults with
      | none => exact hranked
      | some n => exact List.forall₂_take n hranked

/-! ## All of a search -/

section

variable (h : Impedance.Embedding embed r)

include h

/-- Settings are refused in the other domain for the same reason. -/
lemma checkSettings_map (settings : Settings S Z) :
    (settings.map embed).check = settings.check.mapError (SettingsError.map embed) := by
  rw [Settings.check, Settings.check, Settings.map]
  dsimp only
  rw [h.isFinite_eq (h.related settings.target), h.magnitude_eq]
  split
  · rfl
  · split
    · rfl
    · split
      · rfl
      · split <;> rfl

/-- An alphabet is refused in the other domain for the same reason. -/
lemma checkAlphabet_map (alphabet : List Z) :
    Settings.checkAlphabet (S := S) (alphabet.map embed) =
      (Settings.checkAlphabet alphabet).mapError (SettingsError.map embed) := by
  have hfind : (alphabet.map embed).find? (fun z => !Impedance.isFinite z) =
      (alphabet.find? fun z => !Impedance.isFinite z).map embed := by
    rw [List.find?_map]
    congr 2
    funext z
    exact congrArg Bool.not (h.isFinite_eq (h.related z))
  rw [Settings.checkAlphabet, Settings.checkAlphabet, List.isEmpty_map, hfind]
  split
  · rfl
  · cases alphabet.find? fun z => !Impedance.isFinite z <;> rfl

/-- A search is refused in the other domain for the same reason. -/
lemma check_map (s : Search S Z) :
    (s.map embed).check = s.check.mapError (SettingsError.map embed) := by
  have hsettings : (s.map embed).settings.check =
      s.settings.check.mapError (SettingsError.map embed) := checkSettings_map h s.settings
  rw [check, check, hsettings]
  cases s.settings.check with
  | error reason => rfl
  | ok u => exact checkAlphabet_map h s.alphabet

/-- A search that is not refused reports the same in the other domain.

**Proof sketch.** Both searches are replays of one course (`courseFrom_map`), whole or within the
limit, and matching replays lead to matching reports (`replay_alike`, `reportOf_matches`). -/
lemma run_map_of_check (clock : Clock) (hcheck : s.check = .ok ())
    (htime : s.settings.timeBudget = none) (limit : Option Nat) :
    ((s.withLimit limit).run clock).Matches embed r
      (((s.map embed).withLimit limit).run clock) := by
  have hcheck' : (s.map embed).check = .ok () := by rw [check_map h, hcheck]; rfl
  have hempty : Progress.Matches embed r ({} : Progress S Z) ({} : Progress S W) :=
    ⟨.nil, .none, rfl, rfl⟩
  have hcourse : (s.map embed).course clock = s.course clock := courseFrom_map h clock _ _ hempty
  cases limit with
  | none =>
    rw [run_withLimit_of_allows hcheck htime fun _ hn => (by cases hn),
      run_withLimit_of_allows hcheck' htime fun _ hn => (by cases hn), hcourse]
    exact reportOf_matches (replay_alike h clock hempty _)
  | some n =>
    rw [run_withLimit_some hcheck htime, run_withLimit_some hcheck' htime, hcourse]
    refine reportOf_matches ((replay_alike h clock hempty _).map fun p q hpq => ?_)
    split
    · exact hpq.truncate
    · exact hpq

/-- **The search in another domain.** Without a time limit it reports the same levels, and either
the same results in the same order with the same counters, or the same reason for having none. -/
theorem run_map (s : Search S Z) (clock : Clock) (htime : s.settings.timeBudget = none) :
    (s.run clock).Matches embed r ((s.map embed).run clock) := by
  cases hcheck : s.check with
  | error reason =>
    have hcheck' : (s.map embed).check = .error (reason.map embed) := by
      rw [check_map h, hcheck]
      rfl
    rw [run, run, hcheck, hcheck']
    exact .error _ (.settings reason)
  | ok u => exact run_map_of_check h clock hcheck htime s.settings.maxCandidates

end

end Search

end Ohmic
