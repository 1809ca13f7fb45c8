import Ohmic.Proofs.Search.Coherence
import Ohmic.Proofs.Search.Trials

set_option autoImplicit false

/-!
# The closest candidate of a miss

A search without results reports the closest candidate. It keeps the closest one of each work item,
and the closest of these over the work items and levels, and replaces one only by one that is
nearer. Where the relative deviations are in linear order, what is left in the end is the first of
the trials of least relative deviation.

## Main definitions

* `FirstLeast` — the first of the elements of a list at which a function is least.
* `closer` — the second one of two elements if it is less, and the first one otherwise.
* `Search.Reached` — the progress of a search after some trials.

## Main results

* `FirstLeast.append` — the first of the least of two lists, one after the other.
* `Search.firstLeast_tally` — a work item keeps the first of its least trials.
* `Search.Reached.replay` — so does a course.
* `Search.run_closest` — the closest candidate of a search without results.

## Implementation notes

Nothing is assumed of other scalars than the relative deviations of trials. Double precision orders
all doubles that are defined (`Binary64.linearOn_of_not_nan`); beside an undefined deviation no
other one is less, so an undefined one that comes first is never replaced.
-/

namespace Ohmic

/-! ## The first of the least -/

section

variable {α β S : Type} [Scalar S]

/-- **The first of the least**: nothing in an empty list, and otherwise an element with larger ones
before it and none that is less after it. -/
def FirstLeast (rel : α → S) (xs : List α) : Option α → Prop
  | none => xs = []
  | some a => ∃ before after, xs = before ++ a :: after ∧ (∀ b ∈ before, rel a < rel b) ∧
      ∀ b ∈ after, rel a ≤ rel b

/-- The second one if it is less or the only one, and otherwise the first one. -/
def closer (rel : α → S) : Option α → Option α → Option α
  | best, none => best
  | none, some b => some b
  | some a, some b => if rel b < rel a then some b else some a

namespace FirstLeast

variable {rel : α → S} {xs ys : List α}

/-- The only element of a list. -/
lemma singleton (rel : α → S) (a : α) : FirstLeast rel [a] (some a) :=
  ⟨[], [], rfl, fun _ hb => absurd hb List.not_mem_nil, fun _ hb => absurd hb List.not_mem_nil⟩

/-- It is an element of the list. -/
lemma mem {a : α} (h : FirstLeast rel xs (some a)) : a ∈ xs := by
  obtain ⟨before, after, rfl, -, -⟩ := h
  exact List.mem_append_right _ List.mem_cons_self

/-- A change of the elements that the function does not see. -/
lemma map (f : β → α) {zs : List β} {m : Option β} (h : FirstLeast (fun b => rel (f b)) zs m) :
    FirstLeast rel (zs.map f) (m.map f) := by
  cases m with
  | none => exact List.map_eq_nil_iff.mpr h
  | some a =>
    obtain ⟨before, after, rfl, hbefore, hafter⟩ := h
    refine ⟨before.map f, after.map f, by rw [List.map_append, List.map_cons], ?_, ?_⟩
    · exact List.forall_mem_map.mpr hbefore
    · exact List.forall_mem_map.mpr hafter

variable {P : S → Prop} (hlinear : Scalar.LinearOn P)

include hlinear

/-- It is at most every element. -/
lemma le {a : α} (hxs : ∀ b ∈ xs, P (rel b)) (h : FirstLeast rel xs (some a)) {b : α}
    (hb : b ∈ xs) : rel a ≤ rel b := by
  have ha : P (rel a) := hxs a h.mem
  have hPb : P (rel b) := hxs b hb
  obtain ⟨before, after, rfl, hbefore, hafter⟩ := h
  rcases List.mem_append.mp hb with hmem | hmem
  · exact hlinear.le_of_lt ha hPb (hbefore b hmem)
  · rcases List.mem_cons.mp hmem with rfl | hmem
    · exact hlinear.le_refl ha
    · exact hafter b hmem

/-- In a list in order every other element that is as small comes later. -/
lemma eq_or_later {r : α → α → Prop} {a : α} (hxs : ∀ b ∈ xs, P (rel b)) (hsorted : xs.Pairwise r)
    (h : FirstLeast rel xs (some a)) {b : α} (hb : b ∈ xs) (hle : rel b ≤ rel a) :
    b = a ∨ r a b := by
  have ha : P (rel a) := hxs a h.mem
  have hPb : P (rel b) := hxs b hb
  obtain ⟨before, after, rfl, hbefore, -⟩ := h
  rcases List.mem_append.mp hb with hmem | hmem
  · exact absurd hle ((hlinear.lt_iff_not_le _ _ ha hPb).mp (hbefore b hmem))
  · rcases List.mem_cons.mp hmem with rfl | hmem
    · exact .inl rfl
    · exact .inr ((List.pairwise_cons.mp (List.pairwise_append.mp hsorted).2.1).1 b hmem)

/-- **One list after the other**: the first of the least of both is the one of the second list if it
is less, and otherwise that of the first list.

**Proof sketch.** If one of the lists is empty, the other one decides. If the one of the second list
is less, it is less than all of the first list and than what stands before it in the second one. If
it is not, the one of the first list is not above it, hence not above anything in the second
list. -/
theorem append {m m' : Option α} (hall : ∀ b ∈ xs ++ ys, P (rel b)) (h : FirstLeast rel xs m)
    (h' : FirstLeast rel ys m') : FirstLeast rel (xs ++ ys) (closer rel m m') := by
  obtain ⟨hxs, hys⟩ := List.forall_mem_append.mp hall
  match m, m' with
  | m, none =>
    obtain rfl : ys = [] := h'
    rwa [List.append_nil, closer.eq_def]
  | none, some b =>
    obtain rfl : xs = [] := h
    exact h'
  | some a, some b =>
    have ha := hxs a h.mem
    have hb := hys b h'.mem
    have hfirst : ∀ x ∈ xs, rel a ≤ rel x := fun x hx => le hlinear hxs h hx
    have hsecond : ∀ y ∈ ys, rel b ≤ rel y := fun y hy => le hlinear hys h' hy
    rw [closer]
    split
    · next hlt =>
      obtain ⟨before, after, rfl, hbefore, hafter⟩ := h'
      refine ⟨xs ++ before, after, (List.append_assoc _ _ _).symm, ?_, hafter⟩
      refine List.forall_mem_append.mpr ⟨fun x hx => ?_, hbefore⟩
      exact hlinear.lt_of_lt_of_le hb ha (hxs x hx) hlt (hfirst x hx)
    · next hlt =>
      have hle : rel a ≤ rel b := hlinear.le_of_not_lt ha hb hlt
      obtain ⟨before, after, rfl, hbefore, hafter⟩ := h
      refine ⟨before, after ++ ys, by rw [List.append_assoc, List.cons_append], hbefore, ?_⟩
      refine List.forall_mem_append.mpr ⟨hafter, fun y hy => ?_⟩
      exact hlinear.le_trans _ _ _ ha hb (hys y hy) hle (hsecond y hy)

end FirstLeast

end

variable {S Z : Type} [Scalar S] [Impedance S Z]

/-! ## Work items -/

omit [Impedance S Z] in
/-- A tally keeps the closer one. -/
lemma Tally.nearer_eq_closer (best : Option (Candidate S Z)) (c : Candidate S Z) :
    nearer best c = closer (fun c => c.deviation.relative) best (some c) := by
  cases best with
  | none => rfl
  | some best => simp only [nearer, isCloser, closer, decide_eq_true_eq]

omit [Impedance S Z] in
/-- Candidates met one after the other leave the first of the least. -/
lemma Tally.firstLeast_foldl_nearer {P : S → Prop} (hlinear : Scalar.LinearOn P)
    {met more : List (Candidate S Z)} {best : Option (Candidate S Z)}
    (hall : ∀ c ∈ met ++ more, P c.deviation.relative)
    (h : FirstLeast (fun c : Candidate S Z => c.deviation.relative) met best) :
    FirstLeast (fun c : Candidate S Z => c.deviation.relative) (met ++ more)
      (more.foldl nearer best) := by
  induction more generalizing met best with
  | nil => rwa [List.append_nil, List.foldl_nil]
  | cons c more ih =>
    rw [List.append_cons] at hall ⊢
    rw [List.foldl_cons, nearer_eq_closer]
    refine ih hall (h.append hlinear (List.forall_mem_append.mp hall).1 (.singleton _ c))

namespace Search

variable {s : Search S Z} {clock : Clock} {P : S → Prop} (hlinear : Scalar.LinearOn P)

include hlinear in
/-- **A work item** keeps the first of its least trials. -/
lemma firstLeast_tally {leaves : Nat} {i : Item}
    (hall : ∀ t ∈ s.trialsAt clock leaves i, P t.relative) :
    FirstLeast Trial.relative (s.trialsAt clock leaves i)
      (((s.explorer clock).tally i).closest.map (Trial.mk leaves)) := by
  rw [Explorer.tally, Explorer.closest_tallyOf]
  have hnone : FirstLeast (fun c : Candidate S Z => c.deviation.relative) [] none := rfl
  refine (Tally.firstLeast_foldl_nearer hlinear (fun c hc => ?_) hnone).map (Trial.mk leaves)
  exact hall ⟨leaves, c⟩ (List.mem_map_of_mem hc)

/-- A valid work item counts its trials. -/
lemma evaluated_tally (leaves : Nat) (i : Item) :
    ((s.explorer clock).tally i).evaluated = (s.trialsAt clock leaves i).length := by
  rw [Explorer.tally, Explorer.evaluated_tallyOf, trialsAt, List.length_map]

/-- The trials of a valid work item have findings. -/
lemma exists_finding_of_mem_trialsAt {leaves : Nat} {i : Item}
    (h : i.Valid (Layout.withLeaves leaves) s.alphabet.length) {t : Trial S Z}
    (ht : t ∈ s.trialsAt clock leaves i) :
    ∃ f, Finding.ofCandidate (Layout.withLeaves t.leaves) s.alphabet t.candidate = .ok f ∧
      t.finding? s.alphabet = some f := by
  obtain ⟨c, hc, rfl⟩ := List.mem_map.mp ht
  exact (h.of_mem_filterMap hc).exists_finding

/-! ## Levels -/

/-- **A search after some trials**: they have findings and are counted, and the closest finding is
that of the first of the least of them. -/
structure Reached (s : Search S Z) (trials : List (Trial S Z)) (evaluated : Nat)
    (closest : Option (Finding S Z)) : Prop where
  /-- Every trial has a finding. -/
  findings : ∀ t ∈ trials, ∃ f,
    Finding.ofCandidate (Layout.withLeaves t.leaves) s.alphabet t.candidate = .ok f ∧
      t.finding? s.alphabet = some f
  /-- The trials are counted. -/
  evaluated_eq : evaluated = trials.length
  /-- The closest finding is that of the first of the least. -/
  closest_eq : ∃ m, FirstLeast Trial.relative trials m ∧
    closest = m.bind (Trial.finding? s.alphabet)

omit [Scalar S] in
/-- The finding of a trial has the deviation of the trial. -/
lemma deviation_of_finding? {alphabet : List Z} {t : Trial S Z} {f : Finding S Z}
    (h : t.finding? alphabet = some f) : f.deviation = t.candidate.deviation := by
  obtain ⟨l, -, rfl⟩ := Option.map_eq_some_iff.mp h
  rfl

/-- A search keeps the closer one of the closest finding so far and that of a work item. -/
lemma nearer_eq_closer {m : Option (Trial S Z)}
    (hm : ∀ t, m = some t → ∃ f, t.finding? s.alphabet = some f) (leaves : Nat)
    (near : Option (Candidate S Z)) :
    Progress.nearer (Layout.withLeaves leaves) s.alphabet (m.bind (Trial.finding? s.alphabet))
        near =
      (closer Trial.relative m (near.map (Trial.mk leaves))).bind
        (Trial.finding? s.alphabet) := by
  match m, near with
  | m, none => cases m <;> rfl
  | none, some c => rfl
  | some t, some c =>
    obtain ⟨f, hf⟩ := hm t rfl
    have hold : f.deviation.relative = t.relative :=
      congrArg Deviation.relative (deviation_of_finding? hf)
    have hnew : c.deviation.relative = Trial.relative ⟨leaves, c⟩ := rfl
    simp only [Progress.nearer, Progress.improves, Option.bind_some, hf, Option.map_some, closer,
      decide_eq_true_eq, hold, hnew]
    split
    · rfl
    · exact hf.symm

namespace Reached

/-- A search before its first trial. -/
lemma empty : s.Reached [] 0 none :=
  ⟨fun _ ht => absurd ht List.not_mem_nil, rfl, none, rfl, rfl⟩

variable {trials : List (Trial S Z)} {evaluated : Nat} {closest : Option (Finding S Z)}

/-- If there are trials, then the closest finding is that of the first of the least. -/
lemma exists_first (h : s.Reached trials evaluated closest) (hne : trials ≠ []) :
    ∃ t f, FirstLeast Trial.relative trials (some t) ∧ closest = some f ∧
      Finding.ofCandidate (Layout.withLeaves t.leaves) s.alphabet t.candidate = .ok f ∧
      f.deviation = t.candidate.deviation := by
  obtain ⟨m, hm, hclosest⟩ := h.closest_eq
  cases m with
  | none => exact absurd hm hne
  | some t =>
    obtain ⟨f, hof, hf⟩ := h.findings t hm.mem
    exact ⟨t, f, hm, hclosest.trans hf, hof, deviation_of_finding? hf⟩

/-- There is no closest finding exactly if there are no trials. -/
lemma closest_eq_none_iff (h : s.Reached trials evaluated closest) :
    closest = none ↔ trials = [] := by
  constructor
  · intro hnone
    by_contra hne
    obtain ⟨t, f, -, hclosest, -⟩ := h.exists_first hne
    exact Option.some_ne_none f (hclosest.symm.trans hnone)
  · rintro rfl
    obtain ⟨m, hm, rfl⟩ := h.closest_eq
    cases m with
    | none => rfl
    | some t => exact absurd hm.mem List.not_mem_nil

include hlinear

/-- **One more work item.** -/
lemma item (h : s.Reached trials evaluated closest) {leaves : Nat} {i : Item}
    (hi : i.Valid (Layout.withLeaves leaves) s.alphabet.length)
    (hall : ∀ t ∈ trials ++ s.trialsAt clock leaves i, P t.relative) :
    s.Reached (trials ++ s.trialsAt clock leaves i)
      (evaluated + ((s.explorer clock).tally i).evaluated)
      (Progress.nearer (Layout.withLeaves leaves) s.alphabet closest
        ((s.explorer clock).tally i).closest) := by
  obtain ⟨hfindings, heval, m, hm, rfl⟩ := h
  have hnext := firstLeast_tally hlinear (List.forall_mem_append.mp hall).2
  refine ⟨List.forall_mem_append.mpr ⟨hfindings, fun t => exists_finding_of_mem_trialsAt hi⟩, ?_,
    _, hm.append hlinear hall hnext, nearer_eq_closer (fun t ht => ?_) leaves _⟩
  · rw [heval, evaluated_tally leaves, List.length_append]
  · obtain rfl := ht
    obtain ⟨f, -, hf⟩ := hfindings t hm.mem
    exact ⟨f, hf⟩

/-- All work items of a level. -/
lemma items (h : s.Reached trials evaluated closest) {leaves : Nat} {items : List Item}
    (hitems : ∀ i ∈ items, i.Valid (Layout.withLeaves leaves) s.alphabet.length)
    (hall : ∀ t ∈ trials ++ items.flatMap (s.trialsAt clock leaves), P t.relative) :
    s.Reached (trials ++ items.flatMap (s.trialsAt clock leaves))
      (evaluated + ((items.map (s.explorer clock).tally).map Tally.evaluated).sum)
      (((items.map (s.explorer clock).tally).map Tally.closest).foldl
        (Progress.nearer (Layout.withLeaves leaves) s.alphabet) closest) := by
  induction items generalizing trials evaluated closest with
  | nil => rwa [List.flatMap_nil, List.append_nil]
  | cons i items ih =>
    rw [List.forall_mem_cons] at hitems
    rw [List.flatMap_cons, ← List.append_assoc] at hall ⊢
    have hitem := h.item hlinear hitems.1 (List.forall_mem_append.mp hall).1
    simpa only [List.map_cons, List.sum_cons, List.foldl_cons, Nat.add_assoc] using
      ih hitem hitems.2 hall

/-- **One more level.** -/
lemma replayStage {p p' : Progress S Z}
    (h : s.Reached trials (p.levels.map Level.evaluated).sum p.closest) {g : Stage}
    (hg : g.Valid s.alphabet.length)
    (hall : ∀ t ∈ trials ++ s.trialsOf clock g.candidates, P t.relative)
    (hreplay : s.replayStage clock p g = .ok p') :
    s.Reached (trials ++ s.trialsOf clock g.candidates) (p'.levels.map Level.evaluated).sum
      p'.closest := by
  rw [trialsOf_stage hg] at hall ⊢
  obtain ⟨hits, hstage⟩ := exists_replayStage clock hg p
  obtain rfl := Except.ok.inj (hstage.symm.trans hreplay)
  have hlevel := h.items hlinear hg hall
  rw [Nat.add_comm] at hlevel
  simpa only [Progress.close, Stage.layouts, List.map_cons, List.sum_cons] using hlevel

/-- **All levels of a course**, one after the other. -/
theorem replay {course : Course} (hcourse : ∀ g ∈ course, g.Valid s.alphabet.length)
    {p p' : Progress S Z}
    (h : s.Reached trials (p.levels.map Level.evaluated).sum p.closest)
    (hall : ∀ t ∈ trials ++ s.trialsOf clock course.candidates, P t.relative)
    (hreplay : s.replay clock p course = .ok p') :
    s.Reached (trials ++ s.trialsOf clock course.candidates) (p'.levels.map Level.evaluated).sum
      p'.closest := by
  induction course generalizing trials p with
  | nil =>
    obtain rfl := Except.ok.inj hreplay
    exact (List.append_nil trials).symm ▸ h
  | cons g course ih =>
    rw [List.forall_mem_cons] at hcourse
    rw [trialsOf_cons, ← List.append_assoc] at hall ⊢
    obtain ⟨q, hstage, hrest⟩ := replay_cons_eq_ok.mp hreplay
    have hnext := h.replayStage hlinear hcourse.1 (List.forall_mem_append.mp hall).1 hstage
    exact ih hcourse.2 hnext hall hrest

end Reached

/-! ## The closest candidate -/

/-- The trials of a search that reports on a replay are those of the course that is replayed. -/
lemma trials_of_replay (hcheck : s.check = .ok ()) {course : Course} (hadmits : s.Admits course)
    {p : Progress S Z} (hreplay : s.replay clock {} course = .ok p)
    (hlevels : (s.run clock).levels = p.levels.reverse)
    (hfirst : course.candidates <+: (s.course clock).candidates) :
    s.trials clock = s.trialsOf clock course.candidates := by
  have hafter := after_of_replay hcheck hadmits hreplay
  have hhandled : (s.run clock).handled = course.candidates.length := by
    rw [← (reportOf_of_after hafter).1, Report.handled, hlevels]
    rfl
  rw [trials, hhandled, ← List.prefix_iff_eq_take.mp hfirst]

/-- **The closest candidate of a miss.** Take a search that ends without a network, where the
relative deviations of its trials are in linear order; its limits and its clock may be any.

* The trials are as many as its levels count evaluated candidates.
* No closest candidate is reported exactly if there are no trials.
* Otherwise it is the finding of a trial of least relative deviation, and of these of the earliest
  one in the order of search.
* A search that is not truncated reports one, and it is at least as near as every single value of
  the alphabet.

**Proof sketch.** The search is a replay of beginnings of its levels, whose candidates are the first
ones of its course (`exists_replay_of_noNetwork`). A work item keeps the first of its least trials,
and what is kept of one list of trials after the other is the first of the least of both
(`FirstLeast.append`), so a replay keeps the first of the least of all (`Reached.replay`). The
trials are in the order of search, hence the first one is the earliest. If nothing stops the search,
the trials are those of the whole course, and every value of the alphabet is one of these
(`exists_trial_course`). -/
theorem run_closest (s : Search S Z) (clock : Clock)
    (hlinear : Scalar.LinearOn fun x : S => ∃ t ∈ s.trials clock, t.relative = x)
    {closest : Option (Finding S Z)} {truncated : Bool}
    (h : (s.run clock).outcome = .error (.noNetwork closest truncated)) :
    ((s.run clock).levels.map Level.evaluated).sum = (s.trials clock).length ∧
    (closest = none ↔ s.trials clock = []) ∧
    (∀ f, closest = some f → ∃ t ∈ s.trials clock,
      Finding.ofCandidate (Layout.withLeaves t.leaves) s.alphabet t.candidate = .ok f ∧
      ∀ u ∈ s.trials clock, t.relative ≤ u.relative ∧
        (u.relative ≤ t.relative → u = t ∨ Earlier t.position u.position)) ∧
    (truncated = false → ∃ f, closest = some f ∧
      ∀ z ∈ s.alphabet, f.deviation.relative ≤ (Deviation.of z s.settings.target).relative) := by
  obtain ⟨hcheck, course, p, hadmits, hreplay, -, rfl, hlevels, hfirst, hwhole⟩ :=
    exists_replay_of_noNetwork h
  obtain ⟨hsome, hfinite, hleaves⟩ := check_eq_ok hcheck
  have htrials := trials_of_replay hcheck hadmits hreplay hlevels hfirst
  have hall : ∀ t ∈ s.trials clock, ∃ u ∈ s.trials clock, u.relative = t.relative :=
    fun t ht => ⟨t, ht, rfl⟩
  have hreached : s.Reached (s.trials clock) (p.levels.map Level.evaluated).sum p.closest := by
    rw [htrials] at hlinear hall ⊢
    exact Reached.empty.replay hlinear (fun g hg => (hadmits g hg).1) hall hreplay
  refine ⟨?_, hreached.closest_eq_none_iff, fun f hf => ?_, fun hnot => ?_⟩
  · rw [hlevels, List.map_reverse, List.sum_reverse, hreached.evaluated_eq]
  · have hne : s.trials clock ≠ [] := fun hnil =>
      Option.some_ne_none f (hf.symm.trans (hreached.closest_eq_none_iff.mpr hnil))
    obtain ⟨t, f', hm, hclosest, hof, -⟩ := hreached.exists_first hne
    obtain rfl : f' = f := Option.some.inj (hclosest.symm.trans hf)
    refine ⟨t, hm.mem, hof, fun u hu => ⟨hm.le hlinear hall hu, ?_⟩⟩
    exact hm.eq_or_later hlinear hall (s.pairwise_trials clock) hu
  · -- nothing was left out, so every value of the alphabet was tried
    have hsingle : ∀ z ∈ s.alphabet, ∃ u ∈ s.trials clock,
        u.candidate.deviation = Deviation.of z s.settings.target := by
      rw [htrials, hwhole hnot]
      exact fun z hz => exists_trial_course clock hleaves hfinite hz
    obtain ⟨z, hz⟩ := List.exists_mem_of_ne_nil _ hsome
    obtain ⟨u, hu, -⟩ := hsingle z hz
    obtain ⟨t, f, hm, hclosest, -, hdeviation⟩ := hreached.exists_first (List.ne_nil_of_mem hu)
    refine ⟨f, hclosest, fun z hz => ?_⟩
    obtain ⟨u, hu, htried⟩ := hsingle z hz
    rw [hdeviation, ← htried]
    exact hm.le hlinear hall hu

/-- One and three ohms are as far from two, so a single part misses it by the first of them. -/
theorem run_closest_two_ohms :
    let s : Search ℚ ℚ := ⟨[1, 3], Settings.of 2 (.relative (1 / 100)) 1⟩
    ∃ f, (s.run Clock.still).outcome = .error (.noNetwork (some f) false) ∧ f.impedance = 1 ∧
      (∃ t ∈ s.trials Clock.still, ∀ u ∈ s.trials Clock.still, t.relative ≤ u.relative ∧
        (u.relative ≤ t.relative → u = t ∨ Earlier t.position u.position)) ∧
      ∀ z ∈ s.alphabet, f.deviation.relative ≤ (Deviation.of z s.settings.target).relative := by
  intro s
  have hlevels : (s.runLevels Clock.still 1 1 (Budget.ofSettings s.settings) {}).toOption.map
      (fun p => (p.findings.isEmpty, p.closest.map Finding.impedance, p.stats.truncated)) =
        some (true, some 1, false) := by decide +kernel
  obtain ⟨f, houtcome, himpedance⟩ :=
    exists_miss_of_runLevels Finding.impedance (by decide +kernel) rfl hlevels
  obtain ⟨-, -, hleast, hsingle⟩ := run_closest s Clock.still (Exact.linearOn _) houtcome
  obtain ⟨t, ht, -, hfirst⟩ := hleast f rfl
  obtain ⟨f', hf', hnear⟩ := hsingle rfl
  obtain rfl := Option.some.inj hf'
  exact ⟨f, houtcome, himpedance, ⟨t, ht, hfirst⟩, hnear⟩

end Search

end Ohmic
