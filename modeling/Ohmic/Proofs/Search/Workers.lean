import Ohmic.Proofs.Alike
import Ohmic.Proofs.Circuit.FirstFault
import Ohmic.Proofs.Search.Interrupted
import Ohmic.Search.Workers

set_option autoImplicit false

/-!
# Sharing a search makes no difference

A bench carries more than its tokens from one work item to the next: the stacks of its machines,
and the number of values tried so far. None of it has an influence as long as nothing limits the
search, so a work item has one outcome, whoever handles it and after whatever else.

## Main definitions

* `Budget.Unlimited` — nothing is limited.
* `Exploration.SameWork` — two explorations have the same candidate and the same tally.
* `Explorer.outcome` — the outcome of a work item on a fresh bench.

## Main results

* `Explorer.descend_sameWork` — the slots from one on.
* `Explorer.explore_eq_outcome` — a work item on any bench.
* `Explorer.workOff_eq_map`, `Explorer.collect_eq_exploreAll` — a worker, and all of them.
* `Search.runShared_eq` — the whole search.

## Implementation notes

Nothing is assumed of the layouts and the values: a work item that ends with a defect does so on
every bench.
-/

namespace Ohmic

/-- Neither the time nor the number of candidates is limited. -/
structure Budget.Unlimited (b : Budget) : Prop where
  /-- There is no time limit. -/
  deadline : b.deadline = none
  /-- There is no limit on candidates. -/
  maxCandidates : b.maxCandidates = none

/-- A look at the clock changes nothing. -/
lemma Budget.Unlimited.look {b : Budget} (h : b.Unlimited) (clock : Clock) : b.look clock = b := by
  simp only [Budget.look, h.deadline]

/-- Every request is granted, and changes nothing. -/
lemma Budget.Unlimited.grant {b : Budget} (h : b.Unlimited) : b.grant = (true, b) := by
  simp only [Budget.grant, h.maxCandidates]

variable {S Z : Type}

/-- Two benches hold the same candidate and the same bounds. -/
structure Bench.SameTokens (c c' : Bench S Z) : Prop where
  /-- The candidates agree. -/
  tokens : c.tokens = c'.tokens
  /-- So do the lower bounds. -/
  lower : c.lower = c'.lower
  /-- So do the upper bounds. -/
  upper : c.upper = c'.upper
  /-- So do the indices. -/
  assignment : c.assignment = c'.assignment

/-- Two explorations with the budget `b` have the same candidate, bounds and tally. -/
structure Exploration.SameWork (b : Budget) (e e' : Exploration S Z) : Prop where
  /-- The candidates and bounds agree. -/
  bench : e.bench.SameTokens e'.bench
  /-- So do the tallies. -/
  tally : e.tally = e'.tally
  /-- The first one has the budget. -/
  budget_left : e.budget = b
  /-- So has the second one. -/
  budget_right : e'.budget = b

/-- What two machines evaluated before has no influence. -/
lemma exists_evaluate [Scalar S] [Impedance S Z] (m m' : Machine Z) (tokens : List (Token Z)) :
    ∃ result n n', m.evaluate tokens = (result, n) ∧ m'.evaluate tokens = (result, n') :=
  ⟨(m.evaluate tokens).1, (m.evaluate tokens).2, (m'.evaluate tokens).2, rfl,
    Prod.ext (Machine.fst_evaluate_eq m' m tokens) rfl⟩

namespace Bench

variable {c c' : Bench S Z}

/-- A fresh layout makes any two benches alike. -/
lemma sameTokens_load [Impedance S Z] (c c' : Bench S Z) (l : Layout)
    (bounds : Option (Bounds S)) : (c.load l bounds).SameTokens (c'.load l bounds) :=
  ⟨rfl, rfl, rfl, rfl⟩

/-- A value is put into a slot. -/
lemma place_sameTokens (h : c.SameTokens c') (slot position index : Nat) (value : Z) :
    Alike SameTokens (c.place slot position index value)
      (c'.place slot position index value) := by
  rw [place, place, h.assignment, h.tokens]
  refine .bind_same _ fun assignment => .bind_same _ fun tokens => ?_
  exact .ok ⟨rfl, h.lower, h.upper, rfl⟩

/-- The bounds of a slot are set. -/
lemma setBounds_sameTokens (h : c.SameTokens c') (position : Nat) (least greatest : S) :
    Alike SameTokens (c.setBounds position least greatest)
      (c'.setBounds position least greatest) := by
  rw [setBounds, setBounds, h.lower, h.upper]
  refine .bind_same _ fun lower => .bind_same _ fun upper => ?_
  exact .ok ⟨h.tokens, rfl, rfl, h.assignment⟩

/-- The bounds of a slot are reset. -/
lemma freeBounds_sameTokens (h : c.SameTokens c') (position : Nat) (bounds : Option (Bounds S)) :
    Alike SameTokens (c.freeBounds position bounds) (c'.freeBounds position bounds) := by
  cases bounds with
  | none => exact .ok h
  | some bd => exact setBounds_sameTokens h position bd.min bd.max

/-- The bounds say the same. -/
lemma verdict_sameTokens [Scalar S] (h : c.SameTokens c') (bd : Bounds S) :
    ∃ verdict d d', c.verdict bd = (verdict, d) ∧ c'.verdict bd = (verdict, d') ∧
      d.SameTokens d' := by
  obtain ⟨least, m, m', hm, hm'⟩ := exists_evaluate c.boundMachine c'.boundMachine c.lower
  obtain ⟨greatest, n, n', hn, hn'⟩ := exists_evaluate m m' c.upper
  simp only [verdict, ← h.lower, ← h.upper, hm, hm', hn, hn']
  cases least with
  | error fault => exact ⟨_, _, _, rfl, rfl, h.tokens, rfl, rfl, h.assignment⟩
  | ok value =>
    by_cases hover : bd.high < value
    · simp only [hover, decide_true, if_true]
      exact ⟨_, _, _, rfl, rfl, h.tokens, rfl, rfl, h.assignment⟩
    · simp only [hover, decide_false, Bool.false_eq_true, if_false]
      exact ⟨_, _, _, rfl, rfl, h.tokens, rfl, rfl, h.assignment⟩

end Bench

variable [Scalar S] [Impedance S Z]

namespace Explorer

variable {x : Explorer S Z} {b : Budget} {layout : Nat}

/-! ## One value -/

omit [Scalar S] [Impedance S Z] in
/-- Before a value is tried. -/
lemma tick_sameWork (hb : b.Unlimited) {e e' : Exploration S Z} (h : e.SameWork b e') :
    (x.tick e).SameWork b (x.tick e') := by
  refine ⟨⟨h.bench.tokens, h.bench.lower, h.bench.upper, h.bench.assignment⟩, h.tally, ?_, ?_⟩
  · simp only [tick, h.budget_left, hb.look, ite_self]
  · simp only [tick, h.budget_right, hb.look, ite_self]

/-- A complete candidate has the same effect. -/
lemma record_sameWork {e e' : Exploration S Z} (h : e.SameWork b e') :
    Alike (Exploration.SameWork b) (x.record layout e) (x.record layout e') := by
  obtain ⟨⟨htokens, hlower, hupper, hassignment⟩, htally, hleft, hright⟩ := h
  obtain ⟨result, m, m', hm, hm'⟩ :=
    exists_evaluate e.bench.machine e'.bench.machine e.bench.tokens
  simp only [record, ← htokens, ← htally, hm, hm']
  cases result with
  | ok value =>
    refine .ok ⟨⟨rfl, hlower, hupper, hassignment⟩, ?_, hleft, hright⟩
    simp only [hassignment]
  | error fault =>
    cases fault with
    | degenerate position =>
      exact .ok ⟨⟨rfl, hlower, hupper, hassignment⟩, rfl, hleft, hright⟩
    | overflow position =>
      exact .ok ⟨⟨rfl, hlower, hupper, hassignment⟩, rfl, hleft, hright⟩
    | malformed position reason => exact .error _

/-- Every candidate is granted, and has the same effect. -/
lemma finish_sameWork (hb : b.Unlimited) {e e' : Exploration S Z} (h : e.SameWork b e') :
    Alike (fun r r' => r.1 = r'.1 ∧ r.2.SameWork b r'.2) (x.finish layout e)
      (x.finish layout e') := by
  rw [finish, finish, h.budget_left, h.budget_right, hb.grant]
  have hsame : ({ e with budget := b } : Exploration S Z).SameWork b { e' with budget := b } :=
    ⟨h.bench, h.tally, rfl, rfl⟩
  exact (record_sameWork hsame).bind fun _ _ hr => .ok ⟨rfl, hr⟩

omit [Impedance S Z] in
/-- The bounds judge the same. -/
lemma judge_sameWork (position index : Nat) {e e' : Exploration S Z} (h : e.SameWork b e') :
    Alike (fun r r' => r.1 = r'.1 ∧ r.2.SameWork b r'.2) (x.judge position index e)
      (x.judge position index e') := by
  rw [judge, judge]
  cases x.bounds with
  | none => exact .ok ⟨rfl, h⟩
  | some bd =>
    refine .bind_same _ fun value => ?_
    refine (Bench.setBounds_sameTokens h.bench position value value).bind fun c c' hc => ?_
    obtain ⟨verdict, d, d', hd, hd', hbench⟩ := Bench.verdict_sameTokens hc bd
    rw [hd, hd']
    cases verdict with
    | feasible => exact .ok ⟨rfl, hbench, h.tally, h.budget_left, h.budget_right⟩
    | overshoot =>
      exact .ok ⟨rfl, hbench, by rw [h.tally], h.budget_left, h.budget_right⟩
    | undershoot =>
      exact .ok ⟨rfl, hbench, by rw [h.tally], h.budget_left, h.budget_right⟩

/-! ## Slots -/

/-- The values of one slot are tried alike, if the later slots are filled alike.

**Proof sketch.** By induction on the values that are left. Both searches have the same budget, so
they are stopped alike. The value is placed alike, and it is finished alike in the last slot. In
another slot it is judged alike, and then handed to the later slots or given up in both searches. -/
lemma fillSlot_sameWork (hb : b.Unlimited) (slot position : Nat)
    {deeper : Option (Exploration S Z → Except Defect (Exploration S Z))}
    (hdeeper : ∀ descend, deeper = some descend → ∀ e e', e.SameWork b e' →
      Alike (Exploration.SameWork b) (descend e) (descend e'))
    (indices : List Nat) {e e' : Exploration S Z} (h : e.SameWork b e') :
    Alike (Exploration.SameWork b) (x.fillSlot layout slot position deeper indices e)
      (x.fillSlot layout slot position deeper indices e') := by
  induction indices generalizing e e' with
  | nil => exact .ok h
  | cons index rest ih =>
    have htick : (x.tick e).SameWork b (x.tick e') := tick_sameWork hb h
    have hleft : (x.tick e).budget.stopped = b.stopped := congrArg _ htick.budget_left
    have hright : (x.tick e').budget.stopped = b.stopped := congrArg _ htick.budget_right
    rw [fillSlot, fillSlot, hleft, hright]
    cases hstop : b.stopped with
    | true => exact .ok htick
    | false =>
      simp only [Bool.false_eq_true, if_false]
      refine .bind_same _ fun value => ?_
      refine (Bench.place_sameTokens htick.bench slot position index value).bind fun c c' hc => ?_
      have hplaced : ({ x.tick e with bench := c } : Exploration S Z).SameWork b
          { x.tick e' with bench := c' } :=
        ⟨hc, htick.tally, htick.budget_left, htick.budget_right⟩
      cases deeper with
      | none =>
        dsimp only
        refine (finish_sameWork hb hplaced).bind fun r r' hr => ?_
        obtain ⟨granted, f⟩ := r
        obtain ⟨granted', f'⟩ := r'
        obtain ⟨rfl, hf⟩ := hr
        cases granted with
        | true => exact ih hf
        | false => exact .ok hf
      | some descend =>
        dsimp only
        refine (judge_sameWork position index hplaced).bind fun r r' hr => ?_
        obtain ⟨verdict, f⟩ := r
        obtain ⟨verdict', f'⟩ := r'
        obtain ⟨rfl, hf⟩ := hr
        have hcut : ∀ cut, Alike (Exploration.SameWork b)
            (if x.endsSlot cut then .ok f
              else x.fillSlot layout slot position (some descend) rest f)
            (if x.endsSlot cut then .ok f'
              else x.fillSlot layout slot position (some descend) rest f') := fun cut => by
          split
          · exact .ok hf
          · exact ih hf
        cases verdict with
        | feasible => exact (hdeeper descend rfl f f' hf).bind fun _ _ => ih
        | overshoot => exact hcut .overshoot
        | undershoot => exact hcut .undershoot

/-- One slot is filled alike, if the later slots are. -/
lemma fillFrom_sameWork (hb : b.Unlimited) (layouts : List Layout) (slot first stop : Nat)
    {deeper : Option (Exploration S Z → Except Defect (Exploration S Z))}
    (hdeeper : ∀ descend, deeper = some descend → ∀ e e', e.SameWork b e' →
      Alike (Exploration.SameWork b) (descend e) (descend e'))
    {e e' : Exploration S Z} (h : e.SameWork b e') :
    Alike (Exploration.SameWork b) (x.fillFrom layouts layout slot first stop deeper e)
      (x.fillFrom layouts layout slot first stop deeper e') := by
  rw [fillFrom, fillFrom, h.bench.assignment]
  refine .bind_same _ fun l => .bind_same _ fun position => .bind_same _ fun tie => ?_
  have hfill : ∀ start, Alike (Exploration.SameWork b)
      (x.fillSlot layout slot position deeper (List.range' start (stop - start)) e >>= fun e =>
        e.bench.freeBounds position x.bounds >>= fun bench => pure { e with bench := bench })
      (x.fillSlot layout slot position deeper (List.range' start (stop - start)) e' >>= fun e =>
        e.bench.freeBounds position x.bounds >>= fun bench => pure { e with bench := bench }) := by
    intro start
    refine (fillSlot_sameWork hb slot position hdeeper _ h).bind fun f f' hf => ?_
    refine (Bench.freeBounds_sameTokens hf.bench position x.bounds).bind fun c c' hc => ?_
    exact .ok ⟨hc, hf.tally, hf.budget_left, hf.budget_right⟩
  cases tie with
  | none => exact hfill first
  | some earlier => exact .bind_same _ fun index => hfill (max first index)

/-- **The slots from one on** are filled alike, whatever the benches of two explorations carry
besides their tokens.

**Proof sketch.** By induction on the number of slots after the current one. Each value of the
current slot is placed and judged alike, and the evaluation of a complete candidate does not depend
on what the machine evaluated before (`Machine.fst_evaluate_eq`). -/
theorem descend_sameWork (hb : b.Unlimited) (layouts : List Layout)
    (after slot first stop : Nat) {e e' : Exploration S Z} (h : e.SameWork b e') :
    Alike (Exploration.SameWork b) (x.descend layouts layout after slot first stop e)
      (x.descend layouts layout after slot first stop e') := by
  induction after generalizing slot first stop e e' with
  | zero => exact fillFrom_sameWork hb layouts slot first stop (fun _ hnone => by cases hnone) h
  | succ after ih =>
    refine fillFrom_sameWork hb layouts slot first stop (fun descend hdescend f f' hf => ?_) h
    obtain rfl := Option.some.inj hdescend
    exact ih (slot + 1) 0 x.alphabet.length hf

/-! ## Work items -/

/-- The outcome of a work item on a fresh bench. -/
def outcome (x : Explorer S Z) (layouts : List Layout) (budget : Budget) (item : Nat × Nat) :
    Except Defect (Tally S Z) :=
  (x.explore layouts item.1 item.2 {} budget).map Exploration.tally

/-- A work item does the same on two benches, and leaves the budget as it is. -/
lemma explore_sameWork (hb : b.Unlimited) (layouts : List Layout) (item : Nat × Nat)
    (c c' : Bench S Z) :
    Alike (fun e e' => e.tally = e'.tally ∧ e.budget = b)
      (x.explore layouts item.1 item.2 c b) (x.explore layouts item.1 item.2 c' b) := by
  rw [explore, explore, hb.look]
  cases hstop : b.stopped with
  | true => exact .ok ⟨rfl, rfl⟩
  | false =>
    simp only [Bool.false_eq_true, if_false]
    refine .bind_same _ fun l => ?_
    have hstart : Exploration.SameWork b { bench := c.load l x.bounds, budget := b }
        { bench := c'.load l x.bounds, budget := b } :=
      ⟨Bench.sameTokens_load c c' l x.bounds, rfl, rfl, rfl⟩
    exact (descend_sameWork hb layouts (l.slots - 1) 0 item.2 (item.2 + 1) hstart).mono
      fun _ _ h => ⟨h.tally, h.budget_left⟩

/-- **The outcome of a work item** is that on a fresh bench, whatever the bench holds. -/
theorem explore_eq_outcome (hb : b.Unlimited) (layouts : List Layout) (item : Nat × Nat)
    (c : Bench S Z) :
    (x.explore layouts item.1 item.2 c b).map Exploration.tally = x.outcome layouts b item :=
  (explore_sameWork hb layouts item c {}).map_eq fun _ _ h => h.1

/-- A work item ends with a defect, or has a tally and leaves the budget as it is. -/
lemma explore_error_or_ok (hb : b.Unlimited) (layouts : List Layout) (item : Nat × Nat)
    (c : Bench S Z) :
    (∃ defect, x.explore layouts item.1 item.2 c b = .error defect ∧
      x.outcome layouts b item = .error defect) ∨
    ∃ e, x.explore layouts item.1 item.2 c b = .ok e ∧ e.budget = b ∧
      x.outcome layouts b item = .ok e.tally := by
  have houtcome := explore_eq_outcome (x := x) hb layouts item c
  rcases (explore_sameWork (x := x) hb layouts item c c).error_or_ok with
    ⟨defect, hexplore, -⟩ | ⟨e, -, hexplore, -, -, hbudget⟩
  · rw [hexplore] at houtcome
    exact .inl ⟨defect, hexplore, houtcome.symm⟩
  · rw [hexplore] at houtcome
    exact .inr ⟨e, hexplore, hbudget, houtcome.symm⟩

/-- **The outcomes of a worker** are those on fresh benches, in whatever order it handles its work
items. -/
theorem workOff_eq_map (hb : b.Unlimited) (layouts : List Layout) (c : Bench S Z)
    (items : List (Nat × Nat)) :
    x.workOff layouts b c items = items.map fun item => (item, x.outcome layouts b item) := by
  induction items generalizing c with
  | nil => rfl
  | cons item rest ih =>
    rw [workOff, List.map_cons]
    rcases explore_error_or_ok (x := x) hb layouts item c with
      ⟨defect, hexplore, houtcome⟩ | ⟨e, hexplore, -, houtcome⟩
    · simp only [hexplore, houtcome, ih]
    · simp only [hexplore, houtcome, ih]

omit [Scalar S] [Impedance S Z] in
/-- Computations that agree on all elements may be exchanged. -/
lemma mapM_congr {f g : Nat × Nat → Except Defect (Tally S Z)} {work : List (Nat × Nat)}
    (h : ∀ item ∈ work, f item = g item) : work.mapM f = work.mapM g := by
  induction work with
  | nil => rfl
  | cons item rest ih =>
    rw [List.forall_mem_cons] at h
    rw [List.mapM_cons, List.mapM_cons, h.1, ih h.2]

/-- **The outcomes of all workers** in search order are those on fresh benches, if every work item
is given to some worker. -/
theorem collect_eq_mapM (hb : b.Unlimited) (layouts : List Layout)
    {shares : List (List (Nat × Nat))} {work : List (Nat × Nat)}
    (hwork : ∀ item ∈ work, item ∈ shares.flatten) :
    collect (shares.flatMap (x.workOff layouts b {})) work = work.mapM (x.outcome layouts b) := by
  have houtcomes : shares.flatMap (x.workOff layouts b {}) =
      shares.flatten.map fun item => (item, x.outcome layouts b item) := by
    rw [List.map_flatten, ← List.flatMap_def]
    exact List.flatMap_congr fun items _ => workOff_eq_map hb layouts {} items
  rw [collect, houtcomes]
  exact mapM_congr fun item hitem => by rw [List.lookup_graph _ (hwork item hitem)]

/-- One worker has the same outcomes. -/
lemma exploreAll_eq_mapM (hb : b.Unlimited) (layouts : List Layout) (c : Bench S Z)
    (done : List (Tally S Z)) (work : List (Nat × Nat)) :
    x.exploreAll layouts c b done work =
      (work.mapM (x.outcome layouts b)).map fun tallies => (done.reverse ++ tallies, b) := by
  induction work generalizing c done with
  | nil => simp only [exploreAll, List.mapM_nil, pure, Except.pure, Except.map, List.append_nil]
  | cons item rest ih =>
    rw [List.mapM_cons, exploreAll]
    rcases explore_error_or_ok (x := x) hb layouts item c with
      ⟨defect, hexplore, houtcome⟩ | ⟨e, hexplore, hbudget, houtcome⟩
    · rw [hexplore, houtcome]
      rfl
    · rw [hexplore, houtcome]
      simp only [hbudget, ih, bind, Except.bind]
      rcases rest.mapM (x.outcome layouts b) with defect | tallies
      · rfl
      · simp only [Except.map, pure, Except.pure, List.reverse_cons, List.append_assoc,
          List.singleton_append]

end Explorer

namespace Search

variable {s : Search S Z} {clock : Clock}

/-- A level that is shared out has the progress of one that is not. -/
lemma runLevelShared_eq {b : Budget} (hb : b.Unlimited) {leaves : Nat}
    {shares : List (List (Nat × Nat))}
    (hshares : shares.flatten.Perm
      (Explorer.workItems (Layout.withLeaves leaves) s.alphabet.length)) (p : Progress S Z) :
    s.runLevel clock leaves b p =
      (s.runLevelShared clock leaves shares b p).map fun p => (b, p) := by
  rw [runLevel, runLevelShared, Explorer.exploreAll_eq_mapM hb,
    Explorer.collect_eq_mapM hb _ fun item hitem => hshares.mem_iff.mpr hitem]
  rcases (Explorer.workItems (Layout.withLeaves leaves) s.alphabet.length).mapM
    ((s.explorer clock).outcome (Layout.withLeaves leaves) b) with defect | tallies
  · rfl
  · simp only [Except.map, bind, Except.bind, List.reverse_nil, List.nil_append]
    rcases p.absorb s.alphabet { leaves := leaves, layouts := Layout.withLeaves leaves }
      tallies with defect | ⟨level, p'⟩ <;> rfl

/-- Levels that are shared out have the progress of ones that are not. -/
lemma runLevelsShared_eq {b : Budget} (hb : b.Unlimited) {shares : Nat → List (List (Nat × Nat))}
    (hshares : ∀ leaves, (shares leaves).flatten.Perm
      (Explorer.workItems (Layout.withLeaves leaves) s.alphabet.length)) (count leaves : Nat)
    (p : Progress S Z) :
    s.runLevelsShared clock shares count leaves b p = s.runLevels clock count leaves b p := by
  induction count generalizing leaves p with
  | zero => rfl
  | succ count ih =>
    rw [runLevelsShared, runLevels, runLevelShared_eq hb (hshares leaves)]
    cases s.runLevelShared clock leaves (shares leaves) b p with
    | error defect => rfl
    | ok p' => simp only [Except.map, ih]

/-- **Sharing a search makes no difference.** Take a search without a time limit and without a limit
on candidates, and share out the work items of each level among workers in any way, each of them in
any order.

* Each worker has for each of its work items the outcome that the work item has on a fresh bench,
  whatever the worker's bench held before.
* In search order the outcomes of all workers are those of one worker that handles all work items
  in this order; and in a search that is not refused, none of them is a defect.
* The report is that of the search that is not shared: the levels, their counters, the results and
  the closest finding are the same.

**Proof sketch.** Two explorations of one work item go through the same candidates, bounds and
tallies (`Explorer.descend_sameWork`), and `Bench.load` makes any two benches alike. What is
collected and taken in is then the same list of tallies. -/
theorem runShared_eq (s : Search S Z) (clock : Clock) (shares : Nat → List (List (Nat × Nat)))
    (htime : s.settings.timeBudget = none) (hlimit : s.settings.maxCandidates = none)
    (hshares : ∀ leaves, (shares leaves).flatten.Perm
      (Explorer.workItems (Layout.withLeaves leaves) s.alphabet.length)) :
    (∀ leaves, ∀ items ∈ shares leaves, ∀ bench,
      (s.explorer clock).workOff (Layout.withLeaves leaves) (Budget.ofSettings s.settings) bench
          items =
        items.map fun item => (item, (s.explorer clock).outcome (Layout.withLeaves leaves)
          (Budget.ofSettings s.settings) item)) ∧
    (∀ leaves, Explorer.collect
        ((shares leaves).flatMap ((s.explorer clock).workOff (Layout.withLeaves leaves)
          (Budget.ofSettings s.settings) {}))
        (Explorer.workItems (Layout.withLeaves leaves) s.alphabet.length) =
      ((s.explorer clock).exploreAll (Layout.withLeaves leaves) {}
        (Budget.ofSettings s.settings) []
        (Explorer.workItems (Layout.withLeaves leaves) s.alphabet.length)).map Prod.fst) ∧
    (s.check = .ok () → ∀ leaves,
      ∀ item ∈ Explorer.workItems (Layout.withLeaves leaves) s.alphabet.length,
        ∃ tally, (s.explorer clock).outcome (Layout.withLeaves leaves)
          (Budget.ofSettings s.settings) item = .ok tally) ∧
    s.runShared clock shares = s.run clock := by
  have hb : (Budget.ofSettings s.settings).Unlimited :=
    ⟨by simp only [Budget.ofSettings, htime, Option.map_none], hlimit⟩
  refine ⟨fun leaves items _ bench => Explorer.workOff_eq_map hb _ bench items,
    fun leaves => ?_, fun hcheck leaves item hitem => ?_, ?_⟩
  · rw [Explorer.exploreAll_eq_mapM hb,
      Explorer.collect_eq_mapM hb _ fun item hitem => (hshares leaves).mem_iff.mpr hitem]
    cases (Explorer.workItems (Layout.withLeaves leaves) s.alphabet.length).mapM
      ((s.explorer clock).outcome (Layout.withLeaves leaves) (Budget.ofSettings s.settings)) <;> rfl
  · obtain ⟨hplace, hfirst⟩ := Explorer.lt_of_mem_workItems hitem
    have hlayout := List.getElem?_eq_getElem hplace
    obtain ⟨e, -, hexplore, -⟩ := Explorer.exists_begins_explore
      (ready_explorer (check_eq_ok hcheck).2.1 clock)
      (Layout.sound_of_mem_withLeaves (List.mem_of_getElem? hlayout)) hlayout hfirst {}
      (Budget.ofSettings s.settings)
    exact ⟨e.tally, by rw [Explorer.outcome, hexplore]; rfl⟩
  · cases hcheck : s.check with
    | error reason => simp only [runShared, run, hcheck]
    | ok u =>
      cases hlevels : s.runLevels clock s.settings.maxLeaves 1
          (Budget.ofSettings s.settings) {} with
      | error | ok => simp only [runShared, run, hcheck, runLevelsShared_eq hb hshares, hlevels]

/-- Two workers share the search of one and two ohms for three. One of them has the second half of
the work items, in reverse order. -/
theorem runShared_eq_three_ohms :
    let s : Search ℚ ℚ := ⟨[1, 2], Settings.of 3 (.relative (1 / 100)) 2⟩
    let work := fun leaves => Explorer.workItems (Layout.withLeaves leaves) 2
    let shares := fun leaves => [((work leaves).drop 2).reverse, (work leaves).take 2]
    s.settings.timeBudget = none ∧ s.settings.maxCandidates = none ∧
      (∀ leaves, (shares leaves).flatten.Perm (work leaves)) ∧
      s.runShared Clock.still shares = s.run Clock.still ∧
      shares 2 = [[(1, 1), (1, 0)], [(0, 0), (0, 1)]] := by
  intro s work shares
  have hshares : ∀ leaves, (shares leaves).flatten.Perm (work leaves) := fun leaves => by
    simp only [shares, List.flatten_cons, List.flatten_nil, List.append_nil]
    refine List.perm_append_comm.trans ?_
    refine ((List.reverse_perm _).append_left _).trans ?_
    rw [List.take_append_drop]
  obtain ⟨-, -, -, hrun⟩ := runShared_eq s Clock.still shares rfl rfl hshares
  exact ⟨rfl, rfl, hshares, hrun, by decide +kernel⟩

end Search

end Ohmic
