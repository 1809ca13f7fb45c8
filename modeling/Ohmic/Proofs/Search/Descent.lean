import Ohmic.Proofs.Search.Bench

set_option autoImplicit false

/-!
# The descent takes its steps

The search works on a bench that it reuses, and it looks at a shared budget. It does exactly what
the list of its steps says: the descent never fails, its tally and its budget are those of the
journal, and the bounds on the bench are the ones it found there.

## Main definitions

* `Exploration.Keeps` — an exploration and a journal agree, up to looks at the clock after a stop.
* `Exploration.AtSlot`, `Exploration.AtEntry` — the state inside of the loop over the values of a
  slot, and before and after it.

## Main results

* `Explorer.finish_run` — the effect of a complete candidate.
* `Explorer.lastSlot_run`, `Explorer.innerSlot_run` — the loops over the values of one slot.
* `Explorer.descend_run` — the descent from any slot on.
* `Explorer.explore_run` — a work item.

## Implementation notes

After a stop the loops still count and may look at the clock on their way out. So an exploration
agrees with its journal in budget and ticks only while the budget runs; that it is stopped, and the
tally, agree always.
-/

namespace Ohmic

variable {S Z : Type} [Scalar S] [Impedance S Z]

namespace Exploration

/-- An exploration has the tally of a journal, is stopped if the journal is, and has its budget and
its ticks as long as it is not. -/
structure Keeps (e : Exploration S Z) (j : Journal S Z) : Prop where
  /-- The tallies agree. -/
  tally : e.tally = j.tally
  /-- Both budgets are stopped, or both run. -/
  stopped : e.budget.stopped = j.budget.stopped
  /-- Running budgets agree. -/
  budget : j.budget.stopped = false → e.budget = j.budget
  /-- So do the values tried so far. -/
  ticks : j.budget.stopped = false → e.bench.ticks = j.ticks

/-- The state inside of the loop over the values of the slot after the indices. -/
structure AtSlot (x : Explorer S Z) (l : Layout) (indices : List Nat) (e : Exploration S Z)
    (j : Journal S Z) : Prop where
  /-- The candidate holds the values of the indices. -/
  filled : e.bench.Filled x.alphabet l indices
  /-- So do the bounds, the current slot apart. -/
  bounded : e.bench.BoundedBut x.bounds l indices
  /-- The journal is kept. -/
  keeps : e.Keeps j

/-- The state before and after the loop over the values of the slot after the indices. -/
structure AtEntry (x : Explorer S Z) (l : Layout) (indices : List Nat) (e : Exploration S Z)
    (j : Journal S Z) : Prop where
  /-- The candidate holds the values of the indices. -/
  filled : e.bench.Filled x.alphabet l indices
  /-- So do the bounds. -/
  bounded : e.bench.Bounded x.bounds l indices
  /-- The journal is kept. -/
  keeps : e.Keeps j

omit [Scalar S] in
/-- The state before the loop is one inside of it. -/
lemma AtEntry.atSlot {x : Explorer S Z} {l : Layout} {indices : List Nat} {e : Exploration S Z}
    {j : Journal S Z} (h : e.AtEntry x l indices j) : e.AtSlot x l indices j :=
  ⟨h.filled, h.bounded.but, h.keeps⟩

end Exploration

omit [Scalar S] [Impedance S Z] in
/-- A request that is not granted stops the budget. -/
lemma Budget.stopped_of_denied (b : Budget) :
    b.grant.1 = false → b.grant.2.stopped = true := by
  unfold grant
  split
  · intro h
    cases h
  · split
    · intro h
      cases h
    · exact fun _ => rfl

namespace Explorer

variable {x : Explorer S Z} {l : Layout} {layout : Nat} {indices : List Nat}

/-! ## One value -/

/-- A look at the clock does not start a stopped budget again. -/
lemma stopped_look_of_stopped {b : Budget} (clock : Clock) (h : b.stopped = true) :
    (b.look clock).stopped = true := by
  unfold Budget.look
  split
  · exact h
  · simp only [h, Bool.true_or]

omit [Scalar S] [Impedance S Z] in
/-- Counting a value leaves a stopped budget stopped. -/
lemma stopped_tick_of_stopped (x : Explorer S Z) {e : Exploration S Z}
    (h : e.budget.stopped = true) : (x.tick e).budget.stopped = true := by
  simp only [tick]
  split
  · exact stopped_look_of_stopped _ h
  · exact h

/-- Before a value is tried, a running exploration counts it as its journal does. -/
lemma tick_keeps {e : Exploration S Z} {j : Journal S Z} (h : e.Keeps j)
    (hj : j.budget.stopped = false) : (x.tick e).Keeps (x.serveStep l layout j .tick) := by
  have hbudget : (x.tick e).budget = (x.serveStep l layout j .tick).budget := by
    simp only [tick, serveStep, h.budget hj, h.ticks hj]
  exact ⟨h.tally, congrArg Budget.stopped hbudget, fun _ => hbudget,
    fun _ => congrArg (· + 1) (h.ticks hj)⟩

/-- If the exploration is stopped before a value is tried, its journal takes no more steps. -/
lemma atSlot_tick_of_stopped {e : Exploration S Z} {j : Journal S Z} (h : e.AtSlot x l indices j)
    (hstop : (x.tick e).budget.stopped = true) (steps : List Step) :
    (x.tick e).AtSlot x l indices (x.serve l layout j (.tick :: steps)) := by
  refine ⟨h.filled.congr rfl rfl, h.bounded, ?_⟩
  cases hj : j.budget.stopped with
  | true =>
    rw [serve_of_stopped x l layout hj]
    have hnot : j.budget.stopped ≠ false := fun hrun => by cases hj.symm.trans hrun
    exact ⟨h.keeps.tally, hstop.trans hj.symm, fun hrun => absurd hrun hnot,
      fun hrun => absurd hrun hnot⟩
  | false =>
    have hkeeps : (x.tick e).Keeps (x.serveStep l layout j .tick) := tick_keeps h.keeps hj
    rw [serve_cons x l layout hj, serve_of_stopped x l layout (hkeeps.stopped ▸ hstop)]
    exact hkeeps

/-- If the exploration runs when a value is tried, so does its journal. -/
lemma atSlot_tick_of_running (layout : Nat) {e : Exploration S Z} {j : Journal S Z}
    (h : e.AtSlot x l indices j) (hrun : (x.tick e).budget.stopped = false) :
    j.budget.stopped = false ∧ (x.serveStep l layout j .tick).budget.stopped = false ∧
      (x.tick e).AtSlot x l indices (x.serveStep l layout j .tick) := by
  have hj : j.budget.stopped = false := by
    cases hj : j.budget.stopped with
    | true => cases hrun.symm.trans (stopped_tick_of_stopped x (h.keeps.stopped.trans hj))
    | false => rfl
  have hkeeps : (x.tick e).Keeps (x.serveStep l layout j .tick) := tick_keeps h.keeps hj
  exact ⟨hj, hkeeps.stopped ▸ hrun, h.filled.congr rfl rfl, h.bounded, hkeeps⟩

/-- **The effect of a complete candidate** on an exploration: the tally meets its indices.

**Proof sketch.** The tokens on the bench are those of the filled tree, so the machine finds its
impedance or fault (`Machine.evaluate_tokens`), which is counted as the tally does; a filled tree
has no malformation. -/
lemma record_of_filled (hx : x.Ready) (hl : l.Sound)
    (hall : l.Assigned x.alphabet.length indices) {e : Exploration S Z}
    (h : e.bench.Filled x.alphabet l indices) :
    ∃ machine, x.record layout e = .ok { e with
      bench := { e.bench with machine := machine }
      tally := x.meet l layout e.tally indices } := by
  rcases hm : e.bench.machine.evaluate e.bench.tokens with ⟨result, machine⟩
  have hresult : (l.filled x.alphabet Impedance.zero indices).evaluate = result := by
    rw [← Machine.evaluate_tokens e.bench.machine, ← h.tokens_eq hl hall.length_eq, hm]
  refine ⟨machine, ?_⟩
  simp only [record, hm, meet, hresult]
  cases result with
  | ok value => simp only [h.assignment_eq hall.length_eq]
  | error fault =>
    cases fault with
    | degenerate position => rfl
    | overflow position => rfl
    | malformed position reason => exact absurd hresult (hx.evaluate_ne_malformed hl hall)

/-- A complete candidate is handled as its journal says: it is met if the budget grants it, and
else the budget is stopped.

**Proof sketch.** The budget of the state is that of the journal, so both grant the candidate or
neither does. If it is granted, the recorded candidate has the effect of its indices
(`record_of_filled`). -/
lemma finish_run (hx : x.Ready) (hl : l.Sound)
    (hall : l.Assigned x.alphabet.length indices) {e : Exploration S Z} {j : Journal S Z}
    (h : e.bench.Filled x.alphabet l indices) (hkeeps : e.Keeps j)
    (hj : j.budget.stopped = false) :
    ∃ granted e', x.finish layout e = .ok (granted, e') ∧
      e'.Keeps (x.serveStep l layout j (.candidate indices)) ∧
      (granted = false →
        (x.serveStep l layout j (.candidate indices)).budget.stopped = true) ∧
      e'.bench.tokens = e.bench.tokens ∧ e'.bench.assignment = e.bench.assignment ∧
      e'.bench.lower = e.bench.lower ∧ e'.bench.upper = e.bench.upper := by
  have hbudget := hkeeps.budget hj
  have hticks := hkeeps.ticks hj
  have hstop := j.budget.stopped_of_denied
  rcases hgrant : j.budget.grant with ⟨granted, budget⟩
  rw [hgrant] at hstop
  simp only [finish, serveStep, hbudget, hgrant]
  cases granted with
  | false =>
    refine ⟨false, { e with budget := budget }, rfl, ?_, hstop, rfl, rfl, rfl, rfl⟩
    exact ⟨hkeeps.tally, rfl, fun _ => rfl, fun _ => hticks⟩
  | true =>
    obtain ⟨machine, hrecord⟩ : ∃ machine, x.record layout { e with budget := budget } = _ :=
      record_of_filled hx hl hall h
    simp only [hrecord, bind, Except.bind, if_true]
    refine ⟨true, _, rfl, ?_, fun h => (by cases h), rfl, rfl, rfl, rfl⟩
    exact ⟨congrArg (x.meet l layout · indices) hkeeps.tally, rfl, fun _ => rfl, fun _ => hticks⟩

/-- What the bounds say of the candidate is the verdict on its indices, and a cut is counted.

**Proof sketch.** Without bounds every candidate is feasible and nothing changes. With bounds the
slot is fixed in both buffers (`Bench.fixBounds_of_boundedBut`), and what the machine then finds is
the verdict on the indices (`Bench.verdict_of_bounded`); any verdict but a feasible one counts a
cut. -/
lemma judge_run (layout : Nat) (hx : x.Ready) (hl : l.Sound) (hslot : indices.length < l.slots)
    {position index : Nat} (hposition : l.slotPositions[indices.length]? = some position)
    (hindex : index < x.alphabet.length) {e : Exploration S Z} {j : Journal S Z}
    (hfilled : e.bench.Filled x.alphabet l (indices ++ [index]))
    (hbounded : e.bench.BoundedBut x.bounds l indices) (hkeeps : e.Keeps j) :
    ∃ e', x.judge position index e = .ok (x.verdictOf l (indices ++ [index]), e') ∧
      (x.verdictOf l (indices ++ [index]) = .feasible → e'.AtEntry x l (indices ++ [index]) j) ∧
      (x.verdictOf l (indices ++ [index]) ≠ .feasible →
        e'.AtEntry x l (indices ++ [index]) (x.serveStep l layout j .cut)) := by
  cases hbounds : x.bounds with
  | none =>
    simp only [judge, verdictOf, hbounds]
    refine ⟨e, rfl, fun _ => ⟨hfilled, ?_, hkeeps⟩, fun h => absurd rfl h⟩
    intro bd hbd
    cases hbounds.symm.trans hbd
  | some bd =>
    have hvalue := List.getElem?_eq_getElem (hx.length_values bd hbounds ▸ hindex)
    rw [hbounds] at hbounded
    obtain ⟨b, hfix, hb, htokens, hassignment, hticks⟩ :=
      Bench.fixBounds_of_boundedBut hbounded hl hslot hposition hvalue
    obtain ⟨machine, hverdict⟩ := Bench.verdict_of_bounded hb
    have hb' : Bench.Filled x.alphabet l (indices ++ [index])
        { b with boundMachine := machine } := hfilled.congr htokens hassignment
    simp only [judge, verdictOf, hbounds, readAt_of_getElem? hvalue, hfix, hverdict, bind,
      Except.bind]
    cases hv : bd.verdictOf l (indices ++ [index]) with
    | feasible =>
      refine ⟨_, rfl, fun _ => ⟨hb', hbounds ▸ hb, ?_⟩, fun h => absurd rfl h⟩
      exact ⟨hkeeps.tally, hkeeps.stopped, hkeeps.budget, fun h => hticks.trans (hkeeps.ticks h)⟩
    | overshoot =>
      refine ⟨_, rfl, fun h => (by cases h), fun _ => ⟨hb', hbounds ▸ hb, ?_⟩⟩
      exact ⟨by rw [hkeeps.tally]; rfl, hkeeps.stopped, hkeeps.budget,
        fun h => hticks.trans (hkeeps.ticks h)⟩
    | undershoot =>
      refine ⟨_, rfl, fun h => (by cases h), fun _ => ⟨hb', hbounds ▸ hb, ?_⟩⟩
      exact ⟨by rw [hkeeps.tally]; rfl, hkeeps.stopped, hkeeps.budget,
        fun h => hticks.trans (hkeeps.ticks h)⟩

/-! ## One slot -/

/-- A loop that is stopped before a value leaves the slot. -/
lemma fillSlot_of_stopped {e : Exploration S Z} (h : (x.tick e).budget.stopped = true)
    (slot position : Nat) (deeper : Option (Exploration S Z → Except Defect (Exploration S Z)))
    (index : Nat) (others : List Nat) :
    x.fillSlot layout slot position deeper (index :: others) e = .ok (x.tick e) := by
  rw [fillSlot, if_pos h]
  rfl

/-- A loop that runs in the last slot places a value and handles the candidate. -/
lemma fillSlot_of_last {e : Exploration S Z} (hrun : (x.tick e).budget.stopped = false)
    {slot position index : Nat} {value : Z} {b : Bench S Z}
    (hvalue : x.alphabet[index]? = some value)
    (hplace : (x.tick e).bench.place slot position index value = .ok b) (others : List Nat) :
    x.fillSlot layout slot position none (index :: others) e =
      (x.finish layout { x.tick e with bench := b }).bind fun r =>
        if r.1 then x.fillSlot layout slot position none others r.2 else .ok r.2 := by
  simp only [fillSlot, hrun, Bool.false_eq_true, if_false, readAt_of_getElem? hvalue, hplace,
    bind, pure, Except.bind, Except.pure]

/-- A loop that runs in another slot places a value, judges it, and goes on to the next slot. -/
lemma fillSlot_of_inner {e : Exploration S Z} (hrun : (x.tick e).budget.stopped = false)
    {slot position index : Nat} {value : Z} {b : Bench S Z}
    (hvalue : x.alphabet[index]? = some value)
    (hplace : (x.tick e).bench.place slot position index value = .ok b)
    (descend : Exploration S Z → Except Defect (Exploration S Z)) (others : List Nat) :
    x.fillSlot layout slot position (some descend) (index :: others) e =
      (x.judge position index { x.tick e with bench := b }).bind fun r =>
        if r.1 = .feasible then
          (descend r.2).bind (x.fillSlot layout slot position (some descend) others)
        else if x.endsSlot r.1 then .ok r.2
        else x.fillSlot layout slot position (some descend) others r.2 := by
  simp only [fillSlot, hrun, Bool.false_eq_true, if_false, readAt_of_getElem? hvalue, hplace,
    bind, pure, Except.bind, Except.pure]
  cases x.judge position index { x.tick e with bench := b } with
  | error defect => rfl
  | ok r =>
    obtain ⟨verdict, e'⟩ := r
    cases verdict <;> rfl

/-- The loop over the values of the last slot takes its steps.

**Proof sketch.** By induction on the values that are left, for all states that keep a journal. If
the tick stops the search, the loop ends and so do the steps. Otherwise the value is placed and
completes a candidate, whose handling is a step (`finish_run`); a candidate that is denied ends the
loop, and no later step is let through. -/
lemma lastSlot_run (hx : x.Ready) (hl : l.Sound) (hlast : indices.length + 1 = l.slots)
    (hlt : ∀ i ∈ indices, i < x.alphabet.length) {position : Nat}
    (hposition : l.slotPositions[indices.length]? = some position) (others : List Nat)
    (hothers : ∀ i ∈ others, i < x.alphabet.length) {e : Exploration S Z} {j : Journal S Z}
    (h : e.AtSlot x l indices j) :
    ∃ e', x.fillSlot layout indices.length position none others e = .ok e' ∧
      e'.AtSlot x l indices (x.serve l layout j (x.slotSteps l none indices others)) := by
  have hslot : indices.length < l.slots := hlast ▸ Nat.lt_succ_self _
  -- by induction on the values that are left, for all states that keep a journal
  induction others generalizing e j with
  | nil => exact ⟨e, rfl, h⟩
  | cons index others ih =>
    rw [slotSteps]
    cases hrun : (x.tick e).budget.stopped with
    | true => exact ⟨x.tick e, fillSlot_of_stopped hrun _ _ _ _ _,
        atSlot_tick_of_stopped h hrun _⟩
    | false =>
      obtain ⟨hj, hj', htick⟩ := atSlot_tick_of_running layout h hrun
      have hindex : index < x.alphabet.length := hothers index List.mem_cons_self
      have hvalue := List.getElem?_eq_getElem hindex
      obtain ⟨b, hplace, hb, hlower, hupper, hticks⟩ :=
        Bench.place_of_filled htick.filled hl hslot hposition hvalue
      have hkeeps : Exploration.Keeps { x.tick e with bench := b }
          (x.serveStep l layout j .tick) :=
        ⟨htick.keeps.tally, htick.keeps.stopped, htick.keeps.budget,
          fun hj => hticks.trans (htick.keeps.ticks hj)⟩
      have hassigned : l.Assigned x.alphabet.length (indices ++ [index]) :=
        ⟨by rw [List.length_append, List.length_singleton, hlast],
          List.forall_mem_append.mpr ⟨hlt, List.forall_mem_singleton.mpr hindex⟩⟩
      obtain ⟨granted, e', hfinish, hkeeps', hdenied, htokens, hassignment, hlower', hupper'⟩ :=
        finish_run hx hl hassigned hb hkeeps hj'
      have hnext : e'.AtSlot x l indices (x.serveStep l layout (x.serveStep l layout j .tick)
          (.candidate (indices ++ [index]))) := by
        refine ⟨hb.butLast.congr htokens hassignment, ?_, hkeeps'⟩
        intro bd hbd
        rw [hlower', hupper', hlower, hupper]
        exact htick.bounded bd hbd
      rw [fillSlot_of_last hrun hvalue hplace, hfinish, serve_cons x l layout hj,
        serve_cons x l layout hj']
      cases granted with
      | true => exact ih (fun i hi => hothers i (List.mem_cons_of_mem _ hi)) hnext
      | false =>
        rw [serve_of_stopped x l layout (hdenied rfl)]
        exact ⟨e', rfl, hnext⟩

/-- The loop over the values of another slot takes its steps, if the descent behind it does.

**Proof sketch.** By induction on the values that are left, as for the last slot. A value that is
placed is judged (`judge_run`). A feasible one is handed to the descent, which takes its steps by
assumption and leaves the bench as it found it, up to this slot. Any other one is a cut, after which
the loop ends if no later value can do better, and so do the steps. -/
lemma innerSlot_run (hx : x.Ready) (hl : l.Sound) (hslot : indices.length < l.slots)
    {position : Nat} (hposition : l.slotPositions[indices.length]? = some position)
    {descend : Exploration S Z → Except Defect (Exploration S Z)} {steps : List Nat → List Step}
    (hdescend : ∀ index < x.alphabet.length, ∀ (e : Exploration S Z) (j : Journal S Z),
      e.AtEntry x l (indices ++ [index]) j → ∃ e', descend e = .ok e' ∧
        e'.AtEntry x l (indices ++ [index]) (x.serve l layout j (steps (indices ++ [index]))))
    (others : List Nat) (hothers : ∀ i ∈ others, i < x.alphabet.length) {e : Exploration S Z}
    {j : Journal S Z} (h : e.AtSlot x l indices j) :
    ∃ e', x.fillSlot layout indices.length position (some descend) others e = .ok e' ∧
      e'.AtSlot x l indices (x.serve l layout j (x.slotSteps l (some steps) indices others)) := by
  induction others generalizing e j with
  | nil => exact ⟨e, rfl, h⟩
  | cons index others ih =>
    have hrest : ∀ i ∈ others, i < x.alphabet.length := fun i hi =>
      hothers i (List.mem_cons_of_mem _ hi)
    cases hrun : (x.tick e).budget.stopped with
    | true =>
      rw [slotSteps]
      exact ⟨x.tick e, fillSlot_of_stopped hrun _ _ _ _ _, atSlot_tick_of_stopped h hrun _⟩
    | false =>
      obtain ⟨hj, hj', htick⟩ := atSlot_tick_of_running layout h hrun
      have hindex : index < x.alphabet.length := hothers index List.mem_cons_self
      have hvalue := List.getElem?_eq_getElem hindex
      have hbound : ∀ bd, x.bounds = some bd → index < bd.values.length := fun bd hbd =>
        hx.length_values bd hbd ▸ hindex
      obtain ⟨b, hplace, hb, hlower, hupper, hticks⟩ :=
        Bench.place_of_filled htick.filled hl hslot hposition hvalue
      have hkeeps : Exploration.Keeps { x.tick e with bench := b }
          (x.serveStep l layout j .tick) :=
        ⟨htick.keeps.tally, htick.keeps.stopped, htick.keeps.budget,
          fun hj => hticks.trans (htick.keeps.ticks hj)⟩
      have hbut : b.BoundedBut x.bounds l indices := by
        intro bd hbd
        rw [hlower, hupper]
        exact htick.bounded bd hbd
      obtain ⟨e', hjudge, hfeasible, hcut⟩ :=
        judge_run layout hx hl hslot hposition hindex hb hbut hkeeps
      rw [fillSlot_of_inner hrun hvalue hplace, hjudge]
      simp only [Except.bind]
      by_cases hv : x.verdictOf l (indices ++ [index]) = .feasible
      · rw [if_pos hv, slotSteps_of_feasible hv, serve_cons x l layout hj, serve_append]
        obtain ⟨e'', hdone, hentry⟩ := hdescend index hindex e' _ (hfeasible hv)
        rw [hdone]
        exact ih hrest ⟨hentry.filled.butLast, hentry.bounded.butLast hbound, hentry.keeps⟩
      · have hentry := hcut hv
        have hnext : e'.AtSlot x l indices
            (x.serveStep l layout (x.serveStep l layout j .tick) .cut) :=
          ⟨hentry.filled.butLast, hentry.bounded.butLast hbound, hentry.keeps⟩
        rw [if_neg hv, slotSteps_of_cut hv, serve_cons x l layout hj, serve_cons x l layout hj']
        split
        · exact ⟨e', rfl, hnext⟩
        · exact ih hrest hnext

/-! ## All slots -/

/-- The loop over one slot, between the choice of its first index and the reset of its bounds.

**Proof sketch.** The first index is that of the tied slot, which was filled before, or the given
one; the loop from there takes the steps by assumption. In the end the bounds of the slot are reset
(`Bench.freeBounds_of_boundedBut`), which makes the bench what it was at the entry. -/
lemma fillFrom_run (hl : l.Sound) (hslot : indices.length < l.slots) {layouts : List Layout}
    (hlayout : layouts[layout]? = some l) (first stop : Nat)
    {deeper : Option (Exploration S Z → Except Defect (Exploration S Z))} {steps : List Step}
    {e : Exploration S Z} {j : Journal S Z} (h : e.AtEntry x l indices j)
    (hloop : ∀ position, l.slotPositions[indices.length]? = some position →
      ∃ e', x.fillSlot layout indices.length position deeper
          (List.range' (l.firstIndex indices first) (stop - l.firstIndex indices first)) e =
            .ok e' ∧
        e'.AtSlot x l indices (x.serve l layout j steps)) :
    ∃ e', x.fillFrom layouts layout indices.length first stop deeper e = .ok e' ∧
      e'.AtEntry x l indices (x.serve l layout j steps) := by
  obtain ⟨position, hposition, -⟩ := hl.write indices.length hslot
  obtain ⟨e', hfill, hslot'⟩ := hloop position hposition
  obtain ⟨b, hfree, hbounded, htokens, hassignment, hticks⟩ :=
    Bench.freeBounds_of_boundedBut hslot'.bounded hl hslot hposition
  obtain ⟨tie, htie⟩ : ∃ tie, l.minFrom[indices.length]? = some tie :=
    ⟨_, List.getElem?_eq_getElem (hl.length_minFrom.symm ▸ hslot)⟩
  refine ⟨{ e' with bench := b }, ?_, hslot'.filled.congr htokens hassignment, hbounded,
    hslot'.keeps.tally, hslot'.keeps.stopped, hslot'.keeps.budget, fun hrun =>
      hticks.trans (hslot'.keeps.ticks hrun)⟩
  rw [fillFrom, readAt_of_getElem? hlayout]
  simp only [bind, Except.bind, readAt_of_getElem? hposition, readAt_of_getElem? htie]
  cases tie with
  | none =>
    simp only [Layout.firstIndex, htie] at hfill
    simp only [pure, Except.pure, hfill, hfree]
  | some earlier =>
    -- the slot to which this one is tied was filled before
    have hearlier : earlier < indices.length := hl.earlier _ _ htie
    have hindex := List.getElem?_eq_getElem hearlier
    simp only [Layout.firstIndex, htie, List.getD_eq_getElem?_getD, hindex,
      Option.getD_some] at hfill
    simp only [readAt_of_getElem? ((h.filled.getElem?_assignment hearlier).trans hindex), pure,
      Except.pure, hfill, hfree]

/-- **The descent takes its steps.** From any slot on it does not fail, and it changes the budget
and the tally as its steps change the journal.

**Proof sketch.** By induction on the slots behind the current one. The loop over the values of
the last slot handles complete candidates; in every other slot the loop hands each value that is
not given up to the descent into the next slot, which takes its steps by induction. -/
theorem descend_run (hx : x.Ready) (hl : l.Sound) {layouts : List Layout}
    (hlayout : layouts[layout]? = some l) (after : Nat) {first stop : Nat}
    (hstop : stop ≤ x.alphabet.length) (hslots : indices.length + after + 1 = l.slots)
    (hlt : ∀ i ∈ indices, i < x.alphabet.length) {e : Exploration S Z} {j : Journal S Z}
    (h : e.AtEntry x l indices j) :
    ∃ e', x.descend layouts layout after indices.length first stop e = .ok e' ∧
      e'.AtEntry x l indices (x.serve l layout j (x.descentSteps l after first stop indices)) := by
  have hslot : indices.length < l.slots := by omega
  have hothers : ∀ i ∈ List.range' (l.firstIndex indices first)
      (stop - l.firstIndex indices first), i < x.alphabet.length := by
    intro i hi
    rw [List.mem_range'_1] at hi
    omega
  induction after generalizing indices first stop e j with
  | zero =>
    rw [descend, descentSteps]
    exact fillFrom_run hl hslot hlayout first stop h fun position hposition =>
      lastSlot_run hx hl hslots hlt hposition _ hothers h.atSlot
  | succ after ih =>
    rw [descend, descentSteps]
    refine fillFrom_run hl hslot hlayout first stop h fun position hposition =>
      innerSlot_run hx hl hslot hposition (fun index hindex e j hentry => ?_) _ hothers h.atSlot
    have hlength : (indices ++ [index]).length = indices.length + 1 := by
      rw [List.length_append, List.length_singleton]
    rw [← hlength]
    refine ih (Nat.le_refl _) ?_ ?_ hentry ?_ ?_
    · omega
    · exact List.forall_mem_append.mpr ⟨hlt, List.forall_mem_singleton.mpr hindex⟩
    · omega
    · intro i hi
      rw [List.mem_range'_1] at hi
      omega

/-! ## Work items -/

/-- The journal of a work item before its first step: the clock is looked at once. -/
def opening (x : Explorer S Z) (budget : Budget) (ticks : Nat) : Journal S Z :=
  ⟨budget.look x.clock, ticks, {}⟩

/-- **A work item takes its steps.** It does not fail, whatever the bench holds.

**Proof sketch.** A search that is stopped at the first look at the clock takes no steps. Otherwise
loading the layout makes the bench what a descent needs at its entry, whatever it held before, and
the steps are those of the descent (`descend_run`). -/
theorem explore_run (hx : x.Ready) (hl : l.Sound) {layouts : List Layout}
    (hlayout : layouts[layout]? = some l) {first : Nat} (hfirst : first < x.alphabet.length)
    (bench : Bench S Z) (budget : Budget) :
    ∃ e', x.explore layouts layout first bench budget = .ok e' ∧
      e'.Keeps (x.serve l layout (x.opening budget bench.ticks) (x.itemSteps l first)) := by
  cases hstop : (budget.look x.clock).stopped with
  | true =>
    refine ⟨{ bench := bench, budget := budget.look x.clock }, ?_, ?_⟩
    · simp only [explore, hstop, if_true]
      rfl
    · rw [serve_of_stopped x l layout hstop]
      exact ⟨rfl, rfl, fun _ => rfl, fun _ => rfl⟩
  | false =>
    have hentry : Exploration.AtEntry x l []
        { bench := bench.load l x.bounds, budget := budget.look x.clock }
        (x.opening budget bench.ticks) :=
      ⟨Bench.filled_load bench hl x.bounds, Bench.bounded_load bench hl x.bounds,
        rfl, rfl, fun _ => rfl, fun _ => rfl⟩
    have hslots : ([] : List Nat).length + (l.slots - 1) + 1 = l.slots := by
      have := hl.slots_pos
      rw [List.length_nil]
      omega
    obtain ⟨e', hdescend, hdone⟩ := descend_run hx hl hlayout (l.slots - 1)
      (Nat.succ_le_of_lt hfirst) hslots (fun _ hi => absurd hi List.not_mem_nil) hentry
    refine ⟨e', ?_, hdone.keeps⟩
    simp only [explore, hstop, Bool.false_eq_true, if_false, readAt_of_getElem? hlayout, bind,
      Except.bind]
    exact hdescend

end Explorer

end Ohmic
