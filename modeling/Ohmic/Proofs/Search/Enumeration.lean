import Mathlib.Data.List.Lex
import Ohmic.Proofs.Search.Assignments
import Ohmic.Proofs.Search.Coverage
import Ohmic.Proofs.Search.Workers

set_option autoImplicit false

/-!
# The assignments one after the other

A search without bounds and without a budget goes through all assignments of a layout that respect
its ties. It handles each of them once, in lexicographic order, and what it evaluates is the postfix
form of the layout with values in place of the slots.

## Main definitions

* `Layout.formOf` — the postfix form of a layout with values in place of the slots.
* `Explorer.handle` — the effect of one assignment on a tally.
* `Exploration.Holds` — an exploration between two assignments.

## Main results

* `Layout.pairwise_assignments` — the assignments are in lexicographic order.
* `Explorer.descend_foldlM` — a descent handles its assignments one after the other.
* `Explorer.outcome_eq_foldlM`, `Explorer.exploreAll_eq_foldlM` — so do the work items of a layout.
* `Explorer.exploreAll_enumerates` — the assignments, what is made of them, and how many there are.

## Implementation notes

The list of steps speaks of finite values only, for which the search does not fail. Here nothing is
assumed of the values: the descent and the fold over its assignments end alike, also with a defect.
-/

namespace Ohmic

variable {S Z : Type}

/-! ## Lexicographic order -/

namespace Layout

/-- The assignments that extend some indices add one of the first indices to try. -/
lemma exists_of_mem_assignments {l : Layout} {width after first stop : Nat}
    {indices assigned : List Nat} (h : assigned ∈ l.assignments width after first stop indices) :
    ∃ index rest, (first ≤ index ∧ index < stop) ∧ assigned = indices ++ index :: rest := by
  induction after generalizing indices first stop with
  | zero =>
    obtain ⟨index, hindex, rfl⟩ := List.mem_map.mp h
    exact ⟨index, [], (mem_range'_firstIndex.mp hindex).1, rfl⟩
  | succ after ih =>
    obtain ⟨index, hindex, hmem⟩ := List.mem_flatMap.mp h
    obtain ⟨next, rest, -, rfl⟩ := ih hmem
    exact ⟨index, next :: rest, (mem_range'_firstIndex.mp hindex).1, List.append_assoc _ _ _⟩

/-- Of two extensions the one with the smaller next index comes first. -/
lemma append_lt_append {indices rest rest' : List Nat} {i j : Nat} (h : i < j) :
    indices ++ i :: rest < indices ++ j :: rest' :=
  List.append_left_lt (List.cons_lt_cons_iff.mpr (.inl h))

/-- **The assignments are in lexicographic order**, and none of them appears twice.

**Proof sketch.** By induction on the slots behind the next one. Extensions by one index are in
order by induction, and those by a smaller index come first. -/
theorem pairwise_assignments (l : Layout) (width after first stop : Nat) (indices : List Nat) :
    (l.assignments width after first stop indices).Pairwise (· < ·) := by
  induction after generalizing indices first stop with
  | zero => exact List.pairwise_map.mpr (((List.pairwise_lt_range' ..).imp append_lt_append))
  | succ after ih =>
    refine List.pairwise_flatMap.mpr ⟨fun index _ => ih 0 width _, ?_⟩
    refine (List.pairwise_lt_range' ..).imp fun hlt a ha b hb => ?_
    obtain ⟨i, rest, -, rfl⟩ := exists_of_mem_assignments ha
    obtain ⟨j, rest', -, rfl⟩ := exists_of_mem_assignments hb
    rw [List.append_assoc, List.append_assoc]
    exact append_lt_append hlt

/-- All assignments of a layout are in lexicographic order. -/
lemma pairwise_allAssignments (l : Layout) (width : Nat) :
    (l.allAssignments width).Pairwise (· < ·) := by
  refine List.pairwise_flatMap.mpr ⟨fun first _ => pairwise_assignments l width _ _ _ _, ?_⟩
  refine List.pairwise_lt_range.imp fun hlt a ha b hb => ?_
  obtain ⟨i, rest, hi, rfl⟩ := exists_of_mem_assignments ha
  obtain ⟨j, rest', hj, rfl⟩ := exists_of_mem_assignments hb
  exact append_lt_append (by omega)

end Layout

variable [Scalar S] [Impedance S Z]

/-! ## One assignment -/

/-- The postfix form of a layout with the values of some indices in place of its slots. -/
def Layout.formOf (l : Layout) (alphabet : List Z) (indices : List Nat) : Postfix Z :=
  l.form.map fun slot => valueAt alphabet (indices.getD slot 0)

/-- The form is that of the tree on the bench. -/
lemma Layout.evaluate_formOf {l : Layout} (hl : l.Sound) {alphabet : List Z} {indices : List Nat}
    (h : l.Assigned alphabet.length indices) :
    (l.formOf alphabet indices).evaluate =
      (l.filled alphabet Impedance.zero indices).evaluate := by
  have htokens : (l.formOf alphabet indices).tokens =
      (l.filled alphabet Impedance.zero indices).tokens := by
    rw [filled_eq_map_labelled hl h, labelled, Tree.map_map, Tree.tokens_map, formOf, Postfix.map,
      hl.form_eq]
    rfl
  rw [Postfix.evaluate, htokens, Machine.evaluate_tokens]

namespace Explorer

/-- The effect of an assignment of a layout on a tally: the form of the layout is evaluated with the
values of the indices in place of its slots. What has a value is counted, and kept if it is
acceptable or the closest so far; a fault is counted, unless the form is malformed. -/
def handle (x : Explorer S Z) (layout : Nat) (l : Layout) (t : Tally S Z) (indices : List Nat) :
    Except Defect (Tally S Z) :=
  match (l.formOf x.alphabet indices).evaluate with
  | .error (.degenerate _) => .ok { t with degenerate := t.degenerate + 1 }
  | .error (.overflow _) => .ok { t with overflowed := t.overflowed + 1 }
  | .error (.malformed position reason) => .error (.malformed (.malformed position reason))
  | .ok value =>
    let deviation := Deviation.of value x.target
    .ok (t.count (x.tolerance.accepts deviation.absolute deviation.relative)
      ⟨layout, indices, value, deviation⟩)

end Explorer

/-- An exploration between two assignments: the candidate holds the values of the first indices,
the budget is the given one, and the tally has come so far. -/
structure Exploration.Holds (x : Explorer S Z) (l : Layout) (indices : List Nat) (b : Budget)
    (e : Exploration S Z) (t : Tally S Z) : Prop where
  /-- The candidate holds the values of the indices. -/
  filled : e.bench.Filled x.alphabet l indices
  /-- The budget has not changed. -/
  budget : e.budget = b
  /-- The tally has come so far. -/
  tally : e.tally = t

namespace Explorer

variable {x : Explorer S Z} {l : Layout} {layout : Nat} {indices : List Nat} {b : Budget}

omit [Scalar S] in
/-- Counting a value changes nothing that counts here. -/
lemma tick_holds (hb : b.Unlimited) {e : Exploration S Z} {t : Tally S Z}
    (h : e.Holds x l indices b t) : (x.tick e).Holds x l indices b t := by
  refine ⟨h.filled.congr rfl rfl, ?_, h.tally⟩
  simp only [tick, h.budget, hb.look, ite_self]

/-- **A complete candidate on the bench** is handled like its indices.

**Proof sketch.** The tokens on the bench are those of the form of the indices, and what the machine
finds does not depend on its stack (`Machine.evaluate_tokens`). The outcome is counted by its
kind. -/
lemma finish_holds (hb : b.Unlimited) (hl : l.Sound) (hall : l.Assigned x.alphabet.length indices)
    {e : Exploration S Z} {t : Tally S Z} (h : e.Holds x l indices b t) :
    Alike (fun r t' => r.1 = true ∧ r.2.Holds x l indices b t') (x.finish layout e)
      (x.handle layout l t indices) := by
  obtain ⟨hfilled, rfl, rfl⟩ := h
  rcases hm : e.bench.machine.evaluate e.bench.tokens with ⟨result, machine⟩
  have hresult : (l.formOf x.alphabet indices).evaluate = result := by
    rw [Layout.evaluate_formOf hl hall, ← Machine.evaluate_tokens e.bench.machine,
      ← hfilled.tokens_eq hl hall.length_eq, hm]
  simp only [finish, hb.grant, record, hm, handle, hresult]
  cases result with
  | ok value =>
    refine .ok ⟨rfl, hfilled.congr rfl rfl, rfl, ?_⟩
    simp only [hfilled.assignment_eq hall.length_eq]
  | error fault =>
    cases fault with
    | degenerate position => exact .ok ⟨rfl, hfilled.congr rfl rfl, rfl, rfl⟩
    | overflow position => exact .ok ⟨rfl, hfilled.congr rfl rfl, rfl, rfl⟩
    | malformed position reason => exact .error _

/-! ## Slots -/

/-- The values of the last slot complete one assignment each.

**Proof sketch.** By induction on the values. Nothing stops the search, so every value is placed and
completes an assignment, which is handled as in the fold (`finish_holds`); what it leaves on the
bench holds up to the last slot. -/
lemma lastSlot_foldlM (hb : b.Unlimited) (hrun : b.stopped = false) (hl : l.Sound)
    (hlast : indices.length + 1 = l.slots) (hlt : ∀ i ∈ indices, i < x.alphabet.length)
    {position : Nat} (hposition : l.slotPositions[indices.length]? = some position)
    (others : List Nat) (hothers : ∀ i ∈ others, i < x.alphabet.length) {e : Exploration S Z}
    {t : Tally S Z} (h : e.Holds x l indices b t) :
    Alike (Exploration.Holds x l indices b)
      (x.fillSlot layout indices.length position none others e)
      ((others.map fun index => indices ++ [index]).foldlM (x.handle layout l) t) := by
  induction others generalizing e t with
  | nil => exact .ok h
  | cons index others ih =>
    have hindex : index < x.alphabet.length := hothers index List.mem_cons_self
    have htick : (x.tick e).Holds x l indices b t := tick_holds hb h
    have hstop : (x.tick e).budget.stopped = false := by rw [htick.budget, hrun]
    have hvalue := List.getElem?_eq_getElem hindex
    obtain ⟨c, hplace, hc, -⟩ := Bench.place_of_filled htick.filled hl
      (hlast ▸ Nat.lt_succ_self _) hposition hvalue
    have hassigned : l.Assigned x.alphabet.length (indices ++ [index]) :=
      ⟨by rw [List.length_append, List.length_singleton, hlast],
        List.forall_mem_append.mpr ⟨hlt, List.forall_mem_singleton.mpr hindex⟩⟩
    have hplaced : Exploration.Holds x l (indices ++ [index]) b
        { x.tick e with bench := c } t := ⟨hc, htick.budget, htick.tally⟩
    rw [fillSlot_of_last hstop hvalue hplace, List.map_cons, List.foldlM_cons]
    refine (finish_holds hb hl hassigned hplaced).bind fun r t' hr => ?_
    rw [if_pos hr.1]
    exact ih (fun i hi => hothers i (List.mem_cons_of_mem _ hi))
      ⟨hr.2.filled.butLast, hr.2.budget, hr.2.tally⟩

/-- The values of another slot lead to the assignments behind them, one value after the other.

**Proof sketch.** By induction on the values. Nothing stops the search and nothing is given up
without bounds, so every value is placed and handed to the descent, which handles its assignments by
assumption. -/
lemma innerSlot_foldlM (hbounds : x.bounds = none) (hb : b.Unlimited) (hrun : b.stopped = false)
    (hl : l.Sound) (hslot : indices.length < l.slots) {position : Nat}
    (hposition : l.slotPositions[indices.length]? = some position)
    {descend : Exploration S Z → Except Defect (Exploration S Z)} {f : Nat → List (List Nat)}
    (hdescend : ∀ index < x.alphabet.length, ∀ (e : Exploration S Z) (t : Tally S Z),
      e.Holds x l (indices ++ [index]) b t →
        Alike (Exploration.Holds x l (indices ++ [index]) b) (descend e)
          ((f index).foldlM (x.handle layout l) t))
    (others : List Nat) (hothers : ∀ i ∈ others, i < x.alphabet.length) {e : Exploration S Z}
    {t : Tally S Z} (h : e.Holds x l indices b t) :
    Alike (Exploration.Holds x l indices b)
      (x.fillSlot layout indices.length position (some descend) others e)
      ((others.flatMap f).foldlM (x.handle layout l) t) := by
  induction others generalizing e t with
  | nil => exact .ok h
  | cons index others ih =>
    have hindex : index < x.alphabet.length := hothers index List.mem_cons_self
    have htick : (x.tick e).Holds x l indices b t := tick_holds hb h
    have hstop : (x.tick e).budget.stopped = false := by rw [htick.budget, hrun]
    have hvalue := List.getElem?_eq_getElem hindex
    obtain ⟨c, hplace, hc, -⟩ := Bench.place_of_filled htick.filled hl hslot hposition hvalue
    have hjudge : x.judge position index { x.tick e with bench := c } =
        .ok (.feasible, { x.tick e with bench := c }) := by
      simp only [judge, hbounds]
    rw [fillSlot_of_inner hstop hvalue hplace, hjudge, List.flatMap_cons, List.foldlM_append]
    have hentry : Exploration.Holds x l (indices ++ [index]) b
        { x.tick e with bench := c } t := ⟨hc, htick.budget, htick.tally⟩
    refine (hdescend index hindex _ t hentry).bind fun e' t' hdone => ?_
    exact ih (fun i hi => hothers i (List.mem_cons_of_mem _ hi))
      ⟨hdone.filled.butLast, hdone.budget, hdone.tally⟩

/-- One slot starts at the index in the slot to which it is tied, or at the given one.

**Proof sketch.** Without bounds there is nothing to reset, so all that is done besides the loop is
to read the position and the tie of the slot. The index in the tied slot, which was filled before,
is on the bench, and hence the loop starts where the assignments do. -/
lemma fillFrom_foldlM (hbounds : x.bounds = none) (hl : l.Sound) (hslot : indices.length < l.slots)
    {layouts : List Layout} (hlayout : layouts[layout]? = some l) (first stop : Nat)
    {deeper : Option (Exploration S Z → Except Defect (Exploration S Z))}
    {assignments : List (List Nat)} {e : Exploration S Z} {t : Tally S Z}
    (h : e.Holds x l indices b t)
    (hloop : ∀ position, l.slotPositions[indices.length]? = some position →
      Alike (Exploration.Holds x l indices b)
        (x.fillSlot layout indices.length position deeper
          (List.range' (l.firstIndex indices first) (stop - l.firstIndex indices first)) e)
        (assignments.foldlM (x.handle layout l) t)) :
    Alike (Exploration.Holds x l indices b)
      (x.fillFrom layouts layout indices.length first stop deeper e)
      (assignments.foldlM (x.handle layout l) t) := by
  obtain ⟨position, hposition, -⟩ := hl.write indices.length hslot
  obtain ⟨tie, htie⟩ : ∃ tie, l.minFrom[indices.length]? = some tie :=
    ⟨_, List.getElem?_eq_getElem (hl.length_minFrom.symm ▸ hslot)⟩
  have hfrom : x.fillFrom layouts layout indices.length first stop deeper e =
      x.fillSlot layout indices.length position deeper
        (List.range' (l.firstIndex indices first) (stop - l.firstIndex indices first)) e := by
    have hbind (m : Except Defect (Exploration S Z)) :
        (m.bind fun e => .ok { e with bench := e.bench }) = m := by
      cases m <;> rfl
    rw [fillFrom, readAt_of_getElem? hlayout]
    simp only [bind, Except.bind, readAt_of_getElem? hposition, readAt_of_getElem? htie]
    cases tie with
    | none =>
      simp only [Layout.firstIndex, htie, pure, Except.pure, hbounds, Bench.freeBounds]
      exact hbind _
    | some earlier =>
      have hearlier : earlier < indices.length := hl.earlier _ _ htie
      have hindex := List.getElem?_eq_getElem hearlier
      simp only [Layout.firstIndex, htie, List.getD_eq_getElem?_getD, hindex, Option.getD_some,
        readAt_of_getElem? ((h.filled.getElem?_assignment hearlier).trans hindex), pure,
        Except.pure, hbounds, Bench.freeBounds]
      exact hbind _
  rw [hfrom]
  exact hloop position hposition

/-- **A descent handles its assignments one after the other**: from any slot on it ends like the
fold over the assignments that extend the indices on the bench.

**Proof sketch.** By induction on the slots behind the current one. The values of the last slot
complete one assignment each; every other value leads to the assignments of a descent into the next
slot, and leaves the indices before it on the bench. -/
theorem descend_foldlM (hbounds : x.bounds = none) (hb : b.Unlimited) (hrun : b.stopped = false)
    (hl : l.Sound) {layouts : List Layout} (hlayout : layouts[layout]? = some l) (after : Nat)
    {first stop : Nat} (hstop : stop ≤ x.alphabet.length)
    (hslots : indices.length + after + 1 = l.slots) (hlt : ∀ i ∈ indices, i < x.alphabet.length)
    {e : Exploration S Z} {t : Tally S Z} (h : e.Holds x l indices b t) :
    Alike (Exploration.Holds x l indices b)
      (x.descend layouts layout after indices.length first stop e)
      ((l.assignments x.alphabet.length after first stop indices).foldlM
        (x.handle layout l) t) := by
  induction after generalizing indices first stop e t with
  | zero =>
    rw [descend, Layout.assignments]
    refine fillFrom_foldlM hbounds hl (by omega) hlayout first stop h fun position hposition =>
      lastSlot_foldlM hb hrun hl hslots hlt hposition _ (fun i hi => ?_) h
    exact Nat.lt_of_lt_of_le (Layout.mem_range'_firstIndex.mp hi).1.2 hstop
  | succ after ih =>
    rw [descend, Layout.assignments]
    refine fillFrom_foldlM hbounds hl (by omega) hlayout first stop h fun position hposition =>
      innerSlot_foldlM hbounds hb hrun hl (by omega) hposition (fun index hindex e t hentry => ?_)
        _ (fun i hi => ?_) h
    · have hlength : (indices ++ [index]).length = indices.length + 1 := by
        rw [List.length_append, List.length_singleton]
      rw [← hlength]
      exact ih (Nat.le_refl _) (by omega)
        (List.forall_mem_append.mpr ⟨hlt, List.forall_mem_singleton.mpr hindex⟩) hentry
    · exact Nat.lt_of_lt_of_le (Layout.mem_range'_firstIndex.mp hi).1.2 hstop

/-! ## Work items -/

/-- **The outcome of a work item** is the fold over its assignments.

**Proof sketch.** The budget is not stopped at first, so the layout is loaded and the descent begins
without indices. It handles the assignments of the work item (`descend_foldlM`), and the outcome is
its tally. -/
theorem outcome_eq_foldlM (hbounds : x.bounds = none) (hb : b.Unlimited)
    (hrun : b.stopped = false) (hl : l.Sound) {layouts : List Layout}
    (hlayout : layouts[layout]? = some l) {first : Nat} (hfirst : first < x.alphabet.length) :
    x.outcome layouts b (layout, first) =
      (l.itemAssignments x.alphabet.length first).foldlM (x.handle layout l) {} := by
  have hslots : ([] : List Nat).length + (l.slots - 1) + 1 = l.slots := by
    have := hl.slots_pos
    rw [List.length_nil]
    omega
  have hstart : Exploration.Holds x l [] b
      { bench := ({} : Bench S Z).load l x.bounds, budget := b } {} :=
    ⟨Bench.filled_load {} hl x.bounds, rfl, rfl⟩
  have hdescend : Alike (Exploration.Holds x l [] b)
      (x.descend layouts layout (l.slots - 1) 0 first (first + 1)
        { bench := ({} : Bench S Z).load l x.bounds, budget := b })
      ((l.itemAssignments x.alphabet.length first).foldlM (x.handle layout l) {}) :=
    descend_foldlM hbounds hb hrun hl hlayout (l.slots - 1) hfirst hslots
      (fun _ hi => absurd hi List.not_mem_nil) hstart
  have htally := hdescend.map_eq fun _ _ h => h.tally
  rw [outcome, explore, hb.look, hrun]
  simp only [Bool.false_eq_true, if_false, readAt_of_getElem? hlayout, bind, Except.bind]
  rw [htally]
  exact congrFun Except.map_id _

/-- **The work items of a layout** are folds over their assignments, whatever is on the bench. -/
theorem exploreAll_eq_foldlM (hbounds : x.bounds = none) (hb : b.Unlimited)
    (hrun : b.stopped = false) (hl : l.Sound) {layouts : List Layout}
    (hlayout : layouts[layout]? = some l) (bench : Bench S Z) :
    x.exploreAll layouts bench b []
        ((List.range x.alphabet.length).map fun first => (layout, first)) =
      ((List.range x.alphabet.length).mapM fun first =>
        (l.itemAssignments x.alphabet.length first).foldlM (x.handle layout l) {}).map
          fun tallies => (tallies, b) := by
  have hitems : ((List.range x.alphabet.length).map fun first => (layout, first)).mapM
      (x.outcome layouts b) =
        ((List.range x.alphabet.length).map fun first => (layout, first)).mapM fun item =>
          (l.itemAssignments x.alphabet.length item.2).foldlM (x.handle layout l) {} := by
    refine mapM_congr fun item hitem => ?_
    obtain ⟨first, hfirst, rfl⟩ := List.mem_map.mp hitem
    exact outcome_eq_foldlM hbounds hb hrun hl hlayout (List.mem_range.mp hfirst)
  rw [exploreAll_eq_mapM hb, hitems, List.mapM_map]
  rfl

/-! ## Counters -/

/-- An assignment is counted in one way. -/
lemma handled_of_handle {t t' : Tally S Z} (h : x.handle layout l t indices = .ok t') :
    t'.handled = t.handled + 1 := by
  unfold handle at h
  split at h
  · obtain rfl := Except.ok.inj h
    simp only [Tally.handled]
    omega
  · obtain rfl := Except.ok.inj h
    simp only [Tally.handled]
    omega
  · cases h
  · obtain rfl := Except.ok.inj h
    simp only [Tally.count, Tally.handled]
    omega

/-- So are assignments one after the other. -/
lemma handled_of_foldlM {assignments : List (List Nat)} {t t' : Tally S Z}
    (h : assignments.foldlM (x.handle layout l) t = .ok t') :
    t'.handled = t.handled + assignments.length := by
  induction assignments generalizing t with
  | nil =>
    obtain rfl := Except.ok.inj h
    rfl
  | cons indices rest ih =>
    rw [List.foldlM_cons] at h
    cases hfirst : x.handle layout l t indices with
    | error defect =>
      rw [hfirst] at h
      cases h
    | ok middle =>
      rw [hfirst] at h
      rw [ih h, handled_of_handle hfirst, List.length_cons]
      omega

/-- The assignments of several work items.

**Proof sketch.** By induction on the work items. None of the folds fails, and each counts as many
candidates as it has assignments (`handled_of_foldlM`). -/
lemma sum_handled_of_mapM {f : Nat → List (List Nat)} {firsts : List Nat}
    {tallies : List (Tally S Z)}
    (h : firsts.mapM (fun first => (f first).foldlM (x.handle layout l) {}) = .ok tallies) :
    (tallies.map Tally.handled).sum = (firsts.flatMap f).length := by
  induction firsts generalizing tallies with
  | nil =>
    obtain rfl := Except.ok.inj h
    rfl
  | cons first rest ih =>
    rw [List.mapM_cons] at h
    cases hfirst : (f first).foldlM (x.handle layout l) {} with
    | error defect =>
      rw [hfirst] at h
      cases h
    | ok t =>
      cases hrest : rest.mapM fun first => (f first).foldlM (x.handle layout l) {} with
      | error defect =>
        rw [hfirst, hrest] at h
        cases h
      | ok more =>
        rw [hfirst, hrest] at h
        obtain rfl := Except.ok.inj h
        have hone : t.handled = 0 + (f first).length := handled_of_foldlM hfirst
        rw [List.map_cons, List.sum_cons, ih hrest, hone, List.flatMap_cons, List.length_append,
          Nat.zero_add]

end Explorer

/-! ## All work items of a layout -/

/-- The assignments of a layout, in terms of its table of ties. -/
lemma Layout.mem_allAssignments_iff {leaves place width : Nat} {l : Layout}
    (hlayout : (Layout.withLeaves leaves)[place]? = some l) {indices : List Nat} :
    indices ∈ l.allAssignments width ↔
      indices.length = leaves ∧ (∀ i ∈ indices, i < width) ∧
        ∀ s p : Nat, l.minFrom[s]? = some (some p) →
          ∃ i ∈ indices[p]?, ∃ j ∈ indices[s]?, i ≤ j := by
  have hmem := List.mem_of_getElem? hlayout
  have hl := Layout.sound_of_mem_withLeaves hmem
  have hslots := Layout.slots_of_mem_withLeaves hmem
  rw [mem_allAssignments hl]
  constructor
  · rintro ⟨⟨hlength, hlt⟩, hties⟩
    exact ⟨hlength.trans hslots, hlt, fun s p htie => exists_le_of_respects hl hlength hties htie⟩
  · rintro ⟨hlength, hlt, hties⟩
    refine ⟨⟨hlength.trans hslots.symm, hlt⟩, fun s p _ htie => ?_⟩
    obtain ⟨i, hi, j, hj, hle⟩ := hties s p htie
    rw [List.getD_eq_getElem?_getD, List.getD_eq_getElem?_getD, Option.mem_def.mp hi,
      Option.mem_def.mp hj]
    exact hle

/-- **All assignments are handled, each once and in order.** Take a search without bounds and with a
budget that limits nothing, and let it explore the work items of one layout in their order.

* The assignments of the layout are all indices of values for its slots of which none is smaller
  than the index in the slot to which its slot is tied, and they are in strictly increasing
  lexicographic order.
* The tally of each work item is what handling its assignments one after the other makes of an empty
  one, where `Explorer.handle` evaluates the postfix form of the layout with the values of the
  indices in place of its slots; and the budget is as before.
* Evaluated, degenerate and overflowed candidates are together as many as there are assignments.
* With finite values no work item ends with a defect.

**Proof sketch.** The descent ends like the fold over its assignments
(`Explorer.descend_foldlM`), and a work item does not depend on what the bench held before. Each
assignment that is handled adds one to the counters. -/
theorem Explorer.exploreAll_enumerates (x : Explorer S Z) {leaves place : Nat} {l : Layout}
    {b : Budget} (hbounds : x.bounds = none)
    (hlayout : (Layout.withLeaves leaves)[place]? = some l) (hb : b.Unlimited)
    (hrun : b.stopped = false) (bench : Bench S Z) :
    (∀ indices, indices ∈ l.allAssignments x.alphabet.length ↔
      indices.length = leaves ∧ (∀ i ∈ indices, i < x.alphabet.length) ∧
        ∀ s p : Nat, l.minFrom[s]? = some (some p) →
          ∃ i ∈ indices[p]?, ∃ j ∈ indices[s]?, i ≤ j) ∧
    (l.allAssignments x.alphabet.length).Pairwise (· < ·) ∧
    x.exploreAll (Layout.withLeaves leaves) bench b []
        ((List.range x.alphabet.length).map fun first => (place, first)) =
      ((List.range x.alphabet.length).mapM fun first =>
        (l.itemAssignments x.alphabet.length first).foldlM (x.handle place l) {}).map
          (fun tallies => (tallies, b)) ∧
    (∀ tallies b', x.exploreAll (Layout.withLeaves leaves) bench b []
        ((List.range x.alphabet.length).map fun first => (place, first)) = .ok (tallies, b') →
      (tallies.map fun t => t.evaluated + t.degenerate + t.overflowed).sum =
        (l.allAssignments x.alphabet.length).length) ∧
    ((∀ z ∈ x.alphabet, Impedance.isFinite z = true) → ∃ tallies,
      x.exploreAll (Layout.withLeaves leaves) bench b []
        ((List.range x.alphabet.length).map fun first => (place, first)) = .ok (tallies, b)) := by
  have hl := Layout.sound_of_mem_withLeaves (List.mem_of_getElem? hlayout)
  have hall := exploreAll_eq_foldlM hbounds hb hrun hl hlayout bench
  refine ⟨fun indices => Layout.mem_allAssignments_iff hlayout, l.pairwise_allAssignments _, hall,
    fun tallies b' h => ?_, fun hfinite => ?_⟩
  · rw [hall] at h
    cases htallies : (List.range x.alphabet.length).mapM fun first =>
        (l.itemAssignments x.alphabet.length first).foldlM (x.handle place l) {} with
    | error defect =>
      rw [htallies] at h
      cases h
    | ok ts =>
      rw [htallies] at h
      obtain ⟨rfl, -⟩ := Prod.mk.inj (Except.ok.inj h)
      exact sum_handled_of_mapM htallies
  · have hx : x.Ready := ⟨hfinite, fun bd hbd => by cases hbounds.symm.trans hbd⟩
    have hwork : ∀ w ∈ (List.range x.alphabet.length).map fun first => (place, first),
        w.1 < (Layout.withLeaves leaves).length ∧ w.2 < x.alphabet.length := by
      intro w hw
      obtain ⟨first, hfirst, rfl⟩ := List.mem_map.mp hw
      exact ⟨(List.getElem?_eq_some_iff.mp hlayout).1, List.mem_range.mp hfirst⟩
    obtain ⟨parts, b', hparts, -⟩ := exists_begins_exploreAll hx
      (fun l hl => Layout.sound_of_mem_withLeaves hl) hwork bench b []
    rw [hall] at hparts ⊢
    cases htallies : (List.range x.alphabet.length).mapM fun first =>
        (l.itemAssignments x.alphabet.length first).foldlM (x.handle place l) {} with
    | error defect =>
      rw [htallies] at hparts
      cases hparts
    | ok ts => exact ⟨ts, rfl⟩

/-- One and two ohms in parallel: each value with itself, and one order of the two. -/
theorem Explorer.exploreAll_enumerates_two_values :
    let x : Explorer ℚ ℚ := ⟨[1, 2], 3, .relative (1 / 100), none, Clock.still⟩
    let l := Layout.ofShape (.parallel Shape.single Shape.single)
    let b : Budget := ⟨none, none, 0, 0, false⟩
    x.bounds = none ∧ (Layout.withLeaves 2)[1]? = some l ∧ b.Unlimited ∧ b.stopped = false ∧
      l.allAssignments 2 = [[0, 0], [0, 1], [1, 1]] ∧
      ∃ tallies, x.exploreAll (Layout.withLeaves 2) {} b [] [(1, 0), (1, 1)] = .ok (tallies, b) ∧
        (tallies.map fun t => t.evaluated + t.degenerate + t.overflowed).sum = 3 := by
  intro x l b
  have hlayout : (Layout.withLeaves 2)[1]? = some l := rfl
  obtain ⟨-, -, -, hcount, hfinite⟩ :=
    x.exploreAll_enumerates (b := b) rfl hlayout ⟨rfl, rfl⟩ rfl {}
  obtain ⟨tallies, htallies⟩ := hfinite (by decide)
  exact ⟨rfl, hlayout, ⟨rfl, rfl⟩, rfl, by decide, tallies, htallies, hcount tallies b htallies⟩

end Ohmic
