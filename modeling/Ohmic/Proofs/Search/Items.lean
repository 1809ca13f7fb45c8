import Ohmic.Proofs.Search.Assignments
import Ohmic.Proofs.Search.Descent

set_option autoImplicit false

/-!
# Work items, one after the other

Each work item is described by its steps. If there is no time limit, the tallies of a list of work
items are those of their steps, up to the first candidate that the budget does not allow.

## Main definitions

* `Item`, `Explorer.items` — a work item with its steps, and the work items of a list of layouts.
* `Explorer.tally` — the tally of all steps of a work item.
* `withinParts` — the beginning of a list of things that have steps each.
* `Item.Valid` — a work item of a sound layout in a list, with candidates made of indices of values.

## Main results

* `steps_withinParts`, `flatMap_withinParts` — the steps and the candidates of a beginning.
* `Explorer.exploreAll_of_allows`, `Explorer.exploreAll_of_not_allows` — the tallies of the work
  items, whether or not the budget allows all their candidates.
-/

namespace Ohmic

/-- A work item with the steps it takes if nothing stops it. -/
structure Item where
  /-- The place of the layout in the list of layouts. -/
  place : Nat
  /-- The layout. -/
  layout : Layout
  /-- The steps. -/
  steps : List Step

/-! ## Beginnings -/

section

variable {α β : Type}

/-- The first parts of a list as long as they have no more than `n` candidates together, and what
`cut` leaves of the first part that has one more. -/
def withinParts (steps : α → List Step) (cut : Nat → α → α) : (n : Nat) → List α → List α
  | _, [] => []
  | n, a :: rest =>
    if (Step.candidates (steps a)).length ≤ n then
      a :: withinParts steps cut (n - (Step.candidates (steps a)).length) rest
    else [cut n a]

variable {steps : α → List Step} {cut : Nat → α → α}

/-- Parts with few candidates are their own beginning. -/
lemma withinParts_of_length_le {n : Nat} {parts : List α}
    (h : (Step.candidates (parts.flatMap steps)).length ≤ n) :
    withinParts steps cut n parts = parts := by
  induction parts generalizing n with
  | nil => rfl
  | cons a rest ih =>
    rw [List.flatMap_cons, Step.candidates_append, List.length_append] at h
    rw [withinParts, if_pos (by omega), ih (by omega)]

/-- **The steps of a beginning** are the beginning of the steps. -/
theorem steps_withinParts (hcut : ∀ n a, steps (cut n a) = Step.within n (steps a)) (n : Nat)
    (parts : List α) :
    (withinParts steps cut n parts).flatMap steps = Step.within n (parts.flatMap steps) := by
  induction parts generalizing n with
  | nil => rw [withinParts, List.flatMap_nil, Step.within]
  | cons a rest ih =>
    rw [withinParts, List.flatMap_cons, Step.within_append]
    split
    · rw [List.flatMap_cons, ih]
    · rw [List.flatMap_cons, List.flatMap_nil, List.append_nil, hcut]

/-- What the parts of a beginning contribute, if each contributes one thing for each of its
candidates. -/
theorem flatMap_withinParts {f : α → List β}
    (hlength : ∀ a, (f a).length = (Step.candidates (steps a)).length)
    (hcut : ∀ n a, f (cut n a) = (f a).take n) (n : Nat) (parts : List α) :
    (withinParts steps cut n parts).flatMap f = (parts.flatMap f).take n := by
  induction parts generalizing n with
  | nil => rw [withinParts, List.flatMap_nil, List.take_nil]
  | cons a rest ih =>
    rw [withinParts, List.flatMap_cons, List.take_append, hlength]
    split
    · next h =>
      have hall : (f a).take n = f a := List.take_of_length_le (hlength a ▸ h)
      rw [List.flatMap_cons, ih, hall]
    · next h =>
      rw [List.flatMap_cons, List.flatMap_nil, hcut, Nat.sub_eq_zero_of_le (by omega),
        List.take_zero]

end

namespace Item

/-- The work item with the beginning of its steps. -/
def within (n : Nat) (i : Item) : Item := { i with steps := Step.within n i.steps }

/-- The work item is one of a sound layout in the list, and its candidates fill the slots with
indices of values. -/
structure Valid (layouts : List Layout) (width : Nat) (i : Item) : Prop where
  /-- The layout is at its place. -/
  at_place : layouts[i.place]? = some i.layout
  /-- The layout is sound. -/
  sound : i.layout.Sound
  /-- The candidates fill the slots. -/
  assigned : ∀ indices ∈ Step.candidates i.steps, i.layout.Assigned width indices

/-- The beginning of a valid work item is valid. -/
lemma Valid.within {layouts : List Layout} {width : Nat} {i : Item} (h : i.Valid layouts width)
    (n : Nat) : (i.within n).Valid layouts width := by
  refine ⟨h.at_place, h.sound, fun indices hmem => h.assigned indices ?_⟩
  rw [Item.within, Step.candidates_within] at hmem
  exact List.mem_of_mem_take hmem

/-- The beginning of valid work items is valid. -/
lemma valid_of_mem_withinParts {layouts : List Layout} {width n : Nat} {items : List Item}
    (h : ∀ i ∈ items, i.Valid layouts width) {i : Item}
    (hi : i ∈ withinParts Item.steps Item.within n items) : i.Valid layouts width := by
  induction items generalizing n with
  | nil => cases hi
  | cons a rest ih =>
    rw [List.forall_mem_cons] at h
    rw [withinParts] at hi
    split at hi
    · rcases List.mem_cons.mp hi with rfl | hi
      · exact h.1
      · exact ih h.2 hi
    · exact List.mem_singleton.mp hi ▸ h.1.within n

end Item

/-! ## The work items of a search -/

namespace Explorer

variable {S Z : Type} [Scalar S] [Impedance S Z]

/-- The tally of all steps of a work item. -/
def tally (x : Explorer S Z) (i : Item) : Tally S Z := x.tallyOf i.layout i.place i.steps

/-- The work items given by the place of a layout and the index of the first value. -/
def items (x : Explorer S Z) (layouts : List Layout) (work : List (Nat × Nat)) : List Item :=
  work.filterMap fun w => layouts[w.1]?.map fun l => ⟨w.1, l, x.itemSteps l w.2⟩

variable {x : Explorer S Z} {layouts : List Layout}

omit [Impedance S Z] in
/-- The first work item. -/
lemma items_cons {layout first : Nat} {l : Layout} (h : layouts[layout]? = some l)
    (work : List (Nat × Nat)) :
    x.items layouts ((layout, first) :: work) =
      ⟨layout, l, x.itemSteps l first⟩ :: x.items layouts work := by
  simp only [items, List.filterMap_cons, h, Option.map_some]

omit [Impedance S Z] in
/-- All work items of a search are valid. -/
lemma valid_of_mem_items (hsound : ∀ l ∈ layouts, l.Sound) {work : List (Nat × Nat)}
    (hwork : ∀ w ∈ work, w.1 < layouts.length ∧ w.2 < x.alphabet.length) {i : Item}
    (hi : i ∈ x.items layouts work) : i.Valid layouts x.alphabet.length := by
  obtain ⟨w, hw, hsome⟩ := List.mem_filterMap.mp hi
  obtain ⟨l, hl, rfl⟩ := Option.map_eq_some_iff.mp hsome
  have hs : l.Sound := hsound l (List.mem_of_getElem? hl)
  exact ⟨hl, hs, fun indices => x.assigned_of_mem_itemSteps hs (hwork w hw).2⟩

/-- Every work item names a layout and the index of a value. -/
lemma lt_of_mem_workItems {width : Nat} {w : Nat × Nat} (h : w ∈ workItems layouts width) :
    w.1 < layouts.length ∧ w.2 < width := by
  obtain ⟨layout, hlayout, hmem⟩ := List.mem_flatMap.mp h
  obtain ⟨first, hfirst, rfl⟩ := List.mem_map.mp hmem
  exact ⟨List.mem_range.mp hlayout, List.mem_range.mp hfirst⟩

/-- Every layout with the index of every value is a work item. -/
lemma mem_workItems {width layout first : Nat} (hlayout : layout < layouts.length)
    (hfirst : first < width) : (layout, first) ∈ workItems layouts width :=
  List.mem_flatMap.mpr ⟨layout, List.mem_range.mpr hlayout,
    List.mem_map.mpr ⟨first, List.mem_range.mpr hfirst, rfl⟩⟩

/-! ## All work items -/

/-- A work item does nothing with a stopped budget. -/
lemma explore_of_stopped (x : Explorer S Z) (layouts : List Layout) {budget : Budget}
    (hstop : budget.stopped = true) (layout first : Nat) (bench : Bench S Z) :
    ∃ e, x.explore layouts layout first bench budget = .ok e ∧ e.tally = {} ∧
      e.budget.stopped = true := by
  have hlook := stopped_look_of_stopped x.clock hstop
  refine ⟨{ bench := bench, budget := budget.look x.clock }, ?_, rfl, hlook⟩
  simp only [explore, hlook, if_true]
  rfl

/-- A work item whose candidates are all allowed. -/
lemma explore_of_allows (hx : x.Ready) {l : Layout} (hl : l.Sound) {layout first : Nat}
    (hlayout : layouts[layout]? = some l) (hfirst : first < x.alphabet.length)
    (bench : Bench S Z) {budget : Budget} (htime : budget.Timeless)
    (hrun : budget.stopped = false)
    (hallows : budget.Allows (Step.candidates (x.itemSteps l first)).length) :
    ∃ e, x.explore layouts layout first bench budget = .ok e ∧
      e.tally = x.tallyOf l layout (x.itemSteps l first) ∧
      e.budget = budget.spend (Step.candidates (x.itemSteps l first)).length := by
  obtain ⟨e, hexplore, hkeeps⟩ := explore_run hx hl hlayout hfirst bench budget
  have hopening : (x.opening budget bench.ticks).budget = budget :=
    Budget.look_of_timeless htime x.clock
  obtain ⟨htally, hbudget⟩ := x.serve_of_allows l layout (x.itemSteps l first)
    (j := x.opening budget bench.ticks) (by rwa [hopening]) (by rwa [hopening])
    (by rwa [hopening])
  rw [hopening] at hbudget
  refine ⟨e, hexplore, hkeeps.tally.trans htally, (hkeeps.budget ?_).trans hbudget⟩
  rw [hbudget, Budget.stopped_spend, hrun]

/-- A work item one of whose candidates is not allowed. -/
lemma explore_of_not_allows (hx : x.Ready) {l : Layout} (hl : l.Sound) {layout first : Nat}
    (hlayout : layouts[layout]? = some l) (hfirst : first < x.alphabet.length)
    (bench : Bench S Z) {budget : Budget} (htime : budget.Timeless)
    (hrun : budget.stopped = false) {n : Nat} (hallows : budget.Allows n)
    (hnot : ¬ budget.Allows (n + 1)) (hn : n < (Step.candidates (x.itemSteps l first)).length) :
    ∃ e, x.explore layouts layout first bench budget = .ok e ∧
      e.tally = x.tallyOf l layout (Step.within n (x.itemSteps l first)) ∧
      e.budget.stopped = true := by
  obtain ⟨e, hexplore, hkeeps⟩ := explore_run hx hl hlayout hfirst bench budget
  have hopening : (x.opening budget bench.ticks).budget = budget :=
    Budget.look_of_timeless htime x.clock
  obtain ⟨htally, hstop⟩ := x.serve_of_not_allows l layout (x.itemSteps l first)
    (j := x.opening budget bench.ticks) (by rwa [hopening]) (by rwa [hopening])
    (by rwa [hopening]) (by rwa [hopening]) hn
  exact ⟨e, hexplore, hkeeps.tally.trans htally, hkeeps.stopped.trans hstop⟩

/-- With a stopped budget all work items do nothing. -/
lemma exploreAll_of_stopped (x : Explorer S Z) (layouts : List Layout) {budget : Budget}
    (hstop : budget.stopped = true) (bench : Bench S Z) (done : List (Tally S Z))
    (work : List (Nat × Nat)) :
    ∃ b, x.exploreAll layouts bench budget done work =
        .ok (done.reverse ++ List.replicate work.length ({} : Tally S Z), b) ∧
      b.stopped = true := by
  induction work generalizing bench budget done with
  | nil => exact ⟨budget, by rw [exploreAll, List.length_nil, List.replicate_zero,
      List.append_nil], hstop⟩
  | cons w work ih =>
    obtain ⟨e, hexplore, htally, hstop'⟩ := explore_of_stopped x layouts hstop w.1 w.2
      bench
    obtain ⟨b, hrest, hb⟩ := ih hstop' e.bench (e.tally :: done)
    refine ⟨b, ?_, hb⟩
    simp only [exploreAll, hexplore]
    rw [hrest, htally, List.reverse_cons, List.append_assoc, List.singleton_append,
      List.length_cons, List.replicate_succ]

/-- **Work items whose candidates are all allowed** take all their steps.

**Proof sketch.** By induction on the work items. The first one takes all its steps and spends its
candidates (`explore_of_allows`); what is left of the budget allows the candidates of the others. -/
theorem exploreAll_of_allows (hx : x.Ready) (hsound : ∀ l ∈ layouts, l.Sound)
    {work : List (Nat × Nat)}
    (hwork : ∀ w ∈ work, w.1 < layouts.length ∧ w.2 < x.alphabet.length) (bench : Bench S Z)
    {budget : Budget} (htime : budget.Timeless) (hrun : budget.stopped = false)
    (hallows : budget.Allows
      (Step.candidates ((x.items layouts work).flatMap Item.steps)).length)
    (done : List (Tally S Z)) :
    x.exploreAll layouts bench budget done work =
      .ok (done.reverse ++ (x.items layouts work).map x.tally,
        budget.spend (Step.candidates ((x.items layouts work).flatMap Item.steps)).length) := by
  induction work generalizing bench budget done with
  | nil =>
    simp only [exploreAll, items, List.filterMap_nil, List.map_nil, List.append_nil,
      List.flatMap_nil, Step.candidates_nil, List.length_nil, Budget.spend_zero]
  | cons w work ih =>
    obtain ⟨layout, first⟩ := w
    obtain ⟨⟨hplace : layout < layouts.length, hfirst : first < x.alphabet.length⟩, hwork⟩ :=
      List.forall_mem_cons.mp hwork
    have hlayout := List.getElem?_eq_getElem hplace
    have hl := hsound _ (List.mem_of_getElem? hlayout)
    rw [items_cons hlayout, List.flatMap_cons, Step.candidates_append, List.length_append]
      at hallows ⊢
    obtain ⟨e, hexplore, htally, hbudget⟩ := explore_of_allows hx hl hlayout hfirst bench htime
      hrun (hallows.mono (Nat.le_add_right _ _))
    have htime' : e.budget.Timeless := by rwa [hbudget, Budget.timeless_spend]
    have hrest := ih hwork e.bench htime' (by rwa [hbudget, Budget.stopped_spend])
      (by rwa [hbudget, Budget.allows_spend]) (e.tally :: done)
    simp only [exploreAll, hexplore]
    rw [hrest, htally, hbudget, Budget.spend_spend, List.reverse_cons, List.append_assoc,
      List.singleton_append, List.map_cons, tally]

/-- **Work items some of whose candidates are not allowed** take the steps before the first of
these, and the work items after it do nothing.

**Proof sketch.** By induction on the work items. One whose candidates are all allowed takes its
steps and lowers what is left for the others. The first one that has more candidates takes the steps
before the one too many and leaves the budget stopped (`explore_of_not_allows`), and all others are
idle (`exploreAll_of_stopped`). -/
theorem exploreAll_of_not_allows (hx : x.Ready) (hsound : ∀ l ∈ layouts, l.Sound)
    {work : List (Nat × Nat)}
    (hwork : ∀ w ∈ work, w.1 < layouts.length ∧ w.2 < x.alphabet.length) (bench : Bench S Z)
    {budget : Budget} (htime : budget.Timeless) (hrun : budget.stopped = false) {n : Nat}
    (hallows : budget.Allows n) (hnot : ¬ budget.Allows (n + 1))
    (hn : n < (Step.candidates ((x.items layouts work).flatMap Item.steps)).length)
    (done : List (Tally S Z)) :
    ∃ idle b, x.exploreAll layouts bench budget done work =
        .ok (done.reverse ++
          ((withinParts Item.steps Item.within n (x.items layouts work)).map x.tally ++
            List.replicate idle ({} : Tally S Z)), b) ∧ b.stopped = true := by
  induction work generalizing bench budget done n with
  | nil => cases hn
  | cons w work ih =>
    obtain ⟨layout, first⟩ := w
    obtain ⟨⟨hplace : layout < layouts.length, hfirst : first < x.alphabet.length⟩, hwork⟩ :=
      List.forall_mem_cons.mp hwork
    have hlayout := List.getElem?_eq_getElem hplace
    have hl := hsound _ (List.mem_of_getElem? hlayout)
    rw [items_cons hlayout] at hn ⊢
    simp only [List.flatMap_cons, Step.candidates_append, List.length_append] at hn
    rw [withinParts, exploreAll]
    by_cases hle : (Step.candidates (x.itemSteps layouts[layout] first)).length ≤ n
    · obtain ⟨e, hexplore, htally, hbudget⟩ := explore_of_allows hx hl hlayout hfirst bench
        htime hrun (hallows.mono hle)
      have htime' : e.budget.Timeless := by rwa [hbudget, Budget.timeless_spend]
      obtain ⟨idle, b, hrest, hb⟩ := ih hwork e.bench htime'
        (by rwa [hbudget, Budget.stopped_spend])
        (n := n - (Step.candidates (x.itemSteps layouts[layout] first)).length)
        (by rwa [hbudget, Budget.allows_spend, Nat.add_sub_cancel' hle])
        (by rwa [hbudget, Budget.allows_spend, ← Nat.add_assoc, Nat.add_sub_cancel' hle])
        (by omega) (e.tally :: done)
      refine ⟨idle, b, ?_, hb⟩
      simp only [if_pos hle, hexplore]
      rw [hrest, htally, List.reverse_cons, List.append_assoc, List.singleton_append,
        List.map_cons, List.cons_append, tally]
    · obtain ⟨e, hexplore, htally, hstop⟩ := explore_of_not_allows hx hl hlayout hfirst bench
        htime hrun hallows hnot (Nat.lt_of_not_le hle)
      obtain ⟨b, hrest, hb⟩ := exploreAll_of_stopped x layouts hstop e.bench (e.tally :: done) work
      refine ⟨work.length, b, ?_, hb⟩
      simp only [if_neg hle, hexplore]
      rw [hrest, htally, List.reverse_cons, List.append_assoc, List.map_singleton, tally]
      rfl

end Explorer

end Ohmic
