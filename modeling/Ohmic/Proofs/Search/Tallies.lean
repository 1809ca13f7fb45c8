import Ohmic.Proofs.Search.Steps

set_option autoImplicit false

/-!
# What steps add up to

Without a limit in the way, steps have an effect on the tally alone. The tally after all steps of a
work item is a function of its complete candidates and of the number of its cuts, and a budget
without a time limit lets exactly a beginning of the steps through.

## Main definitions

* `Step.candidates`, `Step.cuts` — the complete candidates among steps, and the number of cuts.
* `Step.within` — all steps before the first candidate above a number of candidates.
* `Explorer.effect`, `Explorer.tallyOf` — the effect of a step on a tally, and the tally of steps.
* `Explorer.candidate?` — a complete candidate with its impedance, if it has one.
* `Budget.Allows`, `Budget.spend` — a number of requests fits in a budget, and is taken from it.

## Main results

* `Explorer.hits_tallyOf`, `Explorer.closest_tallyOf`, `Explorer.evaluated_tallyOf`,
  `Explorer.handled_tallyOf` — the tally of steps in terms of their candidates.
* `Step.within_append`, `Step.eq_within_append` — the beginning of steps, piece by piece, and what
  follows it.
* `Explorer.serve_of_allows`, `Explorer.serve_of_not_allows` — the steps that a budget lets
  through.
-/

namespace Ohmic

/-! ## Candidates among steps -/

namespace Step

/-- The indices of a complete candidate. -/
def candidate? : Step → Option (List Nat)
  | candidate indices => some indices
  | _ => none

/-- The complete candidates among steps, in order. -/
def candidates (steps : List Step) : List (List Nat) := steps.filterMap candidate?

/-- The number of partial networks given up. -/
def cuts (steps : List Step) : Nat := steps.count cut

/-- The steps before a candidate that is one more than `n`. -/
def within : (n : Nat) → List Step → List Step
  | _, [] => []
  | n, tick :: rest => tick :: within n rest
  | n, cut :: rest => cut :: within n rest
  | 0, candidate _ :: _ => []
  | n + 1, candidate indices :: rest => candidate indices :: within n rest

/-- There are no candidates among no steps. -/
@[simp] lemma candidates_nil : candidates [] = [] := rfl

/-- A tick is not a candidate. -/
@[simp] lemma candidates_tick (rest : List Step) : candidates (tick :: rest) = candidates rest :=
  rfl

/-- A partial network given up is not a candidate. -/
@[simp] lemma candidates_cut (rest : List Step) : candidates (cut :: rest) = candidates rest := rfl

/-- A candidate comes before those among the later steps. -/
@[simp] lemma candidates_candidate (indices : List Nat) (rest : List Step) :
    candidates (candidate indices :: rest) = indices :: candidates rest := rfl

/-- The candidates of two runs of steps follow each other. -/
@[simp] lemma candidates_append (steps more : List Step) :
    candidates (steps ++ more) = candidates steps ++ candidates more := List.filterMap_append

/-- The beginning of steps has the first candidates. -/
lemma candidates_within (n : Nat) (steps : List Step) :
    candidates (within n steps) = (candidates steps).take n := by
  induction steps generalizing n with
  | nil => simp only [within, candidates_nil, List.take_nil]
  | cons step rest ih =>
    cases step with
    | tick => simp only [within, candidates_tick, ih]
    | cut => simp only [within, candidates_cut, ih]
    | candidate indices =>
      cases n with
      | zero => rfl
      | succ n => simp only [within, candidates_candidate, ih, List.take_succ_cons]

/-- The beginning of steps that follow others.

**Proof sketch.** By induction on the first steps, counting the number down at each candidate among
them. -/
lemma within_append (n : Nat) (steps more : List Step) :
    within n (steps ++ more) =
      if (candidates steps).length ≤ n then
        steps ++ within (n - (candidates steps).length) more
      else within n steps := by
  induction steps generalizing n with
  | nil => simp
  | cons step rest ih =>
    cases step with
    | tick =>
      simp only [List.cons_append, within, ih, candidates_tick]
      exact apply_ite (List.cons tick) _ _ _
    | cut =>
      simp only [List.cons_append, within, ih, candidates_cut]
      exact apply_ite (List.cons cut) _ _ _
    | candidate indices =>
      cases n with
      | zero => simp [within]
      | succ n =>
        simp only [List.cons_append, within, ih, candidates_candidate, List.length_cons,
          Nat.add_le_add_iff_right, Nat.add_sub_add_right]
        exact apply_ite (List.cons (candidate indices)) _ _ _

/-- **What follows the beginning** of steps is a candidate, if there is any above the number.

**Proof sketch.** By induction on the steps, counting the number down at each candidate. The one met
at zero is the first that the beginning leaves out. -/
lemma eq_within_append {n : Nat} {steps : List Step} (h : n < (candidates steps).length) :
    ∃ indices rest, steps = within n steps ++ candidate indices :: rest := by
  induction steps generalizing n with
  | nil => cases h
  | cons step rest ih =>
    cases step with
    | tick =>
      obtain ⟨indices, after, hrest⟩ := ih h
      exact ⟨indices, after, by rw [within, List.cons_append, ← hrest]⟩
    | cut =>
      obtain ⟨indices, after, hrest⟩ := ih h
      exact ⟨indices, after, by rw [within, List.cons_append, ← hrest]⟩
    | candidate first =>
      cases n with
      | zero => exact ⟨first, rest, rfl⟩
      | succ n =>
        obtain ⟨indices, after, hrest⟩ := ih (Nat.lt_of_succ_lt_succ h)
        exact ⟨indices, after, by rw [within, List.cons_append, ← hrest]⟩

end Step

/-! ## The tally of steps -/

namespace Explorer

variable {S Z : Type} [Scalar S] [Impedance S Z] (x : Explorer S Z) (l : Layout) (layout : Nat)

/-- The effect of a step on a tally. -/
def effect (t : Tally S Z) : Step → Tally S Z
  | .tick => t
  | .cut => { t with pruned := t.pruned + 1 }
  | .candidate indices => x.meet l layout t indices

/-- The tally of steps. -/
def tallyOf (steps : List Step) : Tally S Z := steps.foldl (x.effect l layout) {}

/-- The complete candidate of some indices with its impedance, if it has one. -/
def candidate? (indices : List Nat) : Option (Candidate S Z) :=
  (l.filled x.alphabet Impedance.zero indices).value?.map fun value =>
    ⟨layout, indices, value, Deviation.of value x.target⟩

/-- A candidate is acceptable. -/
def accepted (c : Candidate S Z) : Bool :=
  x.tolerance.accepts c.deviation.absolute c.deviation.relative

end Explorer

/-- The nearer one of a closest candidate so far and another candidate. -/
def Tally.nearer {S Z : Type} [Scalar S] (best : Option (Candidate S Z)) (c : Candidate S Z) :
    Option (Candidate S Z) :=
  if Tally.isCloser c.deviation best then some c else best

/-- The number of complete candidates that were handled. -/
def Tally.handled {S Z : Type} (t : Tally S Z) : Nat := t.evaluated + t.degenerate + t.overflowed

namespace Explorer

variable {S Z : Type} [Scalar S] [Impedance S Z] {x : Explorer S Z} {l : Layout} {layout : Nat}

/-- A candidate with an impedance is counted. -/
lemma meet_of_some {indices : List Nat} {c : Candidate S Z}
    (h : x.candidate? l layout indices = some c) (t : Tally S Z) :
    x.meet l layout t indices = t.count (x.accepted c) c := by
  obtain ⟨value, hvalue, rfl⟩ := Option.map_eq_some_iff.mp h
  rw [← Tree.evaluate_eq_ok_iff] at hvalue
  simp only [meet, hvalue]
  rfl

/-- A candidate without an impedance is not counted as evaluated, and changes neither the hits nor
the closest candidate. -/
lemma meet_of_none {indices : List Nat} (h : x.candidate? l layout indices = none)
    (t : Tally S Z) : (x.meet l layout t indices).hits = t.hits ∧
      (x.meet l layout t indices).closest = t.closest ∧
      (x.meet l layout t indices).evaluated = t.evaluated := by
  have hvalue := Option.map_eq_none_iff.mp h
  rw [← Tree.toOption_evaluate] at hvalue
  cases hresult : (l.filled x.alphabet Impedance.zero indices).evaluate with
  | ok value =>
    rw [hresult] at hvalue
    cases hvalue
  | error fault =>
    simp only [meet, hresult]
    cases fault <;> exact ⟨rfl, rfl, rfl⟩

/-- Meeting a candidate is no cut. -/
lemma pruned_meet (t : Tally S Z) (indices : List Nat) :
    (x.meet l layout t indices).pruned = t.pruned := by
  unfold meet
  split <;> rfl

/-- **What a step does to a tally**: it leads to no impedance, and leaves the hits, the closest
candidate and the number of evaluated ones as they are, or it leads to a candidate that is
counted. -/
lemma effect_cases (t : Tally S Z) (step : Step) (rest : List Step) :
    ((Step.candidates (step :: rest)).filterMap (x.candidate? l layout) =
        (Step.candidates rest).filterMap (x.candidate? l layout) ∧
      (x.effect l layout t step).hits = t.hits ∧
      (x.effect l layout t step).closest = t.closest ∧
      (x.effect l layout t step).evaluated = t.evaluated) ∨
    ∃ c, (Step.candidates (step :: rest)).filterMap (x.candidate? l layout) =
        c :: (Step.candidates rest).filterMap (x.candidate? l layout) ∧
      x.effect l layout t step = t.count (x.accepted c) c := by
  cases step with
  | tick => exact .inl ⟨rfl, rfl, rfl, rfl⟩
  | cut => exact .inl ⟨rfl, rfl, rfl, rfl⟩
  | candidate indices =>
    rw [Step.candidates_candidate]
    cases hc : x.candidate? l layout indices with
    | none => exact .inl ⟨List.filterMap_cons_none hc, meet_of_none hc t⟩
    | some c => exact .inr ⟨c, List.filterMap_cons_some hc, meet_of_some hc t⟩

/-- The hits after steps are those before them, and the acceptable candidates among them. -/
lemma hits_foldl_effect (steps : List Step) (t : Tally S Z) :
    (steps.foldl (x.effect l layout) t).hits =
      t.hits ++ ((Step.candidates steps).filterMap (x.candidate? l layout)).filter x.accepted := by
  induction steps generalizing t with
  | nil => exact (List.append_nil _).symm
  | cons step rest ih =>
    rw [List.foldl_cons, ih]
    rcases effect_cases t step rest with ⟨hnone, hhits, -⟩ | ⟨c, hsome, hcount⟩
    · rw [hnone, hhits]
    · rw [hsome, hcount, List.filter_cons, Tally.count]
      cases x.accepted c with
      | true => simp only [if_true, List.append_assoc, List.singleton_append]
      | false => simp only [Bool.false_eq_true, if_false]

/-- The closest candidate after steps. -/
lemma closest_foldl_effect (steps : List Step) (t : Tally S Z) :
    (steps.foldl (x.effect l layout) t).closest =
      ((Step.candidates steps).filterMap (x.candidate? l layout)).foldl Tally.nearer t.closest := by
  induction steps generalizing t with
  | nil => rfl
  | cons step rest ih =>
    rw [List.foldl_cons, ih]
    rcases effect_cases t step rest with ⟨hnone, -, hclosest, -⟩ | ⟨c, hsome, hcount⟩
    · rw [hnone, hclosest]
    · rw [hsome, hcount]
      rfl

/-- The number of evaluated candidates after steps. -/
lemma evaluated_foldl_effect (steps : List Step) (t : Tally S Z) :
    (steps.foldl (x.effect l layout) t).evaluated =
      t.evaluated + ((Step.candidates steps).filterMap (x.candidate? l layout)).length := by
  induction steps generalizing t with
  | nil => rfl
  | cons step rest ih =>
    rw [List.foldl_cons, ih]
    rcases effect_cases t step rest with ⟨hnone, -, -, hevaluated⟩ | ⟨c, hsome, hcount⟩
    · rw [hnone, hevaluated]
    · have hone : (t.count (x.accepted c) c).evaluated = t.evaluated + 1 := rfl
      rw [hsome, hcount, hone, List.length_cons]
      omega

/-- The number of cuts after steps. -/
lemma pruned_foldl_effect (steps : List Step) (t : Tally S Z) :
    (steps.foldl (x.effect l layout) t).pruned = t.pruned + Step.cuts steps := by
  induction steps generalizing t with
  | nil => rfl
  | cons step rest ih =>
    rw [List.foldl_cons, ih]
    cases step with
    | tick => simp [effect, Step.cuts]
    | cut =>
      simp [effect, Step.cuts]
      omega
    | candidate indices => simp [effect, Step.cuts, pruned_meet]

/-- The hits of steps are the acceptable ones of their candidates, in order. -/
lemma hits_tallyOf (steps : List Step) : (x.tallyOf l layout steps).hits =
    ((Step.candidates steps).filterMap (x.candidate? l layout)).filter x.accepted :=
  hits_foldl_effect steps {}

/-- The closest candidate of steps. -/
lemma closest_tallyOf (steps : List Step) : (x.tallyOf l layout steps).closest =
    ((Step.candidates steps).filterMap (x.candidate? l layout)).foldl Tally.nearer none :=
  closest_foldl_effect steps {}

/-- The candidates with an impedance among steps are counted. -/
lemma evaluated_tallyOf (steps : List Step) : (x.tallyOf l layout steps).evaluated =
    ((Step.candidates steps).filterMap (x.candidate? l layout)).length :=
  (evaluated_foldl_effect steps {}).trans (Nat.zero_add _)

/-- The cuts among steps are counted. -/
lemma pruned_tallyOf (steps : List Step) :
    (x.tallyOf l layout steps).pruned = Step.cuts steps :=
  (pruned_foldl_effect steps {}).trans (Nat.zero_add _)

omit [Impedance S Z] in
/-- The nearest one of some candidates is one of them. -/
lemma mem_of_foldl_nearer {cs : List (Candidate S Z)} {best : Option (Candidate S Z)}
    {c : Candidate S Z} (h : cs.foldl Tally.nearer best = some c) : best = some c ∨ c ∈ cs := by
  induction cs generalizing best with
  | nil => exact .inl h
  | cons d cs ih =>
    rcases ih h with hbest | hmem
    · unfold Tally.nearer at hbest
      split at hbest
      · exact .inr (Option.some.inj hbest ▸ List.mem_cons_self)
      · exact .inl hbest
    · exact .inr (List.mem_cons_of_mem _ hmem)

/-! ## Handled candidates -/

/-- Meeting a complete candidate counts it in one way. -/
lemma handled_meet (hx : x.Ready) (hl : l.Sound) {indices : List Nat}
    (h : l.Assigned x.alphabet.length indices) (t : Tally S Z) :
    (x.meet l layout t indices).handled = t.handled + 1 := by
  cases hresult : (l.filled x.alphabet Impedance.zero indices).evaluate with
  | ok value =>
    simp only [meet, hresult, Tally.count, Tally.handled]
    omega
  | error fault =>
    simp only [meet, hresult]
    cases fault with
    | degenerate position =>
      simp only [Tally.handled]
      omega
    | overflow position =>
      simp only [Tally.handled]
      omega
    | malformed position reason => exact absurd hresult (hx.evaluate_ne_malformed hl h)

/-- **The handled candidates** of steps are all their complete candidates. -/
lemma handled_tallyOf (layout : Nat) (hx : x.Ready) (hl : l.Sound) {steps : List Step}
    (h : ∀ indices ∈ Step.candidates steps, l.Assigned x.alphabet.length indices) :
    (x.tallyOf l layout steps).handled = (Step.candidates steps).length := by
  suffices hfold : ∀ t : Tally S Z, (steps.foldl (x.effect l layout) t).handled =
      t.handled + (Step.candidates steps).length from (hfold {}).trans (Nat.zero_add _)
  induction steps with
  | nil => exact fun t => rfl
  | cons step rest ih =>
    intro t
    cases step with
    | tick => exact ih h t
    | cut => exact ih h _
    | candidate indices =>
      rw [Step.candidates_candidate, List.forall_mem_cons] at h
      rw [List.foldl_cons, ih h.2, effect, handled_meet hx hl h.1, Step.candidates_candidate,
        List.length_cons]
      omega

end Explorer

/-! ## What a budget lets through -/

namespace Budget

/-- There is no time limit. -/
def Timeless (b : Budget) : Prop := b.deadline = none

/-- So many more requests are granted. -/
def Allows (b : Budget) (n : Nat) : Prop :=
  ∀ limit, b.maxCandidates = some limit → b.requests + n ≤ limit

/-- The budget after so many requests that were granted. -/
def spend (b : Budget) (n : Nat) : Budget :=
  match b.maxCandidates with
  | none => b
  | some _ => { b with requests := b.requests + n }

/-- Without a time limit a look at the clock changes nothing. -/
lemma look_of_timeless {b : Budget} (h : b.Timeless) (clock : Clock) : b.look clock = b := by
  unfold look
  rw [h]

/-- Requests do not bring in a time limit. -/
@[simp] lemma timeless_spend {b : Budget} (n : Nat) : (b.spend n).Timeless ↔ b.Timeless := by
  unfold spend Timeless
  split <;> rfl

/-- Requests that are granted do not stop the search. -/
@[simp] lemma stopped_spend (b : Budget) (n : Nat) : (b.spend n).stopped = b.stopped := by
  unfold spend
  split <;> rfl

/-- Without requests the budget stays as it is. -/
@[simp] lemma spend_zero (b : Budget) : b.spend 0 = b := by
  unfold spend
  split <;> rfl

/-- Requests are granted one after the other. -/
lemma spend_spend (b : Budget) (m n : Nat) : (b.spend m).spend n = b.spend (m + n) := by
  cases hmax : b.maxCandidates with
  | none => simp only [spend, hmax]
  | some limit => simp only [spend, hmax, Nat.add_assoc]

/-- Fewer requests are granted as well. -/
lemma Allows.mono {b : Budget} {m n : Nat} (h : b.Allows n) (hm : m ≤ n) : b.Allows m :=
  fun limit hlimit => Nat.le_trans (Nat.add_le_add_left hm _) (h limit hlimit)

/-- What is granted after other requests. -/
lemma allows_spend {b : Budget} {m n : Nat} : (b.spend m).Allows n ↔ b.Allows (m + n) := by
  cases hmax : b.maxCandidates with
  | none => simp [Allows, spend, hmax]
  | some limit => simp only [Allows, spend, hmax, Nat.add_assoc]

/-- A request that is granted. -/
lemma grant_of_allows {b : Budget} (h : b.Allows 1) : b.grant = (true, b.spend 1) := by
  cases hmax : b.maxCandidates with
  | none => simp only [grant, spend, hmax]
  | some limit =>
    have hlt : b.requests < limit := h limit hmax
    simp only [grant, spend, hmax, if_pos hlt]

/-- A request that is not granted. -/
lemma grant_of_not_allows {b : Budget} (h : ¬ b.Allows 1) :
    b.grant.1 = false ∧ b.grant.2.stopped = true := by
  cases hmax : b.maxCandidates with
  | none =>
    refine absurd (fun limit hlimit => ?_) h
    cases hmax.symm.trans hlimit
  | some limit =>
    have hle : ¬ b.requests < limit := fun hlt => h fun other hother => by
      obtain rfl := Option.some.inj (hmax.symm.trans hother)
      exact hlt
    simp only [grant, hmax, if_neg hle, and_self]

end Budget

namespace Explorer

variable {S Z : Type} [Scalar S] [Impedance S Z] (x : Explorer S Z) (l : Layout) (layout : Nat)

/-- **A budget that allows all candidates** lets all steps through.

**Proof sketch.** By induction on the steps. A tick and a cut do not change what is allowed. A
candidate is granted, and the budget that it leaves allows the others. -/
lemma serve_of_allows (steps : List Step) {j : Journal S Z} (htime : j.budget.Timeless)
    (hrun : j.budget.stopped = false)
    (hallows : j.budget.Allows (Step.candidates steps).length) :
    (x.serve l layout j steps).tally = steps.foldl (x.effect l layout) j.tally ∧
      (x.serve l layout j steps).budget = j.budget.spend (Step.candidates steps).length := by
  induction steps generalizing j with
  | nil => exact ⟨rfl, (Budget.spend_zero _).symm⟩
  | cons step rest ih =>
    rw [serve_cons x l layout hrun, List.foldl_cons]
    cases step with
    | tick =>
      have hbudget : (x.serveStep l layout j .tick).budget = j.budget := by
        simp only [serveStep, Budget.look_of_timeless htime, ite_self]
      have hrest := ih (j := x.serveStep l layout j .tick) (by rwa [hbudget]) (by rwa [hbudget])
        (by rwa [hbudget])
      rwa [hbudget] at hrest
    | cut => exact ih (j := x.serveStep l layout j .cut) htime hrun hallows
    | candidate indices =>
      rw [Step.candidates_candidate, List.length_cons, Nat.add_comm] at hallows ⊢
      have hgrant := Budget.grant_of_allows (hallows.mono (Nat.le_add_right 1 _))
      have hstep : x.serveStep l layout j (.candidate indices) =
          { j with budget := j.budget.spend 1, tally := x.meet l layout j.tally indices } := by
        simp only [serveStep, hgrant, if_true]
      rw [hstep, ← Budget.spend_spend]
      exact ih (Budget.timeless_spend 1 |>.mpr htime) ((Budget.stopped_spend _ 1).trans hrun)
        (Budget.allows_spend.mpr hallows)

/-- **A budget that does not allow all candidates** lets the steps through that come before the
first one it does not allow, and is stopped.

**Proof sketch.** By induction on the steps. A tick and a cut do not change what is allowed. Of the
candidates, `n` are granted one after the other; the next one is denied, which stops the budget, and
after that no step is let through. -/
lemma serve_of_not_allows (steps : List Step) {j : Journal S Z} (htime : j.budget.Timeless)
    (hrun : j.budget.stopped = false) {n : Nat} (hallows : j.budget.Allows n)
    (hnot : ¬ j.budget.Allows (n + 1)) (hn : n < (Step.candidates steps).length) :
    (x.serve l layout j steps).tally =
        (Step.within n steps).foldl (x.effect l layout) j.tally ∧
      (x.serve l layout j steps).budget.stopped = true := by
  induction steps generalizing j n with
  | nil => cases hn
  | cons step rest ih =>
    rw [serve_cons x l layout hrun]
    cases step with
    | tick =>
      have hbudget : (x.serveStep l layout j .tick).budget = j.budget := by
        simp only [serveStep, Budget.look_of_timeless htime, ite_self]
      exact ih (j := x.serveStep l layout j .tick) (by rwa [hbudget]) (by rwa [hbudget])
        (by rwa [hbudget]) (by rwa [hbudget]) hn
    | cut => exact ih (j := x.serveStep l layout j .cut) htime hrun hallows hnot hn
    | candidate indices =>
      cases n with
      | zero =>
        obtain ⟨hdenied, hstop⟩ := Budget.grant_of_not_allows hnot
        have hstep : x.serveStep l layout j (.candidate indices) =
            { j with budget := j.budget.grant.2 } := by
          simp only [serveStep, hdenied, Bool.false_eq_true, if_false]
        rw [hstep, serve_of_stopped x l layout hstop]
        exact ⟨rfl, hstop⟩
      | succ n =>
        rw [Nat.add_comm n 1] at hallows
        rw [show n + 1 + 1 = 1 + (n + 1) by omega] at hnot
        have hgrant := Budget.grant_of_allows (hallows.mono (Nat.le_add_right 1 _))
        have hstep : x.serveStep l layout j (.candidate indices) =
            { j with budget := j.budget.spend 1, tally := x.meet l layout j.tally indices } := by
          simp only [serveStep, hgrant, if_true]
        rw [hstep, Step.within, List.foldl_cons]
        exact ih (Budget.timeless_spend 1 |>.mpr htime) ((Budget.stopped_spend _ 1).trans hrun)
          (Budget.allows_spend.mpr hallows) (fun h => hnot (Budget.allows_spend.mp h))
          (Nat.lt_of_succ_lt_succ hn)

end Explorer

end Ohmic
