import Ohmic.Proofs.Circuit.RoundTrip
import Ohmic.Proofs.Search.Construction
import Ohmic.Proofs.Search.Interrupted
import Ohmic.Proofs.Search.Workers

set_option autoImplicit false

/-!
# A search never fails itself

A search looks up and writes into many lists at positions that it computes, and evaluates token
sequences that it made itself. Each of these could fail, and then the search would end with a
defect. None does: a search ends with results, without a network, or is refused in the beginning.

## Main results

* `Explorer.explore_safe` — a work item ends without a defect, and its candidates have findings.
* `Search.exists_runLevels` — so do all levels of a search.
* `Search.run_safe` — and the whole search, with the construction of its layouts.

## Implementation notes

A defect stands for what the checks are there for, and nothing rules it out but the layouts: one
whose form is not that of a tree ends the search with a defect, as the example in the end shows.
-/

namespace Ohmic

variable {S Z : Type} [Scalar S] [Impedance S Z]

/-- **A work item ends without a defect** on any bench and with any budget, and each candidate that
it keeps has a finding: every slot has a token, every index has a value, and the tokens are those of
a tree.

**Proof sketch.** The work item takes a beginning of its steps (`exists_begins_explore`), all
candidates of which are assignments of its layout (`assigned_of_mem_itemSteps`). Such a candidate
has a finding (`Finding.ofCandidate_eq`). -/
theorem Explorer.explore_safe {x : Explorer S Z} (hx : x.Ready) {layouts : List Layout}
    (hsound : ∀ l ∈ layouts, l.Sound) {w : Nat × Nat} (hw : w ∈ workItems layouts x.alphabet.length)
    (bench : Bench S Z) (budget : Budget) :
    ∃ e, x.explore layouts w.1 w.2 bench budget = .ok e ∧
      ∀ c, c ∈ e.tally.hits ∨ e.tally.closest = some c →
        ∃ f, Finding.ofCandidate layouts x.alphabet c = .ok f := by
  obtain ⟨hplace, hfirst⟩ := lt_of_mem_workItems hw
  have hlayout := List.getElem?_eq_getElem hplace
  have hl := hsound _ (List.mem_of_getElem? hlayout)
  obtain ⟨e, part, hexplore, hbegins, htally, -⟩ :=
    exists_begins_explore hx hl hlayout hfirst bench budget
  have hitem : Item.Valid layouts x.alphabet.length
      ⟨w.1, layouts[w.1], x.itemSteps layouts[w.1] w.2⟩ :=
    ⟨hlayout, hl, fun _ => x.assigned_of_mem_itemSteps hl hfirst⟩
  have hvalid := (hbegins.valid hitem).tally (x := x)
  refine ⟨e, hexplore, fun c hc => ?_⟩
  rw [htally] at hc
  obtain ⟨l, hlayout, hl, hassigned⟩ := hc.elim (hvalid.hits c) (hvalid.closest c)
  exact ⟨_, Finding.ofCandidate_eq hlayout hl hassigned⟩

namespace Search

variable {s : Search S Z}

/-- **The levels of a search** over finite values end without a defect, whatever limits it and
whatever was found before. -/
theorem exists_runLevels (hfinite : ∀ z ∈ s.alphabet, Impedance.isFinite z = true) (clock : Clock)
    (count leaves : Nat) (budget : Budget) (p : Progress S Z) :
    ∃ p', s.runLevels clock count leaves budget p = .ok p' := by
  obtain ⟨course, hcourse, -, hlevels⟩ :=
    exists_course_runLevels clock hfinite count leaves budget p
  have hvalid : ∀ g ∈ course, g.Valid s.alphabet.length := fun g hg =>
    (hcourse g hg).1.valid (s.valid_stage clock g.leaves)
  obtain ⟨p', hreplay, -⟩ := replay_of_valid clock hfinite hvalid p
  rw [hreplay] at hlevels
  exact hlevels.elim (fun h => ⟨p', h.1⟩) fun h => ⟨p'.truncate, h⟩

omit [Impedance S Z] in
/-- What a search concludes is not a defect. -/
lemma conclude_ne_defect (p : Progress S Z) (d : Defect) : s.conclude p ≠ .error (.defect d) := by
  rw [conclude]
  split <;> intro h <;> cases h

/-- **A search never fails itself.** Let the arithmetic, the values, the settings and what the clock
shows be any.

* The search does not end with a defect, and neither does one that is shared by workers, if it has
  no time limit and no limit on candidates.
* If it is not refused, each work item of each level ends without a defect, on any bench and with
  any budget, and each candidate that it keeps has a finding.
* The layouts with any number of leaves are made without a look-up or a write outside of a table.
* The space reserved for the form of a tree, one less than twice its leaves, is what the form takes,
  and not less than nothing.

**Proof sketch.** A search over finite values is a replay of beginnings of its levels
(`exists_course_runLevels`), and every step of a level works on a sound layout: the place of each
slot is that of its token, and a slot is tied to an earlier one (`Layout.sound_ofShape`). The tokens
on the bench are those of the tree of the layout with values at its leaves, so their evaluation has
no malformation, and the indices of a candidate are as many as there are slots, each of them that of
a value. -/
theorem run_safe (s : Search S Z) (clock : Clock) :
    (∀ d, (s.run clock).outcome ≠ .error (.defect d)) ∧
    (∀ shares : Nat → List (List (Nat × Nat)),
      s.settings.timeBudget = none → s.settings.maxCandidates = none →
      (∀ leaves, (shares leaves).flatten.Perm
        (Explorer.workItems (Layout.withLeaves leaves) s.alphabet.length)) →
      ∀ d, (s.runShared clock shares).outcome ≠ .error (.defect d)) ∧
    (s.check = .ok () → ∀ leaves,
      ∀ w ∈ Explorer.workItems (Layout.withLeaves leaves) s.alphabet.length,
      ∀ (bench : Bench S Z) (budget : Budget), ∃ e,
        (s.explorer clock).explore (Layout.withLeaves leaves) w.1 w.2 bench budget = .ok e ∧
        ∀ c, c ∈ e.tally.hits ∨ e.tally.closest = some c →
          ∃ f, Finding.ofCandidate (Layout.withLeaves leaves) s.alphabet c = .ok f) ∧
    (∀ leaves, Layout.withLeavesChecked leaves = .ok (Layout.withLeaves leaves)) ∧
    ∀ {α : Type} (t : Tree α), 1 ≤ 2 * t.leafCount ∧ t.tokens.length = 2 * t.leafCount - 1 := by
  refine ⟨fun d => ?_, fun shares htime hlimit hshares d => ?_,
    fun hcheck leaves w hw bench budget => ?_, Layout.withLeavesChecked_eq, fun t => ?_⟩
  · cases hcheck : s.check with
    | error reason =>
      rw [run, hcheck]
      intro h
      cases h
    | ok u =>
      obtain ⟨p, hlevels⟩ := exists_runLevels (check_eq_ok hcheck).2.1 clock s.settings.maxLeaves 1
        (Budget.ofSettings s.settings) {}
      rw [run, hcheck, hlevels]
      exact conclude_ne_defect p d
  · cases hcheck : s.check with
    | error reason =>
      rw [runShared, hcheck]
      intro h
      cases h
    | ok u =>
      have hunlimited : (Budget.ofSettings s.settings).Unlimited :=
        ⟨by rw [Budget.ofSettings, htime, Option.map_none], hlimit⟩
      obtain ⟨p, hlevels⟩ := exists_runLevels (check_eq_ok hcheck).2.1 clock s.settings.maxLeaves 1
        (Budget.ofSettings s.settings) {}
      rw [runShared, hcheck, runLevelsShared_eq hunlimited hshares, hlevels]
      exact conclude_ne_defect p d
  · exact Explorer.explore_safe (ready_explorer (check_eq_ok hcheck).2.1 clock)
      (fun _ hl => Layout.sound_of_mem_withLeaves hl) hw bench budget
  · have hcount := t.tokenCount_add_one
    have hpos := t.leafCount_pos
    rw [Tree.length_tokens]
    omega

/-- A search of one and two ohms that is shared, and its first work item with two leaves on a bench
that holds nothing, after a limit was met. -/
theorem run_safe_two_ohms :
    let s : Search ℚ ℚ := ⟨[1, 2], Settings.of 3 (.relative (1 / 100)) 2⟩
    let shares := fun leaves => [Explorer.workItems (Layout.withLeaves leaves) 2]
    s.check = .ok () ∧ (0, 0) ∈ Explorer.workItems (Layout.withLeaves 2) 2 ∧
      (∀ leaves, (shares leaves).flatten.Perm
        (Explorer.workItems (Layout.withLeaves leaves) s.alphabet.length)) ∧
      (∀ d, (s.runShared Clock.still shares).outcome ≠ .error (.defect d)) ∧
      ∃ e, (s.explorer Clock.still).explore (Layout.withLeaves 2) 0 0 {}
        { deadline := none, maxCandidates := some 0, stopped := true } = .ok e := by
  intro s shares
  have hcheck : s.check = .ok () := by decide +kernel
  have hitem : (0, 0) ∈ Explorer.workItems (Layout.withLeaves 2) 2 := by decide +kernel
  have hshares : ∀ leaves, (shares leaves).flatten.Perm
      (Explorer.workItems (Layout.withLeaves leaves) s.alphabet.length) := by
    intro leaves
    simp only [shares, List.flatten_cons, List.flatten_nil, List.append_nil]
    exact .refl _
  obtain ⟨-, hshared, hitems, -, -⟩ := run_safe s Clock.still
  obtain ⟨e, he, -⟩ := hitems hcheck 2 (0, 0) hitem {}
    { deadline := none, maxCandidates := some 0, stopped := true }
  exact ⟨hcheck, hitem, hshares, hshared shares rfl rfl hshares, e, he⟩

end Search

/-- A layout whose form joins a single leaf with nothing is found out. -/
example :
    let l : Layout := ⟨.leaf 0, ⟨[.leaf 0, .join .series]⟩, [0], [none]⟩
    let x : Explorer ℚ ℚ := ⟨[1], 1, .relative 1, none, Clock.still⟩
    (x.explore [l] 0 0 {} { deadline := none, maxCandidates := none }).map (fun _ => ()) =
      .error (.malformed (.malformed 1 .missingOperands)) := by
  decide +kernel

end Ohmic
