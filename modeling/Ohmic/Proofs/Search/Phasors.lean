import Ohmic.Proofs.Number.DoubleLaws
import Ohmic.Proofs.Search.Coherence
import Ohmic.Proofs.Search.Domains

set_option autoImplicit false

/-!
# The search over resistances and over phasors

Resistances are phasors without a reactive part, and a search for a resistance may be run over
either. The arithmetic of phasors is another one: a product takes four products, a quotient the
square of a length, and the absolute value is a length. In double precision all of this comes down
to zeros and ones, and the two searches report the same.

## Main definitions

* `Search.toPhasor` — the search with its resistances as phasors.

## Main results

* `Search.run_toPhasor_of_realLaws` — a search and the same search over phasors report the same.
* `Search.run_toPhasor` — in particular in double precision, where nothing has to be assumed of the
  arithmetic, as `Binary64.instRealLawsFloat` shows what is needed.
-/

namespace Ohmic.Search

/-- The search with its resistances as phasors. -/
def toPhasor {S : Type} [Scalar S] (s : Search S S) : Search S (Phasor S) := s.map Phasor.ofReal

/-- **The search over phasors**, without a time limit, reports what the search over resistances does
if the scalars obey the laws of zero and one.

**Proof sketch.** An operation on phasors without reactive parts gives a phasor without reactive
part again, and its resistive part is what the operation gives on resistances (`Phasor.embedding`).
So every network has the same value in both searches or fails for the same reason, the same positive
values give the same bounds, and the searches take the same course (`Search.run_map`). -/
theorem run_toPhasor_of_realLaws {S : Type} [Scalar S] [Hypot S] [Scalar.RealLaws S]
    (s : Search S S) (clock : Clock) (htime : s.settings.timeBudget = none) :
    (s.run clock).Matches Phasor.ofReal Phasor.Extends (s.toPhasor.run clock) :=
  run_map Phasor.embedding s clock htime

/-- **The search over phasors in double precision**, without a time limit, reports what the search
over resistances does: the same levels, and either the same networks in the same order, as far from
the target, with the same counters, or the same reason for having none, with the same closest
network. The impedances have no reactive part, and the resistive part is the resistance.

**Proof sketch.** Doubles obey the laws of zero and one, so this is a case of
`run_toPhasor_of_realLaws`. -/
theorem run_toPhasor (s : Search Float Float) (clock : Clock)
    (htime : s.settings.timeBudget = none) :
    (s.run clock).Matches Phasor.ofReal Phasor.Extends (s.toPhasor.run clock) :=
  run_toPhasor_of_realLaws s clock htime

/-- Four ohms of two and minus two ohms, the search being stopped after seven candidates. Two ohms
and their opposite in parallel have no impedance, neither as resistances nor as phasors. -/
theorem run_toPhasor_four_ohms :
    let s : Search Float Float :=
      ⟨[2, -2], { Settings.of 4 (.relative 0.01) 2 with maxCandidates := some 7 }⟩
    s.settings.timeBudget = none ∧
      ∃ f g stats, (s.run Clock.still).outcome = .ok ⟨[f], stats⟩ ∧
        (s.toPhasor.run Clock.still).outcome = .ok ⟨[g], stats⟩ ∧
        g.key = .group .series [.leaf 0, .leaf 0] ∧ Phasor.Extends f.impedance g.impedance ∧
        stats.degenerate = 1 ∧ stats.truncated = true := by
  intro s
  have hlevels : (s.runLevels Clock.still s.settings.maxLeaves 1
      (Budget.ofSettings s.settings) {}).toOption.map
        (fun p => (p.findings.map Finding.key, p.stats.degenerate, p.stats.truncated)) =
      some ([.group .series [.leaf 0, .leaf 0]], 1, true) := by
    decide +kernel
  obtain ⟨f, stats, houtcome, hkey, hcounters⟩ := exists_single_of_runLevels Finding.key
    (fun stats => (stats.degenerate, stats.truncated)) (by decide +kernel) rfl hlevels
  obtain ⟨hdegenerate, htruncated⟩ := Prod.mk.inj hcounters
  obtain ⟨findings, hfindings, hmatches⟩ := (run_toPhasor s Clock.still rfl).exists_results houtcome
  cases hmatches with
  | cons hfg hnil =>
    obtain rfl := List.forall₂_nil_left_iff.mp hnil
    exact ⟨rfl, f, _, stats, houtcome, hfindings, hfg.key_eq.trans hkey, hfg.impedance,
      hdegenerate, htruncated⟩

end Ohmic.Search
