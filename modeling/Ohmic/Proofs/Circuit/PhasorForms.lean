import Ohmic.Circuit.Machine
import Ohmic.Proofs.Circuit.Embedding
import Ohmic.Proofs.Number.DoubleLaws

set_option autoImplicit false

/-!
# Postfix forms over resistances and over phasors

A postfix form over resistances is one over phasors, too. The stack machine may be given any
sequence of tokens, with leaves that are not finite and connections that lack an operand, and what
it does over the one domain and over the other should be the same. Beside each other, the two stacks
hold corresponding values at every moment, so a connection is the same step on both of them.

## Main results

* `Machine.scan_map` — corresponding stacks stay so, and a scan stops at the same fault.
* `Machine.evaluate_map` — a sequence in a larger domain.
* `Machine.evaluate_toPhasor` — in particular a sequence of resistances seen as phasors.
-/

namespace Ohmic.Machine

section Embedding

variable {S Z W : Type} [Scalar S] [Impedance S Z] [Impedance S W] {embed : Z → W}
  {r : Z → W → Prop}

/-- **A scan in a larger domain**, from a stack of related values, leaves a stack of related values
and stops at the same fault, or does not stop either.

**Proof sketch.** By induction on the tokens. Leaves are equally finite, the stacks are equally
high, and connections of related values have the same fault or related results. -/
lemma scan_map (h : Impedance.Embedding embed r) (tokens : List (Token Z)) (position : ℕ)
    {stack : List Z} {stack' : List W}
    (hstack : List.Forall₂ (fun v w => r v w ∧ Impedance.isFinite v = true) stack stack') :
    List.Forall₂ (fun v w => r v w ∧ Impedance.isFinite v = true) (scan position stack tokens).1
        (scan position stack' (tokens.map (Token.map embed))).1 ∧
      (scan position stack' (tokens.map (Token.map embed))).2 =
        (scan position stack tokens).2 := by
  induction tokens generalizing position stack stack' with
  | nil => exact ⟨hstack, rfl⟩
  | cons token tokens ih =>
    cases token with
    | leaf z =>
      have hfinite := h.isFinite_eq (h.related z)
      simp only [List.map_cons, Token.map, scan, leafAt, hfinite]
      by_cases hz : Impedance.isFinite z = true
      · simp only [hz, if_true]
        exact ih (position + 1) (.cons ⟨h.related z, hz⟩ hstack)
      · simp only [hz]
        exact ⟨hstack, rfl⟩
    | join c =>
      -- an operand is missing on both stacks, or on neither
      rcases hstack with _ | ⟨hb, _ | ⟨ha, hbelow⟩⟩
      · exact ⟨.nil, rfl⟩
      · exact ⟨.nil, rfl⟩
      · simp only [List.map_cons, Token.map, scan]
        have hjoin := (h.joinAt_alike ha.1 hb.1 ha.2 hb.2 c position).and_of_ok
          fun _ => Impedance.Embedding.isFinite_of_joinAt
        rcases hjoin.error_or_ok with ⟨fault, hv, hw⟩ | ⟨v, w, hv, hw, hvw⟩
        · rw [hv, hw]
          exact ⟨hbelow, rfl⟩
        · rw [hv, hw]
          exact ih (position + 1) (.cons hvw hbelow)

/-- **A sequence in a larger domain** has the same fault at the same place, or a related impedance,
whatever earlier evaluations left on the two stacks.

**Proof sketch.** Going through the tokens leaves stacks of related values and the same fault, if
any (`scan_map`). The final test looks at the number of values only. -/
theorem evaluate_map (h : Impedance.Embedding embed r) (m : Machine Z) (m' : Machine W)
    (tokens : List (Token Z)) :
    Alike r (m.evaluate tokens).1 (m'.evaluate (tokens.map (Token.map embed))).1 := by
  rw [evaluate, evaluate, List.isEmpty_map, List.length_map]
  split
  · exact .error _
  · obtain ⟨hstack, hfault⟩ := scan_map h tokens 0 .nil
    rcases hscan : scan 0 [] tokens with ⟨stack, fault⟩
    rcases hscan' : scan 0 [] (tokens.map (Token.map embed)) with ⟨stack', fault'⟩
    rw [hscan, hscan'] at hstack hfault
    dsimp only at hstack hfault
    rw [hfault]
    cases fault with
    | some fault => exact .error _
    | none =>
      -- nothing, one value, or several of them are left on both stacks
      rcases hstack with _ | ⟨hvw, _ | ⟨hvw', hrest⟩⟩
      · exact .error _
      · exact .ok hvw.1
      · simp only [List.length_cons, hrest.length_eq]
        exact .error _

end Embedding

/-- **A sequence of resistances seen as phasors** has the same fault at the same place, or the same
impedance without a reactive part, if the scalars obey the laws of zero and one. -/
theorem evaluate_toPhasor_of_realLaws {S : Type} [Scalar S] [Hypot S] [Scalar.RealLaws S]
    (m : Machine S) (m' : Machine (Phasor S)) (e : Postfix S) :
    Alike Phasor.Extends (m.evaluate e.tokens).1 (m'.evaluate e.toPhasor.tokens).1 :=
  evaluate_map Phasor.embedding m m' e.tokens

/-- **In double precision**, any sequence of resistances, whether it is the form of a network or
not, of any sign, and also with leaves that are infinite or undefined, is evaluated over phasors as
it is over resistances, whatever earlier evaluations left on the two stacks: with the same fault at
the same place, or with the same impedance, up to the sign of zero, and without a reactive part.

**Proof sketch.** Nothing has to be assumed of the arithmetic, since doubles obey the laws of zero
and one (`Binary64.instRealLawsFloat`). Hence connections of real phasors agree with those of their
resistive parts (`Phasor.embedding`), and the machine makes the same steps on both
(`Machine.scan_map`). -/
theorem evaluate_toPhasor (m : Machine Float) (m' : Machine (Phasor Float)) (e : Postfix Float) :
    Alike Phasor.Extends (m.evaluate e.tokens).1 (m'.evaluate e.toPhasor.tokens).1 :=
  evaluate_toPhasor_of_realLaws m m' e

end Ohmic.Machine
