import Ohmic.Proofs.Alike
import Ohmic.Proofs.Circuit.Trees
import Ohmic.Proofs.Number.RealLaws

set_option autoImplicit false

/-!
# One domain of impedances in another

Resistances are phasors without a reactive part. What is computed over resistances should come out
the same over phasors, and this is a matter of single connections: if these agree, so does every
network.

## Main definitions

* `Impedance.Embedding` — impedances of one domain become impedances of another one, where all that
  evaluation and search look at is as before.

## Main results

* `Impedance.Embedding.evaluateAt_alike` — a network has the same faults in both domains, and
  impedances that correspond to each other.
* `Phasor.embedding` — resistances lie in the phasors.

## Implementation notes

An impedance becomes one of the larger domain by a function `embed`, but results are compared by a
relation `r`: a rounded reactive part may be either zero, and then no function tells which.
-/

namespace Ohmic

/-- What is computed from impedances that `embed` takes from one domain to another one is related
by `r` to what is computed from the impedances themselves. -/
structure Impedance.Embedding {S Z W : Type} [Scalar S] [Impedance S Z] [Impedance S W]
    (embed : Z → W) (r : Z → W → Prop) : Prop where
  /-- An impedance is related to itself. -/
  related : ∀ z, r z (embed z)
  /-- A short circuit stays one. -/
  embed_zero : embed zero = zero
  /-- Related impedances are equally finite. -/
  isFinite_eq : ∀ {z w}, r z w → isFinite w = isFinite z
  /-- An impedance stays as large. -/
  magnitude_eq : ∀ z, magnitude (embed z) = magnitude z
  /-- Positive reals stay so. -/
  positiveReal?_eq : ∀ z, positiveReal? (embed z) = positiveReal? z
  /-- Related impedances are as far from a third one. -/
  distance_eq : ∀ {z w}, r z w → ∀ t, magnitude (w - embed t) = magnitude (z - t)
  /-- Connections of related finite impedances have the same fault, or related results. -/
  joinAt_alike : ∀ {a b a' b'}, r a a' → r b b' → isFinite a = true → isFinite b = true →
    ∀ (c : Connection) (position : Nat),
      Alike r (c.joinAt position a b) (c.joinAt position a' b')

namespace Impedance.Embedding

variable {S Z W : Type} [Scalar S] [Impedance S Z] [Impedance S W] {embed : Z → W}
  {r : Z → W → Prop}

/-- A connection has a finite result. -/
lemma isFinite_of_joinAt {c : Connection} {position : Nat} {a b v : Z}
    (h : c.joinAt position a b = .ok v) : isFinite v = true := by
  rw [Connection.joinAt] at h
  split at h
  · cases h
  · split at h
    · next hfinite => exact Except.ok.inj h ▸ hfinite
    · cases h

/-- **A network in the larger domain** has the same fault at the same place, or an impedance
related to that of the network in the smaller one, which is finite.

**Proof sketch.** By induction on the tree. A leaf is as finite in both domains, and a connection
joins operands that are related and finite. -/
theorem evaluateAt_alike (h : Embedding embed r) (t : Tree Z) (position : Nat) :
    Alike (fun v w => r v w ∧ isFinite v = true) (t.evaluateAt position)
      ((t.map embed).evaluateAt position) := by
  induction t generalizing position with
  | leaf z =>
    have hfinite := h.isFinite_eq (h.related z)
    rw [Tree.map, Tree.evaluateAt, Tree.evaluateAt, leafAt, leafAt, hfinite]
    split
    · next hz => exact .ok ⟨h.related z, hz⟩
    · exact .error _
  | node c left right ihleft ihright =>
    rw [Tree.map, Tree.evaluateAt, Tree.evaluateAt]
    refine (ihleft position).bind fun a a' ha => ?_
    rw [Tree.tokenCount_map]
    refine (ihright _).bind fun b b' hb => ?_
    rw [Tree.tokenCount_map]
    exact (h.joinAt_alike ha.1 hb.1 ha.2 hb.2 c _).and_of_ok fun _ => isFinite_of_joinAt

end Impedance.Embedding

/-! ## Resistances in the phasors -/

/-- The parallel connection of two impedances, the first of which is not the smaller one. -/
def Connection.parallelSorted {S Z : Type} [Scalar S] [Impedance S Z] (big small : Z) :
    Except Degenerate Z :=
  if Impedance.magnitude big == 0 then .error .cancelled
  else
    let scale := Impedance.magnitude big
    let ratio := Impedance.unscale small scale / Impedance.unscale big scale
    let denominator := Impedance.ofReal 1 + ratio
    let norm := Impedance.magnitude denominator
    if norm ≤ Scalar.epsilon then .error .cancelled
    else .ok (Impedance.unscale small norm / Impedance.unscale denominator norm)

/-- A parallel connection sorts its operands. -/
lemma Connection.parallelOf_eq {S Z : Type} [Scalar S] [Impedance S Z] (a b : Z) :
    parallelOf a b =
      if Impedance.magnitude a < Impedance.magnitude b then parallelSorted b a
      else parallelSorted a b := by
  by_cases h : Impedance.magnitude a < Impedance.magnitude b
  · simp only [parallelOf, bigAndSmall, h, if_true]
    rfl
  · simp only [parallelOf, bigAndSmall, h, if_false]
    rfl

namespace Phasor

open Scalar

variable {S : Type} [Scalar S] [Hypot S] [RealLaws S]

namespace Extends

variable {a b : S} {a' b' : Phasor S}

omit [Hypot S] [RealLaws S] in
/-- A real phasor other than zero has exactly its resistive part. -/
lemma re_eq {x : S} {z : Phasor S} (h : Extends x z) (hx : ¬ IsZero x) : z.re = x := by
  rcases h.re with heq | ⟨hzero, -⟩
  · exact heq.symm
  · exact absurd hzero hx

/-- A real phasor other than zero over its magnitude is a unit. -/
lemma unscale_magnitude {x : S} {z : Phasor S} (h : Extends x z)
    (hfinite : Scalar.isFinite x = true) (hx : ¬ IsZero (Scalar.abs x)) :
    (z.unscale (Scalar.abs x)).re = x / Scalar.abs x ∧
      (x / Scalar.abs x = 1 ∨ x / Scalar.abs x = -1) ∧
      IsZero (z.unscale (Scalar.abs x)).im := by
  have hne : ¬ IsZero x := fun hzero => hx (by
    rw [RealLaws.abs_of_isZero x hzero]
    exact RealLaws.isZero_zero)
  refine ⟨congrArg (· / Scalar.abs x) (h.re_eq hne), RealLaws.div_abs x hfinite hne, ?_⟩
  exact RealLaws.isZero_div _ _ ((RealLaws.isFinite_abs x).trans hfinite) hx h.im

/-- The denominator of a parallel connection, one more than the ratio of the operands, is a real
phasor and finite.

**Proof sketch.** The first operand over its size is a unit, so the ratio of the operands keeps the
parts apart (`div_unit`), and it is finite because the second operand is not the larger one
(`RealLaws.isFinite_ratio`). -/
lemma denominator (ha : Extends a a') (hb : Extends b b') (hfinite : Scalar.isFinite a = true)
    (hfinite' : Scalar.isFinite b = true) (hscale : ¬ IsZero (Scalar.abs a))
    (hlt : ¬ Scalar.abs a < Scalar.abs b) :
    Extends (1 + b / Scalar.abs a / (a / Scalar.abs a))
        (Phasor.ofReal 1 + b'.unscale (Scalar.abs a) / a'.unscale (Scalar.abs a)) ∧
      Scalar.isFinite (1 + b / Scalar.abs a / (a / Scalar.abs a)) = true := by
  obtain ⟨hre, hunit, him⟩ := ha.unscale_magnitude hfinite hscale
  have hne : ¬ IsZero a := fun hzero => hscale (by
    rw [RealLaws.abs_of_isZero a hzero]
    exact RealLaws.isZero_zero)
  obtain ⟨hratio, hplus, hminus⟩ := RealLaws.isFinite_ratio b a hfinite' hfinite hne hlt
  have hsmall := hb.unscale ((RealLaws.isFinite_abs a).trans hfinite) hscale
  obtain ⟨hquotient, hreactive⟩ := hsmall.div_unit (hre.symm ▸ hunit) him
  rw [hre] at hquotient
  refine ⟨(ofReal 1).add ⟨hquotient, hreactive hratio⟩, ?_⟩
  rcases hunit with hone | hone
  · rw [hone, RealLaws.div_one]
    exact hplus
  · rw [hone, RealLaws.div_neg_one]
    exact hminus

/-- Real phasors in parallel, the first one not being the smaller one.

**Proof sketch.** The sizes that may make a computation fail, those of the first phasor and of the
denominator, are the sizes of the resistances (`denominator`), so both computations fail alike.
Otherwise the denominator over its own size has a resistive part of one or minus one and no reactive
part, and a quotient by it keeps the parts apart (`div_unit`). -/
lemma parallelSorted_alike (ha : Extends a a') (hb : Extends b b')
    (hfinite : Scalar.isFinite a = true) (hfinite' : Scalar.isFinite b = true)
    (hlt : ¬ Scalar.abs a < Scalar.abs b) :
    Alike (fun v w => Agrees v w.re ∧ (Scalar.isFinite v = true → IsZero w.im))
      (Connection.parallelSorted a b) (Connection.parallelSorted a' b') := by
  rw [Connection.parallelSorted, Connection.parallelSorted, ha.magnitude_eq]
  dsimp only [Impedance.magnitude, Impedance.unscale, Impedance.ofReal]
  by_cases hscale : (Scalar.abs a == 0) = true
  · rw [if_pos hscale, if_pos hscale]
    exact .error _
  · obtain ⟨hd, hdfinite⟩ := ha.denominator hb hfinite hfinite' hscale hlt
    rw [if_neg hscale, if_neg hscale]
    generalize 1 + b / Scalar.abs a / (a / Scalar.abs a) = d at hd hdfinite ⊢
    generalize Phasor.ofReal 1 + b'.unscale (Scalar.abs a) / a'.unscale (Scalar.abs a) = d' at hd ⊢
    have hmagnitude : Hypot.hypot d'.re d'.im = Scalar.abs d := hd.magnitude_eq
    rw [hmagnitude]
    by_cases hnorm : Scalar.abs d ≤ Scalar.epsilon
    · rw [if_pos hnorm, if_pos hnorm]
      exact .error _
    · rw [if_neg hnorm, if_neg hnorm]
      have hne : ¬ IsZero (Scalar.abs d) := fun h => hnorm (RealLaws.le_epsilon_of_isZero _ h)
      obtain ⟨hre, hunit, him⟩ := hd.unscale_magnitude hdfinite hne
      have hsmall := hb.unscale ((RealLaws.isFinite_abs d).trans hdfinite) hne
      have hquotient := hsmall.div_unit (hre.symm ▸ hunit) him
      rw [hre] at hquotient
      refine .ok ⟨hquotient.1, fun hfinite => hquotient.2 ?_⟩
      rwa [div_of_unit hunit, isFinite_mul_unit hunit] at hfinite

/-- **Real phasors in parallel** cancel if their resistive parts do. Otherwise the resistive part of
the combination is that of these, and it has no reactive part unless it is infinite. -/
theorem parallelOf_alike (ha : Extends a a') (hb : Extends b b')
    (hfinite : Scalar.isFinite a = true) (hfinite' : Scalar.isFinite b = true) :
    Alike (fun v w => Agrees v w.re ∧ (Scalar.isFinite v = true → IsZero w.im))
      (Connection.parallelOf a b) (Connection.parallelOf a' b') := by
  rw [Connection.parallelOf_eq, Connection.parallelOf_eq, ha.magnitude_eq, hb.magnitude_eq]
  show Alike _ (if Scalar.abs a < Scalar.abs b then _ else _) _
  split
  · next hlt => exact hb.parallelSorted_alike ha hfinite' hfinite (RealLaws.lt_asymm _ _ hlt)
  · next hlt => exact ha.parallelSorted_alike hb hfinite hfinite' hlt

end Extends

/-- **Resistances lie in the phasors.**

**Proof sketch.** All fields but the last are what is known of real phasors. For a connection, the
combinations are alike before the finiteness test, but the reactive part is zero only if the
resistive part is finite. The test is passed by both or by neither, and where it is passed nothing
is missing. -/
theorem embedding : Impedance.Embedding (Phasor.ofReal (S := S)) Extends where
  related := Extends.ofReal
  embed_zero := rfl
  isFinite_eq h := h.isFinite_eq
  magnitude_eq z := (Extends.ofReal z).magnitude_eq
  positiveReal?_eq z := if_pos RealLaws.isZero_zero
  distance_eq h t := h.distance_eq t
  joinAt_alike := by
    intro a b a' b' ha hb hfinite hfinite' c position
    have hjoin : Alike (fun v w => Agrees v w.re ∧ (Scalar.isFinite v = true → IsZero w.im))
        (c.join a b) (c.join a' b') := by
      cases c with
      | series => exact .ok ⟨(ha.add hb).re, fun _ => (ha.add hb).im⟩
      | parallel => exact ha.parallelOf_alike hb hfinite hfinite'
    rw [Connection.joinAt, Connection.joinAt]
    rcases hjoin.error_or_ok with ⟨reason, hv, hw⟩ | ⟨v, w, hv, hw, hre, him⟩
    · rw [hv, hw]
      exact .error _
    · rw [hv, hw]
      dsimp only [Impedance.isFinite]
      by_cases hresult : Scalar.isFinite v = true
      · have hextends : Extends v w := ⟨hre, him hresult⟩
        rw [if_pos hresult, if_pos (hextends.isFinite_eq.trans hresult)]
        exact .ok hextends
      · have hinfinite : ¬ w.isFinite = true := fun h => hresult (by
          rw [hre.isFinite_eq]
          exact (Bool.and_eq_true_iff.mp h).1)
        rw [if_neg hresult, if_neg hinfinite]
        exact .error _

end Phasor

end Ohmic
