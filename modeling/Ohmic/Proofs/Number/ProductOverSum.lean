import Mathlib.Analysis.Complex.Norm
import Mathlib.Analysis.Normed.Unbundled.RingSeminorm
import Ohmic.Proofs.Number.Exact

set_option autoImplicit false

/-!
# Real and complex numbers in parallel

Two impedances in parallel have the product over the sum, `a·b / (a + b)`. The connection computes
it from the ratio of the operands, with scaled terms, and fails if their sum is small beside the
larger one. Real numbers are exact impedances, and so are the complex numbers as phasors with real
components; on both the connection is the textbook one, with its laws.

## Main definitions

* `instHypotReal` — the length of a plane vector with real components.
* `Phasor.ofComplex` — the complex numbers as phasors.

## Main results

* `Exact.product_over_sum_lt`, `Exact.product_over_sum_strictMono` — the size of a product over a
  sum of positive elements, and its growth.
* `Phasor.exactly` — the complex numbers are exact impedances.
* `Phasor.parallelOf_reactances` — positive reactances in parallel.
* `Connection.parallelOf_product_over_sum` — the value, the failures and the laws of parallel
  connections.

## Implementation notes

The ratio of the operands is taken by magnitude, so their sum is compared with the larger one in
both orders: `|1 + small / big| ≤ ε` is `|big + small| ≤ ε·|big|`. Operands that are both zero meet
this condition as well.
-/

namespace Ohmic

/-! ## Positive elements of an ordered field -/

namespace Exact

variable {K : Type} [Field K] [LinearOrder K] [IsStrictOrderedRing K]

/-- The product over the sum of positive elements is positive and less than either. -/
lemma product_over_sum_lt {a b : K} (ha : 0 < a) (hb : 0 < b) :
    0 < a * b / (a + b) ∧ a * b / (a + b) < a ∧ a * b / (a + b) < b := by
  have hsum : 0 < a + b := add_pos ha hb
  refine ⟨div_pos (mul_pos ha hb) hsum, ?_, ?_⟩
  · rw [div_lt_iff₀ hsum]
    exact mul_lt_mul_of_pos_left (lt_add_of_pos_left b ha) ha
  · rw [div_lt_iff₀ hsum, mul_comm]
    exact mul_lt_mul_of_pos_left (lt_add_of_pos_right a hb) hb

/-- The product over the sum of positive elements increases with each of them. -/
lemma product_over_sum_strictMono {a a' b : K} (ha : 0 < a) (hlt : a < a') (hb : 0 < b) :
    a * b / (a + b) < a' * b / (a' + b) := by
  rw [div_lt_div_iff₀ (add_pos ha hb) (add_pos (ha.trans hlt) hb)]
  have hmul : a * (b * b) < a' * (b * b) := mul_lt_mul_of_pos_right hlt (mul_pos hb hb)
  linarith

end Exact

/-! ## Complex numbers -/

/-- The length of a plane vector with real components. -/
noncomputable instance instHypotReal : Hypot ℝ where
  hypot x y := √(x ^ 2 + y ^ 2)

namespace Phasor

/-- A complex number as a phasor. -/
def ofComplex : ℂ ≃ Phasor ℝ where
  toFun z := ⟨z.re, z.im⟩
  invFun a := ⟨a.re, a.im⟩
  left_inv _ := rfl
  right_inv _ := rfl

/-- **The complex numbers** are exact impedances. -/
lemma exactly :
    Impedance.Exactly ofComplex Complex.ofRealHom (NormedField.toAbsoluteValue ℂ) where
  add _ _ := rfl
  div x y := by
    have hre : (x / y).re = (x.re * y.re + x.im * y.im) / (y.re * y.re + y.im * y.im) := by
      rw [Complex.div_re, Complex.normSq_apply, add_div]
    have him : (x / y).im = (x.im * y.re - x.re * y.im) / (y.re * y.re + y.im * y.im) := by
      rw [Complex.div_im, Complex.normSq_apply, sub_div]
    exact (congrArg₂ Phasor.mk hre him).symm
  ofReal _ := rfl
  unscale x r := (congrArg₂ Phasor.mk (Complex.div_ofReal_re x r) (Complex.div_ofReal_im x r)).symm
  magnitude x := (Complex.norm_eq_sqrt_sq_add_sq x).symm

/-- Positive reactances in parallel have the product over the sum, too. -/
lemma parallelOf_reactances {x y : ℝ} (hx : 0 < x) (hy : 0 < y) :
    Connection.parallelOf (ofComplex (x * Complex.I)) (ofComplex (y * Complex.I)) =
      .ok (ofComplex ((x * y / (x + y) : ℝ) * Complex.I)) := by
  have hnorm : ∀ r : ℝ, 0 < r → ‖(r : ℂ) * Complex.I‖ = r := fun r hr => by
    rw [norm_mul, Complex.norm_I, mul_one, Complex.norm_of_nonneg hr.le]
  have hlarge : ¬ ‖(x : ℂ) * Complex.I + y * Complex.I‖ ≤
      1 / 4503599627370496 * max ‖(x : ℂ) * Complex.I‖ ‖(y : ℂ) * Complex.I‖ := by
    rw [← add_mul, ← Complex.ofReal_add, hnorm _ (add_pos hx hy), hnorm x hx, hnorm y hy]
    exact (Exact.epsilon_mul_max_lt hx hy).not_ge
  have hvalue : (x : ℂ) * Complex.I * (y * Complex.I) / (x * Complex.I + y * Complex.I) =
      (x * y / (x + y) : ℝ) * Complex.I := by
    push_cast
    rw [← add_mul, ← mul_assoc, mul_div_mul_right _ _ Complex.I_ne_zero]
    ring
  rw [← hvalue]
  exact (exactly.parallelOf_eq _ _).trans (if_neg hlarge)

end Phasor

/-! ## Real and complex numbers in parallel -/

namespace Connection

open Phasor (ofComplex)

/-- **The parallel rule is the product over the sum.** For real and for complex numbers, the
parallel connection fails exactly if `|a + b| ≤ ε·max |a| |b|` and has the value `a·b / (a + b)`
otherwise. So it commutes, and it associates where no step fails. Positive real numbers never fail;
their connection is positive, less than either operand and strictly increasing in both.

**Proof sketch.** In exact arithmetic every scaling cancels, and one more than the ratio of the
operands is their sum over the larger one (`Impedance.Exactly.parallelSorted_eq`). So the condition
and the value do not depend on which operand is larger. Both groupings of three operands have the
value `a·b·c / (a·b + a·c + b·c)`. -/
theorem parallelOf_product_over_sum :
    (∀ a b : ℝ, parallelOf a b = if |a + b| ≤ 1 / 2 ^ 52 * max |a| |b| then .error .cancelled
        else .ok (a * b / (a + b))) ∧
      (∀ z w : ℂ, parallelOf (ofComplex z) (ofComplex w) =
        if ‖z + w‖ ≤ 1 / 2 ^ 52 * max ‖z‖ ‖w‖ then .error .cancelled
        else .ok (ofComplex (z * w / (z + w)))) ∧
      (∀ a b : ℝ, parallelOf a b = parallelOf b a) ∧
      (∀ a b : Phasor ℝ, parallelOf a b = parallelOf b a) ∧
      (∀ a b c ab bc left right : ℝ, parallelOf a b = .ok ab → parallelOf ab c = .ok left →
        parallelOf b c = .ok bc → parallelOf a bc = .ok right → left = right) ∧
      (∀ a b c ab bc left right : Phasor ℝ, parallelOf a b = .ok ab → parallelOf ab c = .ok left →
        parallelOf b c = .ok bc → parallelOf a bc = .ok right → left = right) ∧
      (∀ a b : ℝ, 0 < a → 0 < b → ∃ v, parallelOf a b = .ok v ∧ 0 < v ∧ v < a ∧ v < b) ∧
      (∀ a a' b : ℝ, 0 < a → a < a' → 0 < b →
        ∃ v v', parallelOf a b = .ok v ∧ parallelOf a' b = .ok v' ∧ v < v') ∧
      (∀ a b b' : ℝ, 0 < a → 0 < b → b < b' →
        ∃ v v', parallelOf a b = .ok v ∧ parallelOf a b' = .ok v' ∧ v < v') := by
  have hepsilon : (1 : ℝ) / 2 ^ 52 = 1 / 4503599627370496 := by norm_num
  have hreal := Exact.exactly (K := ℝ)
  have hcomplex := Phasor.exactly
  have hmono : ∀ a a' b : ℝ, 0 < a → a < a' → 0 < b →
      ∃ v v', parallelOf a b = .ok v ∧ parallelOf a' b = .ok v' ∧ v < v' :=
    fun a a' b ha hlt hb => ⟨_, _, Exact.parallelOf_of_pos ha hb,
      Exact.parallelOf_of_pos (ha.trans hlt) hb, Exact.product_over_sum_strictMono ha hlt hb⟩
  refine ⟨fun a b => ?_, fun z w => ?_, hreal.parallelOf_comm, hcomplex.parallelOf_comm,
    fun a b c ab bc left right => hreal.parallelOf_assoc,
    fun a b c ab bc left right => hcomplex.parallelOf_assoc,
    fun a b ha hb => ⟨_, Exact.parallelOf_of_pos ha hb, Exact.product_over_sum_lt ha hb⟩, hmono,
    fun a b b' ha hb hlt => ?_⟩
  · rw [hepsilon]
    exact hreal.parallelOf_eq a b
  · rw [hepsilon]
    exact hcomplex.parallelOf_eq z w
  · rw [hreal.parallelOf_comm a b, hreal.parallelOf_comm a b']
    exact hmono b b' a hb hlt ha

/-- Opposite resistances and opposite reactances fail. The resistances `6` and `3` in parallel have
less than `3`, and more if either is larger. Three resistances, and three reactances, have one
value in both groupings.

**Proof sketch.** All values in between are evaluated by product over sum, for reactances as for
resistances. -/
theorem parallelOf_product_over_sum_six_three :
    let reactance : ℝ → Phasor ℝ := fun x => ofComplex (x * Complex.I)
    parallelOf (5 : ℝ) (-5) = .error .cancelled ∧
      parallelOf (ofComplex Complex.I) (ofComplex (-Complex.I)) = .error .cancelled ∧
      (∃ v, parallelOf (6 : ℝ) 3 = .ok v ∧ 0 < v ∧ v < 6 ∧ v < 3) ∧
      (∃ v v', parallelOf (6 : ℝ) 3 = .ok v ∧ parallelOf (7 : ℝ) 3 = .ok v' ∧ v < v') ∧
      (∃ v v', parallelOf (6 : ℝ) 3 = .ok v ∧ parallelOf (6 : ℝ) 4 = .ok v' ∧ v < v') ∧
      (∃ v w : ℝ, parallelOf 2 2 = .ok v ∧ parallelOf 6 (6 / 5) = .ok w ∧ v = w) ∧
      ∃ v w, parallelOf (reactance 2) (reactance 2) = .ok v ∧
        parallelOf (reactance 6) (reactance (6 / 5)) = .ok w ∧ v = w := by
  intro reactance
  obtain ⟨hreal, hcomplex, -, -, hassoc, hassoc', hpos, hmono, hmono'⟩ :=
    parallelOf_product_over_sum
  have hresistance : ∀ x y v : ℝ, 0 < x → 0 < y → x * y / (x + y) = v →
      parallelOf x y = .ok v := fun x y v hx hy hv => hv ▸ Exact.parallelOf_of_pos hx hy
  have hreactance : ∀ x y v : ℝ, 0 < x → 0 < y → x * y / (x + y) = v →
      parallelOf (reactance x) (reactance y) = .ok (reactance v) := by
    rintro x y v hx hy rfl
    exact Phasor.parallelOf_reactances hx hy
  refine ⟨?_, ?_, hpos 6 3 (by norm_num) (by norm_num),
    hmono 6 7 3 (by norm_num) (by norm_num) (by norm_num),
    hmono' 6 3 4 (by norm_num) (by norm_num) (by norm_num), ?_, ?_⟩
  · rw [hreal, if_pos (by norm_num)]
  · rw [hcomplex, if_pos (by norm_num)]
  · have hleft := hresistance 2 2 1 (by norm_num) (by norm_num) (by norm_num)
    have hright := hresistance 6 (6 / 5) 1 (by norm_num) (by norm_num) (by norm_num)
    refine ⟨1, 1, hleft, hright, hassoc 6 3 2 2 (6 / 5) 1 1 ?_ hleft ?_ hright⟩
    · exact hresistance 6 3 2 (by norm_num) (by norm_num) (by norm_num)
    · exact hresistance 3 2 (6 / 5) (by norm_num) (by norm_num) (by norm_num)
  · have hleft := hreactance 2 2 1 (by norm_num) (by norm_num) (by norm_num)
    have hright := hreactance 6 (6 / 5) 1 (by norm_num) (by norm_num) (by norm_num)
    refine ⟨_, _, hleft, hright, hassoc' (reactance 6) (reactance 3) (reactance 2) (reactance 2)
      (reactance (6 / 5)) _ _ ?_ hleft ?_ hright⟩
    · exact hreactance 6 3 2 (by norm_num) (by norm_num) (by norm_num)
    · exact hreactance 3 2 (6 / 5) (by norm_num) (by norm_num) (by norm_num)

end Connection

end Ohmic
