import Ohmic.Proofs.Circuit.Embedding
import Ohmic.Proofs.Number.Errors

set_option autoImplicit false

/-!
# Errors of parallel connections

A parallel connection scales its operands before it divides, once by the length of the larger one
and once by the length of one more than their ratio, so that both divisors have the length one. The
errors of the scaled quotients are parts of these, and so the result is near to the exact product
over the sum, at both ends of the range.

All of this needs lengths. A phasor with finite components may be longer than any double, and then
its length is infinite, the scaled operands are zero and their ratio is undefined.

## Main definitions

* `Connection.denominator` — one more than the ratio of two operands, as it is computed.

## Main results

* `Phasor.near_scaled_div` — the quotient of two phasors that were scaled by the length of one.
* `Connection.parallelSorted_near`, `Connection.parallelOf_near` — operands of finite length.
* `Connection.joinAt_of_long` — operands of infinite length.

## Implementation notes

The bound `2⁵³·slip` for lengths is the least normal double: what is lost below the least doubles is
a part of `2⁻⁵³` of a length of at least that.
-/

namespace Ohmic

open Binary64 (value slip ceiling Undefined)
open Float.Model.UnpackedFloat (Sign)
open Scalar (IsZero)

namespace Phasor

/-! ## Scaling to the length one -/

section

variable {w : Phasor Float} (hw : (Impedance.magnitude w).isFinite = true)
  (hleast : 2 ^ 53 * slip ≤ ‖w.exact‖)

include hw hleast

/-- The length of a phasor that is not too short has a relative error only. -/
lemma magnitude_bounds :
    ‖w.exact‖ * (1 - 1 / 2 ^ 52) ≤ value (Impedance.magnitude w) ∧
      value (Impedance.magnitude w) ≤ ‖w.exact‖ * (1 + 1 / 2 ^ 52) := by
  obtain ⟨hlow, hhigh⟩ := abs_le.mp (abs_magnitude_sub_le hw)
  exact ⟨by linarith, by linarith⟩

/-- The length of a phasor that is not too short is positive. -/
lemma value_magnitude_pos : (0 : ℝ) < value (Impedance.magnitude w) := by
  have hbelow := (magnitude_bounds hw hleast).1
  have hslip := Binary64.slip_pos
  have hlength : 0 < ‖w.exact‖ := lt_of_lt_of_le (by positivity) hleast
  exact lt_of_lt_of_le (mul_pos hlength (by norm_num)) hbelow

/-- A phasor over its own length is near to the quotient.

**Proof sketch.** The computed length is the exact one up to a share of `2⁻⁵²` (`magnitude_bounds`),
so the exact quotient by it has a length of about one. The components are rounded once more
(`near_unscale`). -/
lemma near_unit :
    Near (w.unscale (Impedance.magnitude w)) (w.exact / (value (Impedance.magnitude w) : ℝ))
        (1 / 2 ^ 51) ∧
      |‖(w.unscale (Impedance.magnitude w)).exact‖ - 1| ≤ 1 / 2 ^ 48 := by
  obtain ⟨hbelow, habove⟩ := magnitude_bounds hw hleast
  have hpos := value_magnitude_pos hw hleast
  have hslip := Binary64.slip_le
  have hlow : 1 - 1 / 2 ^ 51 ≤ ‖w.exact‖ / value (Impedance.magnitude w) :=
    (le_div_iff₀ hpos).mpr (by linarith)
  have hhigh : ‖w.exact‖ / value (Impedance.magnitude w) ≤ 1 + 1 / 2 ^ 51 :=
    (div_le_iff₀ hpos).mpr (by linarith)
  have hnear : Near (w.unscale (Impedance.magnitude w))
      (w.exact / (value (Impedance.magnitude w) : ℝ)) (1 / 2 ^ 51) := by
    have hfinite := Bool.and_eq_true_iff.mpr (Binary64.isFinite_of_hypotenuse hw)
    refine (near_unscale hfinite hw hpos hhigh ?_).mono (by linarith)
    rw [Binary64.value_largest]
    linarith [Binary64.le_ceiling]
  obtain ⟨hlow', hhigh'⟩ := hnear.norm_bounds
  rw [norm_div, Complex.norm_of_nonneg hpos.le] at hlow' hhigh'
  exact ⟨hnear, abs_le.mpr ⟨by linarith, by linarith⟩⟩

/-- **Two phasors over the length of the second one** have a quotient near to that of the phasors
themselves, unless it is too long.

**Proof sketch.** Both phasors over the computed length are near to the same quotients by its number
`x`, and the second of these has a length of about one (`near_unscale`, `near_unit`). The quotient
of these two has the error of a division (`near_div`). In the exact quotient `x` cancels, and the
errors of both change it by little, as it is continuous away from a divisor of zero
(`norm_div_sub_div_le`). -/
theorem near_scaled_div {z : Phasor Float} (hz : z.isFinite = true)
    (hmax : ‖z.exact / w.exact‖ ≤ (1 - 1 / 2 ^ 41) * ceiling) :
    Near (z.unscale (Impedance.magnitude w) / w.unscale (Impedance.magnitude w))
      (z.exact / w.exact) (‖z.exact / w.exact‖ / 2 ^ 46 + 20 * slip) := by
  obtain ⟨hbelow, -⟩ := magnitude_bounds hw hleast
  have hpos := value_magnitude_pos hw hleast
  obtain ⟨hunit, hone⟩ := near_unit hw hleast
  have hslip := Binary64.slip_le
  have hslippos := Binary64.slip_pos
  have hceiling := Binary64.le_ceiling
  have hwpos : 0 < ‖w.exact‖ := lt_of_lt_of_le (by positivity) hleast
  have hwne : w.exact ≠ 0 := norm_pos_iff.mp hwpos
  generalize hq : ‖z.exact / w.exact‖ = q at hmax ⊢
  have hqpos : 0 ≤ q := hq ▸ norm_nonneg _
  have hlength : ‖z.exact‖ = q * ‖w.exact‖ := by
    rw [← hq, norm_div, div_mul_cancel₀ _ hwpos.ne']
  generalize Impedance.magnitude w = x at *
  have hsize : ‖z.exact‖ / value x ≤ q * (1 + 1 / 2 ^ 51) := by
    rw [hlength, div_le_iff₀ hpos, mul_assoc]
    exact mul_le_mul_of_nonneg_left (by linarith) hqpos
  have hnear := near_unscale hz hw hpos hsize (by rw [Binary64.value_largest]; linarith)
  have hnorm : ‖(z.unscale x).exact‖ ≤ q * (1 + 1 / 2 ^ 50) + 2 * slip := by
    have := hnear.norm_bounds.2
    rw [norm_div, Complex.norm_of_nonneg hpos.le] at this
    linarith
  have hdiv := near_div hnear.isFinite hunit.isFinite hone (by linarith)
  obtain ⟨hlow, -⟩ := abs_le.mp hone
  have hxne : ((value x : ℝ) : ℂ) ≠ 0 := Complex.ofReal_ne_zero.mpr hpos.ne'
  have hcancel := div_div_div_cancel_right₀ hxne z.exact w.exact
  have hchange : ‖(z.unscale x).exact / (w.unscale x).exact - z.exact / w.exact‖ ≤
      q / 2 ^ 49 + 3 * slip := by
    have hproduct := mul_le_mul_of_nonneg_left hunit.error hqpos
    rw [← hcancel]
    refine norm_div_sub_div_le (c := 1 - 1 / 2 ^ 48) (div_ne_zero hwne hxne) (by norm_num)
      (by linarith) ?_
    rw [hcancel, hq]
    linarith [hnear.error]
  exact (hdiv.trans hchange).mono (by linarith)

end

/-! ## Undefined quotients -/

/-- A quotient of zeros is undefined. -/
lemma undefined_div_of_isZero {z w : Phasor Float} (hzre : IsZero z.re) (hzim : IsZero z.im)
    (hwre : IsZero w.re) (hwim : IsZero w.im) : Undefined (z / w).re ∧ Undefined (z / w).im := by
  have hproduct : ∀ {x y : Float}, IsZero x → IsZero y → IsZero (x * y) := fun hx hy =>
    Binary64.mul_isZero (Binary64.isFinite_of_isZero hx) hy
  have hnorm := Scalar.isZero_add_isZero (hproduct hwre hwre) (hproduct hwim hwim)
  exact ⟨Binary64.undefined_isZero_div
      (Scalar.isZero_add_isZero (hproduct hzre hwre) (hproduct hzim hwim)) hnorm,
    Binary64.undefined_isZero_div
      (Scalar.isZero_sub_isZero (hproduct hzim hwre) (hproduct hzre hwim)) hnorm⟩

/-- A quotient of an undefined phasor is undefined. -/
lemma undefined_div_of_re {z w : Phasor Float} (hz : Undefined z.re) : Undefined (z / w).re :=
  Binary64.undefined_div (.inl (Binary64.undefined_add (.inl (Binary64.undefined_mul (.inl hz)))))

end Phasor

namespace Connection

open Phasor (near_scaled_div)

/-! ## Operands of finite length -/

/-- The number that the smallest relative size of a sum stands for. -/
lemma value_epsilon : value Scalar.epsilon = 1 / 2 ^ 52 := by
  have hparts : Binary64.parts Scalar.epsilon =
      .finite .positive (2 ^ 52) (-104) (Nat.two_pow_pos 52) := rfl
  rw [Binary64.value_of_parts hparts]
  norm_num [Sign.apply]

/-- The product over the sum, from the ratio of the operands. -/
lemma product_over_sum_eq {b s : ℂ} (hb : b ≠ 0) : b * s / (b + s) = s / (1 + s / b) := by
  have hsum : b + s = b * (1 + s / b) := by
    rw [mul_add, mul_one, mul_div_cancel₀ _ hb]
  rw [hsum, mul_div_mul_left _ _ hb]

/-- The product over the sum is not larger than an operand, if the sum is not smaller than the other
one. -/
lemma norm_product_over_sum_le {b s : ℂ} (h : ‖s‖ ≤ ‖b + s‖) : ‖b * s / (b + s)‖ ≤ ‖b‖ := by
  rw [norm_div, norm_mul, mul_div_assoc]
  exact mul_le_of_le_one_right (norm_nonneg b) (div_le_one_of_le₀ h (norm_nonneg _))

variable {big small : Phasor Float}

/-- One more than the ratio of two operands, as it is computed. -/
def denominator (big small : Phasor Float) : Phasor Float :=
  Impedance.ofReal (1 : Float) + Impedance.unscale small (Impedance.magnitude big) /
    Impedance.unscale big (Impedance.magnitude big)

/-- The operand of smaller length is hardly longer than the other one. -/
lemma norm_ratio_le (hbig : (Impedance.magnitude big).isFinite = true)
    (hsmall : (Impedance.magnitude small).isFinite = true)
    (hle : value (Impedance.magnitude small) ≤ value (Impedance.magnitude big))
    (hbigleast : 2 ^ 53 * slip ≤ ‖big.exact‖) (hsmallleast : 2 ^ 53 * slip ≤ ‖small.exact‖) :
    ‖small.exact / big.exact‖ ≤ 1 + 1 / 2 ^ 50 := by
  have hslip := Binary64.slip_pos
  have hupper := (Phasor.magnitude_bounds hbig hbigleast).2
  have hlower := (Phasor.magnitude_bounds hsmall hsmallleast).1
  have hcast : (value (Impedance.magnitude small) : ℝ) ≤ value (Impedance.magnitude big) := by
    exact_mod_cast hle
  rw [norm_div, div_le_iff₀ (lt_of_lt_of_le (by positivity) hbigleast)]
  linarith

/-- **The denominator of a parallel connection** is near to the exact one. -/
lemma denominator_near (hbig : (Impedance.magnitude big).isFinite = true)
    (hsmall : small.isFinite = true) (hleast : 2 ^ 53 * slip ≤ ‖big.exact‖)
    (hratio : ‖small.exact / big.exact‖ ≤ 1 + 1 / 2 ^ 50) :
    (denominator big small).Near (1 + small.exact / big.exact) (1 / 2 ^ 44) := by
  have hslip := Binary64.slip_le
  have hnear := (near_scaled_div hbig hleast hsmall (by linarith [Binary64.le_ceiling])).mono
    (by linarith : _ ≤ (1 : ℝ) / 2 ^ 45)
  have hone := Phasor.near_one_add hnear.isFinite (by linarith [hnear.norm_bounds.2])
  refine (hone.trans (e := 1 / 2 ^ 45) ?_).mono (by norm_num)
  rw [add_sub_add_left_eq_sub]
  exact hnear.error

/-- **An operand over a denominator** that is near to an exact one of at least the length one.

**Proof sketch.** The length of `d` is finite and at least one half since `d` is near to `e`. The
exact quotient by `d` is near to `r`, as the divisor changes by little in relation to its length,
and the computed one is near to it by `near_scaled_div`. Both errors together are below `2⁻⁴⁰`. -/
lemma near_div_denominator {d : Phasor Float} {e r : ℂ} (hd : d.Near e (1 / 2 ^ 44))
    (hlow : 1 ≤ ‖e‖) (hhigh : ‖e‖ ≤ 3) (hsmall : small.isFinite = true)
    (hr : r = small.exact / e) (hleast : 2 ^ 53 * slip ≤ ‖r‖) :
    (Impedance.magnitude d).isFinite = true ∧ (1 : ℝ) / 2 ≤ value (Impedance.magnitude d) ∧
      (‖r‖ ≤ (1 - 1 / 2 ^ 40) * ceiling →
        (small.unscale (Impedance.magnitude d) / d.unscale (Impedance.magnitude d)).Near r
          (‖r‖ / 2 ^ 40)) := by
  have hslip := Binary64.slip_le
  have hslippos := Binary64.slip_pos
  have hceiling := Binary64.le_ceiling
  obtain ⟨hbelow, habove⟩ := hd.norm_bounds
  have hlength := Phasor.near_magnitude hd.isFinite (by rw [Binary64.value_largest]; linarith)
  have hdleast : 2 ^ 53 * slip ≤ ‖d.exact‖ := by linarith
  obtain ⟨hvalue, -⟩ := Phasor.magnitude_bounds hlength.isFinite hdleast
  have hclose : ‖small.exact / d.exact - r‖ ≤ ‖r‖ / 2 ^ 43 := by
    have hchange := mul_le_mul_of_nonneg_left hd.error (norm_nonneg r)
    subst hr
    refine norm_div_sub_div_le (c := 1 - 1 / 2 ^ 44) (norm_pos_iff.mp (one_pos.trans_le hlow))
      (by norm_num) (by linarith) ?_
    rw [sub_self, norm_zero, zero_add]
    linarith [norm_nonneg (small.exact / e)]
  have hsize : ‖small.exact / d.exact‖ ≤ ‖r‖ * (1 + 1 / 2 ^ 43) := by
    have := norm_sub_norm_le (small.exact / d.exact) r
    linarith
  refine ⟨hlength.isFinite, by linarith, fun hmax => ?_⟩
  have hresult := near_scaled_div hlength.isFinite hdleast hsmall (by linarith)
  exact (hresult.trans hclose).mono (by linarith)

/-- **A parallel connection of phasors**, the first one not being shorter, is not degenerate if the
sum is not shorter than either of them, and near to the product over the sum if that is not too
long.

**Proof sketch.** The exact result is not longer than either operand, so the operands are not short
and their lengths have relative errors only. The exact denominator `1 + small / big` has at least
the length one and at most three, so an error of `2⁻⁴⁴` is a relative one, and the computed
denominator does not count as zero. -/
theorem parallelSorted_near (hbig : (Impedance.magnitude big).isFinite = true)
    (hsmall : (Impedance.magnitude small).isFinite = true)
    (hle : value (Impedance.magnitude small) ≤ value (Impedance.magnitude big))
    (hsumbig : ‖big.exact‖ ≤ ‖big.exact + small.exact‖)
    (hsumsmall : ‖small.exact‖ ≤ ‖big.exact + small.exact‖) {r : ℂ}
    (hr : r = big.exact * small.exact / (big.exact + small.exact))
    (hleast : 2 ^ 53 * slip ≤ ‖r‖) :
    ∃ v, parallelSorted big small = .ok v ∧
      (‖r‖ ≤ (1 - 1 / 2 ^ 40) * ceiling → v.Near r (‖r‖ / 2 ^ 40)) := by
  have hslip := Binary64.slip_pos
  have hfinite : small.isFinite = true :=
    Bool.and_eq_true_iff.mpr (Binary64.isFinite_of_hypotenuse hsmall)
  have hbigleast : 2 ^ 53 * slip ≤ ‖big.exact‖ :=
    hleast.trans (hr ▸ norm_product_over_sum_le hsumsmall)
  have hsmallleast : 2 ^ 53 * slip ≤ ‖small.exact‖ := by
    refine hleast.trans ?_
    rw [hr, mul_comm, add_comm]
    exact norm_product_over_sum_le (by rwa [add_comm])
  have hbigpos : 0 < ‖big.exact‖ := lt_of_lt_of_le (by positivity) hbigleast
  have hbigne : big.exact ≠ 0 := norm_pos_iff.mp hbigpos
  have hratio := norm_ratio_le hbig hsmall hle hbigleast hsmallleast
  have hlow : 1 ≤ ‖1 + small.exact / big.exact‖ := by
    rw [← div_self hbigne, ← add_div, norm_div]
    exact (one_le_div hbigpos).mpr hsumbig
  have hhigh : ‖1 + small.exact / big.exact‖ ≤ 3 := by
    have := norm_add_le 1 (small.exact / big.exact)
    rw [norm_one] at this
    linarith
  obtain ⟨hdfinite, hdlow, hnear⟩ :=
    near_div_denominator (denominator_near hbig hfinite hbigleast hratio) hlow hhigh hfinite
      (hr.trans (product_over_sum_eq hbigne)) hleast
  have hscale : ¬ (Impedance.magnitude big == 0) = true := fun h =>
    (Phasor.value_magnitude_pos hbig hbigleast).ne'
      (by rw [Binary64.value_of_isZero h, Rat.cast_zero])
  have hlarge : ¬ Impedance.magnitude (denominator big small) ≤ Scalar.epsilon := by
    rw [Binary64.le_iff_value_le hdfinite rfl, value_epsilon, not_le, ← Rat.cast_lt (K := ℝ)]
    push_cast
    linarith
  exact ⟨_, (if_neg hscale).trans (if_neg hlarge), hnear⟩

/-- **A parallel connection of phasors of finite length** is not degenerate if the sum is not
shorter than either of them, and near to the product over the sum if that is not too long. -/
theorem parallelOf_near {a b : Phasor Float} (ha : (Impedance.magnitude a).isFinite = true)
    (hb : (Impedance.magnitude b).isFinite = true) (hsuma : ‖a.exact‖ ≤ ‖a.exact + b.exact‖)
    (hsumb : ‖b.exact‖ ≤ ‖a.exact + b.exact‖) {r : ℂ}
    (hr : r = a.exact * b.exact / (a.exact + b.exact)) (hleast : 2 ^ 53 * slip ≤ ‖r‖) :
    ∃ v, parallelOf a b = .ok v ∧
      (‖r‖ ≤ (1 - 1 / 2 ^ 40) * ceiling → v.Near r (‖r‖ / 2 ^ 40)) := by
  have hlt := Binary64.lt_iff_value_lt ha hb
  rw [parallelOf_eq]
  split
  · next hless =>
    rw [add_comm] at hsuma hsumb hr
    rw [mul_comm] at hr
    exact parallelSorted_near hb ha (hlt.mp hless).le hsumb hsuma hr hleast
  · next hless =>
    rw [hlt, not_lt] at hless
    exact parallelSorted_near ha hb hless hsuma hsumb hr hleast

/-! ## Operands of infinite length -/

/-- **An operand of infinite length** makes the result undefined.

**Proof sketch.** Finite components over an infinite length are zero, so the ratio of the operands
is zero over zero. An undefined number is neither equal to zero nor at most the constant, so neither
test of a degenerate connection is met, and it is passed on to the result. -/
theorem parallelSorted_undefined (hbig : big.isFinite = true)
    (hsmall : small.isFinite = true) (hlong : (Impedance.magnitude big).isFinite = false) :
    ∃ v, parallelSorted big small = .ok v ∧ v.isFinite = false := by
  obtain ⟨hbigre, hbigim⟩ := Bool.and_eq_true_iff.mp hbig
  obtain ⟨hsmallre, hsmallim⟩ := Bool.and_eq_true_iff.mp hsmall
  have hinfinite := Binary64.parts_hypotenuse hbigre hbigim hlong
  have hscale : ¬ (Impedance.magnitude big == 0) = true := fun h => by
    rw [Binary64.isFinite_of_isZero h] at hlong
    cases hlong
  obtain ⟨hre, him⟩ := Phasor.undefined_div_of_isZero
    (z := Impedance.unscale small (Impedance.magnitude big))
    (w := Impedance.unscale big (Impedance.magnitude big))
    (Binary64.isZero_div_infinity hsmallre hinfinite)
    (Binary64.isZero_div_infinity hsmallim hinfinite)
    (Binary64.isZero_div_infinity hbigre hinfinite) (Binary64.isZero_div_infinity hbigim hinfinite)
  have hnorm : Binary64.Undefined (Impedance.magnitude (denominator big small)) :=
    Binary64.undefined_hypotenuse (Binary64.undefined_add (.inr hre))
      (Binary64.undefined_add (.inr him))
  refine ⟨_, (if_neg hscale).trans (if_neg (hnorm.not_le _)), ?_⟩
  have hresult := Phasor.undefined_div_of_re (z := small.unscale (Impedance.magnitude
    (denominator big small))) (w := (denominator big small).unscale (Impedance.magnitude
    (denominator big small))) (Binary64.undefined_div (.inr hnorm))
  exact Bool.and_eq_false_iff.mpr (.inl hresult.isFinite_eq)

/-- A phasor of infinite length is longer than one of finite length. -/
lemma magnitude_lt_of_long {a b : Phasor Float} (hb : b.isFinite = true)
    (hlong : (Impedance.magnitude b).isFinite = false)
    (ha : (Impedance.magnitude a).isFinite = true) :
    Impedance.magnitude a < Impedance.magnitude b := by
  obtain ⟨hre, him⟩ := Bool.and_eq_true_iff.mp hb
  exact Binary64.lt_infinity ha (Binary64.parts_hypotenuse hre him hlong)

/-- **An operand of infinite length** makes the connection overflow.

**Proof sketch.** An operand of infinite length is not the smaller one of the two, unless both are
infinitely long. So the larger one has infinite length, and the result is undefined
(`parallelSorted_undefined`). -/
theorem joinAt_of_long {a b : Phasor Float} (ha : a.isFinite = true) (hb : b.isFinite = true)
    (hlong : (Impedance.magnitude a).isFinite = false ∨ (Impedance.magnitude b).isFinite = false)
    (position : ℕ) : parallel.joinAt position a b = .error (.overflow position) := by
  have hsorted : ∃ v, parallelOf a b = .ok v ∧ v.isFinite = false := by
    rw [parallelOf_eq]
    split
    · next hlt =>
      refine parallelSorted_undefined hb ha (hlong.elim (fun hlong => ?_) id)
      refine Bool.eq_false_iff.mpr fun hfinite => ?_
      exact Binary64.lt_asymm hlt (magnitude_lt_of_long ha hlong hfinite)
    · next hlt =>
      refine parallelSorted_undefined ha hb (hlong.elim id fun hlong => ?_)
      exact Bool.eq_false_iff.mpr fun hfinite => hlt (magnitude_lt_of_long hb hlong hfinite)
  obtain ⟨v, hv, hinfinite⟩ := hsorted
  have hoverflow : ¬ Impedance.isFinite v = true := Bool.eq_false_iff.mp hinfinite
  rw [joinAt, join, hv]
  exact if_neg hoverflow

end Connection

end Ohmic
