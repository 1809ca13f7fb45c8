import Mathlib.Tactic.Lemma
import Ohmic.Number.Impedance

set_option autoImplicit false

/-!
# Real phasors

A phasor without a reactive part should behave as the scalar that is its resistive part. Both parts
take part in the arithmetic of phasors, so this asks for some laws of zero and one; they hold of
doubles, up to the sign of zero.

## Main definitions

* `Scalar.IsZero`, `Scalar.Agrees` — equal to zero, and equal up to the sign of zero.
* `Scalar.RealLaws` — the laws of zero and one, and that a ratio of at most one is finite.
* `Phasor.Extends` — the phasor has the scalar as its resistive part, and no reactive part.

## Main results

* `Phasor.Extends.isFinite_eq`, `Phasor.Extends.magnitude_eq`, `Phasor.Extends.distance_eq` — a
  real phasor is as finite, as large, and as far from another one, as its resistive part.
* `Phasor.Extends.add`, `Phasor.Extends.unscale`, `Phasor.Extends.div_unit` — the arithmetic of real
  phasors.
-/

namespace Ohmic

namespace Scalar

variable {S : Type} [Scalar S]

/-- Equal to zero, of which there may be two. -/
def IsZero (x : S) : Prop := (x == 0) = true

/-- Equal, or both zero. -/
def Agrees (x y : S) : Prop := x = y ∨ IsZero x ∧ IsZero y

/-- Zero and one are neutral, up to the sign of zero, and a ratio of at most one is finite, also
next to one. -/
class RealLaws (S : Type) [Scalar S] [Hypot S] : Prop where
  /-- Zero is equal to zero. -/
  isZero_zero : IsZero (0 : S)
  /-- One is not zero. -/
  not_isZero_one : ¬ IsZero (1 : S)
  /-- One is finite. -/
  isFinite_one : isFinite (1 : S) = true
  /-- Zeros are finite. -/
  isFinite_of_isZero : ∀ z : S, IsZero z → isFinite z = true
  /-- A zero is small enough to count as cancelled. -/
  le_epsilon_of_isZero : ∀ z : S, IsZero z → z ≤ epsilon
  /-- Every zero has the absolute value zero. -/
  abs_of_isZero : ∀ z : S, IsZero z → abs z = 0
  /-- An absolute value is as finite as the scalar. -/
  isFinite_abs : ∀ x : S, isFinite (abs x) = isFinite x
  /-- The opposite of a zero is a zero. -/
  isZero_neg : ∀ z : S, IsZero z → IsZero (-z)
  /-- The opposite is as finite as the scalar. -/
  isFinite_neg : ∀ x : S, isFinite (-x) = isFinite x
  /-- The opposite of minus one is one. -/
  neg_neg_one : -(-1) = (1 : S)
  /-- A zero added on the right changes nothing but the sign of zero. -/
  add_isZero : ∀ x z : S, IsZero z → Agrees (x + z) x
  /-- A zero added on the left changes nothing but the sign of zero. -/
  isZero_add : ∀ x z : S, IsZero z → Agrees (z + x) x
  /-- A zero taken away changes nothing but the sign of zero. -/
  sub_isZero : ∀ x z : S, IsZero z → Agrees (x - z) x
  /-- Zero less a scalar is the opposite, up to the sign of zero. -/
  isZero_sub : ∀ x z : S, IsZero z → Agrees (z - x) (-x)
  /-- One is neutral in products. -/
  mul_one : ∀ x : S, x * 1 = x
  /-- A product with minus one is the opposite. -/
  mul_neg_one : ∀ x : S, x * -1 = -x
  /-- One is neutral in quotients. -/
  div_one : ∀ x : S, x / 1 = x
  /-- A quotient by minus one is the opposite. -/
  div_neg_one : ∀ x : S, x / -1 = -x
  /-- A finite scalar times a zero is a zero. -/
  mul_isZero : ∀ x z : S, isFinite x = true → IsZero z → IsZero (x * z)
  /-- A zero times a finite scalar is a zero. -/
  isZero_mul : ∀ x z : S, isFinite x = true → IsZero z → IsZero (z * x)
  /-- A zero over a finite scalar other than zero is a zero. -/
  isZero_div : ∀ x z : S, isFinite x = true → ¬ IsZero x → IsZero z → IsZero (z / x)
  /-- A finite scalar other than zero, over its absolute value, is one or minus one. -/
  div_abs : ∀ x : S, isFinite x = true → ¬ IsZero x → x / abs x = 1 ∨ x / abs x = -1
  /-- A vector along the first axis is as long as the absolute value says. -/
  hypot_isZero : ∀ x z : S, IsZero z → Hypot.hypot x z = abs x
  /-- Of two scalars at most one is below the other. -/
  lt_asymm : ∀ x y : S, x < y → ¬ y < x
  /-- A finite scalar over a finite one that is not smaller is finite, and so are one plus and one
  less this ratio. -/
  isFinite_ratio : ∀ x y : S, isFinite x = true → isFinite y = true → ¬ IsZero y →
    ¬ abs y < abs x → isFinite (x / abs y) = true ∧ isFinite (1 + x / abs y) = true ∧
      isFinite (1 + -(x / abs y)) = true

/-- Every scalar agrees with itself. -/
lemma Agrees.refl (x : S) : Agrees x x := .inl rfl

/-- Scalars agree with each other. -/
lemma Agrees.symm {x y : S} (h : Agrees x y) : Agrees y x := by
  rcases h with rfl | ⟨hx, hy⟩
  · exact .inl rfl
  · exact .inr ⟨hy, hx⟩

/-- Scalars agree if both agree with a third one. -/
lemma Agrees.trans {x y z : S} (hxy : Agrees x y) (hyz : Agrees y z) : Agrees x z := by
  rcases hxy with rfl | ⟨hx, hy⟩
  · exact hyz
  · rcases hyz with rfl | ⟨-, hz⟩
    · exact .inr ⟨hx, hy⟩
    · exact .inr ⟨hx, hz⟩

/-- What agrees with zero is zero. -/
lemma Agrees.isZero {x y : S} (h : Agrees x y) (hy : IsZero y) : IsZero x := by
  rcases h with rfl | ⟨hx, -⟩
  · exact hy
  · exact hx

section

variable [Hypot S] [RealLaws S] {x x' y y' : S}

/-- Scalars that agree are equally finite. -/
lemma Agrees.isFinite_eq (h : Agrees x y) : isFinite x = isFinite y := by
  rcases h with rfl | ⟨hx, hy⟩
  · rfl
  · rw [RealLaws.isFinite_of_isZero x hx, RealLaws.isFinite_of_isZero y hy]

/-- Scalars that agree have one absolute value. -/
lemma Agrees.abs_eq (h : Agrees x y) : abs x = abs y := by
  rcases h with rfl | ⟨hx, hy⟩
  · rfl
  · rw [RealLaws.abs_of_isZero x hx, RealLaws.abs_of_isZero y hy]

/-- Opposites of scalars that agree. -/
lemma Agrees.neg (h : Agrees x y) : Agrees (-x) (-y) := by
  rcases h with rfl | ⟨hx, hy⟩
  · exact .refl _
  · exact .inr ⟨RealLaws.isZero_neg x hx, RealLaws.isZero_neg y hy⟩

/-- Sums of scalars that agree. -/
lemma Agrees.add (h : Agrees x x') (h' : Agrees y y') : Agrees (x + y) (x' + y') := by
  have hleft : Agrees (x + y) (x' + y) := by
    rcases h with rfl | ⟨hx, hx'⟩
    · exact .refl _
    · exact (RealLaws.isZero_add y x hx).trans (RealLaws.isZero_add y x' hx').symm
  have hright : Agrees (x' + y) (x' + y') := by
    rcases h' with rfl | ⟨hy, hy'⟩
    · exact .refl _
    · exact (RealLaws.add_isZero x' y hy).trans (RealLaws.add_isZero x' y' hy').symm
  exact hleft.trans hright

/-- One and zero is one. -/
lemma one_add_isZero (h : IsZero x) : 1 + x = 1 := by
  rcases RealLaws.add_isZero 1 x h with heq | ⟨-, hone⟩
  · exact heq
  · exact absurd hone RealLaws.not_isZero_one

/-- Differences of scalars that agree from a third one. -/
lemma Agrees.sub (h : Agrees x x') (y : S) : Agrees (x - y) (x' - y) := by
  rcases h with rfl | ⟨hx, hx'⟩
  · exact .refl _
  · exact (RealLaws.isZero_sub y x hx).trans (RealLaws.isZero_sub y x' hx').symm

/-- Scalars that agree over a finite scalar other than zero. -/
lemma Agrees.div (h : Agrees x x') (hfinite : isFinite y = true) (hy : ¬ IsZero y) :
    Agrees (x / y) (x' / y) := by
  rcases h with rfl | ⟨hx, hx'⟩
  · exact .refl _
  · exact .inr ⟨RealLaws.isZero_div y x hfinite hy hx, RealLaws.isZero_div y x' hfinite hy hx'⟩

/-- The sum of two zeros is zero. -/
lemma isZero_add_isZero (hx : IsZero x) (hy : IsZero y) : IsZero (x + y) :=
  (RealLaws.isZero_add y x hx).isZero hy

/-- The difference of two zeros is zero. -/
lemma isZero_sub_isZero (hx : IsZero x) (hy : IsZero y) : IsZero (x - y) :=
  (RealLaws.sub_isZero x y hy).isZero hx

/-- The square of one or of its opposite is one. -/
lemma mul_self_of_unit (h : x = 1 ∨ x = -1) : x * x = 1 := by
  rcases h with rfl | rfl
  · exact RealLaws.mul_one 1
  · rw [RealLaws.mul_neg_one, RealLaws.neg_neg_one]

/-- To divide by one or by its opposite is to multiply with it. -/
lemma div_of_unit (h : y = 1 ∨ y = -1) : x / y = x * y := by
  rcases h with rfl | rfl
  · rw [RealLaws.div_one, RealLaws.mul_one]
  · rw [RealLaws.div_neg_one, RealLaws.mul_neg_one]

/-- Products with one or its opposite. -/
lemma Agrees.mul_unit (h : Agrees x x') (hy : y = 1 ∨ y = -1) : Agrees (x * y) (x' * y) := by
  rcases hy with rfl | rfl
  · rwa [RealLaws.mul_one, RealLaws.mul_one]
  · rw [RealLaws.mul_neg_one, RealLaws.mul_neg_one]
    exact h.neg

/-- A product with one or its opposite is as finite as the other factor. -/
lemma isFinite_mul_unit (hy : y = 1 ∨ y = -1) : isFinite (x * y) = isFinite x := by
  rcases hy with rfl | rfl
  · rw [RealLaws.mul_one]
  · rw [RealLaws.mul_neg_one, RealLaws.isFinite_neg]

/-- One and its opposite are finite. -/
lemma isFinite_unit (h : x = 1 ∨ x = -1) : isFinite x = true := by
  rcases h with rfl | rfl
  · exact RealLaws.isFinite_one
  · rw [RealLaws.isFinite_neg, RealLaws.isFinite_one]

end

end Scalar

/-! ## Real phasors -/

namespace Phasor

variable {S : Type} [Scalar S]

open Scalar

/-- The phasor has the scalar as its resistive part, and no reactive part. -/
structure Extends (x : S) (z : Phasor S) : Prop where
  /-- The resistive part is the scalar, up to the sign of zero. -/
  re : Agrees x z.re
  /-- The reactive part is zero. -/
  im : IsZero z.im

namespace Extends

variable [Hypot S] [RealLaws S] {x y : S} {z w : Phasor S}

/-- A scalar as a phasor. -/
lemma ofReal (x : S) : Extends x (Phasor.ofReal x) := ⟨.refl x, RealLaws.isZero_zero⟩

/-- A real phasor is as finite as its resistive part. -/
lemma isFinite_eq (h : Extends x z) : z.isFinite = Scalar.isFinite x := by
  rw [Phasor.isFinite, RealLaws.isFinite_of_isZero _ h.im, Bool.and_true, h.re.isFinite_eq]

/-- A real phasor is as large as its resistive part. -/
lemma magnitude_eq (h : Extends x z) : Impedance.magnitude z = abs x :=
  (RealLaws.hypot_isZero z.re z.im h.im).trans h.re.abs_eq.symm

/-- The sum of real phasors. -/
lemma add (h : Extends x z) (h' : Extends y w) : Extends (x + y) (z + w) :=
  ⟨h.re.add h'.re, isZero_add_isZero h.im h'.im⟩

/-- The difference of a real phasor and a scalar. -/
lemma sub_ofReal (h : Extends x z) (y : S) : Extends (x - y) (z - Phasor.ofReal y) :=
  ⟨h.re.sub y, isZero_sub_isZero h.im RealLaws.isZero_zero⟩

/-- A real phasor is as far from a scalar as its resistive part. -/
lemma distance_eq (h : Extends x z) (y : S) :
    Impedance.magnitude (z - Phasor.ofReal y) = abs (x - y) := (h.sub_ofReal y).magnitude_eq

/-- A real phasor over a finite scalar other than zero. -/
lemma unscale (h : Extends x z) (hfinite : Scalar.isFinite y = true) (hy : ¬ IsZero y) :
    Extends (x / y) (z.unscale y) :=
  ⟨h.re.div hfinite hy, RealLaws.isZero_div y z.im hfinite hy h.im⟩

/-- **A real phasor over a unit**: its resistive part over the unit is that of the quotient, which
has no reactive part unless it is infinite.

**Proof sketch.** The squared length of the unit is one, so the quotient is the product with its
conjugate. All products with a reactive part are zero. -/
theorem div_unit (h : Extends x z) (hunit : w.re = 1 ∨ w.re = -1) (hw : IsZero w.im) :
    Agrees (x / w.re) (z / w).re ∧ (Scalar.isFinite x = true → IsZero (z / w).im) := by
  obtain ⟨hre, him⟩ := h
  have hnorm : w.re * w.re + w.im * w.im = 1 := by
    rw [mul_self_of_unit hunit, one_add_isZero]
    exact RealLaws.mul_isZero _ _ (RealLaws.isFinite_of_isZero _ hw) hw
  have hquotient : z / w = ⟨z.re * w.re + z.im * w.im, z.im * w.re - z.re * w.im⟩ := by
    show Phasor.div z w = _
    simp only [Phasor.div, hnorm, RealLaws.div_one]
  rw [hquotient, div_of_unit hunit]
  have hfar : IsZero (z.im * w.im) :=
    RealLaws.mul_isZero _ _ (RealLaws.isFinite_of_isZero _ him) hw
  refine ⟨(hre.mul_unit hunit).trans (RealLaws.add_isZero _ _ hfar).symm, fun hfinite => ?_⟩
  rw [hre.isFinite_eq] at hfinite
  exact isZero_sub_isZero (RealLaws.isZero_mul _ _ (isFinite_unit hunit) him)
    (RealLaws.mul_isZero _ _ hfinite hw)

end Extends

end Phasor

end Ohmic
