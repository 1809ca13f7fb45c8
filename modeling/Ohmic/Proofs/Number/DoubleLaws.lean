import Ohmic.Proofs.Number.RealLaws
import Ohmic.Proofs.Number.Rounding

set_option autoImplicit false

/-!
# Zero and one among doubles

The laws under which real phasors behave as their resistive parts hold in double precision. Sums
with zero are not rounded; products and quotients with one, the quotient of a number and its
absolute value, and the length of a vector along an axis are rounded to what they are already.

## Main results

* `Binary64.instRealLawsFloat` — the laws of zero and one for doubles.
-/

namespace Ohmic.Binary64

open Float.Model (UnpackedFloat Format totalExponent)
open Float.Model.UnpackedFloat (Sign roundWithAccuracy divCore sqrtCore accuracyOfFraction)
open Scalar (IsZero Agrees)

/-! ## Zeros -/

/-- A double is zero if its parts are.

**Proof sketch.** Equal numbers have equal places (`beq_iff`). The places of numbers other than zero
begin with their sign, and an undefined number has no place. -/
lemma isZero_iff {x : Float} : IsZero x ↔ ∃ s, parts x = .zero s := by
  have hzero : place? (parts 0) = some (toLex (0, toLex (0, 0))) := rfl
  rw [IsZero]
  refine (beq_iff x 0).trans ?_
  rw [hzero]
  constructor
  · rintro ⟨a, ha, b, hb, rfl⟩
    obtain rfl := Option.mem_some_iff.mp hb
    cases hparts : parts x with
    | zero s => exact ⟨s, rfl⟩
    | notANumber =>
      rw [hparts] at ha
      cases ha
    | infinity s | finite s m e hm =>
      rw [hparts] at ha
      have hsign := congrArg (fun p => (ofLex p).1) (Option.mem_some_iff.mp ha)
      cases s <;> cases hsign
  · rintro ⟨s, hs⟩
    rw [hs]
    exact ⟨_, rfl, _, rfl, rfl⟩

/-- An opposite is canonical. -/
lemma Canonical.neg {u : UnpackedFloat} (h : Canonical u) : Canonical u.neg := by
  cases u <;> exact h

/-- An absolute value is canonical. -/
lemma Canonical.abs {u : UnpackedFloat} (h : Canonical u) : Canonical u.abs := by
  cases u <;> exact h

/-- The parts of an opposite. -/
lemma parts_neg (x : Float) : parts (-x) = (parts x).neg := parts_ofParts (canonical_parts x).neg

/-- The parts of an absolute value. -/
lemma parts_abs (x : Float) : parts (Scalar.abs x) = (parts x).abs :=
  parts_ofParts (canonical_parts x).abs

/-- One, or its opposite. -/
def unit (s : Sign) : UnpackedFloat := .finite s (2 ^ 52) (-52) (Nat.two_pow_pos 52)

/-- A number, or its opposite. -/
def turned (s : Sign) (u : UnpackedFloat) : UnpackedFloat :=
  match s with
  | .positive => u
  | .negative => u.neg

/-- The parts of one. -/
lemma parts_one : parts 1 = unit .positive := rfl

/-- The parts of the opposite of one. -/
lemma parts_neg_one : parts (-1) = unit .negative := parts_neg 1

/-- What is put together from a zero is zero. -/
lemma isZero_ofParts {u : UnpackedFloat} (h : ∃ s, u = .zero s) : IsZero (ofParts u) := by
  obtain ⟨s, rfl⟩ := h
  exact isZero_iff.mpr ⟨s, parts_ofParts trivial⟩

/-- A finite double is zero, or has a mantissa. -/
lemma parts_of_isFinite {x : Float} (h : x.isFinite = true) :
    (∃ s, parts x = .zero s) ∨ ∃ s m e hm, parts x = .finite s m e hm := by
  have hfinite : (parts x).isFinite = true := h
  cases hparts : parts x with
  | zero s => exact .inl ⟨s, rfl⟩
  | finite s m e hm => exact .inr ⟨s, m, e, hm, rfl⟩
  | notANumber | infinity s =>
    rw [hparts] at hfinite
    cases hfinite

/-- A finite double other than zero has a mantissa. -/
lemma parts_of_not_isZero {x : Float} (h : x.isFinite = true) (hx : ¬ IsZero x) :
    ∃ s m e hm, parts x = .finite s m e hm :=
  (parts_of_isFinite h).resolve_left fun hzero => hx (isZero_iff.mpr hzero)

/-- A double agrees with what is put together from its parts, or from any zero if it is zero. -/
lemma agrees_ofParts {u : UnpackedFloat} {x : Float}
    (h : u = parts x ∨ (∃ s, u = .zero s) ∧ IsZero x) : Agrees (ofParts u) x := by
  rcases h with rfl | ⟨hu, hx⟩
  · exact .inl (ofParts_parts x)
  · exact .inr ⟨isZero_ofParts hu, hx⟩

/-- An absolute value of zero is zero itself. -/
lemma abs_of_isZero {z : Float} (hz : IsZero z) : Scalar.abs z = 0 := by
  obtain ⟨s, hs⟩ := isZero_iff.mp hz
  have hparts : parts (Scalar.abs z) = parts 0 := by
    rw [parts_abs, hs]
    rfl
  rw [← ofParts_parts (Scalar.abs z), hparts, ofParts_parts]

/-! ## Sums and differences -/

/-- The choice between two zeros is a zero. -/
lemma exists_ite_zero (c : Prop) [Decidable c] (s t : Sign) :
    ∃ r, (if c then UnpackedFloat.zero s else .zero t) = .zero r := by
  split
  · exact ⟨s, rfl⟩
  · exact ⟨t, rfl⟩

/-- A sum with zero. -/
lemma add_isZero (x : Float) {z : Float} (hz : IsZero z) : Agrees (x + z) x := by
  obtain ⟨t, ht⟩ := isZero_iff.mp hz
  refine agrees_ofParts (u := UnpackedFloat.add .binary64 (parts x) (parts z)) ?_
  rw [ht]
  cases hx : parts x with
  | zero s => exact .inr ⟨exists_ite_zero _ _ _, isZero_iff.mpr ⟨s, hx⟩⟩
  | _ => exact .inl rfl

/-- The sum of zero and another number. -/
lemma isZero_add (x : Float) {z : Float} (hz : IsZero z) : Agrees (z + x) x := by
  obtain ⟨t, ht⟩ := isZero_iff.mp hz
  refine agrees_ofParts (u := UnpackedFloat.add .binary64 (parts z) (parts x)) ?_
  rw [ht]
  cases hx : parts x with
  | zero s => exact .inr ⟨exists_ite_zero _ _ _, isZero_iff.mpr ⟨s, hx⟩⟩
  | _ => exact .inl rfl

/-- A difference from zero. -/
lemma sub_isZero (x : Float) {z : Float} (hz : IsZero z) : Agrees (x - z) x := by
  obtain ⟨t, ht⟩ := isZero_iff.mp hz
  refine agrees_ofParts (u := UnpackedFloat.sub .binary64 (parts x) (parts z)) ?_
  rw [ht]
  cases hx : parts x with
  | zero s => exact .inr ⟨exists_ite_zero _ _ _, isZero_iff.mpr ⟨s, hx⟩⟩
  | _ => exact .inl rfl

/-- The difference of zero from another number. -/
lemma isZero_sub (x : Float) {z : Float} (hz : IsZero z) : Agrees (z - x) (-x) := by
  obtain ⟨t, ht⟩ := isZero_iff.mp hz
  refine agrees_ofParts (u := UnpackedFloat.sub .binary64 (parts z) (parts x)) ?_
  rw [ht, parts_neg]
  cases hx : parts x with
  | zero s => exact .inr ⟨exists_ite_zero _ _ _, isZero_iff.mpr ⟨-s, by rw [parts_neg, hx]; rfl⟩⟩
  | _ => exact .inl rfl

/-! ## Products and quotients -/

/-- What is put together from the parts of a double is that double. -/
lemma ofParts_eq {u : UnpackedFloat} {x : Float} (h : u = parts x) : ofParts u = x := by
  rw [h, ofParts_parts]

/-- A product with one or its opposite. -/
lemma mul_unit (x : Float) (t : Sign) :
    UnpackedFloat.mul .binary64 (parts x) (unit t) = turned t (parts x) := by
  have hx := canonical_parts x
  cases hparts : parts x with
  | notANumber => cases t <;> rfl
  | zero s | infinity s => cases s <;> cases t <;> rfl
  | finite s m e hm =>
    rw [hparts] at hx
    have hround := roundWithAccuracy_exact hx 52 (s * t)
    refine hround.trans ?_
    cases s <;> cases t <;> rfl

/-- The quotient by one before rounding is the number with some zeros.

**Proof sketch.** The mantissa of one is `2 ^ 52`. The dividend is shifted by 52 bits and some more,
so the integer quotient is its mantissa with these additional bits, and there is no rest. -/
lemma exists_divCore_unit {s : Sign} {m : Nat} {e : Int} {hm : 0 < m}
    (h : Canonical (.finite s m e hm)) :
    ∃ k : Nat, divCore .binary64 m e (2 ^ 52) (-52) = (m * 2 ^ k, e - k, .exact) := by
  have htarget := targetExponent_of_canonical h
  have hlow := h.2.1
  have hone : totalExponent (2 ^ 52) (-52) = 1 := by
    rw [totalExponent, Nat.log2_two_pow]
    rfl
  rw [targetExponent_eq] at htarget
  rw [divCore, hone, targetExponent_eq]
  generalize ht : min (e - -52) (max (totalExponent m e - 1 - 53) (-1074)) = t
  obtain ⟨k, hk⟩ : ∃ k : Nat, e - t = k := Int.eq_ofNat_of_zero_le (by omega)
  have hshift : m <<< (e - -52 - t).toNat = m * 2 ^ k * 2 ^ 52 := by
    rw [Nat.shiftLeft_eq, Nat.mul_assoc, ← Nat.pow_add]
    congr 2
    omega
  refine ⟨k, ?_⟩
  simp only [hshift, accuracyOfFraction, Nat.mul_div_cancel _ (Nat.two_pow_pos 52),
    Nat.mul_mod_left, if_true, Prod.mk.injEq, true_and, and_true]
  omega

/-- A quotient by one or its opposite. -/
lemma div_unit (x : Float) (t : Sign) :
    UnpackedFloat.div .binary64 (parts x) (unit t) = turned t (parts x) := by
  have hx := canonical_parts x
  cases hparts : parts x with
  | notANumber => cases t <;> rfl
  | zero s | infinity s => cases s <;> cases t <;> rfl
  | finite s m e hm =>
    rw [hparts] at hx
    obtain ⟨k, hk⟩ := exists_divCore_unit hx
    rw [unit, UnpackedFloat.div, hk]
    refine (roundWithAccuracy_exact hx k (s / t)).trans ?_
    cases s <;> cases t <;> rfl

/-- The quotient of a number by itself before rounding is one with one zero more. -/
lemma divCore_self {m : Nat} (hm : 0 < m) (e : Int) :
    divCore .binary64 m e m e = (2 ^ 53, -53, .exact) := by
  have htarget : min (e - e) (Format.binary64.targetExponent
      (totalExponent m e - totalExponent m e)) = -53 := by
    rw [Int.sub_self, Int.sub_self]
    rfl
  have hshift : m <<< (e - e - -53).toNat = 2 ^ 53 * m := by
    rw [Int.sub_self, Nat.shiftLeft_eq, Nat.mul_comm]
    rfl
  rw [divCore]
  simp only [htarget, hshift, accuracyOfFraction, Nat.mul_div_cancel _ hm, Nat.mul_mod_left,
    if_true]

/-- A finite double other than zero over its absolute value. -/
lemma div_abs {x : Float} (hfinite : x.isFinite = true) (hx : ¬ IsZero x) :
    x / Scalar.abs x = 1 ∨ x / Scalar.abs x = -1 := by
  obtain ⟨s, m, e, hm, hparts⟩ := parts_of_not_isZero hfinite hx
  have hquotient : UnpackedFloat.div .binary64 (parts x) (parts (Scalar.abs x)) =
      unit (s / .positive) := by
    have hunit : Canonical (unit .positive) := canonical_parts 1
    rw [parts_abs, hparts, UnpackedFloat.abs, UnpackedFloat.div, divCore_self hm]
    exact roundWithAccuracy_exact hunit 1 (s / .positive)
  have hvalue : x / Scalar.abs x = ofParts (unit (s / .positive)) := congrArg ofParts hquotient
  cases s with
  | positive => exact .inl (hvalue.trans (ofParts_eq parts_one.symm))
  | negative => exact .inr (hvalue.trans (ofParts_eq parts_neg_one.symm))

/-- A product of a finite number with zero. -/
lemma mul_isZero {x z : Float} (hfinite : x.isFinite = true) (hz : IsZero z) : IsZero (x * z) := by
  obtain ⟨t, ht⟩ := isZero_iff.mp hz
  refine isZero_ofParts (u := UnpackedFloat.mul .binary64 (parts x) (parts z)) ?_
  rcases parts_of_isFinite hfinite with ⟨s, hs⟩ | ⟨s, m, e, hm, hs⟩
  · exact ⟨s * t, by rw [hs, ht]; rfl⟩
  · exact ⟨s * t, by rw [hs, ht]; rfl⟩

/-- A product of zero with a finite number. -/
lemma isZero_mul {x z : Float} (hfinite : x.isFinite = true) (hz : IsZero z) : IsZero (z * x) := by
  obtain ⟨t, ht⟩ := isZero_iff.mp hz
  refine isZero_ofParts (u := UnpackedFloat.mul .binary64 (parts z) (parts x)) ?_
  rcases parts_of_isFinite hfinite with ⟨s, hs⟩ | ⟨s, m, e, hm, hs⟩
  · exact ⟨t * s, by rw [hs, ht]; rfl⟩
  · exact ⟨t * s, by rw [hs, ht]; rfl⟩

/-- A quotient of zero by a finite number other than zero. -/
lemma isZero_div {x z : Float} (hfinite : x.isFinite = true) (hx : ¬ IsZero x) (hz : IsZero z) :
    IsZero (z / x) := by
  obtain ⟨t, ht⟩ := isZero_iff.mp hz
  obtain ⟨s, m, e, hm, hs⟩ := parts_of_not_isZero hfinite hx
  refine isZero_ofParts (u := UnpackedFloat.div .binary64 (parts z) (parts x)) ⟨t / s, ?_⟩
  rw [hs, ht]
  rfl

/-! ## Lengths along an axis -/

/-- The square root of a square before rounding is exact. -/
lemma exists_sqrtCore_square (m j : Nat) (e : Int) :
    ∃ k : Nat, sqrtCore .binary64 (m * 2 ^ j * (m * 2 ^ j)) (2 * (e - j)) =
      (m * 2 ^ k, e - k, .exact) := by
  have hhalf : (2 * (e - j)).ediv 2 = e - j := Int.mul_ediv_cancel_left _ (by decide)
  rw [sqrtCore, hhalf]
  generalize ht : min (e - j) _ = t
  obtain ⟨i, hi⟩ : ∃ i : Nat, e - j - t = i := Int.eq_ofNat_of_zero_le (by omega)
  have hshift : (m * 2 ^ j * (m * 2 ^ j)) <<< (2 * (e - j) - 2 * t).toNat =
      m * 2 ^ (j + i) * (m * 2 ^ (j + i)) := by
    have hamount : (2 * (e - j) - 2 * t).toNat = i + i := by omega
    rw [hamount, Nat.shiftLeft_eq, Nat.pow_add, Nat.pow_add]
    ac_rfl
  refine ⟨j + i, ?_⟩
  simp only [hshift, Nat.sqrt_eq, Nat.sub_self, if_true, Prod.mk.injEq, true_and, and_true]
  omega

/-- The length of a number and a zero, before it is put together. -/
lemma root_square {s : Sign} {m : Nat} {e : Int} {hm : 0 < m}
    (h : Canonical (.finite s m e hm)) :
    Hypotenuse.root (Hypotenuse.sumOfSquares m e 0 0).1 (Hypotenuse.sumOfSquares m e 0 0).2 =
      .finite .positive m e hm := by
  obtain ⟨j, hj⟩ : ∃ j : Nat, e - min e 0 = j := Int.eq_ofNat_of_zero_le (by omega)
  have hsum : Hypotenuse.sumOfSquares m e 0 0 = (m * 2 ^ j * (m * 2 ^ j), 2 * (e - j)) := by
    have hlow : min e 0 = e - j := by omega
    rw [Hypotenuse.sumOfSquares]
    simp only [hlow, Int.sub_sub_self, Int.toNat_natCast, Nat.shiftLeft_eq, Nat.zero_mul,
      Nat.add_zero]
  have hpos : 0 < m * 2 ^ j * (m * 2 ^ j) :=
    Nat.mul_pos (Nat.mul_pos hm (Nat.two_pow_pos j)) (Nat.mul_pos hm (Nat.two_pow_pos j))
  obtain ⟨k, hk⟩ := exists_sqrtCore_square m j e
  rw [hsum, Hypotenuse.root, dif_pos hpos, UnpackedFloat.sqrt, hk]
  exact roundWithAccuracy_exact h k .positive

/-- A length along an axis.

**Proof sketch.** By the parts of the first component. If this is not finite, or is zero, the length
is its absolute value by definition. Otherwise the length is the rounded root of a square, which is
exact (`root_square`). -/
lemma hypot_isZero (x : Float) {z : Float} (hz : IsZero z) :
    Hypot.hypot x z = Scalar.abs x := by
  obtain ⟨t, ht⟩ := isZero_iff.mp hz
  have hx := canonical_parts x
  have habs : Scalar.abs x = ofParts (parts x).abs := rfl
  have hzinf : z.isInf = false := congrArg UnpackedFloat.isInf ht
  have hxinf : x.isInf = (parts x).isInf := rfl
  have hzparts : z.toModel.unpack = .zero t := ht
  have hxparts : x.toModel.unpack = parts x := rfl
  show Hypotenuse.hypotenuse x z = _
  rw [Hypotenuse.hypotenuse, hzinf, hxinf, Bool.or_false, habs, hzparts, hxparts]
  cases hparts : parts x with
  | infinity s => rfl
  | notANumber => rfl
  | zero s => rfl
  | finite s m e hm =>
    rw [hparts] at hx
    exact congrArg ofParts (root_square hx)

/-! ## The range of ratios -/

/-- The size of a number that is not above another one in absolute value.

**Proof sketch.** Absolute values are compared by exponent and then by mantissa. With a smaller
exponent the mantissa of the first number has at most 53 bits and that of the second one exactly 53,
since its exponent is not the least one; with the same exponent the number of bits follows the
mantissas. -/
lemma totalExponent_le_of_not_lt {x y : Float} {s t : Sign} {m n : Nat} {e f : Int} {hm : 0 < m}
    {hn : 0 < n} (hx : parts x = .finite s m e hm) (hy : parts y = .finite t n f hn)
    (h : ¬ Scalar.abs y < Scalar.abs x) : totalExponent m e ≤ totalExponent n f := by
  have hcanonical := canonical_parts x
  have hcanonical' := canonical_parts y
  rw [hx] at hcanonical
  rw [hy] at hcanonical'
  obtain ⟨hlt, hlow, -, -⟩ := hcanonical
  obtain ⟨hlt', -, -, hnormal'⟩ := hcanonical'
  have hplace : place? (parts (Scalar.abs x)) = some (toLex (1, toLex (e, (m : Int)))) := by
    rw [parts_abs, hx]
    rfl
  have hplace' : place? (parts (Scalar.abs y)) = some (toLex (1, toLex (f, (n : Int)))) := by
    rw [parts_abs, hy]
    rfl
  have hbelow : ¬ (f < e ∨ f = e ∧ n < m) := fun hbelow => h <| by
    rw [lt_iff, hplace, hplace']
    refine ⟨_, rfl, _, rfl, ?_⟩
    simp only [Prod.Lex.toLex_lt_toLex, true_and]
    omega
  have hlog := (Nat.log2_lt hm.ne').mpr hlt
  rw [totalExponent, totalExponent]
  rcases Int.lt_trichotomy e f with hless | rfl | hmore
  · have hbits := (log2_eq_iff hn hlt').mpr (hnormal'.resolve_right (by omega))
    omega
  · have hmono : m.log2 ≤ n.log2 := (Nat.le_log2 hn.ne').mpr ((Nat.log2_self_le hm.ne').trans
      (by omega))
    omega
  · exact absurd (.inl hmore) hbelow

/-- The opposite of a number has the same exponent. -/
lemma AtMost.neg {b : Int} {u : UnpackedFloat} (h : AtMost b u) : AtMost b u.neg := by
  cases u <;> exact h

/-- The ratio of a number and one that is not below it in absolute value is small.

**Proof sketch.** The dividend is zero, or its size is at most that of the divisor
(`totalExponent_le_of_not_lt`), which limits the exponent of the quotient (`atMost_div`). -/
lemma atMost_ratio {x y : Float} (hx : x.isFinite = true) (hy : y.isFinite = true)
    (hzero : ¬ IsZero y) (h : ¬ Scalar.abs y < Scalar.abs x) :
    AtMost 0 (parts (x / Scalar.abs y)) := by
  obtain ⟨t, n, f, hn, hparts⟩ := parts_of_not_isZero hy hzero
  have hvalue : parts (x / Scalar.abs y) = parts (ofParts
      (UnpackedFloat.div .binary64 (parts x) (.finite .positive n f hn))) := by
    show parts (ofParts (UnpackedFloat.div .binary64 (parts x) (parts (Scalar.abs y)))) = _
    rw [parts_abs, hparts]
    rfl
  rw [hvalue]
  rcases parts_of_isFinite hx with ⟨s, hs⟩ | ⟨s, m, e, hm, hs⟩
  · rw [hs]
    exact (atMost_parts_ofParts (b := 0) (u := .zero _) trivial (by decide)).mono (by decide)
  · rw [hs]
    have hsize := totalExponent_le_of_not_lt hs hparts h
    exact (atMost_parts_ofParts (atMost_div (b := 0) (by omega) (by decide)) (by decide)).mono
      (by decide)

/-- One more than a small number is finite. -/
lemma isFinite_one_add {x : Float} (h : AtMost 0 (parts x)) : (1 + x).isFinite = true := by
  have hone : AtMost 0 (parts 1) := (by decide : (-52 : Int) ≤ 0)
  have hsum := atMost_add (canonical_parts 1) (canonical_parts x) hone h (by decide)
  exact (atMost_parts_ofParts hsum (by decide)).isFinite

/-- **A ratio of at most one** is finite, also next to one. -/
theorem isFinite_ratio {x y : Float} (hx : x.isFinite = true) (hy : y.isFinite = true)
    (hzero : ¬ IsZero y) (h : ¬ Scalar.abs y < Scalar.abs x) :
    (x / Scalar.abs y).isFinite = true ∧ (1 + x / Scalar.abs y).isFinite = true ∧
      (1 + -(x / Scalar.abs y)).isFinite = true := by
  have hratio := atMost_ratio hx hy hzero h
  refine ⟨hratio.isFinite, isFinite_one_add hratio, isFinite_one_add ?_⟩
  rw [parts_neg]
  exact hratio.neg

/-! ## The laws -/

/-- A product with one is the number itself. -/
lemma mul_one (x : Float) : x * 1 = x := ofParts_eq (mul_unit x .positive)

/-- A product with the opposite of one is the opposite. -/
lemma mul_neg_one (x : Float) : x * -1 = -x := by
  have hproduct : x * -1 = ofParts (UnpackedFloat.mul .binary64 (parts x) (parts (-1))) := rfl
  rw [hproduct, parts_neg_one]
  exact ofParts_eq ((mul_unit x .negative).trans (parts_neg x).symm)

/-- A quotient by one is the number itself. -/
lemma div_one (x : Float) : x / 1 = x := ofParts_eq (div_unit x .positive)

/-- A quotient by the opposite of one is the opposite. -/
lemma div_neg_one (x : Float) : x / -1 = -x := by
  have hquotient : x / -1 = ofParts (UnpackedFloat.div .binary64 (parts x) (parts (-1))) := rfl
  rw [hquotient, parts_neg_one]
  exact ofParts_eq ((div_unit x .negative).trans (parts_neg x).symm)

/-- An absolute value is as finite as the number. -/
lemma isFinite_abs (x : Float) : (Scalar.abs x).isFinite = x.isFinite := by
  show (parts (Scalar.abs x)).isFinite = (parts x).isFinite
  rw [parts_abs]
  cases parts x <;> rfl

/-- An opposite is as finite as the number. -/
lemma isFinite_neg (x : Float) : (-x).isFinite = x.isFinite := by
  show (parts (-x)).isFinite = (parts x).isFinite
  rw [parts_neg]
  cases parts x <;> rfl

/-- The opposite of zero is zero. -/
lemma isZero_neg {z : Float} (hz : IsZero z) : IsZero (-z) := by
  obtain ⟨s, hs⟩ := isZero_iff.mp hz
  exact isZero_iff.mpr ⟨-s, by rw [parts_neg, hs]; rfl⟩

/-- Zero is finite. -/
lemma isFinite_of_isZero {z : Float} (hz : IsZero z) : z.isFinite = true := by
  obtain ⟨s, hs⟩ := isZero_iff.mp hz
  exact congrArg UnpackedFloat.isFinite hs

/-- Zero is no larger than the spacing of the doubles at one. -/
lemma le_epsilon_of_isZero {z : Float} (hz : IsZero z) : z ≤ Scalar.epsilon := by
  obtain ⟨s, hs⟩ := isZero_iff.mp hz
  have hepsilon : place? (parts Scalar.epsilon) =
      some (toLex (1, toLex (-104, ((2 ^ 52 : Nat) : Int)))) := rfl
  rw [le_iff, hs, hepsilon]
  refine ⟨_, rfl, _, rfl, ?_⟩
  rw [Prod.Lex.toLex_le_toLex]
  exact .inl Int.one_pos

/-- **Zero and one among doubles.** -/
instance instRealLawsFloat : Scalar.RealLaws Float where
  isZero_zero := isZero_iff.mpr ⟨.positive, rfl⟩
  not_isZero_one := fun h => by
    obtain ⟨s, hs⟩ := isZero_iff.mp h
    exact UnpackedFloat.noConfusion (parts_one.symm.trans hs)
  isFinite_one := congrArg UnpackedFloat.isFinite parts_one
  isFinite_of_isZero _ := isFinite_of_isZero
  le_epsilon_of_isZero _ := le_epsilon_of_isZero
  abs_of_isZero _ := abs_of_isZero
  isFinite_abs := isFinite_abs
  isZero_neg _ := isZero_neg
  isFinite_neg := isFinite_neg
  neg_neg_one := (ofParts_eq (by rw [parts_neg_one]; rfl) : ofParts (parts (-1)).neg = 1)
  add_isZero _ _ := add_isZero _
  isZero_add _ _ := isZero_add _
  sub_isZero _ _ := sub_isZero _
  isZero_sub _ _ := isZero_sub _
  mul_one := mul_one
  mul_neg_one := mul_neg_one
  div_one := div_one
  div_neg_one := div_neg_one
  mul_isZero _ _ := mul_isZero
  isZero_mul _ _ := isZero_mul
  isZero_div _ _ := isZero_div
  div_abs _ := div_abs
  hypot_isZero _ _ := hypot_isZero _
  lt_asymm _ _ := lt_asymm
  isFinite_ratio _ _ := isFinite_ratio

end Ohmic.Binary64
