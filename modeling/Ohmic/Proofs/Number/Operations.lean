import Ohmic.Proofs.Number.Nearest

set_option autoImplicit false

/-!
# Operations on doubles as rounded operations

A sum, a difference, a product or a quotient of finite doubles is what the exact result is rounded
to. The exact mantissa and exponent that the operation computes are rounded from an exponent that is
small enough for nothing to be lost but what is less than half a unit in the last place.

## Main definitions

* `Binary64.Undefined` — not a number.

## Main results

* `Binary64.rounds_add`, `Binary64.rounds_sub`, `Binary64.rounds_mul`, `Binary64.rounds_div` — the
  operations on finite doubles.
* `Binary64.abs_value_add_sub_le` — a sum has no error other than the relative one.
* `Binary64.parts_infinity_mul`, `Binary64.parts_mul_infinity` — infinities times positive doubles.
* `Binary64.isZero_div_infinity`, `Binary64.undefined_isZero_div` — quotients by infinity, and of
  zeros.
-/

namespace Ohmic.Binary64

open Float.Model (UnpackedFloat Format totalExponent)
open Float.Model.UnpackedFloat (Sign Accuracy roundWithAccuracy divCore)
open Scalar (IsZero Agrees Positive)

/-! ## Mantissas that are rounded -/

/-- A sign and a mantissa that stand for a number. -/
lemma withSign_mul_zpow (s : Sign) (m : ℕ) (e : ℤ) :
    withSign s (m * 2 ^ e) = (s.apply m : ℤ) * 2 ^ e := by
  cases s <;> simp [withSign, Sign.apply]

/-- What a mantissa and an exponent stand for is rounded to the double put together after they have
been brought to its exponent. -/
lemma rounds_roundWithAccuracy {m : ℕ} {e : ℤ} {accuracy : Accuracy} {x : ℚ}
    (hx : Stands (.ofMantissaAndAccuracy m accuracy) x)
    (he : e ≤ Format.binary64.targetExponent (totalExponent m e)) (s : Sign) :
    Rounds (withSign s (x * 2 ^ e)) (ofParts (roundWithAccuracy .binary64 s m e accuracy)) := by
  obtain ⟨n, t, hnearest, hsettled, hvalue⟩ := exists_nearest hx he s
  exact rounds_ofParts hnearest hsettled hvalue

/-- A mantissa that may have too few bits is given zeros before. -/
lemma rounds_round {m : ℕ} (hm : 0 < m) (e : ℤ) (s : Sign) :
    Rounds (withSign s (m * 2 ^ e)) (ofParts (UnpackedFloat.round .binary64 s m e)) := by
  rw [UnpackedFloat.round]
  dsimp only
  rw [decreaseExponent_eq]
  dsimp only
  generalize hk : (e - Format.binary64.targetExponent (totalExponent m e)).toNat = k
  have hsame : ((m * 2 ^ k : ℕ) : ℚ) * 2 ^ (e - k) = m * 2 ^ e := by
    rw [Nat.cast_mul, mul_assoc, zpow_eq_mul_pow (Int.sub_le_self e (Int.natCast_nonneg k))]
    simp
  rw [← hsame]
  refine rounds_roundWithAccuracy (stands_exact _) ?_ s
  rw [totalExponent_mul_two_pow hm]
  omega

/-- A signed mantissa is rounded as its absolute value is.

**Proof sketch.** By the sign of the mantissa. Zero is put together exactly, and otherwise the
absolute value is rounded with the sign (`rounds_round`). -/
lemma rounds_normalize (m e : ℤ) (s : Sign) :
    Rounds (m * 2 ^ e) (ofParts (UnpackedFloat.normalize .binary64 m e s)) := by
  rw [UnpackedFloat.normalize]
  split
  · next h =>
    have hneg := Int.compare_eq_lt.mp h
    have hround := rounds_round (m := (-m).toNat) (by omega) e .negative
    have habs : (((-m).toNat : ℕ) : ℤ) = -m := Int.toNat_of_nonneg (by omega)
    rwa [withSign_mul_zpow, Sign.apply, habs, neg_neg] at hround
  · next h =>
    obtain rfl := Int.compare_eq_eq.mp h
    have hparts : parts (ofParts (.zero s)) = .zero s := parts_ofParts trivial
    have hzero := rounds_value (x := ofParts (.zero s)) (congrArg UnpackedFloat.isFinite hparts)
    rwa [value, hparts, rational, ← zero_mul ((2 : ℚ) ^ e), ← Int.cast_zero] at hzero
  · next h =>
    have hpos := Int.compare_eq_gt.mp h
    have hround := rounds_round (m := m.toNat) (by omega) e .positive
    have habs : ((m.toNat : ℕ) : ℤ) = m := Int.toNat_of_nonneg (by omega)
    rwa [withSign_mul_zpow, Sign.apply, habs] at hround

/-! ## Zeros -/

/-- Zero stands for zero. -/
lemma value_of_isZero {z : Float} (hz : IsZero z) : value z = 0 := by
  obtain ⟨s, hs⟩ := isZero_iff.mp hz
  rw [value, hs, rational]

/-- Zero is rounded to any zero. -/
lemma rounds_of_isZero {z : Float} (hz : IsZero z) : Rounds 0 z :=
  value_of_isZero hz ▸ rounds_value (isFinite_of_isZero hz)

/-- A double that agrees with a finite one is what the number of that one is rounded to. -/
lemma rounds_of_agrees {x z : Float} (hx : x.isFinite = true) (h : Agrees z x) :
    Rounds (value x) z := by
  rcases h with rfl | ⟨hz, hzero⟩
  · exact rounds_value hx
  · rw [value_of_isZero hzero]
    exact rounds_of_isZero hz

/-- A finite double is zero, or has a mantissa. -/
lemma isZero_or_exists_parts {x : Float} (hx : x.isFinite = true) :
    IsZero x ∨ ∃ s m e hm, parts x = .finite s m e hm :=
  (parts_of_isFinite hx).imp_left isZero_iff.mpr

/-! ## Sums and differences -/

/-- A mantissa that is given zeros stands for the same number. -/
lemma rational_eq_of_le (s : Sign) {m : ℕ} {e g : ℤ} (hm : 0 < m) (h : g ≤ e) :
    rational (.finite s m e hm) = (s.apply (m * 2 ^ (e - g).toNat : ℕ) : ℤ) * 2 ^ g := by
  rw [rational_finite, zpow_eq_mul_pow h, ← mul_assoc, ← Nat.cast_mul, withSign_mul_zpow]

/-- **Sums** are rounded once. -/
theorem rounds_add {x y : Float} (hx : x.isFinite = true) (hy : y.isFinite = true) :
    Rounds (value x + value y) (x + y) := by
  rcases isZero_or_exists_parts hx with hzero | ⟨s, m, e, hm, hs⟩
  · rw [value_of_isZero hzero, zero_add]
    exact rounds_of_agrees hy (isZero_add y hzero)
  rcases isZero_or_exists_parts hy with hzero | ⟨t, n, f, hn, ht⟩
  · rw [value_of_isZero hzero, add_zero]
    exact rounds_of_agrees hx (add_isZero x hzero)
  have hsum : x + y = ofParts (UnpackedFloat.add .binary64 (parts x) (parts y)) := rfl
  rw [hsum, value, value, hs, ht, UnpackedFloat.add]
  dsimp only
  rw [decreaseExponent_eq, decreaseExponent_eq, rational_eq_of_le s hm (min_le_left e f),
    rational_eq_of_le t hn (min_le_right e f), ← add_mul, ← Int.cast_add]
  exact rounds_normalize _ _ _

/-- A difference is a sum with the opposite. -/
lemma sub_eq_add_opposite (u v : UnpackedFloat) :
    UnpackedFloat.sub .binary64 u v = UnpackedFloat.add .binary64 u v.neg := by
  cases u <;> cases v
  case finite.finite s m e hm t n f hn =>
    have hsign : ∀ k : ℤ, t.apply k = -(-t).apply k := by
      intro k
      cases t
      · rfl
      · exact (neg_neg k).symm
    show UnpackedFloat.normalize _ (_ - _) _ _ = UnpackedFloat.normalize _ (_ + _) _ _
    rw [hsign, sub_neg_eq_add]
  all_goals rfl

/-- A difference of doubles is a sum with the opposite. -/
lemma sub_eq_add (x y : Float) : x - y = x + -y := by
  show ofParts (UnpackedFloat.sub .binary64 (parts x) (parts y)) =
    ofParts (UnpackedFloat.add .binary64 (parts x) (parts (-y)))
  rw [sub_eq_add_opposite, parts_neg]

/-- **Differences** are rounded once. -/
theorem rounds_sub {x y : Float} (hx : x.isFinite = true) (hy : y.isFinite = true) :
    Rounds (value x - value y) (x - y) := by
  have hneg : (-y).isFinite = true := by rwa [isFinite_neg]
  rw [sub_eq_add, sub_eq_add_neg, ← value_neg]
  exact rounds_add hx hneg

/-- **A sum has no error other than the relative one**: what would be lost below the least doubles
is not there.

**Proof sketch.** Finite doubles are multiples of the least positive one, and so are their sum and
its error. If the error is not at most the relative one, it is at most half of the least positive
double, hence zero. -/
theorem abs_value_add_sub_le {x y : Float} (hx : x.isFinite = true) (hy : y.isFinite = true)
    (hsum : (x + y).isFinite = true) :
    |value (x + y) - (value x + value y)| ≤ |value x + value y| / 2 ^ 53 := by
  rcases (rounds_add hx hy).error hsum with hrelative | habsolute
  · exact hrelative
  · obtain ⟨i, hi⟩ := exists_value_eq_mul hx
    obtain ⟨j, hj⟩ := exists_value_eq_mul hy
    obtain ⟨k, hk⟩ := exists_value_eq_mul hsum
    have hunit := zpow_pos' (-1074)
    -- a multiple of the least double that is at most half of it
    have hexact : value (x + y) - (value x + value y) = 0 := by
      have hmultiple : value (x + y) - (value x + value y) =
          ((k - (i + j) : ℤ) : ℚ) * 2 ^ (-1074 : ℤ) := by
        rw [hi, hj, hk, Int.cast_sub, Int.cast_add, sub_mul, add_mul]
      rw [hmultiple, abs_mul, abs_of_pos hunit] at habsolute
      have hsmall : |((k - (i + j) : ℤ) : ℚ)| < 1 := by
        refine lt_of_mul_lt_mul_right (habsolute.trans_lt ?_) hunit.le
        rw [one_mul]
        exact half_lt_self hunit
      have hnone : k - (i + j) = 0 := Int.abs_lt_one_iff.mp (by exact_mod_cast hsmall)
      rw [hmultiple, hnone, Int.cast_zero, zero_mul]
    rw [hexact, abs_zero]
    positivity

/-- A difference has no error other than the relative one. -/
lemma abs_value_sub_sub_le {x y : Float} (hx : x.isFinite = true) (hy : y.isFinite = true)
    (hdifference : (x - y).isFinite = true) :
    |value (x - y) - (value x - value y)| ≤ |value x - value y| / 2 ^ 53 := by
  have hneg : (-y).isFinite = true := by rwa [isFinite_neg]
  rw [sub_eq_add] at hdifference ⊢
  rw [sub_eq_add_neg (value x), ← value_neg]
  exact abs_value_add_sub_le hx hneg hdifference

/-- A difference of positive doubles is finite. -/
lemma isFinite_sub {x y : Float} (hx : x.isFinite = true) (hy : y.isFinite = true)
    (hxpos : 0 ≤ value x) (hypos : 0 ≤ value y) : (x - y).isFinite = true := by
  have hneg : (-y).isFinite = true := by rwa [isFinite_neg]
  have hrounds := rounds_sub hx hy
  exact isFinite_of_le_of_le hneg hx (hrounds.ge_of_ge hneg (by rw [value_neg]; linarith))
    (hrounds.le_of_le hx (by linarith))

/-! ## Products and quotients -/

/-- The sign of a product. -/
lemma withSign_mul_withSign (s t : Sign) (p q : ℚ) :
    withSign s p * withSign t q = withSign (s * t) (p * q) := by
  cases s <;> cases t
  case negative.negative => exact neg_mul_neg p q
  case negative.positive => exact neg_mul p q
  case positive.negative => exact mul_neg p q
  case positive.positive => rfl

/-- The sign of a quotient. -/
lemma withSign_div_withSign (s t : Sign) (p q : ℚ) :
    withSign s p / withSign t q = withSign (s / t) (p / q) := by
  cases s <;> cases t
  case negative.negative => exact neg_div_neg_eq p q
  case negative.positive => exact neg_div q p
  case positive.negative => exact div_neg p
  case positive.positive => rfl

/-- **Products** are rounded once.

**Proof sketch.** If a factor is zero, so are both products. Otherwise the product of the mantissas
is exact, and is rounded at the sum of the exponents. This is not above the exponent that the size
asks for: a factor with all bits gives the product at least as many, and without such a factor both
have the least exponent. -/
theorem rounds_mul {x y : Float} (hx : x.isFinite = true) (hy : y.isFinite = true) :
    Rounds (value x * value y) (x * y) := by
  rcases isZero_or_exists_parts hx with hzero | ⟨s, m, e, hm, hs⟩
  · rw [value_of_isZero hzero, zero_mul]
    exact rounds_of_isZero (isZero_mul hy hzero)
  rcases isZero_or_exists_parts hy with hzero | ⟨t, n, f, hn, ht⟩
  · rw [value_of_isZero hzero, mul_zero]
    exact rounds_of_isZero (mul_isZero hx hzero)
  have hleft := canonical_parts x
  have hright := canonical_parts y
  rw [hs] at hleft
  rw [ht] at hright
  have hproduct : x * y = ofParts (UnpackedFloat.mul .binary64 (parts x) (parts y)) := rfl
  rw [hproduct, value, value, hs, ht, UnpackedFloat.mul]
  have hsame : rational (.finite s m e hm) * rational (.finite t n f hn) =
      withSign (s * t) ((m * n : ℕ) * 2 ^ (e + f)) := by
    rw [rational_finite, rational_finite, withSign_mul_withSign, Nat.cast_mul,
      zpow_add₀ two_ne_zero, mul_mul_mul_comm]
  rw [hsame]
  refine rounds_roundWithAccuracy (stands_exact _) ?_ _
  -- one of the factors has all its bits, or both have the least exponent
  have hbits : 52 ≤ (m * n).log2 ∨ e + f ≤ -1074 := by
    have hlog : 2 ^ 52 ≤ m * n → 52 ≤ (m * n).log2 := (Nat.le_log2 (Nat.mul_pos hm hn).ne').mpr
    rcases hleft.2.2.2 with hfull | hleast
    · exact .inl (hlog (hfull.trans (Nat.le_mul_of_pos_right m hn)))
    · rcases hright.2.2.2 with hfull | hleast'
      · exact .inl (hlog (hfull.trans (Nat.le_mul_of_pos_left n hm)))
      · right
        omega
  rw [targetExponent_eq, totalExponent]
  omega

/-- A quotient that is to be rounded has all bits of a mantissa, unless the least exponent has been
reached.

**Proof sketch.** Above the least exponent, the dividend is shifted until it is at least `2 ^ 52`
times the divisor, and hence the integer quotient has all bits. -/
lemma le_targetExponent_div {m n : ℕ} {e f g : ℤ} (hm : 0 < m) (hn : 0 < n)
    (hg : min (e - f)
      (Format.binary64.targetExponent (totalExponent m e - totalExponent n f)) = g) :
    g ≤ Format.binary64.targetExponent (totalExponent (m * 2 ^ (e - f - g).toNat / n) g) := by
  rw [targetExponent_eq] at hg ⊢
  simp only [totalExponent] at hg ⊢
  rcases le_or_gt g (-1074) with hle | hgt
  · omega
  · have hbits : 2 ^ 52 * n ≤ m * 2 ^ (e - f - g).toNat := by
      have hlog := log2_mul_two_pow hm (e - f - g).toNat
      calc 2 ^ 52 * n ≤ 2 ^ 52 * 2 ^ (n.log2 + 1) :=
            Nat.mul_le_mul_left _ Nat.lt_log2_self.le
        _ = 2 ^ (52 + (n.log2 + 1)) := (Nat.pow_add ..).symm
        _ ≤ 2 ^ (m * 2 ^ (e - f - g).toNat).log2 := Nat.pow_le_pow_right Nat.two_pos (by omega)
        _ ≤ m * 2 ^ (e - f - g).toNat :=
          Nat.log2_self_le (Nat.mul_pos hm (Nat.two_pow_pos _)).ne'
    have hquotient : 2 ^ 52 ≤ m * 2 ^ (e - f - g).toNat / n := (Nat.le_div_iff_mul_le hn).mpr hbits
    have hlog := (Nat.le_log2 ((Nat.two_pow_pos 52).trans_le hquotient).ne').mpr hquotient
    omega

/-- **Quotients** are rounded once.

**Proof sketch.** If the dividend is zero, so are both quotients. Otherwise the dividend is shifted
such that the integer quotient of the mantissas has enough bits (`le_targetExponent_div`); the rest
is kept as its accuracy (`stands_div`), and the quotient is rounded once. -/
theorem rounds_div {x y : Float} (hx : x.isFinite = true) (hy : y.isFinite = true)
    (hzero : ¬ IsZero y) : Rounds (value x / value y) (x / y) := by
  obtain ⟨t, n, f, hn, ht⟩ := parts_of_not_isZero hy hzero
  rcases isZero_or_exists_parts hx with hnone | ⟨s, m, e, hm, hs⟩
  · rw [value_of_isZero hnone, zero_div]
    exact rounds_of_isZero (isZero_div hy hzero hnone)
  have hquotient : x / y = ofParts (UnpackedFloat.div .binary64 (parts x) (parts y)) := rfl
  rw [hquotient, value, value, hs, ht, UnpackedFloat.div, divCore]
  dsimp only
  generalize hg : min (e - f)
    (Format.binary64.targetExponent (totalExponent m e - totalExponent n f)) = g
  have hsame : rational (.finite s m e hm) / rational (.finite t n f hn) =
      withSign (s / t) (((m * 2 ^ (e - f - g).toNat : ℕ) : ℚ) / n * 2 ^ g) := by
    have hdiv : (m * 2 ^ e : ℚ) / (n * 2 ^ f) =
        ((m * 2 ^ (e - f - g).toNat : ℕ) : ℚ) / n * 2 ^ g := by
      rw [mul_div_mul_comm, ← zpow_sub₀ two_ne_zero, zpow_eq_mul_pow (hg ▸ min_le_left _ _),
        Nat.cast_mul]
      ring
    rw [← hdiv, rational_finite, rational_finite, withSign_div_withSign]
  rw [hsame, Nat.shiftLeft_eq]
  exact rounds_roundWithAccuracy (stands_div _ hn) (le_targetExponent_div hm hn hg) _

/-! ## Positive factors -/

/-- What is positive has a positive mantissa. -/
lemma exists_parts_of_value_pos {x : Float} (hx : x.isFinite = true) (h : 0 < value x) :
    ∃ m e hm, parts x = .finite .positive m e hm := by
  rcases parts_of_isFinite hx with ⟨s, hs⟩ | ⟨s, m, e, hm, hs⟩
  · rw [value, hs, rational] at h
    exact absurd h (lt_irrefl 0)
  · cases s with
    | positive => exact ⟨m, e, hm, hs⟩
    | negative =>
      have hpos : (0 : ℚ) < m * 2 ^ e := mul_pos (Nat.cast_pos.mpr hm) (zpow_pos' e)
      rw [value, hs, rational_finite, withSign] at h
      linarith

/-- What is positive is its own absolute value. -/
lemma abs_eq_self {x : Float} (h : Positive x) : Scalar.abs x = x := by
  obtain ⟨m, e, hm, hs⟩ := exists_parts_of_value_pos h.2 (value_pos h)
  have hparts : parts (Scalar.abs x) = parts x := by
    rw [parts_abs, hs]
    rfl
  rw [← ofParts_parts (Scalar.abs x), hparts, ofParts_parts]

/-- An infinity times a positive double is the same infinity. -/
lemma parts_infinity_mul {x y : Float} {s : Sign} (hx : parts x = .infinity s)
    (hy : y.isFinite = true) (hpos : 0 < value y) : parts (x * y) = .infinity s := by
  obtain ⟨m, e, hm, hs⟩ := exists_parts_of_value_pos hy hpos
  have hproduct : x * y = ofParts (UnpackedFloat.mul .binary64 (parts x) (parts y)) := rfl
  rw [hproduct, hx, hs, UnpackedFloat.mul]
  cases s <;> exact parts_ofParts trivial

/-- A positive double times an infinity is the same infinity. -/
lemma parts_mul_infinity {x y : Float} {s : Sign} (hx : x.isFinite = true) (hpos : 0 < value x)
    (hy : parts y = .infinity s) : parts (x * y) = .infinity s := by
  obtain ⟨m, e, hm, hs⟩ := exists_parts_of_value_pos hx hpos
  have hproduct : x * y = ofParts (UnpackedFloat.mul .binary64 (parts x) (parts y)) := rfl
  rw [hproduct, hy, hs, UnpackedFloat.mul]
  cases s <;> exact parts_ofParts trivial

/-! ## Infinities and undefined numbers -/

/-- A quotient by infinity. -/
lemma isZero_div_infinity {x y : Float} {s : Sign} (hx : x.isFinite = true)
    (hy : parts y = .infinity s) : IsZero (x / y) := by
  refine isZero_ofParts (u := UnpackedFloat.div .binary64 (parts x) (parts y)) ?_
  rw [hy]
  rcases parts_of_isFinite hx with ⟨r, hr⟩ | ⟨r, m, e, hm, hr⟩ <;> rw [hr] <;> exact ⟨r / s, rfl⟩

/-- Not a number. -/
def Undefined (x : Float) : Prop := parts x = .notANumber

/-- What is undefined is not finite. -/
lemma Undefined.isFinite_eq {x : Float} (hx : Undefined x) : x.isFinite = false :=
  congrArg UnpackedFloat.isFinite hx

/-- What is undefined cannot be compared. -/
lemma Undefined.not_le {x : Float} (hx : Undefined x) (y : Float) : ¬ x ≤ y := by
  rw [le_iff, hx]
  rintro ⟨a, ha, -⟩
  cases ha

/-- An operation with undefined results for undefined operands. -/
lemma undefined_ofParts (op : UnpackedFloat → UnpackedFloat → UnpackedFloat)
    (hleft : ∀ v, op .notANumber v = .notANumber) (hright : ∀ u, op u .notANumber = .notANumber)
    {x y : Float} (h : Undefined x ∨ Undefined y) :
    Undefined (ofParts (op (parts x) (parts y))) := by
  have hundefined : op (parts x) (parts y) = .notANumber := by
    rcases h with hx | hy
    · rw [hx, hleft]
    · rw [hy, hright]
  rw [hundefined]
  exact parts_ofParts trivial

/-- A sum with an undefined number. -/
lemma undefined_add {x y : Float} (h : Undefined x ∨ Undefined y) : Undefined (x + y) :=
  undefined_ofParts (UnpackedFloat.add .binary64) (fun v => by cases v <;> rfl)
    (fun u => by cases u <;> rfl) h

/-- A product with an undefined number. -/
lemma undefined_mul {x y : Float} (h : Undefined x ∨ Undefined y) : Undefined (x * y) :=
  undefined_ofParts (UnpackedFloat.mul .binary64) (fun v => by cases v <;> rfl)
    (fun u => by cases u <;> rfl) h

/-- A quotient with an undefined number. -/
lemma undefined_div {x y : Float} (h : Undefined x ∨ Undefined y) : Undefined (x / y) :=
  undefined_ofParts (UnpackedFloat.div .binary64) (fun v => by cases v <;> rfl)
    (fun u => by cases u <;> rfl) h

/-- A zero over a zero. -/
lemma undefined_isZero_div {x y : Float} (hx : IsZero x) (hy : IsZero y) : Undefined (x / y) := by
  obtain ⟨s, hs⟩ := isZero_iff.mp hx
  obtain ⟨t, ht⟩ := isZero_iff.mp hy
  have hquotient : x / y = ofParts (UnpackedFloat.div .binary64 (parts x) (parts y)) := rfl
  rw [hquotient, hs, ht]
  exact parts_ofParts trivial

end Ohmic.Binary64
