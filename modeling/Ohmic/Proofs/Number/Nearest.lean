import Ohmic.Proofs.Number.Value

set_option autoImplicit false

/-!
# Results nearest to exact ones

What an operation on doubles has computed is rounded once, to the nearest double. So the result is
on the same side of every double as the exact one, and off by at most half a unit in the last place.

## Main definitions

* `Binary64.Stands` — a number, and the mantissa with two residual bits that is kept of it.
* `Binary64.Nearest` — a number, and the nearest multiple of a power of two.
* `Binary64.Rounds` — a number, and the double that it is rounded to.

## Main results

* `Binary64.exists_nearest` — rounding gives the nearest multiple of the unit in the last place.
* `Binary64.rounds_ofParts` — and the double put together from it is what the number is rounded to.

## Implementation notes

How ties are broken is of no importance here, and is not stated.
-/

namespace Ohmic.Binary64

open Float.Model (UnpackedFloat Format totalExponent)
open Float.Model.UnpackedFloat (Sign Accuracy ExtendedMantissa roundWithAccuracy
  shiftToTargetExponent shiftToExponent accuracyOfFraction)

/-! ## Residual bits -/

/-- The number of which a mantissa, a round bit and a sticky bit are kept. The bits tell how what
was dropped compares to one half. -/
def Stands (em : ExtendedMantissa) (x : ℚ) : Prop :=
  match em.roundBit, em.stickyBit with
  | false, false => x = em.mantissa
  | false, true => em.mantissa < x ∧ x < em.mantissa + 1 / 2
  | true, false => x = em.mantissa + 1 / 2
  | true, true => em.mantissa + 1 / 2 < x ∧ x < em.mantissa + 1

/-- The mantissa is what is left of a number without its fraction. -/
lemma Stands.mantissa_le {em : ExtendedMantissa} {x : ℚ} (h : Stands em x) : em.mantissa ≤ x := by
  obtain ⟨m, r, s⟩ := em
  cases r <;> cases s <;> simp only [Stands] at h <;> linarith

/-- Half of a number is kept by what is kept of the number, moved by one place. -/
lemma Stands.shiftRightOne {em : ExtendedMantissa} {x : ℚ} (h : Stands em x) :
    Stands em.shiftRightOne (x / 2) := by
  obtain ⟨m, r, s⟩ := em
  have hsplit : (m : ℚ) = 2 * (m / 2 : ℕ) + (m % 2 : ℕ) := by
    exact_mod_cast (Nat.div_add_mod m 2).symm
  -- the last bit becomes the round bit, and what was below it only leaves a trace
  rcases Nat.mod_two_eq_zero_or_one m with hmod | hmod <;> rw [hmod] at hsplit <;>
    cases r <;> cases s <;>
    simp [Stands, ExtendedMantissa.shiftRightOne, hmod] at h hsplit ⊢ <;>
    first | linarith | (constructor <;> linarith)

/-- What is kept of a number, moved by some places. -/
lemma Stands.shiftRight {em : ExtendedMantissa} {x : ℚ} (h : Stands em x) (k : ℕ) :
    Stands (em >>> k) (x / 2 ^ k) := by
  show Stands (Nat.repeat ExtendedMantissa.shiftRightOne k em) _
  induction k with
  | zero => simpa [Nat.repeat] using h
  | succ k ih =>
    rw [Nat.repeat, pow_succ, ← div_div]
    exact ih.shiftRightOne

/-- **The rounded mantissa** is an integer nearest to the number. -/
theorem Stands.abs_roundedMantissa_sub_le {em : ExtendedMantissa} {x : ℚ} (h : Stands em x) :
    |em.roundedMantissa - x| ≤ 1 / 2 := by
  obtain ⟨m, r, s⟩ := em
  rw [abs_le]
  cases r <;> cases s <;>
    simp only [Stands, ExtendedMantissa.roundedMantissa, ExtendedMantissa.accuracy,
      Accuracy.roundToNearestEven] at h ⊢
  case true.false =>
    -- a tie, which goes to the even mantissa
    rcases Nat.mod_two_eq_zero_or_one m with hmod | hmod <;> rw [h, hmod] <;> push_cast <;>
      constructor <;> linarith
  all_goals push_cast; constructor <;> linarith

/-- An integer is kept as it is. -/
lemma stands_exact (m : ℕ) : Stands (.ofMantissaAndAccuracy m .exact) m := rfl

/-- A quotient is kept as its integer part, and how the rest compares to half of the divisor.

**Proof sketch.** The rest over the divisor is what the integer part lacks. It is zero, or compared
with one half as twice the rest is with the divisor, which are the cases of the accuracy. -/
lemma stands_div (m : ℕ) {n : ℕ} (hn : 0 < n) :
    Stands (.ofMantissaAndAccuracy (m / n) (accuracyOfFraction (m % n) n)) ((m : ℚ) / n) := by
  have hpos : (0 : ℚ) < n := Nat.cast_pos.mpr hn
  have hsplit : (m : ℚ) = n * (m / n : ℕ) + (m % n : ℕ) := by
    exact_mod_cast (Nat.div_add_mod m n).symm
  have hrest : ((m % n : ℕ) : ℚ) < n := by exact_mod_cast Nat.mod_lt m hn
  have hquotient : (m : ℚ) / n = (m / n : ℕ) + ((m % n : ℕ) : ℚ) / n := by
    rw [hsplit, add_div, mul_div_cancel_left₀ _ hpos.ne']
  rw [hquotient, accuracyOfFraction]
  split
  · next hzero => simp [hzero, Stands, ExtendedMantissa.ofMantissaAndAccuracy]
  · next hzero =>
    have hsome : (0 : ℚ) < (m % n : ℕ) := by exact_mod_cast Nat.pos_of_ne_zero hzero
    cases hcompare : compare (2 * (m % n)) n with
    | lt =>
      have hhalf : 2 * ((m % n : ℕ) : ℚ) < n := by exact_mod_cast Nat.compare_eq_lt.mp hcompare
      refine ⟨lt_add_of_pos_right _ (div_pos hsome hpos), add_lt_add_right ?_ _⟩
      rw [div_lt_div_iff₀ hpos two_pos]
      linarith
    | eq =>
      have hhalf : 2 * ((m % n : ℕ) : ℚ) = n := by exact_mod_cast Nat.compare_eq_eq.mp hcompare
      have hrest : ((m % n : ℕ) : ℚ) / n = 1 / 2 := by
        rw [div_eq_div_iff hpos.ne' two_ne_zero]
        linarith
      exact congrArg (((m / n : ℕ) : ℚ) + ·) hrest
    | gt =>
      have hhalf : (n : ℚ) < 2 * (m % n : ℕ) := by exact_mod_cast Nat.compare_eq_gt.mp hcompare
      refine ⟨add_lt_add_right ?_ _, add_lt_add_right ((div_lt_one hpos).mpr hrest) _⟩
      rw [div_lt_div_iff₀ two_pos hpos]
      linarith

/-! ## The nearest multiple of a unit -/

/-- A number and the nearest multiple of a power of two, which is the unit in the last place of a
double of that size. -/
structure Nearest (n : ℕ) (t : ℤ) (q : ℚ) : Prop where
  /-- The unit is not below that of the least doubles. -/
  low : -1074 ≤ t
  /-- The distance is at most half a unit. -/
  error : |n * 2 ^ t - q| ≤ 2 ^ t / 2
  /-- A larger unit is asked for by the size of the number. -/
  normal : t = -1074 ∨ 2 ^ 52 * 2 ^ t ≤ q

/-- The nearest multiple is not below a multiple that the number is not below. -/
lemma Nearest.le_of_mul_le {n : ℕ} {t : ℤ} {q : ℚ} (h : Nearest n t q) {k : ℤ}
    (hk : k * 2 ^ t ≤ q) : k ≤ n := by
  have hunit := zpow_pos' t
  have herror := (abs_le.mp h.error).1
  have hless : (k : ℚ) * 2 ^ t < (n + 1) * 2 ^ t := by linarith
  have hless : (k : ℚ) < n + 1 := lt_of_mul_lt_mul_right hless hunit.le
  exact Int.lt_add_one_iff.mp (by exact_mod_cast hless)

/-- The nearest multiple is not above a multiple that the number is not above. -/
lemma Nearest.le_of_le_mul {n : ℕ} {t : ℤ} {q : ℚ} (h : Nearest n t q) {k : ℤ}
    (hk : q ≤ k * 2 ^ t) : (n : ℤ) ≤ k := by
  have hunit := zpow_pos' t
  have herror := (abs_le.mp h.error).2
  have hless : (n : ℚ) * 2 ^ t < (k + 1) * 2 ^ t := by linarith
  have hless : (n : ℚ) < k + 1 := lt_of_mul_lt_mul_right hless hunit.le
  exact Int.lt_add_one_iff.mp (by exact_mod_cast hless)

/-- The nearest multiple has all bits of a mantissa, unless the unit is the least one. -/
lemma Nearest.normal_mantissa {n : ℕ} {t : ℤ} {q : ℚ} (h : Nearest n t q) :
    2 ^ 52 ≤ n ∨ t = -1074 :=
  h.normal.symm.imp_left fun hq => by
    have hle := h.le_of_mul_le (k := (2 ^ 52 : ℕ)) (by rwa [Int.cast_natCast, Nat.cast_pow])
    exact_mod_cast hle

/-- A double is a multiple of a unit, or its own unit is smaller, and it is below every number of
the size that asks for the larger one.

**Proof sketch.** By the exponent of the double. If it is at least `t`, the double is a multiple of
`2 ^ t`. If it is smaller, then `t` is not the least exponent, and the double is below
`2 ^ 53 * 2 ^ (t - 1)`, since its mantissa has at most 53 bits. -/
lemma exists_value_eq_mul_or_lt {w : Float} (hw : w.isFinite = true) (t : ℤ) :
    (∃ k : ℤ, value w = k * 2 ^ t) ∨ t ≠ -1074 ∧ value w < 2 ^ 52 * 2 ^ t := by
  have hcanonical := canonical_parts w
  rcases parts_of_isFinite hw with ⟨s, hs⟩ | ⟨s, m, f, hm, hs⟩
  · exact .inl ⟨0, by rw [value, hs, rational, Int.cast_zero, zero_mul]⟩
  · rw [hs] at hcanonical
    obtain ⟨hlt, hlow, -, -⟩ := hcanonical
    have hvalue : value w = (s.apply m : ℤ) * 2 ^ f := by rw [value, hs, rational]
    rcases lt_or_ge f t with hless | hmore
    · have hlt : (m : ℚ) < 2 ^ 53 := by exact_mod_cast hlt
      have hpos : (0 : ℚ) < m * 2 ^ f := mul_pos (Nat.cast_pos.mpr hm) (zpow_pos' f)
      refine .inr ⟨by omega, ?_⟩
      calc value w ≤ m * 2 ^ f := by
            rw [hvalue]
            cases s <;> simp only [Sign.apply, Int.cast_neg, Int.cast_natCast] <;> linarith
        _ < 2 ^ 53 * 2 ^ f := mul_lt_mul_of_pos_right hlt (zpow_pos' f)
        _ = 2 ^ 52 * 2 ^ (f + 1) := by
          rw [zpow_add_one₀ two_ne_zero]
          ring
        _ ≤ 2 ^ 52 * 2 ^ t := mul_le_mul_of_nonneg_left (zpow_le hless) (by positivity)
    · refine .inl ⟨s.apply m * (2 ^ (f - t).toNat : ℕ), ?_⟩
      rw [hvalue, zpow_eq_mul_pow hmore, Int.cast_mul, Int.cast_natCast, mul_assoc]

/-- The nearest multiple is not above a double that the number is not above. -/
lemma Nearest.le_value {n : ℕ} {t : ℤ} {q : ℚ} (h : Nearest n t q) {w : Float}
    (hw : w.isFinite = true) (hq : q ≤ value w) : n * 2 ^ t ≤ value w := by
  rcases exists_value_eq_mul_or_lt hw t with ⟨k, hk⟩ | ⟨ht, hlt⟩
  · rw [hk] at hq ⊢
    exact mul_le_mul_of_nonneg_right (by exact_mod_cast h.le_of_le_mul hq) (zpow_pos' t).le
  · exact absurd hlt (not_lt.mpr ((h.normal.resolve_left ht).trans hq))

/-- The nearest multiple is not below a double that the number is not below. -/
lemma Nearest.value_le {n : ℕ} {t : ℤ} {q : ℚ} (h : Nearest n t q) {w : Float}
    (hw : w.isFinite = true) (hq : value w ≤ q) : value w ≤ n * 2 ^ t := by
  rcases exists_value_eq_mul_or_lt hw t with ⟨k, hk⟩ | ⟨ht, hlt⟩
  · rw [hk] at hq ⊢
    exact mul_le_mul_of_nonneg_right (by exact_mod_cast h.le_of_mul_le hq) (zpow_pos' t).le
  · have hbits : (2 : ℚ) ^ 52 ≤ n := by exact_mod_cast h.normal_mantissa.resolve_right ht
    exact hlt.le.trans (mul_le_mul_of_nonneg_right hbits (zpow_pos' t).le)

/-- The error is half a unit in the last place: relative to the number, or that of the least
doubles. -/
lemma Nearest.relative_error {n : ℕ} {t : ℤ} {q : ℚ} (h : Nearest n t q) :
    |n * 2 ^ t - q| ≤ |q| / 2 ^ 53 ∨ |n * 2 ^ t - q| ≤ 2 ^ (-1074 : ℤ) / 2 := by
  have herror := h.error
  rcases h.normal with rfl | hnormal
  · exact .inr herror
  · left
    have hle := le_abs_self q
    linarith

/-! ## Rounding to a mantissa and an exponent -/

/-- A finite number with the mantissa of a double; the exponent may be too large for one. -/
def Settled : UnpackedFloat → Prop
  | .zero _ => True
  | .finite _ m e _ => m < 2 ^ 53 ∧ -1074 ≤ e ∧ (2 ^ 52 ≤ m ∨ e = -1074)
  | .infinity _ => False
  | .notANumber => False

/-- A number, or its opposite. -/
def withSign (s : Sign) (q : ℚ) : ℚ :=
  match s with
  | .positive => q
  | .negative => -q

/-- What parts with a mantissa stand for. -/
lemma rational_finite (s : Sign) (m : ℕ) (e : ℤ) (hm : 0 < m) :
    rational (.finite s m e hm) = withSign s (m * 2 ^ e) := by
  cases s with
  | positive => rfl
  | negative => rw [rational, Sign.apply, Int.cast_neg, Int.cast_natCast, neg_mul, withSign]

/-- A mantissa that has been rounded is brought to the exponent of a double, and loses nothing: it
has one bit too many only if it is a power of two.

**Proof sketch.** A mantissa of at most 53 bits is at its exponent already and is not shifted. The
only larger one is `2 ^ 53`, which is shifted by one bit, a zero. -/
lemma shiftToTargetExponent_rounded {n : ℕ} {t : ℤ} (hn : n ≤ 2 ^ 53) (ht : -1074 ≤ t)
    (hnormal : 2 ^ 52 ≤ n ∨ t = -1074) {em : ExtendedMantissa} {e : ℤ}
    (h : shiftToTargetExponent .binary64 n t .exact = (em, e)) :
    (em.mantissa : ℚ) * 2 ^ e = n * 2 ^ t ∧ em.mantissa < 2 ^ 53 ∧ -1074 ≤ e ∧
      (2 ^ 52 ≤ em.mantissa ∨ e = -1074) := by
  rw [shiftToTargetExponent, shiftToExponent, Prod.mk.injEq] at h
  obtain ⟨rfl, rfl⟩ := h
  rw [mantissa_shiftRight, mantissa_ofMantissaAndAccuracy, targetExponent_eq, totalExponent]
  rcases hn.lt_or_eq with hlt | rfl
  · have hnone : (max ((n.log2 : ℤ) + 1 + t - 53) (-1074) - t).toNat = 0 := by
      rcases Nat.eq_zero_or_pos n with rfl | hpos
      · rw [Nat.log2_zero]
        omega
      · have hbits := (Nat.log2_lt hpos.ne').mpr hlt
        omega
    rw [hnone, pow_zero, Nat.div_one, Nat.cast_zero, add_zero]
    exact ⟨rfl, hlt, ht, hnormal⟩
  · have hone : (max (((2 ^ 53 : ℕ).log2 : ℤ) + 1 + t - 53) (-1074) - t).toNat = 1 := by
      rw [Nat.log2_two_pow]
      omega
    have hhalf : 2 ^ 53 / 2 ^ 1 = 2 ^ 52 := by norm_num
    rw [hone, hhalf, Nat.cast_one, zpow_add_one₀ two_ne_zero]
    refine ⟨?_, by norm_num, by omega, .inl le_rfl⟩
    push_cast
    ring

/-- A number that asks for more than the least unit has all bits of a mantissa in that unit.

**Proof sketch.** If the exponent is not the least one, it is that at which the mantissa has 53
bits, so `2 ^ 52 * 2 ^ t` is what the leading bit of the mantissa stands for. -/
lemma normal_of_stands {m : ℕ} {e t : ℤ} {accuracy : Accuracy} {x : ℚ}
    (hx : Stands (.ofMantissaAndAccuracy m accuracy) x)
    (ht : Format.binary64.targetExponent (totalExponent m e) = t) (he : e ≤ t) :
    t = -1074 ∨ 2 ^ 52 * 2 ^ t ≤ x * 2 ^ e := by
  rw [targetExponent_eq, totalExponent] at ht
  by_cases hleast : t = -1074
  · exact .inl hleast
  · right
    have hm : m ≠ 0 := fun hzero => by
      rw [hzero, Nat.log2_zero] at ht
      omega
    have hlog : (2 : ℚ) ^ m.log2 ≤ m := by exact_mod_cast Nat.log2_self_le hm
    have hmantissa := hx.mantissa_le
    rw [mantissa_ofMantissaAndAccuracy] at hmantissa
    calc (2 : ℚ) ^ 52 * 2 ^ t = 2 ^ m.log2 * 2 ^ e := by
          rw [← zpow_natCast, ← zpow_natCast, ← zpow_add₀ two_ne_zero, ← zpow_add₀ two_ne_zero]
          congr 1
          omega
      _ ≤ x * 2 ^ e := mul_le_mul_of_nonneg_right (hlog.trans hmantissa) (zpow_pos' e).le

/-- A mantissa that is brought to the exponent that its size asks for, and rounded, is the nearest
multiple.

**Proof sketch.** The shift brings the mantissa to the exponent `t`, and what it drops is kept as
the accuracy, so the shifted mantissa stands for the number over `2 ^ t`. The rounded one is at most
one half away from that, hence half a unit from the number. -/
lemma nearest_roundedMantissa {m : ℕ} {e t : ℤ} {accuracy : Accuracy} {x : ℚ}
    {em : ExtendedMantissa} (hx : Stands (.ofMantissaAndAccuracy m accuracy) x)
    (he : e ≤ Format.binary64.targetExponent (totalExponent m e))
    (h : shiftToTargetExponent .binary64 m e accuracy = (em, t)) :
    Nearest em.roundedMantissa t (x * 2 ^ e) := by
  have ht := exponent_shiftToTargetExponent m e accuracy
  rw [max_eq_right he, h] at ht
  dsimp only at ht
  rw [← ht] at he
  have hem : em = ExtendedMantissa.ofMantissaAndAccuracy m accuracy >>> (t - e).toNat := by
    rw [shiftToTargetExponent, shiftToExponent, ← ht] at h
    exact (congrArg Prod.fst h).symm
  have hstands := hx.shiftRight (t - e).toNat
  rw [← hem] at hstands
  have hscaled : x / 2 ^ (t - e).toNat * 2 ^ t = x * 2 ^ e := by
    rw [zpow_eq_mul_pow he, Nat.cast_pow, Nat.cast_ofNat, ← mul_assoc,
      div_mul_cancel₀ _ (by positivity)]
  refine ⟨by rw [ht]; exact le_max_right _ _, ?_, normal_of_stands hx ht.symm he⟩
  calc |em.roundedMantissa * 2 ^ t - x * 2 ^ e|
      = |em.roundedMantissa - x / 2 ^ (t - e).toNat| * 2 ^ t := by
        rw [← hscaled, ← sub_mul, abs_mul, abs_of_pos (zpow_pos' t)]
    _ ≤ 1 / 2 * 2 ^ t :=
        mul_le_mul_of_nonneg_right hstands.abs_roundedMantissa_sub_le (zpow_pos' t).le
    _ = 2 ^ t / 2 := by ring

/-- **Rounding gives the nearest multiple** of the unit in the last place, if it starts from no
larger unit.

**Proof sketch.** The rounded mantissa is the nearest multiple (`nearest_roundedMantissa`). If
rounding carried into one more bit, it is brought to its exponent again without any loss
(`shiftToTargetExponent_rounded`), so the result stands for the same number. -/
theorem exists_nearest {m : ℕ} {e : ℤ} {accuracy : Accuracy} {x : ℚ}
    (hx : Stands (.ofMantissaAndAccuracy m accuracy) x)
    (he : e ≤ Format.binary64.targetExponent (totalExponent m e)) (sign : Sign) :
    ∃ n t, Nearest n t (x * 2 ^ e) ∧ Settled (roundWithAccuracy .binary64 sign m e accuracy) ∧
      rational (roundWithAccuracy .binary64 sign m e accuracy) = withSign sign (n * 2 ^ t) := by
  have hbound := roundedMantissa_shiftToTargetExponent_le m e accuracy
  rw [roundWithAccuracy]
  rcases hfirst : shiftToTargetExponent .binary64 m e accuracy with ⟨em, t⟩
  rw [hfirst] at hbound
  have hnearest := nearest_roundedMantissa hx he hfirst
  refine ⟨_, _, hnearest, ?_⟩
  dsimp only
  -- what rounding may have carried into is a power of two
  rcases hsecond : shiftToTargetExponent .binary64 em.roundedMantissa t .exact with ⟨final, f⟩
  obtain ⟨hsame, hsettled⟩ :=
    shiftToTargetExponent_rounded hbound hnearest.low hnearest.normal_mantissa hsecond
  dsimp only
  rw [← hsame]
  split
  · next hzero =>
    refine ⟨trivial, ?_⟩
    rw [hzero, Nat.cast_zero, zero_mul, rational]
    cases sign <;> simp [withSign]
  · exact ⟨hsettled, rational_finite _ _ _ _⟩

/-! ## Putting together -/

/-- A finite number that is put together is a double that stands for the same, or an infinity if
it is too large.

**Proof sketch.** By the exponent. Up to 971 a settled number is canonical, and its word is taken
apart into the same parts. From 972 on the word is that of an infinity, and the mantissa has 53
bits, so the number is at least `2 ^ 1024`. -/
lemma ofParts_of_settled {u : UnpackedFloat} (hu : Settled u) :
    (ofParts u).isFinite = true ∧ value (ofParts u) = rational u ∨
      ∃ s, parts (ofParts u) = .infinity s ∧ 2 ^ (1024 : ℤ) ≤ withSign s (rational u) := by
  cases u with
  | infinity | notANumber => exact hu.elim
  | zero s =>
    have hparts : parts (ofParts (.zero s)) = .zero s := parts_ofParts trivial
    exact .inl ⟨congrArg UnpackedFloat.isFinite hparts, congrArg rational hparts⟩
  | finite s m e hm =>
    obtain ⟨hlt, hlow, hnormal⟩ := hu
    rcases le_or_gt e 971 with hle | hgt
    · have hparts : parts (ofParts (.finite s m e hm)) = .finite s m e hm :=
        parts_ofParts ⟨hlt, hlow, hle, hnormal⟩
      exact .inl ⟨congrArg UnpackedFloat.isFinite hparts, congrArg rational hparts⟩
    · right
      have hword : UnpackedFloat.pack .binary64 (.finite s m e hm) =
          UnpackedFloat.pack .binary64 (.infinity s) := (pack_finite s m e hm).trans (if_pos hgt)
      have hover : ofParts (.finite s m e hm) = ofParts (.infinity s) := by
        simp only [ofParts, Float.Model.pack, hword]
      have hbits : (2 : ℚ) ^ 52 ≤ m := by exact_mod_cast hnormal.resolve_right (by omega)
      refine ⟨s, by rw [hover]; exact parts_ofParts trivial, ?_⟩
      have hsize : (2 : ℚ) ^ (1024 : ℤ) ≤ m * 2 ^ e := by
        calc (2 : ℚ) ^ (1024 : ℤ) = 2 ^ 52 * 2 ^ (972 : ℤ) := by
              rw [← zpow_natCast, ← zpow_add₀ two_ne_zero]
              norm_num
          _ ≤ m * 2 ^ e := mul_le_mul hbits (zpow_le hgt) (zpow_pos' _).le (by positivity)
      rw [rational_finite]
      cases s <;> simpa [withSign] using hsize

/-- What is put together from a finite number is at most every double that the number is at
most. -/
lemma ofParts_le {u : UnpackedFloat} (hu : Settled u) {w : Float} (hw : w.isFinite = true)
    (h : rational u ≤ value w) : ofParts u ≤ w := by
  rcases ofParts_of_settled hu with ⟨hfinite, hvalue⟩ | ⟨s, hs, hlarge⟩
  · rwa [le_iff_value_le hfinite hw, hvalue]
  · cases s with
    | negative => exact infinity_le hw hs
    | positive => exact absurd (hlarge.trans h) (not_le.mpr (lt_of_abs_lt (abs_value_lt hw)))

/-- What is put together from a finite number is at least every double that the number is at
least. -/
lemma le_ofParts {u : UnpackedFloat} (hu : Settled u) {w : Float} (hw : w.isFinite = true)
    (h : value w ≤ rational u) : w ≤ ofParts u := by
  rcases ofParts_of_settled hu with ⟨hfinite, hvalue⟩ | ⟨s, hs, hlarge⟩
  · rwa [le_iff_value_le hw hfinite, hvalue]
  · cases s with
    | positive => exact le_infinity hw hs
    | negative =>
      have hbound := neg_lt_of_abs_lt (abs_value_lt hw)
      rw [withSign] at hlarge
      exact absurd h (by linarith)

/-! ## The double that a number is rounded to -/

/-- A number, and the double that it is rounded to: on the same side of every double, and near to
the number unless it is infinite. -/
structure Rounds (q : ℚ) (x : Float) : Prop where
  /-- What is at least the number is at least the double. -/
  le_of_le : ∀ {w : Float}, w.isFinite = true → q ≤ value w → x ≤ w
  /-- What is at most the number is at most the double. -/
  ge_of_ge : ∀ {w : Float}, w.isFinite = true → value w ≤ q → w ≤ x
  /-- The error is half a unit in the last place: relative to the number, or that of the least
  doubles. -/
  error : x.isFinite = true →
    |value x - q| ≤ |q| / 2 ^ 53 ∨ |value x - q| ≤ 2 ^ (-1074 : ℤ) / 2

/-- The error of rounding a number that is not negative. -/
lemma Rounds.exists_error {q : ℚ} {x : Float} (h : Rounds q x) (hq : 0 ≤ q)
    (hx : x.isFinite = true) :
    ∃ d, q - d ≤ value x ∧ value x ≤ q + d ∧ (d = q / 2 ^ 53 ∨ d = 2 ^ (-1074 : ℤ) / 2) := by
  rcases h.error hx with hrelative | habsolute
  · rw [abs_of_nonneg hq, abs_le, neg_le_sub_iff_le_add, sub_le_iff_le_add'] at hrelative
    exact ⟨_, sub_le_iff_le_add.mpr hrelative.1, hrelative.2, .inl rfl⟩
  · rw [abs_le, neg_le_sub_iff_le_add, sub_le_iff_le_add'] at habsolute
    exact ⟨_, sub_le_iff_le_add.mpr habsolute.1, habsolute.2, .inr rfl⟩

/-- A finite double is what its number is rounded to. -/
lemma rounds_value {x : Float} (hx : x.isFinite = true) : Rounds (value x) x where
  le_of_le hw h := (le_iff_value_le hx hw).mpr h
  ge_of_ge hw h := (le_iff_value_le hw hx).mpr h
  error _ := .inl (by rw [sub_self, abs_zero]; positivity)

/-- **The double put together** from the nearest multiple is what the number is rounded to.

**Proof sketch.** For positive numbers, bounds by doubles and the error are those of the nearest
multiple (`Nearest`). For negative ones they are those of the opposite number, with the bounds
exchanged. -/
theorem rounds_ofParts {n : ℕ} {t : ℤ} {q : ℚ} (h : Nearest n t q) {u : UnpackedFloat}
    (hu : Settled u) {s : Sign} (hvalue : rational u = withSign s (n * 2 ^ t)) :
    Rounds (withSign s q) (ofParts u) where
  le_of_le := fun {w} hw hq => by
    refine ofParts_le hu hw ?_
    rw [hvalue]
    cases s with
    | positive => exact h.le_value hw hq
    | negative =>
      have hw' : (-w).isFinite = true := by rwa [isFinite_neg]
      have hle := h.value_le hw' (by rw [value_neg]; exact neg_le.mp hq)
      rw [value_neg] at hle
      exact neg_le.mp hle
  ge_of_ge := fun {w} hw hq => by
    refine le_ofParts hu hw ?_
    rw [hvalue]
    cases s with
    | positive => exact h.value_le hw hq
    | negative =>
      have hw' : (-w).isFinite = true := by rwa [isFinite_neg]
      have hle := h.le_value hw' (by rw [value_neg]; exact le_neg.mp hq)
      rw [value_neg] at hle
      exact le_neg.mp hle
  error hfinite := by
    rcases ofParts_of_settled hu with ⟨-, hsame⟩ | ⟨r, hr, -⟩
    · rw [hsame, hvalue]
      cases s with
      | positive => exact h.relative_error
      | negative =>
        rw [withSign, withSign, abs_neg, ← neg_sub', abs_neg]
        exact h.relative_error
    · have hinfinite : (ofParts u).isFinite = false := congrArg UnpackedFloat.isFinite hr
      rw [hinfinite] at hfinite
      cases hfinite

end Ohmic.Binary64
