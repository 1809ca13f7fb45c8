import Ohmic.Decimal.Power
import Ohmic.Proofs.Number.Errors

set_option autoImplicit false

/-!
# Rounded powers of ten

A power of ten is computed by repeated squaring, and every product is rounded. What is lost in it is
counted in roundings: `10^n` is rounded `n` times at most, a base being rounded once less than the
number of tens that are its factors. So a power that is not too large for a double is near to the
exact one, and any other power is infinity.

## Main definitions

* `Binary64.RoundedTimes` — what becomes of a number, not below one, that is rounded some times on
  its way: a double whose relative error has that many factors, or infinity.

## Main results

* `Binary64.RoundedTimes.mul` — a product is rounded as often as its factors are, and once more.
* `Decimal.roundedTimes_powerLoop`, `Decimal.roundedTimes_powerOfTen` — repeated squaring, from any
  product and base.
* `Decimal.near_powerOfTen`, `Decimal.parts_powerOfTen` — powers up to `10^308`, and beyond.

## Implementation notes

The relative error of a number that was rounded `k` times is between `(1 - 2⁻⁵³)^k` and
`(1 + 2⁻⁵³)^k`. These factors are kept as powers, so that the numbers of roundings add up in a
product, and only the final ones are estimated.
-/

namespace Ohmic.Binary64

open Float.Model (UnpackedFloat)
open Float.Model.UnpackedFloat (Sign)

/-! ## Numbers of roundings -/

/-- Few roundings do not make a number much less. -/
lemma one_sub_le_pow {k : ℕ} (hk : k ≤ 511) : (1 : ℚ) - 511 / 2 ^ 53 ≤ (1 - 1 / 2 ^ 53) ^ k := by
  have hmany : (k : ℚ) ≤ 511 := by exact_mod_cast hk
  calc (1 : ℚ) - 511 / 2 ^ 53 ≤ 1 + k * (-(1 / 2 ^ 53)) := by linarith
    _ ≤ (1 + -(1 / 2 ^ 53)) ^ k := one_add_mul_le_pow (by norm_num) k
    _ = (1 - 1 / 2 ^ 53) ^ k := by rw [← sub_eq_add_neg]

/-- Few roundings do not make a number much larger. -/
lemma pow_le_one_add {k : ℕ} (hk : k ≤ 511) : (1 + 1 / 2 ^ 53 : ℚ) ^ k ≤ 1 + 1 / 2 ^ 44 := by
  -- the factors of the two bounds are together at most one
  have hproduct : (1 + 1 / 2 ^ 53 : ℚ) ^ k * (1 - 1 / 2 ^ 53) ^ k ≤ 1 := by
    rw [← mul_pow]
    exact pow_le_one₀ (by norm_num) (by norm_num)
  have hpos : (0 : ℚ) ≤ (1 + 1 / 2 ^ 53) ^ k := by positivity
  have hleft : (1 + 1 / 2 ^ 53 : ℚ) ^ k * (1 - 511 / 2 ^ 53) ≤ 1 :=
    (mul_le_mul_of_nonneg_left (one_sub_le_pow hk) hpos).trans hproduct
  have hright : (1 : ℚ) ≤ (1 + 1 / 2 ^ 44) * (1 - 511 / 2 ^ 53) := by norm_num
  exact le_of_mul_le_mul_right (hleft.trans hright) (by norm_num)

/-- A quotient of numbers that are near to given ones is near to the quotient of these.

**Proof sketch.** With the divisor cleared, both bounds of the quotient are products: `1 + 2⁻⁴²`
times `1 - 2⁻⁴⁴` is at least `1 + 2⁻⁴⁴`, and likewise from below. -/
lemma abs_div_sub_div_le {a b x y : ℚ} (ha : 0 ≤ a) (hb : 0 < b) (hx : |x - a| ≤ a / 2 ^ 44)
    (hy : |y - b| ≤ b / 2 ^ 44) : |x / y - a / b| ≤ a / b / 2 ^ 42 := by
  obtain ⟨hxlow, hxhigh⟩ := abs_le.mp hx
  obtain ⟨hylow, hyhigh⟩ := abs_le.mp hy
  have hypos : 0 < y := by linarith
  have hquotient : 0 ≤ a / b := div_nonneg ha hb.le
  have hcancel : a / b * b = a := div_mul_cancel₀ a hb.ne'
  have habove : x / y ≤ a / b + a / b / 2 ^ 42 := by
    rw [div_le_iff₀ hypos]
    calc x ≤ a / b * ((1 + 1 / 2 ^ 42) * (b * (1 - 1 / 2 ^ 44))) := by linarith
      _ ≤ a / b * ((1 + 1 / 2 ^ 42) * y) := by gcongr; linarith
      _ = (a / b + a / b / 2 ^ 42) * y := by ring
  have hbelow : a / b - a / b / 2 ^ 42 ≤ x / y := by
    rw [le_div_iff₀ hypos]
    calc (a / b - a / b / 2 ^ 42) * y = a / b * ((1 - 1 / 2 ^ 42) * y) := by ring
      _ ≤ a / b * ((1 - 1 / 2 ^ 42) * (b * (1 + 1 / 2 ^ 44))) := by
        gcongr
        linarith
      _ ≤ x := by linarith
  rw [abs_le]
  constructor <;> linarith

/-- **A number after some roundings**, if it was not below one on its way: a double that is not
below one either, or infinity if the number may have become too large for a double. -/
inductive RoundedTimes (x : Float) (q : ℚ) (k : ℕ) : Prop where
  /-- The number is a double, with one factor of relative error for every rounding. -/
  | finite (isFinite : x.isFinite = true) (one_le : 1 ≤ value x)
      (low : (1 - 1 / 2 ^ 53) ^ k * q ≤ value x) (high : value x ≤ (1 + 1 / 2 ^ 53) ^ k * q)
  /-- The number was too large. -/
  | infinite (parts_eq : parts x = .infinity .positive)
      (large : value largest < (1 + 1 / 2 ^ 53) ^ k * q)

/-- The least double is small. -/
lemma zpow_div_two_le : (2 : ℚ) ^ (-1074 : ℤ) / 2 ≤ 1 / 2 ^ 53 := by
  have hpow : (2 : ℚ) ^ (-53 : ℤ) = 1 / 2 ^ 53 := by norm_num
  have hpos := zpow_pos' (-1074)
  rw [← hpow]
  exact (half_le_self hpos.le).trans (zpow_le (by norm_num))

namespace RoundedTimes

variable {x y : Float} {p q : ℚ} {j k : ℕ}

/-- The largest number that the roundings may lead to is not below one. -/
lemma one_le_high (h : RoundedTimes x q k) : 1 ≤ (1 + 1 / 2 ^ 53) ^ k * q := by
  cases h with
  | finite _ hone _ hhigh => exact hone.trans hhigh
  | infinite _ hlarge =>
    have hlargest := le_value_largest
    linarith

/-- The number is positive. -/
lemma pos (h : RoundedTimes x q k) : 0 < q :=
  pos_of_mul_pos_right (zero_lt_one.trans_le h.one_le_high) (by positivity)

/-- **One more rounding**, of a number that some roundings led to.

**Proof sketch.** A number of at least one is rounded to a double of at least one, which is finite
or an infinity. If it is finite, the error is at most `p / 2 ^ 53`, also among the least doubles, as
`p` is at least one. If it is infinite, `p` is above the largest double, hence so is the bound on
`p`. -/
lemma of_rounds (h : Rounds p x) (hone : 1 ≤ p) (hlow : (1 - 1 / 2 ^ 53) ^ k * q ≤ p)
    (hhigh : p ≤ (1 + 1 / 2 ^ 53) ^ k * q) : RoundedTimes x q (k + 1) := by
  have hpowlow : (1 - 1 / 2 ^ 53 : ℚ) ^ (k + 1) * q =
      (1 - 1 / 2 ^ 53) ^ k * q * (1 - 1 / 2 ^ 53) := by
    ring
  have hpowhigh : (1 + 1 / 2 ^ 53 : ℚ) ^ (k + 1) * q =
      (1 + 1 / 2 ^ 53) ^ k * q * (1 + 1 / 2 ^ 53) := by
    ring
  have hge : (1 : Float) ≤ x := h.ge_of_ge isFinite_one (by rwa [value_one])
  rcases parts_of_ge isFinite_one hge with hx | hx
  · obtain ⟨d, hbelow, habove, hd⟩ := h.exists_error (zero_le_one.trans hone) hx
    have hle : d ≤ p / 2 ^ 53 := by
      rcases hd with rfl | rfl
      · exact le_rfl
      · calc (2 : ℚ) ^ (-1074 : ℤ) / 2 ≤ 1 / 2 ^ 53 := zpow_div_two_le
          _ ≤ p / 2 ^ 53 := by gcongr
    refine .finite hx ?_ ?_ ?_
    · exact value_one ▸ (le_iff_value_le isFinite_one hx).mp hge
    · rw [hpowlow]
      linarith
    · rw [hpowhigh]
      linarith
  · refine .infinite hx ?_
    rw [hpowhigh]
    -- what is not too large is rounded to a finite double
    have hlarge : value largest < p := by
      by_contra hsmall
      refine not_isFinite_of_infinity hx (h.isFinite ?_)
      rw [abs_of_nonneg (by exact_mod_cast zero_le_one.trans hone)]
      exact_mod_cast not_lt.mp hsmall
    linarith

/-- **A product** is rounded as often as both factors, and once more.

**Proof sketch.** By the cases of both factors. For finite ones the exact product lies between the
products of the bounds, and rounding it is one more step (`of_rounds`). If one of them is infinite,
so is the product, and its upper bound is at least that of the infinite factor, as the other bound
is at least one. -/
theorem mul (hx : RoundedTimes x p j) (hy : RoundedTimes y q k) :
    RoundedTimes (x * y) (p * q) (j + k + 1) := by
  have hlow : (1 - 1 / 2 ^ 53 : ℚ) ^ (j + k) * (p * q) =
      (1 - 1 / 2 ^ 53) ^ j * p * ((1 - 1 / 2 ^ 53) ^ k * q) := by
    ring
  have hhigh : (1 + 1 / 2 ^ 53 : ℚ) ^ (j + k) * (p * q) =
      (1 + 1 / 2 ^ 53) ^ j * p * ((1 + 1 / 2 ^ 53) ^ k * q) := by
    ring
  have hmore : (1 + 1 / 2 ^ 53 : ℚ) ^ (j + k) * (p * q) ≤
      (1 + 1 / 2 ^ 53) ^ (j + k + 1) * (p * q) :=
    mul_le_mul_of_nonneg_right (pow_le_pow_right₀ (by norm_num) (Nat.le_succ _))
      (mul_pos hx.pos hy.pos).le
  have hqpos := hy.pos
  have hpone := hx.one_le_high
  have hqone := hy.one_le_high
  have hpzero := zero_le_one.trans hpone
  cases hx with
  | finite hxfinite hxone hxlow hxhigh =>
    have hxpos := zero_lt_one.trans_le hxone
    cases hy with
    | finite hyfinite hyone hylow hyhigh =>
      refine of_rounds (rounds_mul hxfinite hyfinite) (one_le_mul_of_one_le_of_one_le hxone hyone)
        ?_ ?_
      · rw [hlow]
        exact mul_le_mul hxlow hylow (mul_pos (pow_pos (by norm_num) k) hqpos).le hxpos.le
      · rw [hhigh]
        exact mul_le_mul hxhigh hyhigh (zero_le_one.trans hyone) hpzero
    | infinite hyparts hylarge =>
      refine .infinite (parts_mul_infinity hxfinite hxpos hyparts) (lt_of_lt_of_le ?_ hmore)
      rw [hhigh]
      exact hylarge.trans_le (le_mul_of_one_le_left (zero_le_one.trans hqone) hpone)
  | infinite hxparts hxlarge =>
    refine .infinite ?_ (lt_of_lt_of_le ?_ hmore)
    · cases hy with
      | finite hyfinite hyone _ _ =>
        exact parts_infinity_mul hxparts hyfinite (zero_lt_one.trans_le hyone)
      | infinite hyparts _ =>
        have hproduct : x * y = ofParts (UnpackedFloat.mul .binary64 (parts x) (parts y)) := rfl
        rw [hproduct, hxparts, hyparts]
        exact parts_ofParts trivial
    · rw [hhigh]
      exact hxlarge.trans_le (le_mul_of_one_le_right hpzero hqone)

/-- A double that is left is not below one. -/
lemma one_le (h : RoundedTimes x q k) (hx : x.isFinite = true) : 1 ≤ value x := by
  cases h with
  | finite _ hone _ _ => exact hone
  | infinite hparts _ => exact absurd hx (not_isFinite_of_infinity hparts)

/-- After few roundings a number is near to the exact one. -/
lemma abs_sub_le (h : RoundedTimes x q k) (hk : k ≤ 511) (hx : x.isFinite = true) :
    |value x - q| ≤ q / 2 ^ 44 := by
  have hq := h.pos
  cases h with
  | finite _ _ hlow hhigh =>
    have hbelow := mul_le_mul_of_nonneg_right (one_sub_le_pow hk) hq.le
    have habove := mul_le_mul_of_nonneg_right (pow_le_one_add hk) hq.le
    rw [abs_le]
    constructor <;> linarith
  | infinite hparts _ => exact absurd hx (not_isFinite_of_infinity hparts)

/-- A number is a finite double after few roundings, if it is not too large for one. -/
lemma isFinite (h : RoundedTimes x q k) (hk : k ≤ 511)
    (hlarge : (1 + 1 / 2 ^ 44) * q ≤ value largest) : x.isFinite = true := by
  have hq := h.pos
  cases h with
  | finite hx => exact hx
  | infinite _ hlt =>
    have habove := mul_le_mul_of_nonneg_right (pow_le_one_add hk) hq.le
    exact absurd (hlt.trans_le (habove.trans hlarge)) (lt_irrefl _)

end RoundedTimes

/-- A significand is rounded once, to itself. -/
lemma rounds_toFloat (s : UInt16) : Rounds s.toNat s.toFloat := by
  have hrounds : Rounds (((s.toNat : ℕ) : ℤ) * 2 ^ (0 : ℤ)) s.toFloat :=
    rounds_normalize (s.toNat : ℤ) 0 .positive
  rwa [zpow_zero, MulOneClass.mul_one, Int.cast_natCast] at hrounds

/-- A significand is finite. -/
lemma isFinite_toFloat (s : UInt16) : s.toFloat.isFinite = true := by
  have hsmall : (s.toNat : ℚ) ≤ 2 ^ 16 := by exact_mod_cast s.toNat_lt.le
  have hrange : (s.toNat : ℚ) ≤ value largest := by
    have hlargest := le_value_largest
    linarith
  refine (rounds_toFloat s).isFinite ?_
  rw [abs_of_nonneg (by positivity)]
  exact_mod_cast hrange

/-- A significand other than zero is not below one. -/
lemma roundedTimes_toFloat {s : UInt16} (hs : 0 < s.toNat) : RoundedTimes s.toFloat s.toNat 1 := by
  refine .of_rounds (rounds_toFloat s) (by exact_mod_cast hs) ?_ ?_ <;> rw [pow_zero, one_mul]

end Ohmic.Binary64

namespace Ohmic.Decimal

open Binary64 hiding mul_one
open Float.Model.UnpackedFloat (Sign)

/-! ## Repeated squaring -/

/-- **Repeated squaring** multiplies a product by a power, and every factor of the power costs the
roundings of the base and one more.

**Proof sketch.** By strong induction on the exponent. The last binary digit decides if the product
takes up the base; then half of the exponent is left, with the squared base. Both the powers and the
numbers of roundings add up, since `n` is its last digit and twice its half. -/
theorem roundedTimes_powerLoop {n : ℕ} {product base : Float} {p b : ℚ} {j k : ℕ}
    (hproduct : RoundedTimes product p j) (hbase : RoundedTimes base b k) :
    RoundedTimes (powerLoop n product base) (p * b ^ n) (j + n * (k + 1)) := by
  induction n using Nat.strong_induction_on generalizing product base p b j k with
  | _ n ih =>
    -- what is left of the exponent after its last binary digit
    have hdigit : RoundedTimes (if n % 2 = 1 then product * base else product) (p * b ^ (n % 2))
        (j + n % 2 * (k + 1)) := by
      rcases Nat.mod_two_eq_zero_or_one n with hzero | hone
      · rw [if_neg (by omega), hzero, pow_zero, mul_one, zero_mul, add_zero]
        exact hproduct
      · rw [if_pos hone, hone, pow_one, one_mul, ← add_assoc]
        exact hproduct.mul hbase
    rw [powerLoop]
    split
    · next hlast =>
      have hn : n % 2 = n := by omega
      rw [hn] at hdigit ⊢
      exact hdigit
    · next hmore =>
      have hstep := ih (n / 2) (by omega) hdigit (hbase.mul hbase)
      have hpower : p * b ^ (n % 2) * (b * b) ^ (n / 2) = p * b ^ n := by
        rw [← sq, ← pow_mul, mul_assoc, ← pow_add, Nat.mod_add_div]
      have hcount : j + n % 2 * (k + 1) + n / 2 * (k + k + 1 + 1) = j + n * (k + 1) := by
        conv_rhs => rw [← Nat.mod_add_div n 2]
        ring
      rwa [hpower, hcount] at hstep

/-- **A power of ten** is rounded as often as its exponent says. -/
theorem roundedTimes_powerOfTen (n : ℕ) : RoundedTimes (powerOfTen n) (10 ^ n) n := by
  have hone : RoundedTimes 1 1 0 := .finite isFinite_one value_one.ge (by norm_num [value_one])
    (by norm_num [value_one])
  have hvalue : value 10 = 10 := by
    have hparts : parts 10 = .finite .positive (5 * 2 ^ 50) (-49) (by decide) := rfl
    rw [value_of_parts hparts]
    norm_num [Sign.apply]
  have hten : RoundedTimes 10 10 0 := .finite rfl (by norm_num [hvalue]) (by norm_num [hvalue])
    (by norm_num [hvalue])
  have hloop := roundedTimes_powerLoop (n := n) hone hten
  rw [one_mul, zero_add, zero_add, mul_one] at hloop
  rw [powerOfTen, if_neg (by omega), Int.natAbs_natCast]
  exact hloop

/-- **Powers up to `10^308`** are near to the exact ones. -/
theorem near_powerOfTen {n : ℕ} (hn : n ≤ 308) : (powerOfTen n).isFinite = true ∧
    1 ≤ value (powerOfTen n) ∧ |value (powerOfTen n) - 10 ^ n| ≤ 10 ^ n / 2 ^ 44 := by
  have h := roundedTimes_powerOfTen n
  have hfinite := h.isFinite (by omega) (by
    calc (1 + 1 / 2 ^ 44 : ℚ) * 10 ^ n ≤ (1 + 1 / 2 ^ 44) * 10 ^ 308 := by gcongr; norm_num
      _ = (1 + 1 / 2 ^ 44) * (10 ^ 77) ^ 4 := by rw [← pow_mul]
      _ ≤ (1 - 1 / 2 ^ 53) * (2 ^ 128) ^ 8 := by norm_num
      _ = value largest := by
        rw [value_largest_eq, ← pow_mul]
        rfl)
  exact ⟨hfinite, h.one_le hfinite, h.abs_sub_le (by omega) hfinite⟩

/-- What is a little less than `10^309` is above all doubles. -/
lemma ceiling_le_pow : (2 : ℚ) ^ (1024 : ℤ) ≤ (999 / 100) ^ 309 := by
  calc (2 : ℚ) ^ (1024 : ℤ) = (2 ^ 128) ^ 8 := by
        rw [← pow_mul]
        rfl
    _ ≤ ((999 / 100) ^ 103) ^ 3 := by norm_num
    _ = (999 / 100) ^ 309 := (pow_mul _ 103 3).symm

/-- **Powers from `10^309` on** are infinite. -/
theorem parts_powerOfTen {n : ℕ} (hn : 309 ≤ n) : parts (powerOfTen n) = .infinity .positive := by
  cases roundedTimes_powerOfTen n with
  | infinite hparts _ => exact hparts
  | finite hfinite _ hlow _ =>
    exfalso
    have hlt := (le_abs_self _).trans_lt (abs_value_lt hfinite)
    have hlarge : (2 : ℚ) ^ (1024 : ℤ) ≤ (1 - 1 / 2 ^ 53) ^ n * 10 ^ n := by
      calc (2 : ℚ) ^ (1024 : ℤ) ≤ (999 / 100) ^ 309 := ceiling_le_pow
        _ ≤ (999 / 100) ^ n := pow_le_pow_right₀ (by norm_num) hn
        _ ≤ ((1 - 1 / 2 ^ 53) * 10) ^ n := by gcongr; norm_num
        _ = (1 - 1 / 2 ^ 53) ^ n * 10 ^ n := mul_pow _ _ n
    exact absurd (hlarge.trans hlow) (not_le.mpr hlt)

end Ohmic.Decimal
