import Mathlib.Data.Int.Log
import Mathlib.Data.Rat.Floor
import Ohmic.Decimal.Power
import Ohmic.Proofs.Number.Operations

set_option autoImplicit false

/-!
# Decimal exponents

The decimal exponents around a positive ratio are found by counting digits. They are the integer
logarithms of the ratio to base ten, rounded down and up, and so are the exponents around a positive
double.

## Main definitions

* `Decimal.Ratio.toRat` — the rational number that a ratio is.

## Main results

* `Decimal.digitCount_eq_log` — the number of digits is the logarithm plus one.
* `Decimal.Ratio.floorLog10_eq_log`, `Decimal.Ratio.ceilLog10_eq_clog` — the exponents around a
  ratio.
* `Decimal.floorLog10_eq_log`, `Decimal.ceilLog10_eq_clog` — the exponents around a double.
-/

namespace Ohmic.Decimal

open Binary64 (parts value)

/-- **The number of digits** of a number other than zero is its logarithm to base ten plus one. -/
lemma digitCount_eq_log {n : ℕ} (hn : n ≠ 0) : digitCount n = Nat.log 10 n + 1 := by
  induction n using Nat.strong_induction_on with
  | h n ih =>
    rw [digitCount, dif_neg hn]
    by_cases hsmall : n < 10
    · rw [Nat.div_eq_of_lt hsmall, Nat.log_of_lt hsmall, digitCount, dif_pos rfl]
    · have hten : 10 ≤ n := Nat.le_of_not_lt hsmall
      rw [ih (n / 10) (by omega) (by omega), Nat.log_of_one_lt_of_le (by decide) hten]

/-- A number is below the power of ten with the number of its digits. -/
lemma lt_pow_digitCount (n : ℕ) : n < 10 ^ digitCount n := by
  by_cases hn : n = 0
  · subst hn
    exact Nat.pow_pos (by decide)
  · rw [digitCount_eq_log hn]
    exact Nat.lt_pow_succ_log_self (by decide) n

/-- The number of digits counts the powers of ten up to a number. -/
lemma clog_succ_eq_digitCount {n : ℕ} (hn : n ≠ 0) : Nat.clog 10 (n + 1) = digitCount n := by
  have hle : ∀ k, Nat.clog 10 (n + 1) ≤ k ↔ digitCount n ≤ k := by
    intro k
    rw [Nat.clog_le_iff_le_pow (by decide), Nat.succ_le_iff,
      ← Nat.log_lt_iff_lt_pow (by decide) hn, digitCount_eq_log hn, Nat.succ_le_iff]
  exact Nat.le_antisymm ((hle _).mpr le_rfl) ((hle _).mp le_rfl)

namespace Ratio

/-- The rational number that a ratio is. -/
def toRat (r : Ratio) : ℚ := r.num / r.den

variable {r : Ratio}

/-- **The exponent below a ratio** is its logarithm, rounded down.

**Proof sketch.** The logarithm of a ratio of at least one is that of its integer part, one less
than the number of its digits. That of a smaller ratio is the opposite of the logarithm, rounded up,
of the inverse; the least integer not below the inverse is one more than `(den - 1) / num`, whose
digits are counted. -/
theorem floorLog10_eq_log (hnum : 0 < r.num) (hden : 0 < r.den) :
    r.floorLog10 = Int.log 10 r.toRat := by
  have hnumpos : (0 : ℚ) < r.num := Nat.cast_pos.mpr hnum
  have hdenpos : (0 : ℚ) < r.den := Nat.cast_pos.mpr hden
  rw [floorLog10, toRat]
  split
  · next hle =>
    have hone : (1 : ℚ) ≤ r.num / r.den := (one_le_div hdenpos).mpr (Nat.cast_le.mpr hle)
    have hquotient : r.num / r.den ≠ 0 := (Nat.div_pos hle hden).ne'
    rw [Int.log_of_one_le_right 10 hone, Nat.floor_div_eq_div, digitCount_eq_log hquotient]
    push_cast
    ring
  · next hlt =>
    have hlt : r.num < r.den := Nat.lt_of_not_le hlt
    have hone : (r.num / r.den : ℚ) ≤ 1 := (div_le_one hdenpos).mpr (Nat.cast_le.mpr hlt.le)
    -- the inverse, rounded up, is one more than the greatest integer below it
    have hceil : ⌈(r.num / r.den : ℚ)⁻¹⌉₊ = (r.den - 1) / r.num + 1 := by
      rw [Nat.ceil_eq_iff (Nat.succ_ne_zero _), inv_div, Nat.succ_sub_one,
        lt_div_iff₀ hnumpos, div_le_iff₀ hnumpos]
      have hsplit := Nat.div_add_mod (r.den - 1) r.num
      have hrest := Nat.mod_lt (r.den - 1) hnum
      constructor
      · norm_cast
        rw [Nat.mul_comm]
        omega
      · norm_cast
        rw [Nat.add_one_mul, Nat.mul_comm]
        omega
    have hquotient : (r.den - 1) / r.num ≠ 0 := (Nat.div_pos (by omega) hnum).ne'
    rw [Int.log_of_right_le_one 10 hone, hceil, clog_succ_eq_digitCount hquotient]

/-- Whether a ratio is a power of ten. -/
lemma isPowerOfTen_iff (hden : 0 < r.den) (k : ℤ) :
    r.isPowerOfTen k = true ↔ r.toRat = 10 ^ k := by
  have hdenpos : (0 : ℚ) < r.den := Nat.cast_pos.mpr hden
  have hten : (0 : ℚ) < (10 : ℚ) ^ (-k).toNat := by positivity
  have hpow : (10 : ℚ) ^ k = 10 ^ k.toNat / 10 ^ (-k).toNat := by
    rw [← zpow_natCast, ← zpow_natCast, ← zpow_sub₀ (by norm_num)]
    congr 1
    omega
  rw [isPowerOfTen, onGrid, toRat, beq_iff_eq, hpow, div_eq_div_iff hdenpos.ne' hten.ne']
  simp only [Nat.pow_eq]
  rw [mul_comm ((10 : ℚ) ^ _) (r.den : ℚ)]
  norm_cast

/-- **The exponent above a ratio** is its logarithm, rounded up.

**Proof sketch.** For a power of ten both logarithms are its exponent. Any other number lies
strictly above the power that its logarithm gives and below the next one, so its logarithm rounded
up is one more. -/
theorem ceilLog10_eq_clog (hnum : 0 < r.num) (hden : 0 < r.den) :
    r.ceilLog10 = Int.clog 10 r.toRat := by
  have hpos : 0 < r.toRat := div_pos (Nat.cast_pos.mpr hnum) (Nat.cast_pos.mpr hden)
  have hten : 1 < 10 := by decide
  rw [ceilLog10, floorLog10_eq_log hnum hden]
  split
  · next hpower =>
    rw [isPowerOfTen_iff hden] at hpower
    have hclog := Int.clog_zpow (R := ℚ) hten (Int.log 10 r.toRat)
    rw [Nat.cast_ofNat, ← hpower] at hclog
    exact hclog.symm
  · next hpower =>
    rw [isPowerOfTen_iff hden] at hpower
    have hbelow := Int.zpow_log_le_self hten hpos
    rw [Nat.cast_ofNat] at hbelow
    refine le_antisymm ?_ ?_
    · have hlt := lt_of_le_of_ne hbelow (Ne.symm hpower)
      rw [← Nat.cast_ofNat, Int.zpow_lt_iff_lt_clog hten hpos] at hlt
      exact hlt
    · rw [← Int.le_zpow_iff_clog_le hten hpos]
      exact (Int.lt_zpow_succ_log_self hten r.toRat).le

/-- A mantissa times a power of two, with the power in the numerator or in the denominator. -/
lemma ofBinary_eq (m : ℕ) (e : ℤ) : ofBinary m e = ⟨m * 2 ^ e.toNat, 2 ^ (-e).toNat⟩ := by
  rw [ofBinary, Nat.shiftLeft_eq, Nat.shiftLeft_eq, Nat.one_mul]

/-- A mantissa times a power of two as a ratio. -/
lemma toRat_ofBinary (m : ℕ) (e : ℤ) : (ofBinary m e).toRat = m * 2 ^ e := by
  have hpow : (2 : ℚ) ^ e = 2 ^ e.toNat / 2 ^ (-e).toNat := by
    rw [← zpow_natCast, ← zpow_natCast, ← zpow_sub₀ two_ne_zero]
    congr 1
    omega
  rw [ofBinary_eq, toRat, hpow, mul_div_assoc']
  push_cast
  rfl

end Ratio

/-! ## Doubles -/

/-- The exact value of a positive double. -/
lemma exactValue_of_pos {x : Float} (hx : x.isFinite = true) (hpos : 0 < value x) :
    0 < (exactValue x).num ∧ 0 < (exactValue x).den ∧ (exactValue x).toRat = value x := by
  obtain ⟨m, e, hm, hparts⟩ := Binary64.exists_parts_of_value_pos hx hpos
  have hexact : exactValue x = .ofBinary m e := by
    rw [parts] at hparts
    rw [exactValue, hparts]
  have hvalue : value x = m * 2 ^ e := by
    rw [value, hparts, Binary64.rational_finite]
    rfl
  rw [hexact, hvalue, Ratio.toRat_ofBinary, Ratio.ofBinary_eq]
  exact ⟨Nat.mul_pos hm (Nat.two_pow_pos _), Nat.two_pow_pos _, rfl⟩

/-- **The exponent below a positive double** is the logarithm of its number, rounded down. -/
theorem floorLog10_eq_log {x : Float} (hx : x.isFinite = true) (hpos : 0 < value x) :
    floorLog10 x = Int.log 10 (value x) := by
  obtain ⟨hnum, hden, hvalue⟩ := exactValue_of_pos hx hpos
  rw [floorLog10, Ratio.floorLog10_eq_log hnum hden, hvalue]

/-- **The exponent above a positive double** is the logarithm of its number, rounded up. -/
theorem ceilLog10_eq_clog {x : Float} (hx : x.isFinite = true) (hpos : 0 < value x) :
    ceilLog10 x = Int.clog 10 (value x) := by
  obtain ⟨hnum, hden, hvalue⟩ := exactValue_of_pos hx hpos
  rw [ceilLog10, Ratio.ceilLog10_eq_clog hnum hden, hvalue]

end Ohmic.Decimal
