import Ohmic.Proofs.Decimal.Powers
import Ohmic.Proofs.Number.TotalOrder
import Ohmic.Proofs.Parts.Decades

set_option autoImplicit false

/-!
# Standard values in double precision

In double precision the magnitude of a standard value is a significand times a power of ten that was
rounded many times, or divided by one. It is near to the exact value all the same, and so the
standard values well within a range are in its catalogue, up to what is lost by rounding. The
exception are exponents below `-308`: the power in the divisor is infinite then, and the magnitude
is zero, although a significand of several digits may make a value that is not too small for a
double.

## Main definitions

* `DecimalScale.OnDoubles` — doubles as a decimal scale, with decimal exponents that are off by one
  at most.

## Main results

* `StandardValue.abs_magnitude_sub_le`, `StandardValue.isFinite_magnitude` — magnitudes are near to
  the exact ones.
* `StandardValue.isZero_magnitude` — magnitudes with exponents below `-308` are zero.
* `Catalog.standard_eq_of_near` — different standard values are not near to each other.
* `Catalog.ofSignificands_rounded` — which standard values are lost.
* `Catalog.ofSignificands_hundred_lost` — one of them, and with it the catalogue.

## Implementation notes

What is lost is said for the values and not for their exponents, since other significands of a table
may make the same value with a larger exponent. The range is one of normal doubles, because lesser
ones have no relative error.
-/

namespace Ohmic

open Binary64 hiding mul_one
open Scalar (IsZero)
open Float.Model.UnpackedFloat (Sign)

/-- **A decimal scale of doubles**: significands are converted, powers of ten are computed by
repeated squaring, and the decimal exponents are off by one at most. -/
structure DecimalScale.OnDoubles [DecimalScale Float] : Prop extends
    DecimalScale.NearExponents value where
  /-- A significand is converted. -/
  ofSignificand : ∀ s : UInt16, (DecimalScale.ofSignificand s : Float) = s.toFloat
  /-- A power is computed by repeated squaring. -/
  powerOfTen : ∀ e : ℤ, (DecimalScale.powerOfTen e : Float) = Decimal.powerOfTen e

/-- The decimal scale of double precision has exact decimal exponents. -/
lemma DecimalScale.onDoubles : DecimalScale.OnDoubles where
  floorLog10 x hx hpos := by
    show |Decimal.floorLog10 x - Int.log 10 (value x)| ≤ 1
    rw [Decimal.floorLog10_eq_log hx hpos, sub_self, abs_zero]
    exact zero_le_one
  ceilLog10 x hx hpos := by
    show |Decimal.ceilLog10 x - Int.clog 10 (value x)| ≤ 1
    rw [Decimal.ceilLog10_eq_clog hx hpos, sub_self, abs_zero]
    exact zero_le_one
  ofSignificand _ := rfl
  powerOfTen _ := rfl

namespace StandardValue

variable [DecimalScale Float] (hscale : DecimalScale.OnDoubles) {s : UInt16} {e : ℤ}

/-! ## Magnitudes -/

include hscale

/-- A magnitude with an exponent that is not negative is a significand times a power of ten. -/
lemma magnitude_of_nonneg {n : ℕ} :
    (of s n : StandardValue Float).magnitude = s.toFloat * Decimal.powerOfTen n := by
  rw [of]
  dsimp only
  rw [if_pos (Int.natCast_nonneg n), hscale.ofSignificand, hscale.powerOfTen]

/-- A magnitude with a negative exponent is a significand over a power of ten. -/
lemma magnitude_of_neg {n : ℕ} (hn : 0 < n) :
    (of s (-n) : StandardValue Float).magnitude = s.toFloat / Decimal.powerOfTen n := by
  rw [of]
  dsimp only
  rw [if_neg (by omega), neg_neg, hscale.ofSignificand, hscale.powerOfTen]

/-- A magnitude with an exponent that is not negative is a product of rounded numbers. -/
lemma roundedTimes_magnitude (hs : 0 < s.toNat) (n : ℕ) :
    RoundedTimes (of s n : StandardValue Float).magnitude (Catalog.standard s n) (1 + n + 1) := by
  rw [magnitude_of_nonneg hscale, Catalog.standard, zpow_natCast]
  exact (roundedTimes_toFloat hs).mul (Decimal.roundedTimes_powerOfTen n)

/-- **Below `10^-308`** the power in the divisor is infinite, and all magnitudes are zero. -/
theorem isZero_magnitude (he : e < -308) : IsZero (of s e : StandardValue Float).magnitude := by
  obtain ⟨n, rfl⟩ := Int.exists_eq_neg_ofNat (by omega : e ≤ 0)
  rw [magnitude_of_neg hscale (by omega)]
  exact isZero_div_infinity (isFinite_toFloat s) (Decimal.parts_powerOfTen (by omega))

/-- A magnitude whose exponent is negative, but not below `-308`, is rounded from a number near to
the exact one. -/
lemma exists_rounds_magnitude (hs : 0 < s.toNat) {n : ℕ} (hpos : 0 < n) (hn : n ≤ 308) :
    ∃ q, Rounds q (of s (-n) : StandardValue Float).magnitude ∧
      |q - Catalog.standard s (-n)| ≤ Catalog.standard s (-n) / 2 ^ 42 := by
  obtain ⟨hfinite, hone, hpower⟩ := Decimal.near_powerOfTen hn
  have hsignificand := (roundedTimes_toFloat hs).abs_sub_le (by norm_num) (isFinite_toFloat s)
  have hvalue : 0 < value (Decimal.powerOfTen n) := zero_lt_one.trans_le hone
  have hstandard : Catalog.standard s (-n) = s.toNat / 10 ^ n := by
    rw [Catalog.standard, zpow_neg, zpow_natCast, div_eq_mul_inv]
  rw [magnitude_of_neg hscale hpos, hstandard]
  exact ⟨_, rounds_div (isFinite_toFloat s) hfinite
    fun hzero => hvalue.ne' (value_of_isZero hzero),
    abs_div_sub_div_le (Nat.cast_nonneg _) (by positivity) hsignificand hpower⟩

/-- A finite magnitude has no exponent above `308`. -/
lemma le_of_isFinite_magnitude (hs : 0 < s.toNat)
    (hfinite : (of s e : StandardValue Float).magnitude.isFinite = true) : e ≤ 308 := by
  by_contra hgt
  obtain ⟨n, rfl⟩ := Int.eq_ofNat_of_zero_le (by omega : 0 ≤ e)
  have hone := (roundedTimes_toFloat hs).one_le (isFinite_toFloat s)
  refine not_isFinite_of_infinity (s := .positive) ?_ hfinite
  rw [magnitude_of_nonneg hscale]
  exact parts_mul_infinity (isFinite_toFloat s) (zero_lt_one.trans_le hone)
    (Decimal.parts_powerOfTen (by omega))

/-- **Magnitudes are near to the exact ones**, unless the exponent is below `-308`.

**Proof sketch.** For a negative exponent the magnitude is one rounding of a number near to the
exact one (`exists_rounds_magnitude`), and for others it is the exact one rounded few times
(`roundedTimes_magnitude`). -/
theorem abs_magnitude_sub_le (hs : 0 < s.toNat) (hlow : -308 ≤ e)
    (hfinite : (of s e : StandardValue Float).magnitude.isFinite = true) :
    |value (of s e : StandardValue Float).magnitude - Catalog.standard s e| ≤
      Catalog.standard s e / 2 ^ 41 + 2 ^ (-1074 : ℤ) / 2 := by
  have hpos := Catalog.standard_pos hs e
  have hsmall := zpow_pos' (-1074)
  have hhigh := le_of_isFinite_magnitude hscale hs hfinite
  rcases lt_or_ge e 0 with he | he
  · obtain ⟨n, rfl⟩ := Int.exists_eq_neg_ofNat he.le
    obtain ⟨q, hq, hnear⟩ := exists_rounds_magnitude hscale hs (n := n) (by omega) (by omega)
    obtain ⟨hbelow, habove⟩ := abs_le.mp hnear
    obtain ⟨d, hge, hle, hd⟩ := hq.exists_error (by linarith) hfinite
    have hsum : d ≤ q / 2 ^ 53 + 2 ^ (-1074 : ℤ) / 2 := by
      rcases hd with rfl | rfl <;> linarith
    rw [abs_le]
    constructor <;> linarith
  · obtain ⟨n, rfl⟩ := Int.eq_ofNat_of_zero_le he
    have hnear := (roundedTimes_magnitude hscale hs n).abs_sub_le (by omega) hfinite
    linarith

/-- **Magnitudes are finite** if the exact ones are not too large for a double.

**Proof sketch.** For a negative exponent the magnitude is a rounded number that is near to the
exact one, hence not above the largest double. For others the exponent is at most 308, as ten to the
309 is too large, and so the magnitude is the exact one rounded few times
(`roundedTimes_magnitude`). -/
theorem isFinite_magnitude (hs : 0 < s.toNat) (hlow : -308 ≤ e)
    (hlarge : (1 + 1 / 2 ^ 42) * Catalog.standard s e ≤ value largest) :
    (of s e : StandardValue Float).magnitude.isFinite = true := by
  have hpos := Catalog.standard_pos hs e
  rcases lt_or_ge e 0 with he | he
  · obtain ⟨n, rfl⟩ := Int.exists_eq_neg_ofNat he.le
    obtain ⟨q, hq, hnear⟩ := exists_rounds_magnitude hscale hs (n := n) (by omega) (by omega)
    obtain ⟨hbelow, habove⟩ := abs_le.mp hnear
    have hrange : |q| ≤ value largest := by
      rw [abs_le]
      constructor <;> linarith
    exact hq.isFinite (by exact_mod_cast hrange)
  · obtain ⟨n, rfl⟩ := Int.eq_ofNat_of_zero_le he
    have hn : n ≤ 308 := by
      by_contra hgt
      have hone : (1 : ℚ) ≤ s.toNat := by exact_mod_cast hs
      have hpower : value largest < Catalog.standard s n := by
        calc value largest < 2 ^ (1024 : ℤ) :=
              (le_abs_self _).trans_lt (abs_value_lt isFinite_largest)
          _ ≤ (999 / 100) ^ 309 := Decimal.ceiling_le_pow
          _ ≤ 10 ^ 309 := by gcongr; norm_num
          _ ≤ 10 ^ n := pow_le_pow_right₀ (by norm_num) (by omega)
          _ ≤ s.toNat * 10 ^ n := le_mul_of_one_le_left (by positivity) hone
          _ = Catalog.standard s n := by rw [Catalog.standard, zpow_natCast]
      linarith
    exact (roundedTimes_magnitude hscale hs n).isFinite (by omega) (by linarith)

end StandardValue

namespace Catalog

/-! ## Different standard values -/

/-- Whole numbers of a power of ten that are near to each other are equal, if one of them is a
significand. -/
lemma eq_of_near {m n : ℕ} {power : ℚ} (hpower : 0 < power)
    (h : |m * power - n * power| ≤ n * power / 2 ^ 20) (hsmall : m < 2 ^ 16 ∨ n < 2 ^ 16) :
    m = n := by
  rw [← sub_mul, abs_mul, abs_of_pos hpower, mul_div_right_comm] at h
  obtain ⟨hbelow, habove⟩ := abs_le.mp (le_of_mul_le_mul_right h hpower)
  have hless : (n : ℚ) / 2 ^ 20 < 1 := by
    rcases hsmall with hm | hn
    · have hm : (m : ℚ) < 2 ^ 16 := by exact_mod_cast hm
      linarith
    · have hn : (n : ℚ) < 2 ^ 16 := by exact_mod_cast hn
      linarith
  have hle : (m : ℚ) < n + 1 := by linarith
  have hge : (n : ℚ) < m + 1 := by linarith
  have hle : m < n + 1 := by exact_mod_cast hle
  have hge : n < m + 1 := by exact_mod_cast hge
  omega

/-- Standard values that are near to each other are equal. -/
lemma standard_eq_of_near {s t : UInt16} {e f : ℤ}
    (h : |standard t f - standard s e| ≤ standard s e / 2 ^ 20) : standard t f = standard s e := by
  have hmore : ∀ (u : UInt16) (g : ℤ) (k : ℕ),
      standard u (g + k) = (u.toNat * 10 ^ k : ℕ) * 10 ^ g := by
    intro u g k
    rw [standard, zpow_add₀ (by norm_num), zpow_natCast]
    push_cast
    ring
  -- both are whole numbers of the lesser power
  rcases le_total e f with hle | hle
  · obtain ⟨k, rfl⟩ := Int.le.dest hle
    rw [hmore] at h ⊢
    rw [eq_of_near (zpow_pos (by norm_num) e) h (.inr s.toNat_lt), standard]
  · obtain ⟨k, rfl⟩ := Int.le.dest hle
    rw [hmore] at h ⊢
    rw [← eq_of_near (zpow_pos (by norm_num) f) h (.inl t.toNat_lt), standard]

/-! ## A narrow range of small doubles -/

/-- The least normal double times thirty-two. -/
def smallNormal : Float := Float.ofBits 0x60000000000000

/-- The number of that double. -/
lemma value_smallNormal : value smallNormal = 2 ^ (-1017 : ℤ) := by
  have hparts : parts smallNormal = .finite .positive (2 ^ 52) (-1069) (Nat.two_pow_pos 52) := rfl
  rw [value_of_parts hparts, Sign.apply, (by norm_num : (-1017 : ℤ) = 52 + -1069),
    zpow_add₀ two_ne_zero]
  norm_num

/-- One hundred times `10^-309` is well between the two doubles. -/
lemma standard_hundred_bounds :
    value leastNormal * (1 + 1 / 2 ^ 40) ≤ standard 100 (-309) ∧
      standard 100 (-309) ≤ value smallNormal * (1 - 1 / 2 ^ 40) := by
  have hten : (10 : ℚ) ^ (-309 : ℤ) = 1 / (10 ^ 103) ^ 3 := by
    rw [← pow_mul, one_div]
    rfl
  have hstandard : standard 100 (-309) = 100 * (1 / (10 ^ 103) ^ 3) := by
    rw [← hten]
    rfl
  have hleast : (2 : ℚ) ^ (-1022 : ℤ) = 1 / (2 ^ 146) ^ 7 := by
    rw [← pow_mul, one_div]
    rfl
  have hsmall : (2 : ℚ) ^ (-1017 : ℤ) = 1 / (2 ^ 113) ^ 9 := by
    rw [← pow_mul, one_div]
    rfl
  rw [value_leastNormal, value_smallNormal, hstandard, hleast, hsmall]
  constructor <;> norm_num

/-- These doubles are the ends of a range of positive magnitudes. -/
lemma admissible_small {table : List UInt16} (hne : table ≠ []) (hzero : (0 : UInt16) ∉ table) :
    Admissible value table leastNormal smallNormal where
  isFinite_low := rfl
  isFinite_high := rfl
  pos := by
    rw [value_leastNormal]
    exact zpow_pos' _
  le := by
    rw [value_leastNormal, value_smallNormal]
    exact zpow_le (by norm_num)
  ne_nil := hne
  zero_notMem := hzero

/-! ## Catalogues -/

/-- Half of the least double is small for a normal double. -/
lemma slip_le_of_normal {x : ℚ} (h : 2 ^ (-1022 : ℤ) ≤ x) :
    (2 : ℚ) ^ (-1074 : ℤ) / 2 ≤ x / 2 ^ 53 := by
  rw [half_least_eq]
  gcongr

section

variable [DecimalScale Float] {table : List UInt16} {low high : Float}

/-- A standard value within the range is in the catalogue, or one of its magnitude is.

**Proof sketch.** The magnitude is finite and near to the exact value (`abs_magnitude_sub_le`),
hence still in the range, and its exponent is tried (`mem_exponentRange`). So it is an entry, or one
of the same magnitude was kept instead. -/
lemma exists_near_mem_entries (hscale : DecimalScale.OnDoubles)
    (h : Admissible value table low high) (hnormal : 2 ^ (-1022 : ℤ) ≤ value low) {s : UInt16}
    (hs : s ∈ table) {e : ℤ} (he : -308 ≤ e) (hlow : value low * (1 + 1 / 2 ^ 40) ≤ standard s e)
    (hhigh : standard s e ≤ value high * (1 - 1 / 2 ^ 40)) :
    ∃ v ∈ (replicate table low high).entries,
      |value v.magnitude - standard s e| ≤ standard s e / 2 ^ 40 := by
  have hpositive := toNat_pos_of_mem h.zero_notMem hs
  have hpos := h.pos
  have hle := h.le
  have hslip := slip_le_of_normal hnormal
  have hlarge := mul_value_le_largest h.isFinite_high
  have hfinite := StandardValue.isFinite_magnitude hscale hpositive he (by linarith)
  have hnear := StandardValue.abs_magnitude_sub_le hscale hpositive he hfinite
  obtain ⟨hbelow, habove⟩ := abs_le.mp hnear
  obtain ⟨hfirst, hlast⟩ := mem_exponentRange hscale.toNearExponents h hs (e := e) (by linarith)
    (by linarith)
  obtain ⟨w, hw, heq⟩ := exists_mem_entries hs hfirst hlast
    ((le_iff_value_le h.isFinite_low hfinite).mpr (by linarith))
    ((le_iff_value_le hfinite h.isFinite_high).mpr (by linarith))
  have hsame : value w.magnitude = value (StandardValue.of (S := Float) s e).magnitude := by
    rcases heq with rfl | heq
    · rfl
    · have hwfinite := (bounds_of_mem_entries reading h.isFinite_low h.isFinite_high hw).1
      exact ((reading.beq_iff hfinite hwfinite).mp heq).symm
  refine ⟨w, hw, ?_⟩
  rw [hsame]
  linarith

/-- A value of a catalogue of normal doubles is near to a standard value of the table whose exponent
is not below `-308`. -/
lemma exists_standard_of_mem_entries (hscale : DecimalScale.OnDoubles)
    (h : Admissible value table low high) (hnormal : 2 ^ (-1022 : ℤ) ≤ value low)
    {v : StandardValue Float} (hv : v ∈ (replicate table low high).entries) :
    ∃ s ∈ table, ∃ e : ℤ, -308 ≤ e ∧
      |value v.magnitude - standard s e| ≤ standard s e / 2 ^ 40 := by
  obtain ⟨hfinite, hlow, -⟩ := bounds_of_mem_entries reading h.isFinite_low h.isFinite_high hv
  obtain ⟨s, hs, e, rfl, -⟩ := of_mem_entries hv
  have hpos := h.pos.trans_le hlow
  have he : -308 ≤ e := by
    by_contra hlt
    exact hpos.ne' (value_of_isZero (StandardValue.isZero_magnitude hscale (not_le.mp hlt)))
  have hnear := StandardValue.abs_magnitude_sub_le hscale (toNat_pos_of_mem h.zero_notMem hs) he
    hfinite
  have hslip := slip_le_of_normal (hnormal.trans hlow)
  obtain ⟨hbelow, habove⟩ := abs_le.mp hnear
  refine ⟨s, hs, e, he, abs_le.mpr ⟨?_, ?_⟩⟩ <;> linarith

/-- **Standard values that are lost in double precision** are those with exponents below `-308`.
Well within a range of normal doubles a catalogue has a value near to a standard value of the table
exactly if that is a significand of the table times a power of ten from `10^-308` on.

**Proof sketch.** A power from `10^-308` to `10^308` is near to the exact one, and so are the
magnitudes (`StandardValue.abs_magnitude_sub_le`), which therefore are in the range; magnitudes with
lesser exponents are zero (`StandardValue.isZero_magnitude`). Different standard values are not near
to each other (`standard_eq_of_near`). -/
theorem ofSignificands_rounded (hscale : DecimalScale.OnDoubles)
    (h : Admissible value table low high) (hnormal : 2 ^ (-1022 : ℤ) ≤ value low) {s : UInt16}
    (hs : s ∈ table) {e : ℤ} (hlow : value low * (1 + 1 / 2 ^ 40) ≤ standard s e)
    (hhigh : standard s e ≤ value high * (1 - 1 / 2 ^ 40)) :
    (∃ c, ofSignificands table low high = .ok c ∧
      ∃ v ∈ c.entries, |value v.magnitude - standard s e| ≤ standard s e / 2 ^ 40) ↔
    ∃ t ∈ table, ∃ f : ℤ, -308 ≤ f ∧ standard t f = standard s e := by
  constructor
  · rintro ⟨c, hc, v, hv, hnear⟩
    obtain ⟨-, -, rfl⟩ := (ofSignificands_eq_ok_iff reading).mp hc
    obtain ⟨t, ht, f, hf, hclose⟩ := exists_standard_of_mem_entries hscale h hnormal hv
    refine ⟨t, ht, f, hf, standard_eq_of_near ?_⟩
    obtain ⟨hbelow, habove⟩ := abs_le.mp hnear
    obtain ⟨hbelow', habove'⟩ := abs_le.mp hclose
    have hpos := standard_pos (toNat_pos_of_mem h.zero_notMem hs) e
    rw [abs_le]
    constructor <;> linarith
  · rintro ⟨t, ht, f, hf, heq⟩
    rw [← heq] at hlow hhigh ⊢
    obtain ⟨v, hv, hnear⟩ := exists_near_mem_entries hscale h hnormal ht hf hlow hhigh
    exact ⟨_, (ofSignificands_eq_ok_iff reading).mpr ⟨h, List.ne_nil_of_mem hv, rfl⟩, v, hv, hnear⟩

end

/-- One hundred times `10^-309` is found in the narrow range where the table has a ten, which makes
the same value with a larger exponent. -/
theorem ofSignificands_rounded_ten : DecimalScale.OnDoubles ∧
    Admissible value [100, 10] leastNormal smallNormal ∧ 2 ^ (-1022 : ℤ) ≤ value leastNormal ∧
    value leastNormal * (1 + 1 / 2 ^ 40) ≤ standard 100 (-309) ∧
    standard 100 (-309) ≤ value smallNormal * (1 - 1 / 2 ^ 40) ∧
    ∃ c, ofSignificands [100, 10] leastNormal smallNormal = .ok c ∧
      ∃ v ∈ c.entries,
        |value v.magnitude - standard 100 (-309)| ≤ standard 100 (-309) / 2 ^ 40 := by
  have hscale := DecimalScale.onDoubles
  have h : Admissible value [100, 10] leastNormal smallNormal :=
    admissible_small (by decide) (by decide)
  have hnormal := value_leastNormal.ge
  obtain ⟨hlow, hhigh⟩ := standard_hundred_bounds
  have hsame : standard 10 (-308) = standard 100 (-309) := by
    show ((10 : ℕ) : ℚ) * 10 ^ (-309 + 1 : ℤ) = ((100 : ℕ) : ℚ) * 10 ^ (-309 : ℤ)
    rw [zpow_add_one₀ (by norm_num), mul_comm ((10 : ℚ) ^ (-309 : ℤ)), ← mul_assoc]
    norm_num only
  exact ⟨hscale, h, hnormal, hlow, hhigh,
    (ofSignificands_rounded hscale h hnormal (by decide) hlow hhigh).mpr
      ⟨10, by decide, -308, by decide, hsame⟩⟩

/-- One hundred times `10^-309` is well within the narrow range of normal doubles, but is lost where
the table has no other significand: there is no catalogue at all. -/
theorem ofSignificands_hundred_lost : Admissible value [100] leastNormal smallNormal ∧
    2 ^ (-1022 : ℤ) ≤ value leastNormal ∧
    value leastNormal * (1 + 1 / 2 ^ 40) ≤ standard 100 (-309) ∧
    standard 100 (-309) ≤ value smallNormal * (1 - 1 / 2 ^ 40) ∧
    ¬ ∃ c, ofSignificands [100] leastNormal smallNormal = .ok c := by
  obtain ⟨hlow, hhigh⟩ := standard_hundred_bounds
  refine ⟨admissible_small (by decide) (by decide), value_leastNormal.ge, hlow, hhigh, ?_⟩
  rintro ⟨c, hc⟩
  have hempty : (replicate [100] leastNormal smallNormal).entries.length = 0 := by decide +kernel
  exact ((ofSignificands_eq_ok_iff reading).mp hc).2.1 (List.length_eq_zero_iff.mp hempty)

end Catalog

end Ohmic
