import Mathlib.Analysis.Complex.Norm
import Ohmic.Proofs.Number.Length

set_option autoImplicit false

/-!
# Rounding errors

A rounded number differs from the exact one by a part of `2⁻⁵³` of it, and by half of the least
double where numbers are too small for that. Doubles that are near to known numbers have sums,
products and quotients near to those of the numbers, as long as these are not too large for a
double. The same holds of the components of phasors, and so of phasors and complex numbers.

## Main definitions

* `Binary64.Near`, `Phasor.Near` — a finite double near to a real number, a finite phasor near to a
  complex one.
* `Phasor.exact` — the complex number that a phasor stands for.
* `Binary64.slip`, `Binary64.ceiling` — half of the least double, and the first power of two above
  all doubles.
* `Binary64.NormalOrZero` — the sizes of doubles with a full mantissa, and zero.

## Main results

* `Binary64.Rounds.near` — the error of one rounding.
* `Phasor.near_unscale`, `Phasor.near_one_add`, `Phasor.near_magnitude` — the errors of scaled
  phasors, of sums with one and of lengths.
* `Phasor.near_div` — the error of a quotient by a phasor of a length near to one.

## Implementation notes

A quotient of phasors is computed from the squared length of the divisor, so it may fail for long
and for short divisors. The bounds are for divisors that were scaled to the length one, and none of
them is sharp.
-/

namespace Ohmic

/-! ## Quotients of numbers that are near to each other -/

/-- A quotient of numbers that are near to given ones is near to the quotient of these, if the
divisor is not small. -/
lemma norm_div_sub_div_le {K : Type} [NormedField K] {x y x' y' : K} {c e : ℝ} (hy : y ≠ 0)
    (hc : 0 < c) (hy' : c ≤ ‖y'‖) (h : ‖x' - x‖ + ‖x / y‖ * ‖y' - y‖ ≤ e * c) :
    ‖x' / y' - x / y‖ ≤ e := by
  have hpos : 0 < ‖y'‖ := hc.trans_le hy'
  have hne : y' ≠ 0 := norm_pos_iff.mp hpos
  have he : 0 ≤ e := nonneg_of_mul_nonneg_left (h.trans' (by positivity)) hc
  have hsplit : x' / y' - x / y = (x' - x - x / y * (y' - y)) / y' := by
    field_simp
    ring
  rw [hsplit, norm_div, div_le_iff₀ hpos]
  calc ‖x' - x - x / y * (y' - y)‖ ≤ ‖x' - x‖ + ‖x / y * (y' - y)‖ := norm_sub_le _ _
    _ = ‖x' - x‖ + ‖x / y‖ * ‖y' - y‖ := by rw [norm_mul]
    _ ≤ e * c := h
    _ ≤ e * ‖y'‖ := mul_le_mul_of_nonneg_left hy' he

namespace Binary64

open Float.Model.UnpackedFloat (Sign)

/-! ## Doubles -/

/-- Half of the least double: what is lost at most where numbers have no full mantissa. -/
noncomputable def slip : ℝ := 2 ^ (-1075 : ℤ)

/-- The first power of two above all doubles. -/
noncomputable def ceiling : ℝ := 2 ^ (1024 : ℤ)

/-- The largest double. -/
def largest : Float := Float.ofBits 0x7fefffffffffffff

/-- Half of the least double is positive. -/
lemma slip_pos : 0 < slip := zpow_pos two_pos _

/-- Half of the least double is small. -/
lemma slip_le : slip ≤ 1 / 2 ^ 100 := by
  rw [slip, one_div, ← zpow_natCast, ← zpow_neg]
  exact zpow_le_zpow_right₀ one_le_two (by norm_num)

/-- The largest double is large. -/
lemma le_ceiling : 2 ^ 100 ≤ ceiling := by
  rw [ceiling, ← zpow_natCast]
  exact zpow_le_zpow_right₀ one_le_two (by norm_num)

/-- The number that a double stands for, from its parts. -/
lemma value_of_parts {x : Float} {s : Sign} {m : ℕ} {e : ℤ} {hm : 0 < m}
    (h : parts x = .finite s m e hm) : value x = (s.apply m : ℤ) * 2 ^ e := by
  rw [value, h, rational]

/-- The real number that a double stands for, from its parts. -/
lemma cast_value_of_parts {x : Float} {s : Sign} {m : ℕ} {e : ℤ} {hm : 0 < m}
    (h : parts x = .finite s m e hm) : (value x : ℝ) = (s.apply m : ℤ) * 2 ^ e := by
  rw [value_of_parts h, Rat.cast_mul, Rat.cast_intCast, Rat.cast_zpow, Rat.cast_ofNat]

/-- The largest double has a full mantissa and the largest exponent. -/
lemma parts_largest :
    parts largest = .finite .positive (2 ^ 53 - 1) 971 (by decide) := rfl

/-- The largest double is finite. -/
lemma isFinite_largest : largest.isFinite = true :=
  congrArg Float.Model.UnpackedFloat.isFinite parts_largest

/-- The number that the largest double stands for. -/
lemma value_largest : (value largest : ℝ) = (1 - 1 / 2 ^ 53) * ceiling := by
  have hsplit : ceiling = 2 ^ 53 * 2 ^ (971 : ℤ) := by
    rw [ceiling, ← zpow_natCast, ← zpow_add₀ two_ne_zero]
    norm_num
  rw [cast_value_of_parts parts_largest, hsplit, ← mul_assoc, Sign.apply]
  norm_num

/-- The rational number that the largest double stands for. -/
lemma value_largest_eq : value largest = (1 - 1 / 2 ^ 53) * 2 ^ (1024 : ℤ) := by
  refine Rat.cast_injective (α := ℝ) ?_
  rw [value_largest, ceiling]
  simp only [Rat.cast_mul, Rat.cast_sub, Rat.cast_div, Rat.cast_one, Rat.cast_pow, Rat.cast_zpow,
    Rat.cast_ofNat]

/-- The largest double is large. -/
lemma le_value_largest : 2 ^ 52 ≤ value largest := by
  rw [value_largest_eq]
  calc (2 : ℚ) ^ 52 ≤ (1 - 1 / 2 ^ 53) * 2 ^ (53 : ℤ) := by norm_num
    _ ≤ (1 - 1 / 2 ^ 53) * 2 ^ (1024 : ℤ) :=
      mul_le_mul_of_nonneg_left (zpow_le (by norm_num)) (by norm_num)

/-- No double is much larger than the largest one. -/
lemma mul_value_le_largest {x : Float} (hx : x.isFinite = true) :
    (1 - 1 / 2 ^ 53) * value x ≤ value largest := by
  rw [value_largest_eq]
  exact mul_le_mul_of_nonneg_left ((le_abs_self _).trans (abs_value_lt hx).le) (by norm_num)

/-! ## Normal sizes -/

/-- Zero, or of the size of the doubles with a full mantissa. -/
def NormalOrZero (q : ℝ) : Prop :=
  q = 0 ∨ 2 ^ (-1022 : ℤ) ≤ |q| ∧ |q| ≤ (1 - 1 / 2 ^ 53) * 2 ^ (1024 : ℤ)

/-- The least normal double, in units of what is lost below it. -/
lemma leastNormal_eq : (2 : ℝ) ^ (-1022 : ℤ) = 2 ^ 53 * slip := by
  rw [slip, ← zpow_natCast, ← zpow_add₀ two_ne_zero]
  norm_num

/-- What is at least one half and not above the largest double has a normal size. -/
lemma normalOrZero_of_le {x : ℝ} (hlow : 1 / 2 ≤ |x|) (hhigh : |x| ≤ value largest) :
    NormalOrZero x := by
  have hslip := slip_le
  rw [value_largest] at hhigh
  refine .inr ⟨?_, hhigh⟩
  rw [leastNormal_eq]
  linarith

/-- What a finite double stands for is not above the power of two that bounds all of them. -/
lemma abs_value_le_ceiling {x : Float} (hx : x.isFinite = true) : |(value x : ℝ)| ≤ ceiling := by
  have hlt := (Rat.cast_lt (K := ℝ)).mpr (abs_value_lt hx)
  simp only [Rat.cast_abs, Rat.cast_zpow, Rat.cast_ofNat] at hlt
  exact hlt.le

/-- Half of a double that is at least one has a normal size. -/
lemma normalOrZero_half {x : Float} (hx : x.isFinite = true) (hone : 1 ≤ value x) :
    NormalOrZero ((value x : ℝ) / 2) := by
  have hlow : (1 : ℝ) ≤ value x := by exact_mod_cast hone
  have hhigh := (le_abs_self _).trans (abs_value_le_ceiling hx)
  refine normalOrZero_of_le ?_ ?_ <;> rw [abs_of_nonneg (by linarith)]
  · linarith
  · rw [value_largest]
    linarith

/-! ## Doubles near to numbers -/

/-- A finite double near to a real number. -/
structure Near (x : Float) (p d : ℝ) : Prop where
  /-- The double is finite. -/
  isFinite : x.isFinite = true
  /-- Its number differs from the given one by at most the error. -/
  error : |(value x : ℝ) - p| ≤ d

/-- A larger error is one as well. -/
lemma Near.mono {x : Float} {p d e : ℝ} (h : Near x p d) (hde : d ≤ e) : Near x p e :=
  ⟨h.isFinite, h.error.trans hde⟩

/-- A double near to a number has about the absolute value of that. -/
lemma Near.abs_le {x : Float} {p d : ℝ} (h : Near x p d) : |(value x : ℝ)| ≤ |p| + d := by
  have := h.error
  have := abs_sub_abs_le_abs_sub (value x : ℝ) p
  linarith

/-- The error of one rounding. -/
lemma Rounds.abs_sub_le {q : ℚ} {x : Float} (h : Rounds q x) (hx : x.isFinite = true) :
    |(value x : ℝ) - q| ≤ |(q : ℝ)| / 2 ^ 53 + slip := by
  have hslip := slip_pos
  rcases h.error hx with hrelative | habsolute
  · have hcast : |(value x : ℝ) - q| ≤ |(q : ℝ)| / 2 ^ 53 := by exact_mod_cast hrelative
    linarith
  · have hcast : |(value x : ℝ) - q| ≤ 2 ^ (-1074 : ℤ) / 2 := by
      simpa only [Rat.cast_abs, Rat.cast_sub, Rat.cast_div, Rat.cast_zpow, Rat.cast_ofNat] using
        (Rat.cast_le (K := ℝ)).mpr habsolute
    have hhalf : (2 : ℝ) ^ (-1074 : ℤ) / 2 = slip := by
      rw [slip, (by norm_num : (-1075 : ℤ) = -1074 - 1), zpow_sub_one₀ two_ne_zero, div_eq_mul_inv]
    have hrelative : 0 ≤ |(q : ℝ)| / 2 ^ 53 := by positivity
    rw [hhalf] at hcast
    linarith

/-- What is rounded and not too large for a double gives a finite one. -/
lemma Rounds.isFinite {q : ℚ} {x : Float} (h : Rounds q x) (hq : |(q : ℝ)| ≤ value largest) :
    x.isFinite = true := by
  have hrange : |q| ≤ value largest := by exact_mod_cast hq
  obtain ⟨hlow, hhigh⟩ := abs_le.mp hrange
  have hneg : (-largest).isFinite = true := by rw [isFinite_neg, isFinite_largest]
  exact isFinite_of_le_of_le hneg isFinite_largest (h.ge_of_ge hneg (by rwa [value_neg]))
    (h.le_of_le isFinite_largest hhigh)

/-- **What is rounded** and not too large gives a finite double near to it. -/
theorem Rounds.near {q : ℚ} {x : Float} (h : Rounds q x) {p c : ℝ} (hp : (q : ℝ) = p)
    (hc : |p| ≤ c) (hmax : c ≤ value largest) : Near x p (c / 2 ^ 53 + slip) := by
  subst hp
  have hfinite := h.isFinite (hc.trans hmax)
  refine ⟨hfinite, (h.abs_sub_le hfinite).trans ?_⟩
  gcongr

section

variable {x y : Float} (hx : x.isFinite = true) (hy : y.isFinite = true) {c : ℝ}

include hx hy

/-- The error of a sum. -/
lemma near_add (hc : |(value x : ℝ) + value y| ≤ c) (hmax : c ≤ value largest) :
    Near (x + y) (value x + value y) (c / 2 ^ 53 + slip) :=
  (rounds_add hx hy).near (Rat.cast_add _ _) hc hmax

/-- The error of a difference. -/
lemma near_sub (hc : |(value x : ℝ) - value y| ≤ c) (hmax : c ≤ value largest) :
    Near (x - y) (value x - value y) (c / 2 ^ 53 + slip) :=
  (rounds_sub hx hy).near (Rat.cast_sub _ _) hc hmax

/-- The error of a product. -/
lemma near_mul (hc : |(value x : ℝ) * value y| ≤ c) (hmax : c ≤ value largest) :
    Near (x * y) (value x * value y) (c / 2 ^ 53 + slip) :=
  (rounds_mul hx hy).near (Rat.cast_mul _ _) hc hmax

/-- The error of a quotient. -/
lemma near_div (hzero : value y ≠ 0) (hc : |(value x : ℝ) / value y| ≤ c)
    (hmax : c ≤ value largest) : Near (x / y) (value x / value y) (c / 2 ^ 53 + slip) :=
  (rounds_div hx hy fun h => hzero (value_of_isZero h)).near (Rat.cast_div _ _) hc hmax

end

/-! ## Products and quotients of components -/

/-- Two products are together not larger than the lengths of the vectors allow. -/
lemma abs_mul_add_abs_mul_le {a b p q m w : ℝ} (hm : 0 ≤ m) (hw : 0 ≤ w)
    (hab : a ^ 2 + b ^ 2 ≤ m ^ 2) (hpq : p ^ 2 + q ^ 2 ≤ w ^ 2) : |a * p| + |b * q| ≤ m * w := by
  refine (abs_le_of_sq_le_sq' ?_ (mul_nonneg hm hw)).2
  have hmixed := sq_nonneg (|a| * |q| - |b| * |p|)
  calc (|a * p| + |b * q|) ^ 2 ≤ (|a| ^ 2 + |b| ^ 2) * (|p| ^ 2 + |q| ^ 2) := by
        rw [abs_mul, abs_mul]
        linarith
    _ = (a ^ 2 + b ^ 2) * (p ^ 2 + q ^ 2) := by simp only [sq_abs]
    _ ≤ m ^ 2 * w ^ 2 := mul_le_mul hab hpq (by positivity) (sq_nonneg m)
    _ = (m * w) ^ 2 := (mul_pow m w 2).symm

/-- The sum and the difference of two products, one factor of each being a component of a vector of
length at most about one.

**Proof sketch.** Each product is near to the exact one (`near_mul`), and by the Cauchy-Schwarz
inequality the sum of their absolute values is about `m` at most (`abs_mul_add_abs_mul_le`). So
neither overflows, nor do the sum and the difference, whose own error comes on top. -/
lemma near_products {a b p q : Float} (ha : a.isFinite = true) (hb : b.isFinite = true)
    (hp : p.isFinite = true) (hq : q.isFinite = true) {m : ℝ} (hm : 0 ≤ m)
    (hmax : m ≤ (1 - 1 / 2 ^ 42) * ceiling) (hab : (value a : ℝ) ^ 2 + value b ^ 2 ≤ m ^ 2)
    (hpq : (value p : ℝ) ^ 2 + value q ^ 2 ≤ (1 + 1 / 2 ^ 47) ^ 2) :
    Near (a * p + b * q) (value a * value p + value b * value q) (m / 2 ^ 51 + 4 * slip) ∧
      Near (a * p - b * q) (value a * value p - value b * value q) (m / 2 ^ 51 + 4 * slip) := by
  have hslip := slip_le
  have hceiling := le_ceiling
  have hsize := abs_mul_add_abs_mul_le hm (by norm_num) hab hpq
  have hleft := abs_nonneg ((value a : ℝ) * value p)
  have hright := abs_nonneg ((value b : ℝ) * value q)
  have hfirst := near_mul ha hp le_rfl (by rw [value_largest]; linarith)
  have hsecond := near_mul hb hq le_rfl (by rw [value_largest]; linarith)
  have hbound : m * (1 + 1 / 2 ^ 46) + 2 * slip ≤ value largest := by
    rw [value_largest]
    linarith
  obtain ⟨hlow, hhigh⟩ := abs_le.mp hfirst.error
  obtain ⟨hlow', hhigh'⟩ := abs_le.mp hsecond.error
  have hfirstle := hfirst.abs_le
  have hsecondle := hsecond.abs_le
  constructor
  · have hsum := near_add hfirst.isFinite hsecond.isFinite
      ((abs_add_le _ _).trans (by linarith)) hbound
    obtain ⟨hbelow, habove⟩ := abs_le.mp hsum.error
    exact ⟨hsum.isFinite, abs_le.mpr ⟨by linarith, by linarith⟩⟩
  · have hdifference := near_sub hfirst.isFinite hsecond.isFinite
      ((abs_sub _ _).trans (by linarith)) hbound
    obtain ⟨hbelow, habove⟩ := abs_le.mp hdifference.error
    exact ⟨hdifference.isFinite, abs_le.mpr ⟨by linarith, by linarith⟩⟩

/-- A quotient of doubles that are near to given numbers, the divisor being near to one.

**Proof sketch.** The exact quotient of the two doubles differs from `p / n` by what the errors of
dividend and divisor change (`norm_div_sub_div_le`), as the divisor is near to one. Rounding it is
the last error (`near_div`). -/
lemma near_div_near_one {x y : Float} {p n m : ℝ} (hm : 0 ≤ m)
    (hmax : m ≤ (1 - 1 / 2 ^ 42) * ceiling) (hx : Near x p (m / 2 ^ 51 + 4 * slip))
    (hy : Near y n (1 / 2 ^ 50)) (hn : |n - 1| ≤ 1 / 2 ^ 45)
    (hquotient : |p / n| ≤ m * (1 + 1 / 2 ^ 47)) :
    Near (x / y) (p / n) (m / 2 ^ 48 + 8 * slip) := by
  have hslip := slip_le
  have hslippos := slip_pos
  have hceiling := le_ceiling
  obtain ⟨hnlow, -⟩ := abs_le.mp hn
  obtain ⟨hylow, -⟩ := abs_le.mp hy.error
  have hyone : 1 - 1 / 2 ^ 44 ≤ (value y : ℝ) := by linarith
  have hypos : (0 : ℝ) < value y := by linarith
  have hexact : |(value x : ℝ) / value y - p / n| ≤ m / 2 ^ 49 + 5 * slip := by
    have hchange : |p / n| * |(value y : ℝ) - n| ≤ m * (1 + 1 / 2 ^ 47) * (1 / 2 ^ 50) :=
      mul_le_mul hquotient hy.error (abs_nonneg _) (by positivity)
    rw [← Real.norm_eq_abs]
    refine norm_div_sub_div_le (c := 1 - 1 / 2 ^ 44) (by linarith) (by norm_num)
      (hyone.trans (le_abs_self _)) ?_
    simp only [Real.norm_eq_abs]
    linarith [hx.error]
  obtain ⟨hlow, hhigh⟩ := abs_le.mp hexact
  have hsize : |(value x : ℝ) / value y| ≤ m * (1 + 1 / 2 ^ 46) + 5 * slip := by
    have := abs_sub_abs_le_abs_sub ((value x : ℝ) / value y) (p / n)
    linarith
  have hrounded := near_div hx.isFinite hy.isFinite (fun h => hypos.ne' (by rw [h, Rat.cast_zero]))
    hsize (by rw [value_largest]; linarith)
  obtain ⟨hbelow, habove⟩ := abs_le.mp hrounded.error
  exact ⟨hrounded.isFinite, abs_le.mpr ⟨by linarith, by linarith⟩⟩

end Binary64

/-! ## Phasors -/

namespace Phasor

open Binary64 hiding Near

/-- The complex number that a phasor stands for. -/
noncomputable def exact (z : Phasor Float) : ℂ := ⟨value z.re, value z.im⟩

/-- A finite phasor near to a complex number. -/
structure Near (z : Phasor Float) (c : ℂ) (d : ℝ) : Prop where
  /-- The phasor is finite. -/
  isFinite : z.isFinite = true
  /-- Its number differs from the given one by at most the error. -/
  error : ‖z.exact - c‖ ≤ d

/-- A larger error is one as well. -/
lemma Near.mono {z : Phasor Float} {c : ℂ} {d e : ℝ} (h : Near z c d) (hde : d ≤ e) : Near z c e :=
  ⟨h.isFinite, h.error.trans hde⟩

/-- What is near to a number that is near to another one is near to that. -/
lemma Near.trans {z : Phasor Float} {b c : ℂ} {d e : ℝ} (h : Near z c d) (hc : ‖c - b‖ ≤ e) :
    Near z b (d + e) :=
  ⟨h.isFinite, (norm_sub_le_norm_sub_add_norm_sub _ c _).trans (add_le_add h.error hc)⟩

/-- A phasor near to a number has about the length of that. -/
lemma Near.norm_bounds {z : Phasor Float} {c : ℂ} {d : ℝ} (h : Near z c d) :
    ‖c‖ - d ≤ ‖z.exact‖ ∧ ‖z.exact‖ ≤ ‖c‖ + d := by
  have habove := norm_sub_norm_le z.exact c
  have hbelow := norm_sub_norm_le c z.exact
  rw [norm_sub_rev] at hbelow
  have := h.error
  exact ⟨by linarith, by linarith⟩

/-- A phasor is near to a number if its components are near to those. -/
lemma near_of_components {z : Phasor Float} {c : ℂ} {d e : ℝ} (hre : Binary64.Near z.re c.re d)
    (him : Binary64.Near z.im c.im e) : Near z c (d + e) where
  isFinite := Bool.and_eq_true_iff.mpr ⟨hre.isFinite, him.isFinite⟩
  error := (Complex.norm_le_abs_re_add_abs_im _).trans (add_le_add hre.error him.error)

/-- The square of a length is the sum of the squares of the components. -/
lemma sq_norm_exact (z : Phasor Float) :
    ‖z.exact‖ ^ 2 = (value z.re : ℝ) ^ 2 + (value z.im : ℝ) ^ 2 := by
  rw [Complex.sq_norm, Complex.normSq_apply]
  exact (congrArg₂ (· + ·) (sq _) (sq _)).symm

/-- **A phasor over a positive double** is near to the quotient. -/
lemma near_unscale {z : Phasor Float} {x : Float} (hz : z.isFinite = true)
    (hx : x.isFinite = true) (hpos : (0 : ℝ) < value x) {c : ℝ} (hc : ‖z.exact‖ / value x ≤ c)
    (hmax : c ≤ value largest) :
    Near (z.unscale x) (z.exact / (value x : ℝ)) (c / 2 ^ 52 + 2 * slip) := by
  obtain ⟨hre, him⟩ := Bool.and_eq_true_iff.mp hz
  have hzero : value x ≠ 0 := fun h => hpos.ne' (by rw [h, Rat.cast_zero])
  have hsize : ∀ t : ℝ, |t| ≤ ‖z.exact‖ → |t / value x| ≤ c := fun t ht => by
    rw [abs_div, abs_of_pos hpos]
    exact (div_le_div_of_nonneg_right ht hpos.le).trans hc
  have hfirst := near_div hre hx hzero (hsize _ (Complex.abs_re_le_norm z.exact)) hmax
  have hsecond := near_div him hx hzero (hsize _ (Complex.abs_im_le_norm z.exact)) hmax
  refine (near_of_components ?_ ?_).mono (by linarith : c / 2 ^ 53 + slip + (c / 2 ^ 53 + slip) ≤ _)
  · rw [Complex.div_ofReal_re]
    exact hfirst
  · rw [Complex.div_ofReal_im]
    exact hsecond

/-- One more than a phasor that is not long.

**Proof sketch.** In components: the sums of one and the resistive part and of zero and the reactive
part are less than seven and are rounded once each (`near_add`). Both errors are summed up. -/
lemma near_one_add {z : Phasor Float} (hz : z.isFinite = true) (hle : ‖z.exact‖ ≤ 4) :
    Near (Impedance.ofReal (1 : Float) + z) (1 + z.exact) (1 / 2 ^ 49) := by
  obtain ⟨hre, him⟩ := Bool.and_eq_true_iff.mp hz
  have hslip := slip_le
  have hmax : (7 : ℝ) ≤ value largest := by
    rw [value_largest]
    linarith [le_ceiling]
  have hone : ((value 1 : ℚ) : ℝ) = 1 := by rw [value_one, Rat.cast_one]
  have hzero : ((value 0 : ℚ) : ℝ) = 0 := by rw [value_zero, Rat.cast_zero]
  have hfirst : Binary64.Near (1 + z.re) (1 + value z.re) (7 / 2 ^ 53 + slip) := by
    have hsize := (abs_add_le 1 z.exact.re).trans
      (add_le_add_right (Complex.abs_re_le_norm z.exact) |1|)
    rw [← hone]
    refine near_add isFinite_one hre ?_ hmax
    rw [hone]
    refine hsize.trans ?_
    rw [abs_one]
    linarith
  have hsecond : Binary64.Near (0 + z.im) (0 + value z.im) (7 / 2 ^ 53 + slip) := by
    rw [← hzero]
    refine near_add isFinite_zero him ?_ hmax
    rw [hzero, zero_add]
    exact (Complex.abs_im_le_norm z.exact).trans (by linarith)
  refine (near_of_components ?_ ?_).mono
    (by linarith : 7 / 2 ^ 53 + slip + (7 / 2 ^ 53 + slip) ≤ _)
  · exact hfirst
  · exact hsecond

/-! ## Lengths -/

/-- A length lies between two numbers that are rounded to one double. -/
lemma exists_rounds_magnitude {z : Phasor Float} (hz : z.isFinite = true) :
    ∃ low high : ℚ, (|(low : ℝ)| ≤ ‖z.exact‖ ∧ Rounds low (Impedance.magnitude z)) ∧
      ‖z.exact‖ ≤ high ∧ Rounds high (Impedance.magnitude z) := by
  obtain ⟨hre, him⟩ := Bool.and_eq_true_iff.mp hz
  obtain ⟨low, high, ⟨-, hlow, hbelow⟩, hnonneg, hhigh, habove⟩ :=
    roundsRoot_hypotenuse hre him
  refine ⟨low, high, ⟨?_, hbelow⟩, ?_, habove⟩
  · refine abs_le_of_sq_le_sq ?_ (norm_nonneg _)
    rw [sq_norm_exact]
    exact_mod_cast hlow
  · refine (abs_le_of_sq_le_sq' ?_ (by exact_mod_cast hnonneg)).2
    rw [sq_norm_exact]
    exact_mod_cast hhigh

/-- The error of a length. -/
lemma abs_magnitude_sub_le {z : Phasor Float} (hz : (Impedance.magnitude z).isFinite = true) :
    |(value (Impedance.magnitude z) : ℝ) - ‖z.exact‖| ≤ ‖z.exact‖ / 2 ^ 53 + slip := by
  obtain ⟨low, high, ⟨hlow, hbelow⟩, hhigh, habove⟩ :=
    exists_rounds_magnitude (Bool.and_eq_true_iff.mpr (isFinite_of_hypotenuse hz))
  obtain ⟨-, hupper⟩ := abs_le.mp (hbelow.abs_sub_le hz)
  obtain ⟨hlower, -⟩ := abs_le.mp (habove.abs_sub_le hz)
  rw [abs_of_nonneg ((norm_nonneg _).trans hhigh)] at hlower
  have hself := le_abs_self (low : ℝ)
  exact abs_le.mpr ⟨by linarith, by linarith⟩

/-- **The length of a phasor** that is not too long. -/
lemma near_magnitude {z : Phasor Float} (hz : z.isFinite = true)
    (hmax : ‖z.exact‖ ≤ value largest) :
    Binary64.Near (Impedance.magnitude z) ‖z.exact‖ (‖z.exact‖ / 2 ^ 53 + slip) := by
  obtain ⟨low, -, ⟨hlow, hbelow⟩, -⟩ := exists_rounds_magnitude hz
  have hfinite := hbelow.isFinite (hlow.trans hmax)
  exact ⟨hfinite, abs_magnitude_sub_le hfinite⟩

/-! ## Quotients -/

/-- **A phasor over one of about the length one** is near to the quotient, unless it is too long.

**Proof sketch.** The components of the quotient are sums and differences of products over the
squared length of the divisor, which is near to one. The products are together at most as large as
the lengths allow, so the error of the sums is a part of the length of the dividend. -/
theorem near_div {z w : Phasor Float} (hz : z.isFinite = true) (hw : w.isFinite = true)
    (hunit : |‖w.exact‖ - 1| ≤ 1 / 2 ^ 48) (hmax : ‖z.exact‖ ≤ (1 - 1 / 2 ^ 42) * ceiling) :
    Near (z / w) (z.exact / w.exact) (‖z.exact‖ / 2 ^ 47 + 16 * slip) := by
  obtain ⟨hzre, hzim⟩ := Bool.and_eq_true_iff.mp hz
  obtain ⟨hwre, hwim⟩ := Bool.and_eq_true_iff.mp hw
  obtain ⟨hlow, hhigh⟩ := abs_le.mp hunit
  have hnonneg := norm_nonneg z.exact
  have hslip := slip_le
  have hceiling := le_ceiling
  have hzsq := sq_norm_exact z
  have hwsq := sq_norm_exact w
  have hlength : (value w.re : ℝ) ^ 2 + value w.im ^ 2 ≤ (1 + 1 / 2 ^ 47) ^ 2 := by
    rw [← hwsq]
    exact pow_le_pow_left₀ (norm_nonneg _) (by linarith) 2
  have hnorm : Binary64.Near (w.re * w.re + w.im * w.im)
      (value w.re * value w.re + value w.im * value w.im) (1 / 2 ^ 50) := by
    refine (near_products hwre hwim hwre hwim (m := 1 + 1 / 2 ^ 47) (by norm_num) (by linarith)
      hlength hlength).1.mono (by linarith)
  have hone : |(value w.re : ℝ) * value w.re + value w.im * value w.im - 1| ≤ 1 / 2 ^ 45 := by
    have hfactors : ‖w.exact‖ ^ 2 - 1 = (‖w.exact‖ - 1) * (‖w.exact‖ + 1) := by ring
    have hthree : |‖w.exact‖ + 1| ≤ 3 := abs_le.mpr ⟨by linarith, by linarith⟩
    rw [← sq, ← sq, ← hwsq, hfactors, abs_mul]
    exact (mul_le_mul hunit hthree (abs_nonneg _) (by norm_num)).trans (by norm_num)
  have hquotient : ‖z.exact / w.exact‖ ≤ ‖z.exact‖ * (1 + 1 / 2 ^ 47) := by
    rw [norm_div]
    refine div_le_of_le_mul₀ (norm_nonneg _) (by positivity) ?_
    have : 1 ≤ (1 + 1 / 2 ^ 47) * ‖w.exact‖ := by linarith
    rw [mul_assoc]
    exact le_mul_of_one_le_right hnonneg this
  have hre : (z.exact / w.exact).re = (value z.re * value w.re + value z.im * value w.im) /
      (value w.re * value w.re + value w.im * value w.im) := by
    rw [Complex.div_re, Complex.normSq_apply, ← add_div]
    rfl
  have him : (z.exact / w.exact).im = (value z.im * value w.re - value z.re * value w.im) /
      (value w.re * value w.re + value w.im * value w.im) := by
    rw [Complex.div_im, Complex.normSq_apply, ← sub_div]
    rfl
  have hfirst := near_div_near_one hnonneg hmax
    (near_products hzre hzim hwre hwim hnonneg hmax hzsq.ge hlength).1 hnorm hone
    (hre ▸ (Complex.abs_re_le_norm _).trans hquotient)
  have hsecond := near_div_near_one hnonneg hmax
    (near_products hzim hzre hwre hwim hnonneg hmax (by linarith) hlength).2 hnorm hone
    (him ▸ (Complex.abs_im_le_norm _).trans hquotient)
  refine (near_of_components (d := ‖z.exact‖ / 2 ^ 48 + 8 * slip)
    (e := ‖z.exact‖ / 2 ^ 48 + 8 * slip) ?_ ?_).mono (by linarith)
  · rw [hre]
    exact hfirst
  · rw [him]
    exact hsecond

end Phasor

end Ohmic
