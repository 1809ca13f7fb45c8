import Ohmic.Proofs.Number.Length
import Ohmic.Proofs.Search.Band
import Ohmic.Proofs.Search.Coherence

set_option autoImplicit false

/-!
# How near the results are

A phasor is accepted if the length of its difference from the target, over the length of the target,
is at most the bound. Difference, lengths and quotient are rounded, each of them once, so a result
is hardly farther from the target than the bound says, as long as the length of the target is a
double.

The components of the target can be doubles when its length is none. Then the length is infinite,
and what is divided by it is zero: every phasor is accepted if its own distance from the target is
not infinite as well.

## Main definitions

* `Phasor.square`, `Phasor.squareDistance` — the squares of lengths and distances, without any
  rounding.
* `Binary64.ZeroOrNormal` — not one of the doubles that are too small for a full mantissa.

## Main results

* `Deviation.squareDistance_le_of_relative_le` — the exact distance of what has a small relative
  deviation.
* `Deviation.isZero_relative` — the relative deviation from a target of infinite length.
* `Search.run_near` — the exact distance of the results of a search.
* `Search.far_result` — a search for a target of infinite length, and its result, which is far off.

## Implementation notes

Each error is a part of `2⁻⁵³` of the number that is rounded, or of the least normal double. The
target is not shorter than that double, so what the errors add to a bound of at least `2⁻²⁰` is a
small part of it.
-/

namespace Ohmic

open Binary64 (value)

/-- The square of the length of a phasor, without any rounding. -/
def Phasor.square (z : Phasor Float) : ℚ := value z.re ^ 2 + value z.im ^ 2

/-- The square of the distance of two phasors, without any rounding. -/
def Phasor.squareDistance (z w : Phasor Float) : ℚ :=
  (value z.re - value w.re) ^ 2 + (value z.im - value w.im) ^ 2

namespace Binary64

open Float.Model (UnpackedFloat)
open Scalar (IsZero Positive)

/-- Zero, or large enough for a full mantissa. -/
def ZeroOrNormal (x : Float) : Prop := value x = 0 ∨ 2 ^ (-1022 : ℤ) ≤ |value x|

/-- Doubles that are at most each other are equal. -/
lemma beq_of_le_of_le {x y : Float} (hxy : x ≤ y) (hyx : y ≤ x) : (x == y) = true := by
  obtain ⟨a, ha, b, hb, hab⟩ := (le_iff x y).mp hxy
  obtain ⟨b', hb', a', ha', hba⟩ := (le_iff y x).mp hyx
  obtain rfl := Option.mem_unique ha ha'
  obtain rfl := Option.mem_unique hb hb'
  exact (beq_iff x y).mpr ⟨a, ha, b, hb, le_antisymm hab hba⟩

/-! ## Rounding errors -/

/-- What is rounded is not much larger than the double. -/
lemma Rounds.mul_le {q : ℚ} {x : Float} (h : Rounds q x) (hq : 0 ≤ q) (hx : x.isFinite = true) :
    q * (1 - 1 / 2 ^ 53) ≤ value x + 2 ^ (-1022 : ℤ) / 2 ^ 53 := by
  have hleast := zpow_pos' (-1022)
  obtain ⟨d, hbelow, -, hd⟩ := h.exists_error hq hx
  rw [half_least_eq] at hd
  rcases hd with rfl | rfl <;> linarith

/-- What is rounded to a normal double is not much smaller than that. -/
lemma Rounds.mul_le_of_normal {q : ℚ} {x : Float} (h : Rounds q x) (hq : 0 ≤ q)
    (hx : x.isFinite = true) (hnormal : 2 ^ (-1022 : ℤ) ≤ value x) :
    value x * (1 - 1 / 2 ^ 53) ≤ q := by
  obtain ⟨d, -, habove, hd⟩ := h.exists_error hq hx
  rw [half_least_eq] at hd
  rcases hd with rfl | rfl <;> linarith

/-- What is at least the least normal double is large enough. -/
lemma zeroOrNormal_of_le {x : Float} (hx : x.isFinite = true) (h : leastNormal ≤ x) :
    ZeroOrNormal x := by
  rw [le_iff_value_le isFinite_leastNormal hx, value_leastNormal] at h
  exact .inr (h.trans (le_abs_self _))

/-- The square of a difference of doubles, without the error of the difference. -/
lemma sq_sub_mul_le {x y : Float} (hx : x.isFinite = true) (hy : y.isFinite = true)
    (hdifference : (x - y).isFinite = true) :
    (value x - value y) ^ 2 * (1 - 1 / 2 ^ 53) ^ 2 ≤ value (x - y) ^ 2 := by
  have herror := abs_value_sub_sub_le hx hy hdifference
  have hclose := abs_sub_abs_le_abs_sub (value x - value y) (value (x - y))
  rw [abs_sub_comm (value x - value y)] at hclose
  rw [← mul_pow]
  refine sq_le_sq.mpr ?_
  rw [abs_mul, abs_of_nonneg (by norm_num : (0 : ℚ) ≤ 1 - 1 / 2 ^ 53)]
  linarith

/-- What gives a small quotient is finite.

**Proof sketch.** By the parts of the dividend. An undefined one has an undefined quotient, which is
below nothing. An infinite one without a minus sign has an infinite quotient, which is not below a
finite bound. -/
lemma isFinite_of_div_le {x y bound : Float} (hx : Unsigned x) (hy : Positive y)
    (hb : bound.isFinite = true) (h : x / y ≤ bound) : x.isFinite = true := by
  obtain ⟨m, e, hm, hparts⟩ := exists_parts_of_value_pos hy.2 (value_pos hy)
  have hdiv : x / y = ofParts (UnpackedFloat.div .binary64 (parts x) (parts y)) := rfl
  rw [hparts] at hdiv
  show (parts x).isFinite = true
  cases hs : parts x with
  | zero | finite => rfl
  | notANumber =>
    rw [hs] at hdiv
    have hundefined : parts (x / y) = .notANumber := by
      rw [hdiv]
      exact parts_ofParts trivial
    obtain ⟨a, ha, -⟩ := (le_iff _ _).mp h
    rw [hundefined] at ha
    cases ha
  | infinity s =>
    cases s with
    | negative => exact absurd (congrArg sign? hs) hx
    | positive =>
      rw [hs] at hdiv
      have hinfinite : parts (x / y) = .infinity .positive := by
        rw [hdiv]
        exact parts_ofParts trivial
      rcases parts_of_le hb h with hfinite | hnegative
      · have hfinite : (parts (x / y)).isFinite = true := hfinite
        rw [hinfinite] at hfinite
        cases hfinite
      · rw [hinfinite] at hnegative
        cases hnegative

end Binary64

/-! ## Phasors -/

namespace Phasor

open Binary64

/-- A square is not negative. -/
lemma square_nonneg (z : Phasor Float) : 0 ≤ z.square := add_nonneg (sq_nonneg _) (sq_nonneg _)

section

variable {z : Phasor Float} (hz : (Impedance.magnitude z).isFinite = true)

include hz

/-- A length is not negative. -/
lemma value_magnitude_nonneg : 0 ≤ value (Impedance.magnitude z) :=
  value_nonneg hz ((le_iff_not_lt isFinite_zero hz).mpr
    (not_lt_zero (unsigned_hypotenuse z.re z.im)))

/-- The square of a length, without the error of the length. -/
lemma square_mul_le :
    z.square * (1 - 1 / 2 ^ 53) ^ 2 ≤
      (value (Impedance.magnitude z) + 2 ^ (-1022 : ℤ) / 2 ^ 53) ^ 2 := by
  obtain ⟨hre, him⟩ := isFinite_of_hypotenuse hz
  obtain ⟨-, high, -, hnonneg, hsquare, hrounds⟩ := roundsRoot_hypotenuse hre him
  calc z.square * (1 - 1 / 2 ^ 53) ^ 2 ≤ high ^ 2 * (1 - 1 / 2 ^ 53) ^ 2 :=
        mul_le_mul_of_nonneg_right hsquare (sq_nonneg _)
    _ = (high * (1 - 1 / 2 ^ 53)) ^ 2 := (mul_pow _ _ 2).symm
    _ ≤ _ := pow_le_pow_left₀ (mul_nonneg hnonneg (by norm_num)) (hrounds.mul_le hnonneg hz) 2

/-- The square of a normal length, without its error. -/
lemma mul_le_square (hnormal : 2 ^ (-1022 : ℤ) ≤ value (Impedance.magnitude z)) :
    value (Impedance.magnitude z) ^ 2 * (1 - 1 / 2 ^ 53) ^ 2 ≤ z.square := by
  obtain ⟨hre, him⟩ := isFinite_of_hypotenuse hz
  obtain ⟨low, -, ⟨hnonneg, hsquare, hrounds⟩, -⟩ := roundsRoot_hypotenuse hre him
  have hlength := (zpow_pos' (-1022)).le.trans hnormal
  calc value (Impedance.magnitude z) ^ 2 * (1 - 1 / 2 ^ 53) ^ 2
      = (value (Impedance.magnitude z) * (1 - 1 / 2 ^ 53)) ^ 2 := (mul_pow _ _ 2).symm
    _ ≤ low ^ 2 := pow_le_pow_left₀ (mul_nonneg hlength (by norm_num))
        (hrounds.mul_le_of_normal hnonneg hz hnormal) 2
    _ ≤ z.square := hsquare

/-- The length of a phasor with normal components is normal, unless it is zero.

**Proof sketch.** If one of the components is normal, the length is rounded from a root that is not
below it, and the least normal double is not rounded away. Otherwise both are zero, hence the length
is zero. -/
lemma normal_magnitude (hzero : (Impedance.magnitude z == 0) = false)
    (hre : ZeroOrNormal z.re) (him : ZeroOrNormal z.im) :
    2 ^ (-1022 : ℤ) ≤ value (Impedance.magnitude z) := by
  obtain ⟨hrefinite, himfinite⟩ := isFinite_of_hypotenuse hz
  obtain ⟨low, high, ⟨-, hbelow, hlow⟩, hnonneg, habove, hhigh⟩ :=
    roundsRoot_hypotenuse hrefinite himfinite
  by_cases hnormal : 2 ^ (-1022 : ℤ) ≤ |value z.re| ∨ 2 ^ (-1022 : ℤ) ≤ |value z.im|
  · have hle : 2 ^ (-1022 : ℤ) ≤ high := by
      rcases hnormal with hre | him
      · exact hre.trans (abs_le_of_sq_le_sq (by linarith [sq_nonneg (value z.im)]) hnonneg)
      · exact him.trans (abs_le_of_sq_le_sq (by linarith [sq_nonneg (value z.re)]) hnonneg)
    rw [← value_leastNormal] at hle ⊢
    exact (le_iff_value_le isFinite_leastNormal hz).mp (hhigh.ge_of_ge isFinite_leastNormal hle)
  · -- both components are zero, and so is the length
    rw [not_or] at hnormal
    rw [hre.resolve_right hnormal.1, him.resolve_right hnormal.2, zero_pow two_ne_zero,
      add_zero] at hbelow
    have hnone : low = 0 := pow_eq_zero_iff two_ne_zero |>.mp (le_antisymm hbelow (sq_nonneg low))
    rw [hnone] at hlow
    have heq := beq_of_le_of_le (hlow.le_of_le isFinite_zero value_zero.ge)
      (hlow.ge_of_ge isFinite_zero value_zero.le)
    cases heq.symm.trans hzero

end

/-- The square of a distance, without the error of the difference. -/
lemma squareDistance_mul_le {z t : Phasor Float} (hz : z.isFinite = true) (ht : t.isFinite = true)
    (hdifference : (Impedance.magnitude (z - t)).isFinite = true) :
    z.squareDistance t * (1 - 1 / 2 ^ 53) ^ 2 ≤ (z - t).square := by
  obtain ⟨hzre, hzim⟩ := Bool.and_eq_true_iff.mp hz
  obtain ⟨htre, htim⟩ := Bool.and_eq_true_iff.mp ht
  obtain ⟨hre, him⟩ := isFinite_of_hypotenuse hdifference
  rw [squareDistance, add_mul]
  exact add_le_add (sq_sub_mul_le hzre htre hre) (sq_sub_mul_le hzim htim him)

end Phasor

/-! ## Relative deviations -/

namespace Deviation

open Binary64
open Scalar (IsZero Positive)

/-- Four errors of one size, those of difference, length, quotient and length of the target, one
after the other. -/
lemma mul_pow_le_of_errors {distance difference length factor target square k : ℚ} (hk : 0 ≤ k)
    (hlength : 0 ≤ length) (h₁ : distance * k ^ 2 ≤ difference)
    (h₂ : difference * k ^ 2 ≤ length ^ 2) (h₃ : length * k ≤ factor * target)
    (h₄ : target ^ 2 * k ^ 2 ≤ square) : distance * k ^ 8 ≤ factor ^ 2 * square := by
  calc distance * k ^ 8 = distance * k ^ 2 * k ^ 6 := by ring
    _ ≤ difference * k ^ 6 := mul_le_mul_of_nonneg_right h₁ (pow_nonneg hk 6)
    _ = difference * k ^ 2 * k ^ 4 := by ring
    _ ≤ length ^ 2 * k ^ 4 := mul_le_mul_of_nonneg_right h₂ (pow_nonneg hk 4)
    _ = (length * k) ^ 2 * k ^ 2 := by ring
    _ ≤ (factor * target) ^ 2 * k ^ 2 := mul_le_mul_of_nonneg_right
        (pow_le_pow_left₀ (mul_nonneg hlength hk) h₃ 2) (pow_nonneg hk 2)
    _ = factor ^ 2 * (target ^ 2 * k ^ 2) := by ring
    _ ≤ factor ^ 2 * square := mul_le_mul_of_nonneg_left h₄ (sq_nonneg factor)

variable {z t : Phasor Float} {bound : Float}

/-- **What has a small relative deviation** is hardly farther from the target than that says, if
target and value are finite, and the length of the target is a normal double.

**Proof sketch.** With `k = 1 - 2⁻⁵³`, the exact square of the distance is at most that of the
rounded difference over `k²`, which is at most the square of its length over `k²`. That length is at
most the bound times the length of the target over `k`, with a little added to the bound for what is
lost among the least doubles. And the square of the length of the target is at most the exact one
over `k²`. -/
theorem squareDistance_le_of_relative_le (hz : z.isFinite = true) (ht : t.isFinite = true)
    (hmagnitude : (Impedance.magnitude t).isFinite = true)
    (hnormal : 2 ^ (-1022 : ℤ) ≤ value (Impedance.magnitude t)) (hb : bound.isFinite = true)
    (hbound : 1 / 2 ^ 20 ≤ value bound) (h : (Deviation.of z t).relative ≤ bound) :
    z.squareDistance t ≤ (value bound * (1 + 1 / 2 ^ 20)) ^ 2 * t.square := by
  have hleast := zpow_pos' (-1022)
  have htarget : Positive (Impedance.magnitude t) := by
    refine ⟨(lt_iff_value_lt isFinite_zero hmagnitude).mpr ?_, hmagnitude⟩
    rw [value_zero]
    exact hleast.trans_le hnormal
  have hfinite : (Impedance.magnitude (z - t)).isFinite = true :=
    isFinite_of_div_le (unsigned_hypotenuse _ _) htarget hb h
  have hnonneg := Phasor.value_magnitude_nonneg hfinite
  have hquotient := mul_le_of_div_le hfinite hnonneg htarget hb h
  have hlength : (value (Impedance.magnitude (z - t)) + 2 ^ (-1022 : ℤ) / 2 ^ 53) *
      (1 - 1 / 2 ^ 53) ≤ value bound * (1 + 1 / 2 ^ 32) * value (Impedance.magnitude t) := by
    have hpart := mul_le_mul_of_nonneg_right hbound (value_pos htarget).le
    linarith
  have hdistance := Phasor.squareDistance_mul_le hz ht hfinite
  have hsquare := Phasor.square_mul_le hfinite
  have hexact := Phasor.mul_le_square hmagnitude hnormal
  have hpos : (0 : ℚ) < 1 - 1 / 2 ^ 53 := by norm_num
  have hslack : (1 + 1 / 2 ^ 32 : ℚ) ^ 2 ≤ (1 + 1 / 2 ^ 20) ^ 2 * (1 - 1 / 2 ^ 53) ^ 8 := by
    norm_num
  obtain ⟨k, hk⟩ : ∃ k : ℚ, 1 - 1 / 2 ^ 53 = k := ⟨_, rfl⟩
  rw [hk] at hpos hlength hdistance hsquare hexact hslack
  have herrors := mul_pow_le_of_errors hpos.le (by linarith) hdistance hsquare hlength hexact
  have hfactor : (value bound * (1 + 1 / 2 ^ 32)) ^ 2 ≤
      (value bound * (1 + 1 / 2 ^ 20)) ^ 2 * k ^ 8 := by
    rw [mul_pow, mul_pow, mul_assoc]
    exact mul_le_mul_of_nonneg_left hslack (sq_nonneg _)
  refine le_of_mul_le_mul_right (herrors.trans ?_) (pow_pos hpos 8)
  rw [mul_right_comm]
  exact mul_le_mul_of_nonneg_right hfactor t.square_nonneg

/-- **The relative deviation from a target of infinite length** is zero, if the distance from the
target is finite. -/
theorem isZero_relative {s : Float.Model.UnpackedFloat.Sign}
    (hmagnitude : parts (Impedance.magnitude t) = .infinity s)
    (hdistance : (Impedance.magnitude (z - t)).isFinite = true) :
    IsZero (Deviation.of z t).relative :=
  isZero_div_infinity hdistance hmagnitude

end Deviation

/-! ## The results of a search -/

namespace Search

open Binary64
open Scalar (Positive)

/-- **The results are near the target**, whatever the clock shows, if the length of the target is a
double: the exact distance is hardly larger than the bound of a relative tolerance says.

**Proof sketch.** A result is coherent and accepted (`coherent_of_mem_results`), so the length of
the computed difference over that of the target is within the bound. What rounding changes in these
is estimated for a target of normal length (`Deviation.squareDistance_le_of_relative_le`). -/
theorem run_near (s : Search Float (Phasor Float)) (clock : Clock) {bound : Float}
    (htolerance : s.settings.tolerance = .relative bound) (hbound : 1 / 2 ^ 20 ≤ value bound)
    (hre : ZeroOrNormal s.settings.target.re) (him : ZeroOrNormal s.settings.target.im)
    (hmagnitude : (Impedance.magnitude s.settings.target).isFinite = true)
    {results : Results Float (Phasor Float)} (h : (s.run clock).outcome = .ok results) :
    ∀ f ∈ results.findings, f.impedance.squareDistance s.settings.target ≤
      (value bound * (1 + 1 / 2 ^ 20)) ^ 2 * s.settings.target.square := by
  intro f hf
  obtain ⟨hcoherent, haccepted⟩ := coherent_of_mem_results h hf
  obtain ⟨hcheck, -⟩ := exists_replay_of_results h
  have hsettings := Settings.check_eq_ok_iff.mp (check_eq_ok_iff.mp hcheck).1
  have hfinite := hsettings.finite_bound
  rw [htolerance] at hfinite haccepted
  rw [hcoherent.deviation_eq] at haccepted
  have himpedance : f.impedance.isFinite = true :=
    Tree.isFinite_of_value? (Tree.evaluate_eq_ok_iff.mp hcoherent.evaluate_tree)
  exact Deviation.squareDistance_le_of_relative_le himpedance hsettings.finite_target hmagnitude
    (Phasor.normal_magnitude hmagnitude hsettings.target_ne_zero hre him) hfinite hbound
    (of_decide_eq_true haccepted)

/-- One per cent. -/
lemma value_one_hundredth : 1 / 2 ^ 20 ≤ value 0.01 ∧ value 0.01 ≤ 1 / 2 ^ 2 := by
  have hparts : parts 0.01 = .finite .positive 5764607523034235 (-59) (by decide) := rfl
  rw [value, hparts, rational]
  norm_num [Float.Model.UnpackedFloat.Sign.apply]

/-- Thirty ohms of resistance in series with forty of reactance, which are a tenth of an ohm off. -/
theorem run_near_fifty_ohms :
    let s : Search Float (Phasor Float) :=
      ⟨[⟨30, 0⟩, ⟨0, 40⟩], Settings.of ⟨30, 40.1⟩ (.relative 0.01) 2⟩
    ∃ results f, (s.run Clock.still).outcome = .ok results ∧ results.findings = [f] ∧
      f.impedance = ⟨30, 40⟩ ∧
      f.impedance.squareDistance ⟨30, 40.1⟩ ≤
        (value 0.01 * (1 + 1 / 2 ^ 20)) ^ 2 * (⟨30, 40.1⟩ : Phasor Float).square := by
  intro s
  have hlevels : (s.runLevels Clock.still 2 1 (Budget.ofSettings s.settings) {}).toOption.map
      (fun p => (p.findings.map Finding.impedance, p.stats.truncated)) =
        some ([⟨30, 40⟩], false) := by decide +kernel
  obtain ⟨f, stats, houtcome, himpedance, -⟩ :=
    exists_single_of_runLevels Finding.impedance Stats.truncated (by decide +kernel) rfl hlevels
  exact ⟨_, f, houtcome, rfl, himpedance, run_near s Clock.still rfl value_one_hundredth.1
    (zeroOrNormal_of_le (by decide +kernel) (by decide +kernel))
    (zeroOrNormal_of_le (by decide +kernel) (by decide +kernel)) (by decide +kernel) houtcome f
    (List.mem_singleton_self f)⟩

/-- **A result can be far off.** Both components of the target are finite, and of one and a half
times `10³⁰⁸` ohms, but their length is infinite. A resistance of that size without any reactance is
a result, though it differs from the target by seven tenths of its length.

**Proof sketch.** The search is evaluated: the resistance is its only result. The squared distance
is the square of the reactance that is missing, one half of the squared length of the target, and
the bound permits less than a quarter of that. -/
theorem far_result :
    let s : Search Float (Phasor Float) :=
      ⟨[⟨1.5e308, 0⟩], Settings.of ⟨1.5e308, 1.5e308⟩ (.relative 0.01) 1⟩
    s.check = .ok () ∧ (∀ z ∈ s.alphabet, z.isFinite = true) ∧
      ZeroOrNormal s.settings.target.re ∧ ZeroOrNormal s.settings.target.im ∧
      1 / 2 ^ 20 ≤ value 0.01 ∧ value 0.01 ≤ 1 ∧
      ∃ results f, (s.run Clock.still).outcome = .ok results ∧ f ∈ results.findings ∧
        ¬ f.impedance.squareDistance s.settings.target ≤
          (value 0.01 * (1 + 1 / 2 ^ 20)) ^ 2 * s.settings.target.square := by
  intro s
  have hlevels : (s.runLevels Clock.still 1 1 (Budget.ofSettings s.settings) {}).toOption.map
      (fun p => (p.findings.map Finding.impedance, p.stats.truncated)) =
        some ([⟨1.5e308, 0⟩], false) := by decide +kernel
  obtain ⟨f, stats, houtcome, himpedance, -⟩ :=
    exists_single_of_runLevels Finding.impedance Stats.truncated (by decide +kernel) rfl hlevels
  have hpositive : Positive (1.5e308 : Float) := ⟨by decide +kernel, by decide +kernel⟩
  have hnormal : ZeroOrNormal 1.5e308 := zeroOrNormal_of_le hpositive.2 (by decide +kernel)
  obtain ⟨hlow, hhigh⟩ := value_one_hundredth
  refine ⟨by decide +kernel, by decide +kernel, hnormal, hnormal, hlow, hhigh.trans (by norm_num),
    _, f, houtcome, List.mem_singleton_self f, ?_⟩
  rw [himpedance, not_le]
  have hzero : value (0 : Float) = 0 := value_zero
  have hsquare := pow_pos (value_pos hpositive) 2
  have hfactor : (value 0.01 * (1 + 1 / 2 ^ 20)) ^ 2 ≤ 1 / 4 :=
    (pow_le_pow_left₀ (by linarith) (by linarith : _ ≤ (1 / 2 : ℚ)) 2).trans (by norm_num)
  dsimp only [s, Settings.of, Phasor.squareDistance, Phasor.square]
  rw [hzero]
  calc (value 0.01 * (1 + 1 / 2 ^ 20)) ^ 2 * (value 1.5e308 ^ 2 + value 1.5e308 ^ 2)
      ≤ 1 / 4 * (value 1.5e308 ^ 2 + value 1.5e308 ^ 2) :=
        mul_le_mul_of_nonneg_right hfactor (by linarith)
    _ < (value 1.5e308 - value 1.5e308) ^ 2 + (0 - value 1.5e308) ^ 2 := by linarith

end Search

end Ohmic
