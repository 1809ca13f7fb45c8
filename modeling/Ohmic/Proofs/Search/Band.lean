import Ohmic.Proofs.Number.Operations
import Ohmic.Proofs.Search.Bounds

set_option autoImplicit false

/-!
# The slackened band in double precision

A value is accepted if its rounded deviation is at most the bound. The band that limits what a
partial network can become is computed from target and bound in another way, and opened by a
relative slack of `10⁻⁹` at either end. This is more than enough for a few roundings of numbers of
the size of that end. But what is rounded in a deviation has the size of the target. The upper end
is not smaller than that, and the band contains all that is accepted above the target. The lower end
is smaller, if the bound leaves next to nothing of the target; then a value can be accepted and lie
below the band.

## Main definitions

* `Tolerance.radius` — how far from the target a value may be, without any rounding.

## Main results

* `Binary64.le_mul_one_add_slack`, `Binary64.mul_one_sub_slack_le` — what the slack makes up for.
* `Bounds.covers_exact` — the band covers the tolerance as it is meant, without any rounding.
* `Bounds.covers_accepted` — what is accepted is not above the band. It is not below it either,
  unless three things hold: it is below the target, the bound leaves something of the target but
  less than a part of `2⁻¹⁸`, and the value is accepted only since its deviation has been rounded.
* `Bounds.accepted_below_band` — a value for which they hold, and which is below the band.

## Implementation notes

The smallest doubles are rounded so coarsely that a relative slack does not make up for it. But they
are multiples of the least one, and what is off by less than that is not off at all.
-/

namespace Ohmic

open Binary64 (value)

/-- How far from the target the tolerance lets a value be, without any rounding. -/
def Tolerance.radius (tolerance : Tolerance Float) (target : Float) : ℚ :=
  match tolerance with
  | .relative bound => value bound * value target
  | .absolute bound => value bound

namespace Binary64

open Float.Model (UnpackedFloat)
open Float.Model.UnpackedFloat (Sign)
open Scalar (Positive)

/-! ## The slack -/

/-- The factor that opens the band above. -/
lemma value_one_add_slack :
    (1 + Scalar.slack : Float).isFinite = true ∧ 1 + 1 / 2 ^ 30 ≤ value (1 + Scalar.slack) := by
  have hparts : parts (1 + Scalar.slack) = .finite .positive 4503599631874096 (-52) (by decide) :=
    rfl
  refine ⟨congrArg UnpackedFloat.isFinite hparts, ?_⟩
  rw [value, hparts, rational]
  norm_num [Sign.apply]

/-- The factor that opens the band below. -/
lemma value_one_sub_slack :
    (1 - Scalar.slack : Float).isFinite = true ∧ 0 < value (1 - Scalar.slack) ∧
      value (1 - Scalar.slack) ≤ 1 - 1 / 2 ^ 30 := by
  have hparts : parts (1 - Scalar.slack) = .finite .positive 9007199245733793 (-53) (by decide) :=
    rfl
  refine ⟨congrArg UnpackedFloat.isFinite hparts, ?_⟩
  rw [value, hparts, rational]
  norm_num [Sign.apply]

/-! ## The ends of the band -/

/-- **An end opened above** is not below what is above the exact end by a few units in the last
place only.

**Proof sketch.** An infinite end is above everything. A finite one is rounded from `y`. If its
error is a relative one, the slack adds more. If it is that of the least doubles, either the end is
large enough for the slack to cover it, or the value exceeds the end by less than the least double,
hence not at all (`value_le_of_lt_add`). -/
theorem le_mul_one_add_slack {y : ℚ} {s v : Float} (hs : Rounds y s) (hy : 0 ≤ y)
    (hv : v.isFinite = true) (h : value v ≤ y * (1 + 6 / 2 ^ 53)) :
    v ≤ s * (1 + Scalar.slack) := by
  obtain ⟨hslack, hfactor⟩ := value_one_add_slack
  have hnonneg : 0 ≤ s := hs.ge_of_ge isFinite_zero (by rwa [value_zero])
  rcases parts_of_ge isFinite_zero hnonneg with hfinite | hinfinite
  · refine (rounds_mul hfinite hslack).ge_of_ge hv ?_
    have hsnonneg := value_nonneg hfinite hnonneg
    have hopened := mul_le_mul_of_nonneg_left hfactor hsnonneg
    have hclose := value_le_of_lt_add hv hfinite
    have hleast := zpow_pos' (-1074)
    obtain ⟨d, hbelow, -, hd⟩ := hs.exists_error hy hfinite
    generalize (2 : ℚ) ^ (-1074 : ℤ) = least at *
    rcases hd with rfl | rfl
    · linarith
    · rcases le_or_gt (2 ^ 30 * least) (value s) with hlarge | hsmall
      · linarith
      · -- too small for the slack to be of use, and for two doubles to differ
        have hle := hclose (by linarith)
        linarith
  · exact le_infinity hv (parts_infinity_mul hinfinite hslack (by linarith))

/-- **An end opened below** is not above what is below the exact end by a small part only.

**Proof sketch.** An infinite end is below everything, and an end that is not positive is below the
value. Any other end is rounded from `y`. If its error is a relative one, the slack takes away more.
If it is that of the least doubles, either the end is large enough for the slack to cover it, or the
end exceeds the value by less than the least double, hence not at all (`value_le_of_lt_add`). -/
theorem mul_one_sub_slack_le {y : ℚ} {s v w : Float} (hs : Rounds y s) (hw : w.isFinite = true)
    (hyw : y ≤ value w) (hv : v.isFinite = true) (hnonneg : 0 ≤ value v)
    (h : y ≤ value v * (1 + 1 / 2 ^ 32)) : s * (1 - Scalar.slack) ≤ v := by
  obtain ⟨hslack, hpos, hfactor⟩ := value_one_sub_slack
  rcases parts_of_le hw (hs.le_of_le hw hyw) with hfinite | hinfinite
  · refine (rounds_mul hfinite hslack).le_of_le hv ?_
    rcases le_or_gt (value s) 0 with hnone | hsome
    · exact (mul_nonpos_of_nonpos_of_nonneg hnone hpos.le).trans hnonneg
    · have hy : 0 ≤ y := by
        by_contra hneg
        have hle := hs.le_of_le isFinite_zero (by rw [value_zero]; exact (not_le.mp hneg).le)
        rw [le_iff_value_le hfinite isFinite_zero, value_zero] at hle
        linarith
      have hopened := mul_le_mul_of_nonneg_left hfactor hsome.le
      have hclose := value_le_of_lt_add hfinite hv
      have hleast := zpow_pos' (-1074)
      obtain ⟨d, -, habove, hd⟩ := hs.exists_error hy hfinite
      generalize (2 : ℚ) ^ (-1074 : ℤ) = least at *
      rcases hd with rfl | rfl
      · linarith
      · rcases le_or_gt (2 ^ 30 * least) (value s) with hlarge | hsmall
        · linarith
        · have hle := hclose (by linarith)
          linarith
  · exact infinity_le hv (parts_infinity_mul hinfinite hslack hpos)

/-! ## Accepted deviations -/

/-- A quotient by a positive double that is at most a bound.

**Proof sketch.** The quotient is finite, as it lies between zero and the bound. Its error is a
relative one or that of the least doubles, which is far below `2⁻⁶⁰`. -/
lemma mul_le_of_div_le {x y bound : Float} (hx : x.isFinite = true) (hxpos : 0 ≤ value x)
    (hy : Positive y) (hb : bound.isFinite = true) (h : x / y ≤ bound) :
    value x * (1 - 1 / 2 ^ 53) ≤ (value bound + 1 / 2 ^ 60) * value y := by
  have hypos := value_pos hy
  have hrounds := rounds_div hx hy.2 fun hzero => hypos.ne' (value_of_isZero hzero)
  have hnonneg : 0 ≤ value x / value y := div_nonneg hxpos hypos.le
  have hfinite : (x / y).isFinite = true := by
    refine isFinite_of_le_of_le isFinite_zero hb (hrounds.ge_of_ge isFinite_zero ?_) h
    rwa [value_zero]
  have hle := (le_iff_value_le hfinite hb).mp h
  have hleast : (2 : ℚ) ^ (-1074 : ℤ) ≤ 1 / 2 ^ 60 :=
    (zpow_le (by norm_num : (-1074 : ℤ) ≤ -60)).trans (by norm_num)
  have hquotient : value x / value y * (1 - 1 / 2 ^ 53) ≤ value bound + 1 / 2 ^ 60 := by
    obtain ⟨d, hbelow, -, hd⟩ := hrounds.exists_error hnonneg hfinite
    generalize (2 : ℚ) ^ (-1074 : ℤ) = least at *
    rcases hd with rfl | rfl <;> linarith
  calc value x * (1 - 1 / 2 ^ 53) = value x / value y * (1 - 1 / 2 ^ 53) * value y := by
        rw [mul_right_comm, div_mul_cancel₀ _ hypos.ne']
    _ ≤ (value bound + 1 / 2 ^ 60) * value y := mul_le_mul_of_nonneg_right hquotient hypos.le

section

variable {target v : Float} {tolerance : Tolerance Float} (ht : Positive target) (hv : Positive v)
  (hb : tolerance.bound.isFinite = true)

include ht hv hb

/-- **What is accepted** deviates hardly more than the tolerance permits.

**Proof sketch.** The computed distance is the exact one with one relative error. For an absolute
tolerance it is compared with the bound. For a relative one it is divided by the target first, which
is rounded once more (`mul_le_of_div_le`). -/
theorem distance_le_of_accepts
    (h : tolerance.accepts (Deviation.of v target).absolute (Deviation.of v target).relative) :
    |value v - value target| * (1 - 2 / 2 ^ 53) ≤
      tolerance.radius target + value target / 2 ^ 60 := by
  have htpos := value_pos ht
  have hfinite := isFinite_sub hv.2 ht.2 (value_pos hv).le htpos.le
  have hrounded : |value v - value target| * (1 - 1 / 2 ^ 53) ≤
      value (Scalar.abs (v - target)) := by
    have herror := abs_value_sub_sub_le hv.2 ht.2 hfinite
    have hclose := abs_sub_abs_le_abs_sub (value v - value target) (value (v - target))
    rw [abs_sub_comm (value v - value target)] at hclose
    rw [value_abs]
    linarith
  have hfinite : (Scalar.abs (v - target)).isFinite = true := by rwa [isFinite_abs]
  have hdistance := abs_nonneg (value v - value target)
  cases tolerance with
  | absolute bound =>
    have hle : Scalar.abs (v - target) ≤ bound := of_decide_eq_true h
    rw [Tolerance.bound] at hb
    rw [le_iff_value_le hfinite hb] at hle
    rw [Tolerance.radius]
    linarith
  | relative bound =>
    have hle : Scalar.abs (v - target) / Scalar.abs target ≤ bound := of_decide_eq_true h
    rw [abs_eq_self ht] at hle
    rw [Tolerance.bound] at hb
    have hnonneg : 0 ≤ value (Scalar.abs (v - target)) := by
      rw [value_abs]
      exact abs_nonneg _
    have hquotient := mul_le_of_div_le hfinite hnonneg ht hb hle
    rw [Tolerance.radius]
    linarith

/-! ## Both ends -/

omit hv in
/-- A tolerance with a bound that is not negative has a width that is not negative. -/
lemma radius_nonneg (hbound : 0 ≤ tolerance.bound) : 0 ≤ tolerance.radius target := by
  have hnonneg := value_nonneg hb hbound
  cases tolerance with
  | absolute bound => exact hnonneg
  | relative bound => exact mul_nonneg hnonneg (value_pos ht).le

variable (hbound : 0 ≤ tolerance.bound)

include hbound

/-- **The upper end** is not below what exceeds the exact one by a few units in the last place
only.

**Proof sketch.** For an absolute tolerance the end is one rounded sum. For a relative one it is a
rounded product whose factor is a rounded sum, and is infinite if that sum is. Either way the slack
is larger than the errors (`le_mul_one_add_slack`). -/
theorem le_high (h : value v ≤ (value target + tolerance.radius target) * (1 + 4 / 2 ^ 53)) :
    v ≤ (tolerance.band target).2 * (1 + Scalar.slack) := by
  have htpos := value_pos ht
  have hnonneg := value_nonneg hb hbound
  cases tolerance with
  | absolute bound =>
    rw [Tolerance.radius] at h
    rw [Tolerance.bound] at hnonneg
    exact le_mul_one_add_slack (rounds_add ht.2 hb) (by linarith) hv.2 (by linarith)
  | relative bound =>
    rw [Tolerance.radius] at h
    rw [Tolerance.bound] at hnonneg hb
    have hone : 1 ≤ 1 + bound :=
      (rounds_add isFinite_one hb).ge_of_ge isFinite_one (by rw [value_one]; linarith)
    show v ≤ target * (1 + bound) * (1 + Scalar.slack)
    rcases parts_of_ge isFinite_one hone with hfinite | hinfinite
    · have hfactor := abs_value_add_sub_le isFinite_one hb hfinite
      rw [value_one, abs_of_nonneg (by linarith : 0 ≤ 1 + value bound)] at hfactor
      have hbelow := (abs_le.mp hfactor).1
      have hproduct := mul_le_mul_of_nonneg_left hbelow htpos.le
      have hwidth := mul_nonneg hnonneg htpos.le
      exact le_mul_one_add_slack (rounds_mul ht.2 hfinite)
        (mul_nonneg htpos.le (by linarith)) hv.2 (by linarith)
    · obtain ⟨hslack, hfactor⟩ := value_one_add_slack
      exact le_infinity hv.2
        (parts_infinity_mul (parts_mul_infinity ht.2 htpos hinfinite) hslack (by linarith))

/-- **The lower end** is not above what falls below the exact one by a small part only.

**Proof sketch.** For an absolute tolerance the end is one rounded difference. For a relative one it
is a rounded product whose factor is a rounded difference, at most one. Below a bound of one this
has a relative error only; above it the factor is not positive, and neither is the end. Either way
the slack is larger than the errors (`mul_one_sub_slack_le`). -/
theorem low_le (h : value target - tolerance.radius target ≤ value v * (1 + 1 / 2 ^ 33)) :
    (tolerance.band target).1 * (1 - Scalar.slack) ≤ v := by
  have htpos := value_pos ht
  have hvpos := value_pos hv
  have hnonneg := value_nonneg hb hbound
  cases tolerance with
  | absolute bound =>
    rw [Tolerance.radius] at h
    rw [Tolerance.bound] at hnonneg
    exact mul_one_sub_slack_le (rounds_sub ht.2 hb) ht.2 (by linarith) hv.2 hvpos.le (by linarith)
  | relative bound =>
    rw [Tolerance.radius] at h
    rw [Tolerance.bound] at hnonneg hb
    have hfinite := isFinite_sub isFinite_one hb (by rw [value_one]; exact one_pos.le) hnonneg
    have hfactor := abs_value_sub_sub_le isFinite_one hb hfinite
    rw [value_one] at hfactor
    -- the factor is at most one, and hardly more than the exact one unless that is negative
    have hone : value (1 - bound) ≤ 1 := by
      have hle := (rounds_sub isFinite_one hb).le_of_le isFinite_one (by rw [value_one]; linarith)
      rwa [le_iff_value_le hfinite isFinite_one, value_one] at hle
    have hproduct := mul_le_mul_of_nonneg_left hone htpos.le
    refine mul_one_sub_slack_le (rounds_mul ht.2 hfinite) ht.2 (by linarith) hv.2 hvpos.le ?_
    rcases le_or_gt (value bound) 1 with hless | hmore
    · rw [abs_of_nonneg (by linarith : 0 ≤ 1 - value bound)] at hfactor
      have habove := mul_le_mul_of_nonneg_left (abs_le.mp hfactor).2 htpos.le
      linarith
    · rw [abs_of_neg (by linarith : 1 - value bound < 0)] at hfactor
      have hneg : value (1 - bound) ≤ 0 := by linarith [(abs_le.mp hfactor).2]
      have hnone := mul_nonpos_of_nonneg_of_nonpos htpos.le hneg
      linarith

end

end Binary64

/-! ## The band of a search -/

namespace Bounds

open Float.Model.UnpackedFloat (Sign)
open Binary64 (parts rational value_pos radius_nonneg le_high low_le distance_le_of_accepts
  le_iff_value_le)
open Scalar (Positive positive?_eq_some)

section

variable {alphabet : List Float} {target v : Float} {tolerance : Tolerance Float}
  {bd : Bounds Float} (hbd : of? alphabet target tolerance = some bd)
  (hb : tolerance.bound.isFinite = true) (hbound : 0 ≤ tolerance.bound) (hv : Positive v)

include hbd hb hbound hv

/-- **The band covers the tolerance** as it is meant, without any rounding. -/
theorem covers_exact (h : |value v - value target| ≤ tolerance.radius target) :
    bd.low ≤ v ∧ v ≤ bd.high := by
  obtain ⟨r, first, rest, hr, -, rfl⟩ := of?_eq_some hbd
  obtain ⟨ht, rfl⟩ := positive?_eq_some.mp hr
  have htpos := value_pos ht
  have hvpos := value_pos hv
  have hnonneg := radius_nonneg ht hb hbound
  obtain ⟨hbelow, habove⟩ := abs_le.mp h
  exact ⟨low_le ht hv hb hbound (by linarith), le_high ht hv hb hbound (by linarith)⟩

/-- **The band covers what is accepted** above the target. Below the target it does so if the
tolerance leaves a part of `2⁻¹⁸` of the target at least, or nothing of it, or if the value would
also be accepted without any rounding.

**Proof sketch.** What is accepted deviates by the tolerance and a small part of the target at most
(`distance_le_of_accepts`), and the ends of the band are opened by more than that (`le_high`,
`low_le`). At the lower end this part has to be small in relation to the value, which is what the
conditions say. -/
theorem covers_accepted
    (h : tolerance.accepts (Deviation.of v target).absolute (Deviation.of v target).relative) :
    v ≤ bd.high ∧
      (target ≤ v ∨ tolerance.radius target ≤ value target * (1 - 1 / 2 ^ 18) ∨
          value target ≤ tolerance.radius target ∨
          |value v - value target| ≤ tolerance.radius target →
        bd.low ≤ v) := by
  obtain ⟨r, first, rest, hr, -, rfl⟩ := of?_eq_some hbd
  obtain ⟨ht, rfl⟩ := positive?_eq_some.mp hr
  have htpos := value_pos ht
  have hvpos := value_pos hv
  have hnonneg := radius_nonneg ht hb hbound
  have hdistance := distance_le_of_accepts ht hv hb h
  have hbelow := neg_abs_le (value v - value r)
  have habove := le_abs_self (value v - value r)
  refine ⟨le_high ht hv hb hbound (by linarith), fun hcase => low_le ht hv hb hbound ?_⟩
  rcases hcase with hlarger | hclear | hnone | hexact
  · rw [le_iff_value_le ht.2 hv.2] at hlarger
    linarith
  · -- what rounding adds to the deviation is a small part of what the bound leaves
    linarith
  · linarith
  · linarith

end

/-- Half an ohm below a target of a hundred, with one per cent allowed. -/
theorem covers_accepted_hundred_ohms :
    ∃ bd : Bounds Float, of? [(100 : Float)] 100 (.relative 0.01) = some bd ∧ 99.5 ≤ bd.high ∧
      bd.low ≤ 99.5 := by
  obtain ⟨bd, hbd⟩ := Option.isSome_iff_exists.mp
    (by decide +kernel : (of? [(100 : Float)] 100 (.relative 0.01)).isSome = true)
  have hcovers := covers_accepted (v := 99.5) hbd (by decide +kernel) (by decide +kernel)
    ⟨by decide +kernel, by decide +kernel⟩ (by decide +kernel)
  refine ⟨bd, hbd, hcovers.1, hcovers.2 (.inr (.inl ?_))⟩
  have hbound : parts 0.01 = .finite .positive 5764607523034235 (-59) (by decide) := rfl
  have htarget : parts 100 = .finite .positive 7036874417766400 (-46) (by decide) := rfl
  rw [Tolerance.radius, value, value, hbound, htarget, rational, rational]
  norm_num [Sign.apply]

/-- **What is accepted can lie below the band.** The double nearest to `0.99999999` leaves about
`10⁻⁸` of the target, and its own rounding error is a larger part of that than the slack. The value
`10⁻⁸` is accepted, since its rounded deviation is no larger than this bound. -/
theorem accepted_below_band :
    ∃ bd : Bounds Float,
      of? [Float.ofBits 0x3e35798ee2308c3a] 1 (.relative (Float.ofBits 0x3feffffffaa19c47)) =
        some bd ∧
      Positive (1e-8 : Float) ∧
      (Tolerance.relative (Float.ofBits 0x3feffffffaa19c47)).accepts
        (Deviation.of (1e-8 : Float) 1).absolute (Deviation.of (1e-8 : Float) 1).relative = true ∧
      ¬ bd.low ≤ 1e-8 := by
  have h : ((of? [Float.ofBits 0x3e35798ee2308c3a] 1
      (.relative (Float.ofBits 0x3feffffffaa19c47))).any
        fun bd => decide (¬ bd.low ≤ 1e-8)) = true := by decide +kernel
  obtain ⟨bd, hbd, hlow⟩ := (Option.any_eq_true _ _).mp h
  exact ⟨bd, hbd, ⟨by decide +kernel, by decide +kernel⟩, by decide +kernel,
    of_decide_eq_true hlow⟩

end Bounds

end Ohmic
