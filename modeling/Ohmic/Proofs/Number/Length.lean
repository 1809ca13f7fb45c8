import Ohmic.Proofs.Number.Operations

set_option autoImplicit false

/-!
# Lengths as rounded square roots

The length of a plane vector of doubles is the square root of an exact sum of squares, rounded once.
A square root is hardly ever rational, so there is no rational number that the length is what is
rounded from. But the square root lies between rational numbers that are rounded to the same double,
and what is known of rounded numbers can be said of either of them.

## Main definitions

* `Binary64.RoundsRoot` — a number, and the double that its square root is rounded to.

## Main results

* `Binary64.exists_stands_sqrt` — what is kept of a square root is kept of a number below it and of
  one above.
* `Binary64.roundsRoot_sqrt` — the square root of a mantissa and an exponent.
* `Binary64.roundsRoot_hypotenuse` — lengths of finite vectors.
* `Binary64.isFinite_of_hypotenuse` — a vector of finite length is finite.
-/

namespace Ohmic.Binary64

open Float.Model (UnpackedFloat Format totalExponent)
open Float.Model.UnpackedFloat (Sign Accuracy ExtendedMantissa roundWithAccuracy sqrtCore)
open Scalar (IsZero)

/-- A number, and the double that its square root is rounded to: two numbers between which the
square root lies are rounded to it. -/
def RoundsRoot (q : ℚ) (x : Float) : Prop :=
  ∃ low high : ℚ, (0 ≤ low ∧ low ^ 2 ≤ q ∧ Rounds low x) ∧ (0 ≤ high ∧ q ≤ high ^ 2 ∧ Rounds high x)

/-! ## Square roots of integers -/

/-- What is kept of a number below one half above its integer part. -/
lemma stands_lt {m : ℕ} {x : ℚ} (hlow : m < x) (hhigh : x < m + 1 / 2) :
    Stands (.ofMantissaAndAccuracy m (.inexact .lt)) x := ⟨hlow, hhigh⟩

/-- What is kept of a number above one half above its integer part. -/
lemma stands_gt {m : ℕ} {x : ℚ} (hlow : m + 1 / 2 < x) (hhigh : x < m + 1) :
    Stands (.ofMantissaAndAccuracy m (.inexact .gt)) x := ⟨hlow, hhigh⟩

/-- How a square root compares to its integer part and one half, from the rest. -/
def rootAccuracy (root rest : ℕ) : Accuracy :=
  if rest = 0 then .exact else .inexact (if rest ≤ root then .lt else .gt)

/-- **What is kept of a square root** is kept of a number below it and of one above.

**Proof sketch.** Let the integer be `r² + k` with `k ≤ 2·r`. Below its root is `r + k / (2·r + 1)`,
which compares to `r + 1/2` as `k` does to `r`. Above it is a number a little below `r + 1/2` or a
little below `r + 1`, the squares of which are `r² + r + 1/4` and `r² + 2·r + 1`. -/
theorem exists_stands_sqrt {r k : ℕ} (hk : k ≤ 2 * r) :
    ∃ low high : ℚ,
      (0 ≤ low ∧ low ^ 2 ≤ (r ^ 2 + k : ℕ) ∧
        Stands (.ofMantissaAndAccuracy r (rootAccuracy r k)) low) ∧
      (0 ≤ high ∧ (r ^ 2 + k : ℕ) ≤ high ^ 2 ∧
        Stands (.ofMantissaAndAccuracy r (rootAccuracy r k)) high) := by
  have hr : (0 : ℚ) ≤ r := Nat.cast_nonneg r
  have hkr : (k : ℚ) ≤ 2 * r := by exact_mod_cast hk
  push_cast
  rcases Nat.eq_zero_or_pos k with rfl | hpos
  · exact ⟨r, r, ⟨hr, by simp, stands_exact r⟩, hr, by simp, stands_exact r⟩
  have hkpos : (0 : ℚ) < k := Nat.cast_pos.mpr hpos
  have hwidth : (0 : ℚ) < 2 * r + 1 := by linarith
  -- the share of the rest in the distance of two squares
  obtain ⟨share, hpositive, hone, hshare⟩ :
      ∃ share : ℚ, 0 < share ∧ share < 1 ∧ share * (2 * r + 1) = k :=
    ⟨k / (2 * r + 1), div_pos hkpos hwidth, (div_lt_one hwidth).mpr (by linarith),
      div_mul_cancel₀ _ hwidth.ne'⟩
  have hlow : (r + share) ^ 2 ≤ (r : ℚ) ^ 2 + k := by
    calc (r + share) ^ 2 = r ^ 2 + share * (2 * r + share) := by ring
      _ ≤ r ^ 2 + share * (2 * r + 1) := by gcongr
      _ = r ^ 2 + k := by rw [hshare]
  rcases le_or_gt k r with hle | hgt
  · have haccuracy : rootAccuracy r k = .inexact .lt := by
      rw [rootAccuracy, if_neg hpos.ne', if_pos hle]
    have hkr : (k : ℚ) ≤ r := by exact_mod_cast hle
    have hhalf : share < 1 / 2 := lt_of_mul_lt_mul_right (by rw [hshare]; linarith) hwidth.le
    obtain ⟨gap, hgappos, hgapsmall, hgap⟩ :
        ∃ gap : ℚ, 0 < gap ∧ gap ≤ 1 / 4 ∧ gap * (2 * r + 1) = 1 / 4 :=
      ⟨1 / 4 / (2 * r + 1), by positivity, div_le_self (by norm_num) (by linarith),
        div_mul_cancel₀ _ hwidth.ne'⟩
    rw [haccuracy]
    refine ⟨r + share, r + 1 / 2 - gap,
      ⟨by linarith, hlow, stands_lt (by linarith) (by linarith)⟩, by linarith, ?_,
      stands_lt (by linarith) (by linarith)⟩
    have hsquare : ((r : ℚ) + 1 / 2 - gap) ^ 2 = r ^ 2 + r + gap ^ 2 := by
      linear_combination -hgap
    rw [hsquare]
    linarith [sq_nonneg gap]
  · have haccuracy : rootAccuracy r k = .inexact .gt := by
      rw [rootAccuracy, if_neg hpos.ne', if_neg (Nat.not_le.mpr hgt)]
    have hrk : (r : ℚ) + 1 ≤ k := by exact_mod_cast hgt
    have hhalf : 1 / 2 < share := lt_of_mul_lt_mul_right (by rw [hshare]; linarith) hwidth.le
    have hwide : (2 : ℚ) < 2 * (r + 1) := by linarith
    obtain ⟨gap, hgappos, hgapsmall, hgap⟩ :
        ∃ gap : ℚ, 0 < gap ∧ gap < 1 / 2 ∧ gap * (2 * (r + 1)) = 1 :=
      ⟨1 / (2 * (r + 1)), by positivity, one_div_lt_one_div_of_lt two_pos hwide,
        div_mul_cancel₀ _ (by positivity)⟩
    rw [haccuracy]
    refine ⟨r + share, r + 1 - gap,
      ⟨by linarith, hlow, stands_gt (by linarith) (by linarith)⟩, by linarith, ?_,
      stands_gt (by linarith) (by linarith)⟩
    have hsquare : ((r : ℚ) + 1 - gap) ^ 2 = r ^ 2 + 2 * r + gap ^ 2 := by
      linear_combination -hgap
    rw [hsquare]
    linarith [sq_nonneg gap]

/-! ## Square roots of finite numbers -/

/-- The integer part of a square root has all bits of a mantissa, unless the least exponent has been
reached.

**Proof sketch.** Above the least exponent, the number is shifted until it is at least `2 ^ 104`,
and hence its integer root has all bits. -/
lemma le_targetExponent_sqrt {m : ℕ} {e g : ℤ} (hm : 0 < m)
    (hg : min (e / 2) (Format.binary64.targetExponent ((totalExponent m e + 1) / 2)) = g) :
    g ≤ Format.binary64.targetExponent
      (totalExponent (m * 2 ^ (e - 2 * g).toNat).sqrt g) := by
  rw [targetExponent_eq] at hg ⊢
  simp only [totalExponent] at hg ⊢
  rcases le_or_gt g (-1074) with hle | hgt
  · omega
  · have hlog := log2_mul_two_pow hm (e - 2 * g).toNat
    have hbits : 2 ^ 104 ≤ m * 2 ^ (e - 2 * g).toNat := by
      calc 2 ^ 104 ≤ 2 ^ (m * 2 ^ (e - 2 * g).toNat).log2 :=
            Nat.pow_le_pow_right Nat.two_pos (by omega)
        _ ≤ m * 2 ^ (e - 2 * g).toNat :=
          Nat.log2_self_le (Nat.mul_pos hm (Nat.two_pow_pos _)).ne'
    have hroot : 2 ^ 52 ≤ (m * 2 ^ (e - 2 * g).toNat).sqrt := Nat.le_sqrt.mpr hbits
    have hlog := (Nat.le_log2 ((Nat.two_pow_pos 52).trans_le hroot).ne').mpr hroot
    omega

/-- **Square roots** are rounded once.

**Proof sketch.** The number is `n` times the square of a unit `2 ^ g`, such that the integer root
of `n` has enough bits. What is left below the root decides its accuracy, and the root of `n` lies
between two numbers that this accuracy stands for (`exists_stands_sqrt`). Rounding is the same for
both of them. -/
theorem roundsRoot_sqrt {m : ℕ} (hm : 0 < m) (e : ℤ) :
    RoundsRoot (m * 2 ^ e) (ofParts (UnpackedFloat.sqrt .binary64 (.finite .positive m e hm))) := by
  rw [UnpackedFloat.sqrt, sqrtCore]
  dsimp only
  generalize hg : min (e.ediv 2)
    (Format.binary64.targetExponent ((totalExponent m e + 1).ediv 2)) = g
  have hexponent := le_targetExponent_sqrt hm hg
  rw [Nat.shiftLeft_eq]
  generalize hn : m * 2 ^ (e - 2 * g).toNat = n at hexponent ⊢
  have hhalf : g ≤ e / 2 := hg ▸ min_le_left _ _
  have hsame : (m : ℚ) * 2 ^ e = n * (2 ^ g) ^ 2 := by
    rw [← hn, zpow_eq_mul_pow (by omega : 2 * g ≤ e), Nat.cast_mul, ← zpow_natCast, ← zpow_mul,
      mul_comm g, mul_assoc]
    rfl
  obtain ⟨k, hk⟩ := Nat.exists_eq_add_of_le (Nat.sqrt_le' n)
  have hrest : n - n.sqrt * n.sqrt = k := by
    have := hk
    rw [pow_two] at this
    omega
  have hle : k ≤ 2 * n.sqrt := by
    have := Nat.sqrt_le_add n
    omega
  obtain ⟨low, high, ⟨hlow, hlowsq, hstands⟩, hhigh, hhighsq, hstands'⟩ := exists_stands_sqrt hle
  rw [← hk] at hlowsq hhighsq
  have hunit := zpow_pos' g
  have hround {x : ℚ} (hx : Stands (.ofMantissaAndAccuracy n.sqrt (rootAccuracy n.sqrt k)) x) :
      Rounds (x * 2 ^ g) (ofParts (roundWithAccuracy .binary64 .positive n.sqrt g
        (rootAccuracy n.sqrt k))) := rounds_roundWithAccuracy hx hexponent .positive
  rw [hsame, hrest]
  refine ⟨low * 2 ^ g, high * 2 ^ g, ⟨mul_nonneg hlow hunit.le, ?_, hround hstands⟩,
    mul_nonneg hhigh hunit.le, ?_, hround hstands'⟩
  · rw [mul_pow]
    exact mul_le_mul_of_nonneg_right hlowsq (sq_nonneg _)
  · rw [mul_pow]
    exact mul_le_mul_of_nonneg_right hhighsq (sq_nonneg _)

/-! ## Lengths -/

/-- Zero is the root of zero. -/
lemma roundsRoot_zero {z : Float} (hz : IsZero z) : RoundsRoot 0 z :=
  ⟨0, 0, ⟨le_rfl, by norm_num, rounds_of_isZero hz⟩, le_rfl, by norm_num, rounds_of_isZero hz⟩

/-- The exact sum of squares. -/
lemma sumOfSquares_eq (m n : ℕ) (e f : ℤ) :
    ((Hypotenuse.sumOfSquares m e n f).1 : ℚ) * 2 ^ (Hypotenuse.sumOfSquares m e n f).2 =
      (m * 2 ^ e) ^ 2 + (n * 2 ^ f) ^ 2 := by
  rw [Hypotenuse.sumOfSquares, zpow_eq_mul_pow (min_le_left e f),
    zpow_eq_mul_pow (min_le_right e f)]
  dsimp only
  rw [Nat.shiftLeft_eq, Nat.shiftLeft_eq, two_mul, zpow_add₀ two_ne_zero]
  push_cast
  ring

/-- A finite double has a mantissa and an exponent, which give its absolute value. -/
lemma exists_scaled {x : Float} (hx : x.isFinite = true) :
    ∃ m e, Hypotenuse.scaled? (parts x) = some (m, e) ∧ (m * 2 ^ e : ℚ) ^ 2 = value x ^ 2 := by
  rcases parts_of_isFinite hx with ⟨s, hs⟩ | ⟨s, m, e, hm, hs⟩
  · exact ⟨0, 0, by rw [hs]; rfl, by rw [value, hs, rational, Nat.cast_zero, zero_mul]⟩
  · refine ⟨m, e, by rw [hs]; rfl, ?_⟩
    rw [value, hs, rational_finite]
    cases s with
    | positive => rfl
    | negative => exact (neg_sq _).symm

/-- A finite double is not infinite. -/
lemma isInf_of_isFinite {x : Float} (hx : x.isFinite = true) : x.isInf = false := by
  have hinf : x.isInf = (parts x).isInf := rfl
  rcases parts_of_isFinite hx with ⟨s, hs⟩ | ⟨s, m, e, hm, hs⟩ <;> rw [hinf, hs] <;> rfl

/-- **Lengths** are rounded once.

**Proof sketch.** The exact sum of the squares is put together as a mantissa and an exponent
(`sumOfSquares_eq`), and its root is rounded (`roundsRoot_sqrt`), unless the sum is zero. -/
theorem roundsRoot_hypotenuse {x y : Float} (hx : x.isFinite = true) (hy : y.isFinite = true) :
    RoundsRoot (value x ^ 2 + value y ^ 2) (Hypotenuse.hypotenuse x y) := by
  obtain ⟨m, e, hm, hxsq⟩ := exists_scaled hx
  obtain ⟨n, f, hn, hysq⟩ := exists_scaled hy
  have hxparts : x.toModel.unpack = parts x := rfl
  have hyparts : y.toModel.unpack = parts y := rfl
  rw [Hypotenuse.hypotenuse, isInf_of_isFinite hx, isInf_of_isFinite hy, hxparts, hyparts, hm, hn,
    ← hxsq, ← hysq, ← sumOfSquares_eq]
  simp only [Bool.or_self, Bool.false_eq_true, if_false]
  rw [Hypotenuse.root]
  split
  · next hpos => exact roundsRoot_sqrt hpos _
  · next hpos =>
    rw [Nat.eq_zero_of_not_pos hpos, Nat.cast_zero, zero_mul]
    exact roundsRoot_zero (isZero_ofParts ⟨.positive, rfl⟩)

/-- What has a mantissa and an exponent is finite. -/
lemma isFinite_of_scaled {x : Float} {p : ℕ × ℤ}
    (h : Hypotenuse.scaled? x.toModel.unpack = some p) : x.isFinite = true := by
  have hparts : x.toModel.unpack = parts x := rfl
  rw [hparts] at h
  show (parts x).isFinite = true
  cases hx : parts x with
  | zero | finite => rfl
  | infinity | notANumber =>
    rw [hx] at h
    cases h

/-- What is put together from the parts of a double is finite if they are. -/
lemma isFinite_ofParts {u : UnpackedFloat} (h : Canonical u) :
    (ofParts u).isFinite = u.isFinite := congrArg UnpackedFloat.isFinite (parts_ofParts h)

/-- **A vector of finite length** is finite. -/
theorem isFinite_of_hypotenuse {x y : Float}
    (h : (Hypotenuse.hypotenuse x y).isFinite = true) :
    x.isFinite = true ∧ y.isFinite = true := by
  have hinfinite := isFinite_ofParts (u := .infinity .positive) trivial
  have hundefined := isFinite_ofParts (u := .notANumber) trivial
  rw [Hypotenuse.hypotenuse] at h
  split at h
  · cases hinfinite.symm.trans h
  · split at h
    · next hm hn => exact ⟨isFinite_of_scaled hm, isFinite_of_scaled hn⟩
    · cases hundefined.symm.trans h

/-- A finite vector has a finite or an infinite length. -/
lemma parts_hypotenuse {x y : Float} (hx : x.isFinite = true) (hy : y.isFinite = true)
    (hlong : (Hypotenuse.hypotenuse x y).isFinite = false) :
    parts (Hypotenuse.hypotenuse x y) = .infinity .positive := by
  obtain ⟨low, -, ⟨hlow, -, hrounds⟩, -⟩ := roundsRoot_hypotenuse hx hy
  refine (parts_of_ge isFinite_zero (hrounds.ge_of_ge isFinite_zero hlow)).resolve_left ?_
  rw [hlong]
  exact Bool.false_ne_true

/-- A vector of undefined components has an undefined length. -/
lemma undefined_hypotenuse {x y : Float} (hx : Undefined x) (hy : Undefined y) :
    Undefined (Hypotenuse.hypotenuse x y) := by
  have hxinf : x.isInf = false := congrArg UnpackedFloat.isInf hx
  have hyinf : y.isInf = false := congrArg UnpackedFloat.isInf hy
  have hxparts : x.toModel.unpack = .notANumber := hx
  rw [Hypotenuse.hypotenuse, hxinf, hyinf, hxparts]
  exact parts_ofParts trivial

end Ohmic.Binary64
