import Ohmic.Proofs.Number.Comparison
import Ohmic.Proofs.Number.DoubleLaws

set_option autoImplicit false

/-!
# The rational number that a double stands for

A finite double stands for its mantissa times a power of two. Finite doubles are ordered as these
numbers are, so a comparison of doubles can be read as one of rational numbers, and the other way
round.

## Main definitions

* `Binary64.rational` — the number that parts stand for.
* `Binary64.value` — the number that a double stands for.
* `Binary64.leastNormal` — the least double with a full mantissa.

## Main results

* `Binary64.le_iff_value_le`, `Binary64.lt_iff_value_lt` — the order of finite doubles.
* `Binary64.exists_value_eq_mul` — the numbers that doubles stand for are multiples of `2^-1074`.
* `Binary64.abs_value_lt` — and they are below `2^1024`.
* `Binary64.isFinite_of_le_of_le` — what lies between finite doubles is finite.

## Implementation notes

What is not finite stands for zero; every statement on values asks for finite doubles.
-/

namespace Ohmic.Binary64

open Float.Model (UnpackedFloat Format)
open Float.Model.UnpackedFloat (Sign)
open Scalar (Positive)

/-- The number that parts stand for. -/
def rational : UnpackedFloat → ℚ
  | .finite s m e _ => (s.apply m : ℤ) * (2 : ℚ) ^ e
  | .zero _ => 0
  | .infinity _ => 0
  | .notANumber => 0

/-- The number that a double stands for. -/
def value (x : Float) : ℚ := rational (parts x)

/-! ## Powers of two -/

/-- A larger exponent is a factor. -/
lemma zpow_eq_mul_pow {e f : ℤ} (h : e ≤ f) :
    (2 : ℚ) ^ f = ((2 ^ (f - e).toNat : ℕ) : ℚ) * (2 : ℚ) ^ e := by
  rw [Nat.cast_pow, Nat.cast_ofNat, ← zpow_natCast, ← zpow_add₀ two_ne_zero]
  congr 1
  omega

/-- Powers of two are positive. -/
lemma zpow_pos' (e : ℤ) : (0 : ℚ) < 2 ^ e := zpow_pos two_pos e

/-- Powers of two grow. -/
lemma zpow_le {e f : ℤ} (h : e ≤ f) : (2 : ℚ) ^ e ≤ 2 ^ f := zpow_le_zpow_right₀ one_le_two h

/-! ## Order -/

/-- A canonical number with a larger exponent, or with the same exponent and a larger mantissa, is
larger. -/
lemma mul_zpow_lt {m n : ℕ} {e f : ℤ} (hm : m < 2 ^ 53) (hn : 2 ^ 52 ≤ n ∨ f = -1074)
    (he : -1074 ≤ e) (h : e < f ∨ e = f ∧ m < n) : (m : ℚ) * 2 ^ e < n * 2 ^ f := by
  rcases h with h | ⟨rfl, h⟩
  · have hn : (2 : ℚ) ^ 52 ≤ n := by exact_mod_cast hn.resolve_right (by omega)
    have hm : (m : ℚ) < 2 ^ 53 := by exact_mod_cast hm
    calc (m : ℚ) * 2 ^ e < 2 ^ 53 * 2 ^ e := mul_lt_mul_of_pos_right hm (zpow_pos' e)
      _ = 2 ^ 52 * 2 ^ (e + 1) := by
        rw [zpow_add_one₀ two_ne_zero]
        ring
      _ ≤ n * 2 ^ f := mul_le_mul hn (zpow_le h) (zpow_pos' _).le (by positivity)
  · exact mul_lt_mul_of_pos_right (by exact_mod_cast h) (zpow_pos' e)

/-- Numbers at a lower place are smaller.

**Proof sketch.** By the cases of both numbers. Zero and the sign decide unless both numbers have
one sign. Then a smaller exponent, or a smaller mantissa at the same exponent, makes the absolute
value smaller (`mul_zpow_lt`), since the mantissa at the larger exponent has all its bits. -/
lemma rational_lt_of_place_lt {u v : UnpackedFloat} (hu : Canonical u) (hv : Canonical v)
    (hufin : u.isFinite = true) (hvfin : v.isFinite = true) {p q : Int ×ₗ Int ×ₗ Int}
    (hp : place? u = some p) (hq : place? v = some q) (h : p < q) : rational u < rational v := by
  have hpos : ∀ {m : ℕ} (e : ℤ), 0 < m → (0 : ℚ) < m * 2 ^ e :=
    fun e hm => mul_pos (Nat.cast_pos.mpr hm) (zpow_pos' e)
  cases u with
  | infinity | notANumber => cases hufin
  | zero s =>
    cases v with
    | infinity | notANumber => cases hvfin
    | zero t =>
      obtain rfl := Option.some.inj hp
      obtain rfl := Option.some.inj hq
      exact absurd h (lt_irrefl _)
    | finite t n f hn =>
      obtain rfl := Option.some.inj hp
      obtain rfl := Option.some.inj hq
      cases t with
      | negative => simp [Prod.Lex.toLex_lt_toLex, Sign.apply] at h
      | positive => simpa [rational, Sign.apply] using hpos f hn
  | finite s m e hm =>
    cases v with
    | infinity | notANumber => cases hvfin
    | zero t =>
      obtain rfl := Option.some.inj hp
      obtain rfl := Option.some.inj hq
      cases s with
      | negative => simpa [rational, Sign.apply] using hpos e hm
      | positive => simp [Prod.Lex.toLex_lt_toLex, Sign.apply] at h
    | finite t n f hn =>
      obtain rfl := Option.some.inj hp
      obtain rfl := Option.some.inj hq
      obtain ⟨hmlt, hemin, -, hmnorm⟩ := hu
      obtain ⟨hnlt, hfmin, -, hnnorm⟩ := hv
      simp only [Prod.Lex.toLex_lt_toLex] at h
      cases s <;> cases t
      case positive.negative => simp [Sign.apply] at h
      case negative.positive =>
        have := hpos e hm
        have := hpos f hn
        simp only [rational, Sign.apply, Int.cast_neg, Int.cast_natCast]
        linarith
      case positive.positive =>
        have hlt := mul_zpow_lt hmlt hnnorm hemin (f := f) (n := n) (e := e)
          (by simp [Sign.apply] at h; omega)
        simpa [rational, Sign.apply] using hlt
      case negative.negative =>
        have hlt := mul_zpow_lt hnlt hmnorm hfmin (f := e) (n := m) (e := f)
          (by simp [Sign.apply] at h; omega)
        simpa [rational, Sign.apply] using hlt

/-- A finite double lies somewhere. -/
lemma exists_place {x : Float} (hx : x.isFinite = true) : ∃ p, place? (parts x) = some p := by
  rcases parts_of_isFinite hx with ⟨s, hs⟩ | ⟨s, m, e, hm, hs⟩ <;> rw [hs] <;> exact ⟨_, rfl⟩

/-- Numbers at one place are equal. -/
lemma rational_eq_of_place_eq {u v : UnpackedFloat} (hufin : u.isFinite = true)
    (hvfin : v.isFinite = true) (h : place? u = place? v) : rational u = rational v := by
  cases u with
  | infinity | notANumber => cases hufin
  | zero s =>
    cases v with
    | infinity | notANumber => cases hvfin
    | zero t => rfl
    | finite t n f hn => cases t <;> simp [place?, Sign.apply] at h
  | finite s m e hm =>
    cases v with
    | infinity | notANumber => cases hvfin
    | zero t => cases s <;> simp [place?, Sign.apply] at h
    | finite t n f hn =>
      simp only [place?, Option.some.injEq, toLex_inj, Prod.mk.injEq] at h
      obtain ⟨hsign, hexponent, hmantissa⟩ := h
      obtain rfl : s = t := by cases s <;> cases t <;> first | rfl | simp [Sign.apply] at hsign
      have hef : e = f := by cases s <;> simpa [Sign.apply] using hexponent
      rw [rational, rational, hmantissa, hef]

/-- **Finite doubles are ordered** as the numbers are that they stand for.

**Proof sketch.** Doubles are compared by their places. A lower place has a smaller number
(`rational_lt_of_place_lt`), and one place has one number (`rational_eq_of_place_eq`). -/
theorem lt_iff_value_lt {x y : Float} (hx : x.isFinite = true) (hy : y.isFinite = true) :
    x < y ↔ value x < value y := by
  obtain ⟨p, hp⟩ := exists_place hx
  obtain ⟨q, hq⟩ := exists_place hy
  have hless : x < y ↔ p < q := by
    rw [lt_iff, hp, hq]
    simp only [Option.mem_some_iff, exists_eq_left']
  rw [hless]
  constructor
  · exact rational_lt_of_place_lt (canonical_parts x) (canonical_parts y) hx hy hp hq
  · intro h
    by_contra hnot
    rcases (not_lt.mp hnot).lt_or_eq with hlt | heq
    · exact h.asymm
        (rational_lt_of_place_lt (canonical_parts y) (canonical_parts x) hy hx hq hp hlt)
    · exact h.ne (rational_eq_of_place_eq hx hy (by rw [hp, hq, heq]))

/-- One finite double is at most another one exactly if that one is not below it. -/
lemma le_iff_not_lt {x y : Float} (hx : x.isFinite = true) (hy : y.isFinite = true) :
    x ≤ y ↔ ¬ y < x := by
  obtain ⟨p, hp⟩ := exists_place hx
  obtain ⟨q, hq⟩ := exists_place hy
  rw [lt_iff, le_iff, hp, hq]
  simp only [Option.mem_some_iff, exists_eq_left', not_lt]

/-- **Finite doubles are ordered** as the numbers are that they stand for, also where they may be
equal. -/
theorem le_iff_value_le {x y : Float} (hx : x.isFinite = true) (hy : y.isFinite = true) :
    x ≤ y ↔ value x ≤ value y := by
  rw [le_iff_not_lt hx hy, lt_iff_value_lt hy hx, not_lt]

/-! ## Signs and constants -/

/-- The opposite of parts stands for the opposite number. -/
lemma rational_neg (u : UnpackedFloat) : rational u.neg = -rational u := by
  cases u with
  | finite s m e hm =>
    cases s with
    | positive =>
      show ((-(m : ℤ) : ℤ) : ℚ) * 2 ^ e = -(((m : ℤ) : ℚ) * 2 ^ e)
      rw [Int.cast_neg, neg_mul]
    | negative =>
      show ((m : ℤ) : ℚ) * 2 ^ e = -(((-(m : ℤ) : ℤ) : ℚ) * 2 ^ e)
      rw [Int.cast_neg, neg_mul, neg_neg]
  | zero | infinity | notANumber => exact neg_zero.symm

/-- The opposite of a double stands for the opposite number. -/
@[simp] lemma value_neg (x : Float) : value (-x) = -value x := by
  rw [value, parts_neg, rational_neg, value]

/-- The absolute value of a double stands for the absolute value. -/
@[simp] lemma value_abs (x : Float) : value (Scalar.abs x) = |value x| := by
  rw [value, parts_abs, value]
  cases parts x with
  | finite s m e hm =>
    have hpos : (0 : ℚ) < m * 2 ^ e := mul_pos (Nat.cast_pos.mpr hm) (zpow_pos' e)
    cases s with
    | positive => exact (abs_of_pos hpos).symm
    | negative =>
      have hneg : rational (.finite .negative m e hm) = -(m * 2 ^ e) := by
        rw [rational, Sign.apply, Int.cast_neg, Int.cast_natCast, neg_mul]
      rw [hneg, abs_neg]
      exact (abs_of_pos hpos).symm
  | zero | infinity | notANumber => exact abs_zero.symm

/-- Zero stands for zero. -/
@[simp] lemma value_zero : value 0 = 0 := rfl

/-- One stands for one. -/
@[simp] lemma value_one : value 1 = 1 := by
  rw [value, parts_one, unit, rational]
  norm_num [Sign.apply]

/-- Zero is finite. -/
lemma isFinite_zero : (0 : Float).isFinite = true := rfl

/-- One is finite. -/
lemma isFinite_one : (1 : Float).isFinite = true := congrArg UnpackedFloat.isFinite parts_one

/-- The least normal double. -/
def leastNormal : Float := Float.ofBits 0x0010000000000000

/-- The least normal double has the least exponent. -/
lemma parts_leastNormal :
    parts leastNormal = .finite .positive (2 ^ 52) (-1074) (Nat.two_pow_pos 52) := rfl

/-- The least normal double is finite. -/
lemma isFinite_leastNormal : leastNormal.isFinite = true :=
  congrArg UnpackedFloat.isFinite parts_leastNormal

/-- The number that the least normal double stands for. -/
lemma value_leastNormal : value leastNormal = 2 ^ (-1022 : ℤ) := by
  rw [value, parts_leastNormal, rational, Sign.apply, (by norm_num : (-1022 : ℤ) = 52 + -1074),
    zpow_add₀ two_ne_zero]
  norm_num

/-- Half of the least double, as a part of the least normal one. -/
lemma half_least_eq : (2 : ℚ) ^ (-1074 : ℤ) / 2 = 2 ^ (-1022 : ℤ) / 2 ^ 53 := by
  rw [(by norm_num : (-1074 : ℤ) = -1022 + -52), zpow_add₀ two_ne_zero]
  norm_num [div_eq_mul_inv, mul_assoc]

/-- What is positive stands for a positive number. -/
lemma value_pos {x : Float} (h : Positive x) : 0 < value x := by
  have hless := (lt_iff_value_lt isFinite_zero h.2).mp h.1
  rwa [value_zero] at hless

/-- What is not below zero stands for a number that is not negative. -/
lemma value_nonneg {x : Float} (hx : x.isFinite = true) (h : 0 ≤ x) : 0 ≤ value x := by
  have hle := (le_iff_value_le isFinite_zero hx).mp h
  rwa [value_zero] at hle

/-! ## The range of values -/

/-- The number that a finite double stands for: a multiple of `2^-1074`. -/
theorem exists_value_eq_mul {x : Float} (hx : x.isFinite = true) :
    ∃ k : ℤ, value x = k * 2 ^ (-1074 : ℤ) := by
  have hcanonical := canonical_parts x
  rw [value]
  rcases parts_of_isFinite hx with ⟨s, hs⟩ | ⟨s, m, e, hm, hs⟩
  · exact ⟨0, by rw [hs, rational, Int.cast_zero, zero_mul]⟩
  · rw [hs] at hcanonical ⊢
    refine ⟨s.apply m * (2 ^ (e - -1074).toNat : ℕ), ?_⟩
    rw [rational, zpow_eq_mul_pow hcanonical.2.1, Int.cast_mul, Int.cast_natCast, mul_assoc]

/-- Values are no nearer to each other than the least double is to zero. -/
lemma value_le_of_lt_add {x y : Float} (hx : x.isFinite = true) (hy : y.isFinite = true)
    (h : value x < value y + 2 ^ (-1074 : ℤ)) : value x ≤ value y := by
  obtain ⟨i, hi⟩ := exists_value_eq_mul hx
  obtain ⟨j, hj⟩ := exists_value_eq_mul hy
  have hunit := zpow_pos' (-1074)
  rw [hi, hj] at h ⊢
  rw [← add_one_mul] at h
  have hlt : (i : ℚ) < j + 1 := lt_of_mul_lt_mul_right h hunit.le
  exact mul_le_mul_of_nonneg_right (by exact_mod_cast Int.lt_add_one_iff.mp (by exact_mod_cast hlt))
    hunit.le

/-- What a finite double stands for is below `2^1024`. -/
theorem abs_value_lt {x : Float} (hx : x.isFinite = true) : |value x| < 2 ^ (1024 : ℤ) := by
  have hcanonical := canonical_parts x
  rw [value]
  rcases parts_of_isFinite hx with ⟨s, hs⟩ | ⟨s, m, e, hm, hs⟩
  · rw [hs, rational, abs_zero]
    exact zpow_pos' _
  · rw [hs] at hcanonical ⊢
    obtain ⟨hlt, -, hmax, -⟩ := hcanonical
    have habs : |rational (.finite s m e hm)| = m * 2 ^ e := by
      rw [rational, abs_mul, abs_of_pos (zpow_pos' e)]
      cases s <;> simp [Sign.apply]
    rw [habs]
    calc (m : ℚ) * 2 ^ e < 2 ^ (53 : ℤ) * 2 ^ e :=
          mul_lt_mul_of_pos_right (by exact_mod_cast hlt) (zpow_pos' e)
      _ = 2 ^ (53 + e) := (zpow_add₀ two_ne_zero _ _).symm
      _ ≤ 2 ^ (1024 : ℤ) := zpow_le (by omega)

/-! ## Infinities -/

/-- A finite double lies between the infinities. -/
lemma exists_place_between {x : Float} (hx : x.isFinite = true) :
    ∃ p, place? (parts x) = some p ∧ -2 < (ofLex p).1 ∧ (ofLex p).1 < 2 := by
  rcases parts_of_isFinite hx with ⟨s, hs⟩ | ⟨s, m, e, hm, hs⟩ <;> rw [hs] <;>
    refine ⟨_, rfl, ?_⟩ <;> cases s <;> exact ⟨by norm_num [Sign.apply], by norm_num [Sign.apply]⟩

/-- What lies somewhere and is not finite is an infinity. -/
lemma exists_infinity {x : Float} {p : Int ×ₗ Int ×ₗ Int} (hp : place? (parts x) = some p)
    (hx : ¬ x.isFinite = true) : ∃ s : Sign, parts x = .infinity s ∧ (ofLex p).1 = s.apply 2 := by
  cases hparts : parts x with
  | zero | finite => exact absurd (congrArg UnpackedFloat.isFinite hparts) hx
  | notANumber =>
    rw [hparts] at hp
    cases hp
  | infinity s =>
    rw [hparts] at hp
    obtain rfl := Option.some.inj hp
    exact ⟨s, rfl, rfl⟩

/-- An infinite double is not finite. -/
lemma not_isFinite_of_infinity {x : Float} {s : Sign} (h : parts x = .infinity s) :
    ¬ x.isFinite = true := by
  have hparts : x.isFinite = (parts x).isFinite := rfl
  rw [hparts, h]
  exact Bool.false_ne_true

/-- A finite double is at most infinity. -/
lemma le_infinity {w x : Float} (hw : w.isFinite = true) (hx : parts x = .infinity .positive) :
    w ≤ x := by
  obtain ⟨p, hp, -, hlt⟩ := exists_place_between hw
  rw [le_iff, hx]
  exact ⟨p, hp, _, rfl, Prod.Lex.le_iff.mpr (.inl hlt)⟩

/-- A finite double is below infinity. -/
lemma lt_infinity {w x : Float} (hw : w.isFinite = true) (hx : parts x = .infinity .positive) :
    w < x := by
  obtain ⟨p, hp, -, hlt⟩ := exists_place_between hw
  rw [lt_iff, hx]
  exact ⟨p, hp, _, rfl, Prod.Lex.lt_iff.mpr (.inl hlt)⟩

/-- A finite double is at least the opposite of infinity. -/
lemma infinity_le {w x : Float} (hw : w.isFinite = true) (hx : parts x = .infinity .negative) :
    x ≤ w := by
  obtain ⟨p, hp, hgt, -⟩ := exists_place_between hw
  rw [le_iff, hx]
  exact ⟨_, rfl, p, hp, Prod.Lex.le_iff.mpr (.inl hgt)⟩

/-- What is at least a finite double is finite or infinity. -/
lemma parts_of_ge {w x : Float} (hw : w.isFinite = true) (hle : w ≤ x) :
    x.isFinite = true ∨ parts x = .infinity .positive := by
  obtain ⟨a, ha, hgt, -⟩ := exists_place_between hw
  obtain ⟨a', ha', p, hp, hap⟩ := (le_iff w x).mp hle
  obtain rfl := Option.mem_unique ha ha'
  by_cases hx : x.isFinite = true
  · exact .inl hx
  · obtain ⟨s, hs, hplace⟩ := exists_infinity hp hx
    have hlow := hgt.trans_le (Prod.Lex.monotone_fst _ _ hap)
    cases s with
    | positive => exact .inr hs
    | negative => exact absurd (hplace ▸ hlow) (lt_irrefl _)

/-- What is at most a finite double is finite or the opposite of infinity. -/
lemma parts_of_le {w x : Float} (hw : w.isFinite = true) (hle : x ≤ w) :
    x.isFinite = true ∨ parts x = .infinity .negative := by
  obtain ⟨c, hc, -, hlt⟩ := exists_place_between hw
  obtain ⟨p, hp, c', hc', hpc⟩ := (le_iff x w).mp hle
  obtain rfl := Option.mem_unique hc hc'
  by_cases hx : x.isFinite = true
  · exact .inl hx
  · obtain ⟨s, hs, hplace⟩ := exists_infinity hp hx
    have hhigh := (Prod.Lex.monotone_fst _ _ hpc).trans_lt hlt
    cases s with
    | negative => exact .inr hs
    | positive => exact absurd (hplace ▸ hhigh) (lt_irrefl _)

/-- What lies between finite doubles is finite. -/
lemma isFinite_of_le_of_le {x y z : Float} (hx : x.isFinite = true) (hz : z.isFinite = true)
    (hxy : x ≤ y) (hyz : y ≤ z) : y.isFinite = true := by
  rcases parts_of_ge hx hxy with hfinite | hpositive
  · exact hfinite
  · rcases parts_of_le hz hyz with hfinite | hnegative
    · exact hfinite
    · rw [hpositive] at hnegative
      cases hnegative

end Ohmic.Binary64
