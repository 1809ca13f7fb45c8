import Ohmic.Proofs.Circuit.ParallelErrors

set_option autoImplicit false

/-!
# Results of parallel connections in the range

The product over the sum of two impedances is not larger than either if their sum is not smaller
than either. So it should be found for all of them, if it has a normal size. For resistances it is.
For phasors there are two more conditions: their lengths have to be finite, which is more than
finite components, and the result must not be next to the largest double, where it may be rounded to
infinity.

## Main definitions

* `Phasor.productOverSum` — the exact combination of two phasors in parallel.
* `Phasor.Representable` — two phasors with such a sum and such a combination.

## Main results

* `Connection.parallel_representable` — parallel connections of resistances, of phasors of finite
  length, and of longer ones.
* `Connection.parallel_overflow_of_representable` — results that are lost, next to the largest
  double and for phasors of infinite length.
-/

namespace Ohmic

open Binary64 (value slip ceiling)
open Float.Model.UnpackedFloat (Sign)

namespace Connection

/-- Real numbers that are not larger than their sum have a quarter of it at most in parallel.

**Proof sketch.** Numbers that are not larger than their sum have the same sign. Then their product
is at most a quarter of the square of the sum, by `(x - y)² ≥ 0`. -/
lemma abs_product_over_sum_le {x y : ℝ} (hx : |x| ≤ |x + y|) (hy : |y| ≤ |x + y|) :
    |x * y / (x + y)| ≤ |x + y| / 4 := by
  have hsign : 0 ≤ x * y := by
    have hleft := sq_le_sq.mpr hx
    have hright := sq_le_sq.mpr hy
    by_contra hneg
    rw [not_le] at hneg
    have hproduct : (2 * -(x * y)) * (2 * -(x * y)) ≤ y ^ 2 * x ^ 2 :=
      mul_le_mul (by linarith) (by linarith) (by linarith) (sq_nonneg y)
    have hsquare := mul_pos_of_neg_of_neg hneg hneg
    linarith
  have hproduct : x * y ≤ |x + y| / 4 * |x + y| := by
    have hsquare := sq_abs (x + y)
    have hdifference := sq_nonneg (x - y)
    linarith
  rw [abs_div, abs_of_nonneg hsign]
  exact div_le_of_le_mul₀ (abs_nonneg _) (by positivity) hproduct

end Connection

namespace Phasor

open Binary64 (NormalOrZero)
open Connection (parallel)

/-- The exact combination of two phasors in parallel. -/
noncomputable def productOverSum (a b : Phasor Float) : ℂ :=
  a.exact * b.exact / (a.exact + b.exact)

/-- The number of a phasor whose components are multiples of one number. -/
lemma exact_eq_mul {z : Phasor Float} {t p q : ℝ} (hre : (value z.re : ℝ) = t * p)
    (him : (value z.im : ℝ) = t * q) : z.exact = t * ⟨p, q⟩ :=
  Complex.ext (hre.trans (Complex.re_ofReal_mul t ⟨p, q⟩).symm)
    (him.trans (Complex.im_ofReal_mul t ⟨p, q⟩).symm)

/-- A phasor in parallel with itself has half of it. -/
lemma productOverSum_self {a : Phasor Float} (ha : a.exact ≠ 0) :
    a.productOverSum a = a.exact / 2 := by
  rw [productOverSum, ← two_mul, mul_div_mul_right _ _ ha]

/-- Two phasors other than zero with a sum that is not shorter than either, and a normal exact
combination in parallel. -/
structure Representable (a b : Phasor Float) : Prop where
  /-- The first phasor is finite. -/
  finite_left : a.isFinite = true
  /-- The second phasor is finite. -/
  finite_right : b.isFinite = true
  /-- The first phasor is not zero. -/
  ne_zero_left : a.exact ≠ 0
  /-- The second phasor is not zero. -/
  ne_zero_right : b.exact ≠ 0
  /-- The exact sum is not shorter than either phasor. -/
  max_le : max ‖a.exact‖ ‖b.exact‖ ≤ ‖a.exact + b.exact‖
  /-- The resistive part of the exact combination has a normal size. -/
  normal_re : NormalOrZero (a.productOverSum b).re
  /-- The reactive part of the exact combination has a normal size. -/
  normal_im : NormalOrZero (a.productOverSum b).im

/-- The exact combination is not too short. -/
lemma Representable.le_norm {a b : Phasor Float} (h : a.Representable b) :
    2 ^ 53 * slip ≤ ‖a.productOverSum b‖ := by
  have hpart : ∀ x : ℝ, NormalOrZero x → |x| ≤ ‖a.productOverSum b‖ →
      x = 0 ∨ 2 ^ 53 * slip ≤ ‖a.productOverSum b‖ := fun x hx hle =>
    hx.imp_right fun hnormal => Binary64.leastNormal_eq ▸ hnormal.1.trans hle
  rcases hpart _ h.normal_re (Complex.abs_re_le_norm _) with hre | hle
  · rcases hpart _ h.normal_im (Complex.abs_im_le_norm _) with him | hle
    · have hsum : a.exact + b.exact ≠ 0 := norm_pos_iff.mp
        (lt_of_lt_of_le (norm_pos_iff.mpr h.ne_zero_left) ((le_max_left _ _).trans h.max_le))
      exact absurd (Complex.ext hre him)
        (div_ne_zero (mul_ne_zero h.ne_zero_left h.ne_zero_right) hsum)
    · exact hle
  · exact hle

/-- The complex number of a real phasor. -/
lemma Extends.exact_eq {x : Float} {z : Phasor Float} (h : Extends x z) :
    z.exact = ((value x : ℝ) : ℂ) := by
  have hre : value x = value z.re := by
    rcases h.re with heq | ⟨hx, hz⟩
    · rw [heq]
    · rw [Binary64.value_of_isZero hx, Binary64.value_of_isZero hz]
  have him := Binary64.value_of_isZero h.im
  exact Complex.ext (by rw [hre]; rfl)
    ((congrArg ((↑) : ℚ → ℝ) him).trans Rat.cast_zero)

/-- **Phasors of finite length** in parallel have a finite result near to the exact combination,
unless this is too long, and the connection is not degenerate in any case.

**Proof sketch.** The phasors in parallel have some result, which is near to the exact combination
if this is not too long (`Connection.parallelOf_near`). Then it is finite, and it is not zero as the
combination is not too short. In any case only the finiteness test can fail. -/
lemma Representable.joinAt_near {a b : Phasor Float} (h : a.Representable b)
    (ha : (Impedance.magnitude a).isFinite = true) (hb : (Impedance.magnitude b).isFinite = true)
    (position : ℕ) :
    (‖a.productOverSum b‖ ≤ (1 - 1 / 2 ^ 40) * 2 ^ (1024 : ℤ) →
      ∃ v : Phasor Float, parallel.joinAt position a b = .ok v ∧ v.isFinite = true ∧ v.exact ≠ 0 ∧
        ‖v.exact - a.productOverSum b‖ ≤ ‖a.productOverSum b‖ / 2 ^ 40) ∧
      parallel.joinAt position a b ≠ .error (.degenerate position) := by
  obtain ⟨v, hv, hnear⟩ := Connection.parallelOf_near ha hb ((le_max_left _ _).trans h.max_le)
    ((le_max_right _ _).trans h.max_le) rfl h.le_norm
  have hjoin : parallel.joinAt position a b =
      if v.isFinite = true then .ok v else .error (.overflow position) := by
    rw [Connection.joinAt, Connection.join, hv]
    rfl
  refine ⟨fun hmax => ?_, ?_⟩
  · obtain ⟨hfinite, herror⟩ := hnear hmax
    have hlow := (hnear hmax).norm_bounds.1
    have hpos := lt_of_lt_of_le (mul_pos (by norm_num) Binary64.slip_pos) h.le_norm
    refine ⟨v, hjoin.trans (if_pos hfinite), hfinite, ?_, herror⟩
    exact norm_pos_iff.mp (lt_of_lt_of_le (sub_pos.mpr (div_lt_self hpos (by norm_num))) hlow)
  · intro hdegenerate
    rw [hjoin] at hdegenerate
    split at hdegenerate <;> cases hdegenerate

/-- A phasor with large components in parallel with itself. -/
lemma representable_self {x y : Float} (hx : x.isFinite = true) (hy : y.isFinite = true)
    (hxone : 1 ≤ value x) (hyone : 1 ≤ value y) : Representable ⟨x, y⟩ ⟨x, y⟩ := by
  have hfinite : (⟨x, y⟩ : Phasor Float).isFinite = true := Bool.and_eq_true_iff.mpr ⟨hx, hy⟩
  have hzero : (⟨x, y⟩ : Phasor Float).exact ≠ 0 := fun h => by
    have hre : ((value x : ℚ) : ℝ) = 0 := congrArg Complex.re h
    rw [Rat.cast_eq_zero] at hre
    linarith
  have hhalf := productOverSum_self hzero
  refine ⟨hfinite, hfinite, hzero, hzero, ?_, ?_, ?_⟩
  · rw [← two_mul, norm_mul, Complex.norm_ofNat, max_self]
    linarith [norm_nonneg (⟨x, y⟩ : Phasor Float).exact]
  · rw [hhalf, Complex.div_ofNat_re]
    exact Binary64.normalOrZero_half hx hxone
  · rw [hhalf, Complex.div_ofNat_im]
    exact Binary64.normalOrZero_half hy hyone

/-- The exact combination of two resistances. -/
lemma productOverSum_ofReal (a b : Float) : (ofReal a).productOverSum (ofReal b) =
    (((value a * value b / (value a + value b) : ℚ) : ℝ) : ℂ) := by
  rw [productOverSum, (Extends.ofReal a).exact_eq, (Extends.ofReal b).exact_eq]
  push_cast
  rfl

/-- Resistances whose exact combination has a normal size.

**Proof sketch.** The numbers of real phasors are real, so the lengths are absolute values and the
combination has the resistive part of the combination of the resistances, and no reactive part. -/
lemma representable_ofReal {a b : Float} (ha : a.isFinite = true) (hb : b.isFinite = true)
    (hazero : value a ≠ 0) (hbzero : value b ≠ 0)
    (hsum : max |value a| |value b| ≤ |value a + value b|)
    (hnormal : NormalOrZero (value a * value b / (value a + value b) : ℚ)) :
    (ofReal a).Representable (ofReal b) where
  finite_left := (Extends.ofReal a).isFinite_eq.trans ha
  finite_right := (Extends.ofReal b).isFinite_eq.trans hb
  ne_zero_left := by
    rw [(Extends.ofReal a).exact_eq]
    exact_mod_cast hazero
  ne_zero_right := by
    rw [(Extends.ofReal b).exact_eq]
    exact_mod_cast hbzero
  max_le := by
    rw [(Extends.ofReal a).exact_eq, (Extends.ofReal b).exact_eq, ← Complex.ofReal_add,
      Complex.norm_real, Complex.norm_real, Complex.norm_real]
    simp only [Real.norm_eq_abs]
    exact_mod_cast hsum
  normal_re := by
    rw [productOverSum_ofReal, Complex.ofReal_re]
    exact hnormal
  normal_im := by
    rw [productOverSum_ofReal, Complex.ofReal_im]
    exact .inl rfl

/-- The combination of resistances is in the middle of the range. -/
lemma norm_productOverSum_ofReal_le {a b : Float} (ha : a.isFinite = true) (hb : b.isFinite = true)
    (hsum : max |value a| |value b| ≤ |value a + value b|) :
    ‖(ofReal a).productOverSum (ofReal b)‖ ≤ (1 - 1 / 2 ^ 40) * 2 ^ (1024 : ℤ) := by
  have hleft := Binary64.abs_value_le_ceiling ha
  have hright := Binary64.abs_value_le_ceiling hb
  have hsum : max |(value a : ℝ)| |(value b : ℝ)| ≤ |(value a : ℝ) + value b| := by
    exact_mod_cast hsum
  have hquarter := Connection.abs_product_over_sum_le ((le_max_left _ _).trans hsum)
    ((le_max_right _ _).trans hsum)
  have htriangle := abs_add_le (value a : ℝ) (value b)
  have hceiling := Binary64.le_ceiling
  rw [productOverSum_ofReal, Complex.norm_real, Real.norm_eq_abs]
  push_cast
  change _ ≤ (1 - 1 / 2 ^ 40) * ceiling
  linarith

end Phasor

namespace Connection

open Binary64 (NormalOrZero)

/-- **Resistances in parallel** have a finite result near to the exact combination. They do what
the phasors without a reactive part do, which have the lengths of their resistive parts and a
combination of at most half of the range.

**Proof sketch.** The phasors of the resistances are representable and of finite length, so their
result is near to the combination (`Representable.joinAt_near`). The resistances have a result alike
(`Phasor.embedding`), which is its resistive part. -/
lemma joinAt_real_near {a b : Float} (ha : a.isFinite = true) (hb : b.isFinite = true)
    (hazero : value a ≠ 0) (hbzero : value b ≠ 0)
    (hsum : max |value a| |value b| ≤ |value a + value b|)
    (hnormal : NormalOrZero (value a * value b / (value a + value b) : ℚ)) (position : ℕ) :
    ∃ v : Float, parallel.joinAt position a b = .ok v ∧ v.isFinite = true ∧ value v ≠ 0 ∧
      |value v - value a * value b / (value a + value b)| ≤
        |value a * value b / (value a + value b)| / 2 ^ 40 := by
  have hrepresentable := Phasor.representable_ofReal ha hb hazero hbzero hsum hnormal
  have hlength : ∀ {x : Float}, x.isFinite = true →
      (Impedance.magnitude (Phasor.ofReal x)).isFinite = true := fun {x} hx => by
    rw [(Phasor.Extends.ofReal x).magnitude_eq]
    exact (Binary64.isFinite_abs x).trans hx
  obtain ⟨w, hw, hfinite, hzero, herror⟩ := (hrepresentable.joinAt_near (hlength ha) (hlength hb)
    position).1 (Phasor.norm_productOverSum_ofReal_le ha hb hsum)
  rcases (Phasor.embedding.joinAt_alike (.ofReal a) (.ofReal b) ha hb parallel
    position).error_or_ok with ⟨reason, -, hfault⟩ | ⟨v, w', hv, hw', hextends⟩
  · rw [hw] at hfault
    cases hfault
  · obtain rfl := Except.ok.inj (hw.symm.trans hw')
    rw [hextends.exact_eq] at hzero herror
    rw [Phasor.productOverSum_ofReal, ← Complex.ofReal_sub, Complex.norm_real, Complex.norm_real,
      Real.norm_eq_abs, Real.norm_eq_abs] at herror
    exact ⟨v, hv, hextends.isFinite_eq.symm.trans hfinite, by exact_mod_cast hzero,
      by exact_mod_cast herror⟩

/-- **Parallel connections keep results in the range.** Let the sum of two impedances other than
zero be at least as large as either of them, and let all components of their product over the sum be
zero or of a normal size. If the impedances are resistances, the connection has a finite result
other than zero, which is near to the exact one. So it has for phasors of finite length, unless the
exact result is next to the largest double; it is not degenerate in any case. Phasors with finite
components and an infinite length always overflow.

**Proof sketch.** The connection divides twice by a phasor of about the length one. Each time the
error is a part of the quotient, and the exact denominator `1 + small / big` has at least the length
one, so the error of its own is not enlarged. A phasor of infinite length becomes zero when it is
scaled, and so does the other operand; a quotient of zeros is undefined. -/
theorem parallel_representable (position : ℕ) :
    (∀ a b : Float, a.isFinite = true → b.isFinite = true → value a ≠ 0 → value b ≠ 0 →
        max |value a| |value b| ≤ |value a + value b| →
        NormalOrZero (value a * value b / (value a + value b) : ℚ) →
        ∃ v : Float, parallel.joinAt position a b = .ok v ∧ v.isFinite = true ∧ value v ≠ 0 ∧
          |value v - value a * value b / (value a + value b)| ≤
            |value a * value b / (value a + value b)| / 2 ^ 40) ∧
      (∀ a b : Phasor Float, a.Representable b → (Impedance.magnitude a).isFinite = true →
        (Impedance.magnitude b).isFinite = true →
        (‖a.productOverSum b‖ ≤ (1 - 1 / 2 ^ 40) * 2 ^ (1024 : ℤ) →
          ∃ v : Phasor Float, parallel.joinAt position a b = .ok v ∧ v.isFinite = true ∧
            v.exact ≠ 0 ∧ ‖v.exact - a.productOverSum b‖ ≤ ‖a.productOverSum b‖ / 2 ^ 40) ∧
          parallel.joinAt position a b ≠ .error (.degenerate position)) ∧
      ∀ a b : Phasor Float, a.isFinite = true → b.isFinite = true →
        (Impedance.magnitude a).isFinite = false ∨ (Impedance.magnitude b).isFinite = false →
        parallel.joinAt position a b = .error (.overflow position) :=
  ⟨fun _ _ ha hb hazero hbzero hsum hnormal =>
      joinAt_real_near ha hb hazero hbzero hsum hnormal position,
    fun _ _ h ha hb => h.joinAt_near ha hb position,
    fun _ _ ha hb hlong => joinAt_of_long ha hb hlong position⟩

/-- A phasor in parallel with itself, once of a few ohms and once of infinite length.

**Proof sketch.** Six ohms with themselves make three, of a normal size, and the phasor of ten ohms
makes the one of five, which is far below the largest length. The length of the last phasor is
infinite. -/
theorem parallel_representable_self :
    (∃ v : Float, parallel.joinAt 0 6 6 = .ok v ∧ v.isFinite = true ∧ value v ≠ 0 ∧
        |value v - 3| ≤ 3 / 2 ^ 40) ∧
      (∃ v : Phasor Float, parallel.joinAt 0 ⟨6, 8⟩ ⟨6, 8⟩ = .ok v ∧ v.isFinite = true ∧
        v.exact ≠ 0 ∧ ‖v.exact - ⟨3, 4⟩‖ ≤ 5 / 2 ^ 40) ∧
      parallel.joinAt 0 (⟨1.5e308, 1.5e308⟩ : Phasor Float) ⟨1.5e308, 1.5e308⟩ =
        .error (.overflow 0) := by
  obtain ⟨hreal, hphasor, hlong⟩ := parallel_representable 0
  have h6 : value 6 = 6 := by
    have hparts : Binary64.parts 6 = .finite .positive (3 * 2 ^ 51) (-50) (by decide) := rfl
    rw [Binary64.value_of_parts hparts]
    norm_num [Sign.apply]
  have h8 : value 8 = 8 := by
    have hparts : Binary64.parts 8 = .finite .positive (2 ^ 52) (-49) (by decide) := rfl
    rw [Binary64.value_of_parts hparts]
    norm_num [Sign.apply]
  refine ⟨?_, ?_, hlong _ _ (by decide +kernel) (by decide +kernel) (.inl (by decide +kernel))⟩
  · have hthree : value 6 * value 6 / (value 6 + value 6) = 3 := by norm_num [h6]
    have hnormal : NormalOrZero (value 6 * value 6 / (value 6 + value 6) : ℚ) := by
      have hhalf := Binary64.normalOrZero_half (x := 6) (by decide +kernel) (by norm_num [h6])
      rw [h6] at hhalf
      rw [hthree]
      norm_num at hhalf ⊢
      exact hhalf
    have hjoin := hreal 6 6 (by decide +kernel) (by decide +kernel) (by norm_num [h6])
      (by norm_num [h6]) (by norm_num [h6]) hnormal
    rw [hthree, abs_of_pos three_pos] at hjoin
    exact hjoin
  · have hexact : (⟨6, 8⟩ : Phasor Float).exact = ⟨6, 8⟩ := by
      rw [Phasor.exact, h6, h8]
      norm_num
    have hhalf : (⟨6, 8⟩ : Phasor Float).productOverSum ⟨6, 8⟩ = ⟨3, 4⟩ := by
      rw [Phasor.productOverSum_self, hexact]
      · apply Complex.ext <;> norm_num
      · rw [hexact]
        exact fun h => by norm_num [Complex.ext_iff] at h
    have hfive : ‖(⟨3, 4⟩ : ℂ)‖ = 5 := by
      rw [Complex.norm_eq_sqrt_sq_add_sq]
      norm_num
    have hmax : (5 : ℝ) ≤ (1 - 1 / 2 ^ 40) * ceiling := by linarith [Binary64.le_ceiling]
    have hjoin := (hphasor ⟨6, 8⟩ ⟨6, 8⟩
      (Phasor.representable_self (by decide +kernel) (by decide +kernel) (by norm_num [h6])
        (by norm_num [h8])) (by decide +kernel) (by decide +kernel)).1
    rw [hhalf, hfive] at hjoin
    exact hjoin hmax

/-! ## Results that are lost -/

/-- A multiple of a number that is not small has a normal size. -/
lemma normalOrZero_mul {t x : ℝ} (ht : t = 2 ^ (970 : ℤ)) (hlow : 1 ≤ |x|)
    (hhigh : |x| ≤ 2 ^ 54 - 2) : NormalOrZero (t * x) := by
  have hceiling : ceiling = 2 ^ 54 * t := by
    rw [ht, ceiling, ← zpow_natCast, ← zpow_add₀ two_ne_zero]
    norm_num
  have htpos : 1 ≤ t := ht ▸ one_le_zpow₀ one_le_two (by norm_num)
  clear ht
  have hsize : |t * x| = t * |x| := by rw [abs_mul, abs_of_pos (by linarith)]
  refine Binary64.normalOrZero_of_le ?_ ?_
  · rw [hsize]
    exact (by norm_num : (1 : ℝ) / 2 ≤ 1).trans (one_le_mul_of_one_le_of_one_le htpos hlow)
  · rw [hsize, Binary64.value_largest, hceiling]
    calc t * |x| ≤ t * (2 ^ 54 - 2) := mul_le_mul_of_nonneg_left hhigh (by linarith)
      _ = (1 - 1 / 2 ^ 53) * (2 ^ 54 * t) := by ring

/-- A phasor of about the largest length a double can have. -/
def nearLargest : Phasor Float :=
  ⟨Float.ofBits 0x7fe000000318adf5, Float.ofBits 0x7febb67ae68ea54e⟩

/-- Another phasor of that length, at an angle of hardly less than two thirds of a straight one. -/
def nearLargest' : Phasor Float :=
  ⟨Float.ofBits 0x7fdffffff9cea417, Float.ofBits 0xffebb67aea21f404⟩

/-- Two phasors of about the largest length have a combination of that length.

**Proof sketch.** Both phasors are a power of two `t` times a phasor of integers, read off their
parts. In their lengths, and in the two components of their combination, `t` comes out as a factor,
and what is left are comparisons of integers and of fractions. -/
lemma representable_nearLargest : nearLargest.Representable nearLargest' := by
  obtain ⟨t, ht⟩ : ∃ t : ℝ, t = 2 ^ (970 : ℤ) := ⟨_, rfl⟩
  have htzero : (t : ℂ) ≠ 0 := Complex.ofReal_ne_zero.mpr (ht ▸ (zpow_pos two_pos _).ne')
  have hdouble : (2 : ℝ) ^ (971 : ℤ) = t * 2 := by
    rw [ht, ← zpow_add_one₀ two_ne_zero]
    norm_num
  have hleft : nearLargest.exact = t * ⟨9007199358639082, 15600926683122332⟩ := by
    have hre : Binary64.parts nearLargest.re =
      .finite .positive 4503599679319541 971 (by decide) := rfl
    have him : Binary64.parts nearLargest.im =
      .finite .positive 7800463341561166 971 (by decide) := rfl
    refine Phasor.exact_eq_mul ?_ ?_
    · rw [Binary64.cast_value_of_parts hre, hdouble, Sign.apply]
      push_cast
      ring
    · rw [Binary64.cast_value_of_parts him, hdouble, Sign.apply]
      push_cast
      ring
  have hright : nearLargest'.exact = t * ⟨9007199150842903, -15600926803093512⟩ := by
    have hre : Binary64.parts nearLargest'.re =
      .finite .positive 9007199150842903 970 (by decide) := rfl
    have him : Binary64.parts nearLargest'.im =
      .finite .negative 7800463401546756 971 (by decide) := rfl
    refine Phasor.exact_eq_mul ?_ ?_
    · rw [Binary64.cast_value_of_parts hre, ← ht, Sign.apply]
      push_cast
      ring
    · rw [Binary64.cast_value_of_parts him, hdouble, Sign.apply]
      push_cast
      ring
  have hsum : nearLargest.exact + nearLargest'.exact = t * ⟨18014398509481985, -119971180⟩ := by
    rw [hleft, hright, ← mul_add]
    congr 1
    apply Complex.ext <;> norm_num
  have hcombination : nearLargest.productOverSum nearLargest' =
      t * (⟨9007199358639082, 15600926683122332⟩ * ⟨9007199150842903, -15600926803093512⟩ /
        ⟨18014398509481985, -119971180⟩) := by
    rw [Phasor.productOverSum, hsum, hleft, hright, mul_mul_mul_comm, mul_assoc (t : ℂ) t,
      mul_div_mul_left _ _ htzero, mul_div_assoc]
  have hnorm : ∀ {z w : ℂ}, Complex.normSq z ≤ Complex.normSq w →
      ‖(t : ℂ) * z‖ ≤ ‖(t : ℂ) * w‖ := fun {z w} h => by
    rw [norm_mul, norm_mul]
    exact mul_le_mul_of_nonneg_left (Real.sqrt_le_sqrt h) (norm_nonneg _)
  refine ⟨by decide +kernel, by decide +kernel, ?_, ?_, max_le ?_ ?_, ?_, ?_⟩
  · rw [hleft]
    exact mul_ne_zero htzero fun h => by norm_num [Complex.ext_iff] at h
  · rw [hright]
    exact mul_ne_zero htzero fun h => by norm_num [Complex.ext_iff] at h
  · rw [hsum, hleft]
    exact hnorm (by norm_num [Complex.normSq_mk])
  · rw [hsum, hright]
    exact hnorm (by norm_num [Complex.normSq_mk])
  · rw [hcombination, Complex.re_ofReal_mul, Complex.div_re, Complex.mul_re, Complex.mul_im,
      Complex.normSq_mk]
    exact normalOrZero_mul ht (by norm_num) (by norm_num)
  · rw [hcombination, Complex.im_ofReal_mul, Complex.div_im, Complex.mul_re, Complex.mul_im,
      Complex.normSq_mk]
    exact normalOrZero_mul ht (by norm_num) (by norm_num)

/-- **Results in the range can be lost.** Two equal operands have a half of either in parallel, but
if their length is infinite, the connection overflows. It overflows as well for operands of finite
length if the result is next to the largest double. -/
theorem parallel_overflow_of_representable :
    let long : Phasor Float := ⟨1.5e308, 1.5e308⟩
    (long.Representable long ∧ parallel.joinAt 0 long long = .error (.overflow 0)) ∧
      nearLargest.Representable nearLargest' ∧
        (Impedance.magnitude nearLargest).isFinite = true ∧
        (Impedance.magnitude nearLargest').isFinite = true ∧
        parallel.joinAt 0 nearLargest nearLargest' = .error (.overflow 0) := by
  intro long
  have hone : 1 ≤ value 1.5e308 := by
    rw [← Binary64.value_one, ← Binary64.le_iff_value_le] <;> decide +kernel
  exact ⟨⟨Phasor.representable_self (by decide +kernel) (by decide +kernel) hone hone,
    by decide +kernel⟩, representable_nearLargest, by decide +kernel, by decide +kernel,
    by decide +kernel⟩

end Connection

end Ohmic
