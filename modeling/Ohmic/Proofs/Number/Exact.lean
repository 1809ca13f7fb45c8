import Mathlib.Algebra.Order.AbsoluteValue.Basic
import Mathlib.Algebra.Order.Field.Basic
import Mathlib.Tactic.FieldSimp
import Mathlib.Tactic.Linarith
import Mathlib.Tactic.Positivity
import Mathlib.Tactic.Ring
import Ohmic.Proofs.Circuit.Embedding
import Ohmic.Proofs.Circuit.Growth
import Ohmic.Proofs.Circuit.Regrouping
import Ohmic.Search.Tolerance

set_option autoImplicit false

/-!
# Exact arithmetic

The elements of an ordered field as scalars: no rounding, no infinities, and the constants of double
precision. The laws of arithmetic that statements on searches name as hypotheses hold in it.

## Main definitions

* `instScalarExact` — an ordered field as a scalar type.
* `Impedance.Exactly` — impedances that are the elements of a field with an absolute value.

## Main results

* `Exact.ordered`, `Exact.monotone` — positive elements are ordered, and connections grow.
* `Exact.linearOn` — the order is linear.
* `Impedance.Exactly.parallelOf_eq` — the product over the sum, and the condition for failing.
* `Impedance.Exactly.parallelOf_comm`, `Impedance.Exactly.parallelOf_assoc` — a parallel connection
  commutes, and it associates where no step fails.
* `Exact.exactly` — the elements of an ordered field are exact impedances.
* `Exact.parallelOf_of_pos` — the product over the sum of positive elements.
* `Exact.join_comm` — both connections commute.
* `Exact.regular` — on positive elements they associate as well, and never fail.
* `Exact.band_of_accepts` — acceptable positive values lie in the opened band.
-/

namespace Ohmic

variable {K : Type} [Field K] [LinearOrder K] [IsStrictOrderedRing K]

/-- An ordered field as a scalar type. -/
instance instScalarExact {K : Type} [Field K] [LinearOrder K] : Scalar K where
  decidableLT := inferInstance
  decidableLE := inferInstance
  beq x y := decide (x = y)
  abs x := |x|
  isFinite _ := true
  rank := compare
  epsilon := 1 / 4503599627370496
  slack := 1 / 1000000000

/-! ## Exact impedances -/

/-- **Exact impedances**: each is the impedance `of x` of an element `x` of a field, and the
operations on impedances are those of the field and of an absolute value on it. -/
structure Impedance.Exactly {K F Z : Type} [Field K] [LinearOrder K] [IsStrictOrderedRing K]
    [Field F] [Impedance K Z] (of : F ≃ Z) (real : K →+* F) (size : AbsoluteValue F K) :
    Prop where
  /-- Impedances add like elements of the field. -/
  add : ∀ x y, of x + of y = of (x + y)
  /-- They divide like elements of the field. -/
  div : ∀ x y, of x / of y = of (x / y)
  /-- A resistance is a scalar. -/
  ofReal : ∀ r, ofReal r = of (real r)
  /-- A scaled impedance is divided by a scalar. -/
  unscale : ∀ x r, unscale (of x) r = of (x / real r)
  /-- The magnitude is the absolute value. -/
  magnitude : ∀ x, magnitude (of x) = size x

namespace Impedance.Exactly

variable {F Z : Type} [Field F] [Impedance K Z] {of : F ≃ Z} {real : K →+* F}
  {size : AbsoluteValue F K} (h : Exactly of real size)

include h

/-- The operand of larger magnitude and the other one in parallel.

**Proof sketch.** If the larger operand is zero then so is the other one, and both sides fail.
Otherwise the scaling by the size of the larger operand cancels in the ratio, and the denominator is
`(big + small) / big`, whose size is compared with the constant. The scaling by the size of the
denominator cancels in the quotient. -/
lemma parallelSorted_eq {big small : F} (hle : size small ≤ size big) :
    Connection.parallelSorted (of big) (of small) =
      if size (big + small) ≤ 1 / 4503599627370496 * size big then .error .cancelled
      else .ok (of (big * small / (big + small))) := by
  simp only [Connection.parallelSorted, h.magnitude, h.unscale, h.div, h.ofReal, h.add, map_one]
  by_cases hbig : size big = 0
  · have hsum : size (big + small) = 0 := by
      have hsmall : size small = 0 := le_antisymm (hle.trans hbig.le) (size.nonneg small)
      rw [size.eq_zero.mp hbig, size.eq_zero.mp hsmall, add_zero, map_zero]
    have hscale : (size big == 0) = true := decide_eq_true hbig
    rw [if_pos hscale, if_pos (by rw [hsum, hbig, mul_zero])]
  · have hne : big ≠ 0 := (map_ne_zero size).mp hbig
    have hscale : (size big == 0) = false := decide_eq_false hbig
    -- the scaling of both operands cancels in their ratio
    have hdenominator : 1 + small / real (size big) / (big / real (size big)) =
        (big + small) / big := by
      rw [div_div_div_cancel_right₀ ((map_ne_zero real).mpr hbig), one_add_div hne]
    have hnorm : size ((big + small) / big) ≤ 1 / 4503599627370496 ↔
        size (big + small) ≤ 1 / 4503599627370496 * size big := by
      rw [map_div₀, div_le_iff₀ (size.pos hne)]
    rw [hscale, hdenominator]
    simp only [Bool.false_eq_true, if_false, Scalar.epsilon, hnorm]
    split
    · rfl
    · next hlarge =>
      -- so does the scaling of the quotient by the size of the denominator
      have hsize : size ((big + small) / big) ≠ 0 := by
        intro hzero
        refine hlarge (hnorm.mp ?_)
        rw [hzero]
        positivity
      rw [div_div_div_cancel_right₀ ((map_ne_zero real).mpr hsize), div_div_eq_mul_div, mul_comm]

/-- **The product over the sum**: a parallel connection of exact impedances fails if their sum is
small beside the larger one, and otherwise it is their product over their sum. -/
lemma parallelOf_eq (x y : F) :
    Connection.parallelOf (of x) (of y) =
      if size (x + y) ≤ 1 / 4503599627370496 * max (size x) (size y) then .error .cancelled
      else .ok (of (x * y / (x + y))) := by
  rw [Connection.parallelOf_eq, h.magnitude, h.magnitude]
  by_cases hlt : size x < size y
  · rw [if_pos hlt, h.parallelSorted_eq hlt.le, max_eq_right hlt.le, add_comm y x, mul_comm y x]
  · rw [if_neg hlt, h.parallelSorted_eq (not_lt.mp hlt), max_eq_left (not_lt.mp hlt)]

/-- A parallel connection that does not fail is the product over a sum other than zero. -/
lemma parallelOf_eq_ok {x y : F} {v : Z} (hv : Connection.parallelOf (of x) (of y) = .ok v) :
    x + y ≠ 0 ∧ v = of (x * y / (x + y)) := by
  rw [h.parallelOf_eq] at hv
  split at hv
  · cases hv
  · next hlarge =>
    refine ⟨fun hsum => hlarge ?_, (Except.ok.inj hv).symm⟩
    rw [hsum, map_zero]
    positivity

/-- **Parallel connections commute.** -/
lemma parallelOf_comm (a b : Z) : Connection.parallelOf a b = Connection.parallelOf b a := by
  obtain ⟨x, rfl⟩ := of.surjective a
  obtain ⟨y, rfl⟩ := of.surjective b
  rw [h.parallelOf_eq, h.parallelOf_eq, add_comm y x, max_comm (size y), mul_comm y x]

/-- **Parallel connections associate**, where none of the four steps fails. -/
lemma parallelOf_assoc {a b c ab bc left right : Z} (hab : Connection.parallelOf a b = .ok ab)
    (hleft : Connection.parallelOf ab c = .ok left) (hbc : Connection.parallelOf b c = .ok bc)
    (hright : Connection.parallelOf a bc = .ok right) : left = right := by
  obtain ⟨x, rfl⟩ := of.surjective a
  obtain ⟨y, rfl⟩ := of.surjective b
  obtain ⟨z, rfl⟩ := of.surjective c
  obtain ⟨hxy, rfl⟩ := h.parallelOf_eq_ok hab
  obtain ⟨hyz, rfl⟩ := h.parallelOf_eq_ok hbc
  obtain ⟨hxyz, rfl⟩ := h.parallelOf_eq_ok hleft
  obtain ⟨hxyz', rfl⟩ := h.parallelOf_eq_ok hright
  refine congrArg of ?_
  rw [div_mul_eq_mul_div, div_add' _ _ _ hxy, mul_div_assoc', add_div' _ _ _ hyz,
    div_div_div_cancel_right₀ hxy, div_div_div_cancel_right₀ hyz]
  ring

end Impedance.Exactly

namespace Exact

omit [IsStrictOrderedRing K] in
/-- Every positive element is finite. -/
lemma positive_iff {x : K} : Scalar.Positive x ↔ 0 < x :=
  ⟨fun h => h.1, fun h => ⟨h, rfl⟩⟩

omit [IsStrictOrderedRing K] in
/-- Positive elements are ordered. -/
lemma ordered : Scalar.Ordered K where
  le_refl x _ := le_refl x
  le_trans _ _ _ := le_trans
  le_of_lt _ _ := le_of_lt
  not_lt_of_le _ _ := not_lt_of_ge
  le_of_not_lt _ _ _ _ := le_of_not_gt

omit [IsStrictOrderedRing K] in
/-- The order of a field is linear. -/
lemma linearOn (P : K → Prop) : Scalar.LinearOn P where
  le_total x y _ _ := le_total x y
  le_trans _ _ _ _ _ _ := le_trans
  lt_iff_not_le _ _ _ _ := not_le.symm

/-! ## Connections -/

/-- **The elements of an ordered field** are exact impedances. -/
lemma exactly : Impedance.Exactly (Equiv.refl K) (RingHom.id K) AbsoluteValue.abs where
  add _ _ := rfl
  div _ _ := rfl
  ofReal _ := rfl
  unscale _ _ := rfl
  magnitude _ := rfl

/-- The sum of positive elements is not small beside the larger one. -/
lemma epsilon_mul_max_lt {a b : K} (ha : 0 < a) (hb : 0 < b) :
    1 / 4503599627370496 * max a b < a + b :=
  calc 1 / 4503599627370496 * max a b
      ≤ max a b := mul_le_of_le_one_left (ha.le.trans (le_max_left a b)) (by norm_num)
    _ < a + b := max_lt (lt_add_of_pos_right a hb) (lt_add_of_pos_left b ha)

/-- **The product over the sum** of positive elements. -/
lemma parallelOf_of_pos {a b : K} (ha : 0 < a) (hb : 0 < b) :
    Connection.parallelOf a b = .ok (a * b / (a + b)) := by
  have hlarge : ¬ |a + b| ≤ 1 / 4503599627370496 * max |a| |b| := by
    rw [abs_of_pos (add_pos ha hb), abs_of_pos ha, abs_of_pos hb]
    exact (epsilon_mul_max_lt ha hb).not_ge
  exact (exactly.parallelOf_eq a b).trans (if_neg hlarge)

/-- **Both connections commute.** -/
lemma join_comm (c : Connection) (a b : K) : c.join a b = c.join b a := by
  cases c with
  | series => exact congrArg Except.ok (add_comm a b)
  | parallel => exact exactly.parallelOf_comm a b

/-- The combination of positive elements. -/
lemma combine?_of_pos (c : Connection) {a b : K} (ha : 0 < a) (hb : 0 < b) :
    c.combine? a b = some (match c with
      | .series => a + b
      | .parallel => a * b / (a + b)) := by
  rw [← Connection.joinAt_eq_ok_iff 0, Connection.joinAt]
  cases c with
  | series => rfl
  | parallel =>
    rw [Connection.join, parallelOf_of_pos ha hb]
    rfl

/-- **Positive elements are regular**: series and parallel connections of them never fail, and they
commute and associate. -/
lemma regular : Connection.Regular fun x : K => 0 < x where
  isFinite _ _ := rfl
  closed c a b ha hb := by
    cases c with
    | series => exact ⟨a + b, rfl, add_pos ha hb⟩
    | parallel =>
      exact ⟨a * b / (a + b), parallelOf_of_pos ha hb, div_pos (mul_pos ha hb) (add_pos ha hb)⟩
  comm c a b _ _ := join_comm c a b
  assoc c a b d ha hb hd := by
    cases c with
    | series => exact congrArg Except.ok (add_assoc a b d)
    | parallel =>
      have hab : 0 < a * b / (a + b) := div_pos (mul_pos ha hb) (add_pos ha hb)
      have hbd : 0 < b * d / (b + d) := div_pos (mul_pos hb hd) (add_pos hb hd)
      simp only [Connection.join, parallelOf_of_pos ha hb, parallelOf_of_pos hb hd, Except.bind,
        parallelOf_of_pos hab hd, parallelOf_of_pos ha hbd]
      congr 1
      field_simp
      ring

/-- **Connections grow** with their positive operands. -/
lemma monotone : Connection.Monotone K := by
  intro c a b a' b' v' ha hb ha' hb' hle hle' hv'
  rw [positive_iff] at ha hb ha' hb'
  rw [combine?_of_pos c ha' hb', Option.some.injEq] at hv'
  refine ⟨_, combine?_of_pos c ha hb, ?_⟩
  rw [positive_iff, ← hv']
  cases c with
  | series => exact ⟨add_pos ha hb, add_le_add hle hle'⟩
  | parallel =>
    refine ⟨div_pos (mul_pos ha hb) (add_pos ha hb), ?_⟩
    change a * b / (a + b) ≤ a' * b' / (a' + b')
    rw [div_le_div_iff₀ (add_pos ha hb) (add_pos ha' hb')]
    have hfirst : a * a' * b ≤ a * a' * b' := mul_le_mul_of_nonneg_left hle' (mul_pos ha ha').le
    have hsecond : b * b' * a ≤ b * b' * a' := mul_le_mul_of_nonneg_left hle (mul_pos hb hb').le
    linarith

/-! ## Tolerances -/

/-- **Acceptable positive values** lie in the band around a positive target, which is opened by the
slack on either side.

**Proof sketch.** With the absolute value taken apart, the condition says that the value lies in the
plain band, whose edges are the target with the bound, or the share that it allows, taken away and
added. For positive values the opened band is not smaller, also where the lower edge is negative. -/
lemma band_of_accepts (tolerance : Tolerance K) {target v : K} (htarget : 0 < target)
    (hv : 0 < v)
    (h : tolerance.accepts (Deviation.of v target).absolute (Deviation.of v target).relative =
      true) :
    (tolerance.band target).1 * (1 - Scalar.slack) ≤ v ∧
      v ≤ (tolerance.band target).2 * (1 + Scalar.slack) := by
  have hslack : (0 : K) < 1 / 1000000000 ∧ (1 : K) / 1000000000 < 1 := by
    constructor <;> norm_num
  -- a value inside of the plain band is inside of the opened one
  have hopen : ∀ low high : K, low ≤ v → v ≤ high →
      low * (1 - 1 / 1000000000) ≤ v ∧ v ≤ high * (1 + 1 / 1000000000) := by
    intro low high hlow hhigh
    constructor
    · rcases le_or_gt low 0 with hneg | hpos
      · exact (mul_nonpos_of_nonpos_of_nonneg hneg (sub_nonneg.mpr hslack.2.le)).trans hv.le
      · exact (mul_le_of_le_one_right hpos.le (sub_le_self 1 hslack.1.le)).trans hlow
    · exact hhigh.trans (le_mul_of_one_le_right (hv.le.trans hhigh)
        (le_add_of_nonneg_right hslack.1.le))
  cases tolerance with
  | relative bound =>
    have hdev : |v - target| / |target| ≤ bound := of_decide_eq_true h
    rw [abs_of_pos htarget, div_le_iff₀ htarget, abs_le] at hdev
    refine hopen (target * (1 - bound)) (target * (1 + bound)) ?_ ?_
    · linarith [hdev.1]
    · linarith [hdev.2]
  | absolute bound =>
    have hdev : |v - target| ≤ bound := of_decide_eq_true h
    rw [abs_le] at hdev
    refine hopen (target - bound) (target + bound) ?_ ?_
    · linarith [hdev.1]
    · linarith [hdev.2]

end Exact

end Ohmic
