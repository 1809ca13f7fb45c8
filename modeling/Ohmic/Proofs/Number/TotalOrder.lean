import Ohmic.Proofs.Number.Operations
import Ohmic.Proofs.Parts.Order
import Ohmic.Proofs.Search.Ranking

set_option autoImplicit false

/-!
# Sorted doubles

Doubles are sorted by their bit patterns. The pattern of a positive double is its mantissa, with the
exponent in the bits before it, so positive doubles are sorted like the numbers that they stand for.

## Main results

* `Binary64.orderKey_of_parts` — the place of a positive double in the total order.
* `Binary64.orderKey_le_iff` — positive doubles are sorted like their numbers.
* `Binary64.reading` — finite doubles are read as the numbers that they stand for.
-/

namespace Ohmic.Binary64

open Float.Model (UnpackedFloat)
open Float.Model.UnpackedFloat (packComponents)

/-- The word of a positive number: the exponent in the bits before the mantissa. -/
lemma toNat_packComponents (e : BitVec 11) (m : BitVec 52) :
    (packComponents .binary64 .positive e m).toNat = e.toNat * 2 ^ 52 + m.toNat := by
  have hsign : ((0#1 ++ e : BitVec 12) ++ m).toNat = e.toNat * 2 ^ 52 + m.toNat := by
    rw [BitVec.toNat_append, ← Nat.shiftLeft_add_eq_or_of_lt m.isLt, Nat.shiftLeft_eq,
      BitVec.toNat_append]
    simp
  exact hsign

/-- **The place of a positive double** in the total order. The leading one of a full mantissa adds
one to the stored exponent.

**Proof sketch.** The word of the double is that of its parts, with no sign bit. If the mantissa has
all its bits, the stored exponent is `e + 1075` and the leading one is left out; otherwise the
exponent is the least one, and the mantissa is stored as it is. -/
lemma orderKey_of_parts {x : Float} {m : ℕ} {e : ℤ} {hm : 0 < m}
    (h : parts x = .finite .positive m e hm) : orderKey x = (e + 1074) * 2 ^ 52 + m := by
  have hcanonical := canonical_parts x
  rw [h] at hcanonical
  obtain ⟨hlt, hlow, hhigh, hnormal⟩ := hcanonical
  have hbits : x.toBits.toNat =
      (UnpackedFloat.pack .binary64 (.finite .positive m e hm)).toNat := by
    rw [← h]
    conv_lhs => rw [← ofParts_parts x]
    rfl
  have hkey : x.toBits.toNat = ((e + 1074).toNat) * 2 ^ 52 + m := by
    rw [hbits, pack_finite, if_neg (by omega)]
    simp only [log2_eq_iff hm hlt]
    split
    · next hone =>
      rw [toNat_packComponents, BitVec.toNat_ofNat, BitVec.toNat_ofNat]
      omega
    · next hone =>
      obtain rfl : e = -1074 := by omega
      rw [toNat_packComponents, BitVec.toNat_ofNat]
      have hzero : (0 : BitVec 11).toNat = 0 := rfl
      omega
  rw [orderKey, if_pos (by rw [hkey, signBit]; omega), hkey]
  omega

/-- Mantissa and exponent of a positive double, its number and its place. -/
lemma exists_orderKey {x : Float} (hx : x.isFinite = true) (hpos : 0 < value x) :
    ∃ (m : ℕ) (e : ℤ), m < 2 ^ 53 ∧ -1074 ≤ e ∧ (2 ^ 52 ≤ m ∨ e = -1074) ∧
      value x = m * 2 ^ e ∧ orderKey x = (e + 1074) * 2 ^ 52 + m := by
  obtain ⟨m, e, hm, hparts⟩ := exists_parts_of_value_pos hx hpos
  have hcanonical := canonical_parts x
  rw [hparts] at hcanonical
  obtain ⟨hlt, hlow, -, hnormal⟩ := hcanonical
  refine ⟨m, e, hlt, hlow, hnormal, ?_, orderKey_of_parts hparts⟩
  rw [value, hparts, rational_finite]
  rfl

/-- **Positive doubles are sorted** like the numbers that they stand for.

**Proof sketch.** Both places are sums of a shifted exponent and a mantissa that is below the shift
(`exists_orderKey`), so the exponents decide, and between equal ones the mantissas, as for the
numbers. -/
theorem orderKey_le_iff {x y : Float} (hx : x.isFinite = true) (hy : y.isFinite = true)
    (hxpos : 0 < value x) (hypos : 0 < value y) :
    orderKey x ≤ orderKey y ↔ value x ≤ value y := by
  obtain ⟨m, e, hm, he, hmnormal, hxvalue, hxkey⟩ := exists_orderKey hx hxpos
  obtain ⟨n, f, hn, hf, hnnormal, hyvalue, hykey⟩ := exists_orderKey hy hypos
  rw [hxkey, hykey, hxvalue, hyvalue]
  -- the exponents decide, and between equal ones the mantissas
  constructor
  · intro hle
    rcases hle.lt_or_eq with hlt | heq
    · exact (mul_zpow_lt hm hnnormal he (by omega)).le
    · obtain ⟨rfl, rfl⟩ : e = f ∧ m = n := by omega
      exact le_rfl
  · intro hle
    by_contra hlt
    exact absurd hle (not_le.mpr (mul_zpow_lt hn hmnormal hf (by omega)))

/-- **Finite doubles** are read as the numbers that they stand for.

**Proof sketch.** Comparisons are those of places, and places of finite doubles are ordered as their
numbers (`le_iff_value_le`). Equality is that of places too, hence both inequalities. In the total
order positive doubles go by their words (`orderKey_le_iff`). -/
theorem reading : Scalar.Reading value where
  isFinite_zero := isFinite_zero
  read_zero := value_zero
  lt_iff hx hy := lt_iff_value_lt hx hy
  le_iff hx hy := le_iff_value_le hx hy
  beq_iff {x y} hx hy := by
    obtain ⟨p, hp⟩ := exists_place hx
    obtain ⟨q, hq⟩ := exists_place hy
    have hplace : ∀ {x y : Float} {p q : ℤ ×ₗ ℤ ×ₗ ℤ}, place? (parts x) = some p →
        place? (parts y) = some q → (x ≤ y ↔ p ≤ q) := by
      intro x y p q hp hq
      rw [le_iff, hp, hq]
      simp only [Option.mem_some_iff, exists_eq_left']
    have hequal : (x == y) = true ↔ p = q := by
      rw [beq_iff, hp, hq]
      simp only [Option.mem_some_iff, exists_eq_left']
    rw [hequal, le_antisymm_iff, le_antisymm_iff, ← le_iff_value_le hx hy, ← le_iff_value_le hy hx,
      hplace hp hq, hplace hq hp]
  isLE_rank_iff {x y} hx hy hxpos hypos := by
    rw [← orderKey_le_iff hx hy hxpos hypos, Ordering.isLE_iff_ne_gt]
    exact compare_le_iff_le
  isFinite_of_le_of_le hx hz hxy hyz := isFinite_of_le_of_le hx hz hxy hyz

end Ohmic.Binary64
