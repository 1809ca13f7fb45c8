import Ohmic.Proofs.Number.Double

set_option autoImplicit false

/-!
# Rounding

The operations on doubles compute a mantissa and an exponent, exactly or with a note on what is
missing, and round them to the format. What is a double already is not changed by this, however many
zeros its mantissa has been given, and no rounding makes a number much larger than it is.

## Main definitions

* `Binary64.AtMost` — a finite number with a bounded exponent.

## Main results

* `Binary64.roundWithAccuracy_exact` — a double is rounded to itself.
* `Binary64.atMost_roundWithAccuracy` — the exponent after rounding.
* `Binary64.atMost_parts_ofParts` — a number in the range stays finite.
* `Binary64.atMost_add`, `Binary64.atMost_div` — the exponents of sums and quotients.
-/

namespace Ohmic.Binary64

open Float.Model (UnpackedFloat Format totalExponent)
open Float.Model.UnpackedFloat (Sign Accuracy ExtendedMantissa shiftToExponent
  shiftToTargetExponent roundWithAccuracy packComponents unpackExponent_packComponents
  unpackMantissa_packComponents decreaseExponent divCore)

/-! ## Exponents -/

/-- The exponent that a number of some size gets. -/
lemma targetExponent_eq (t : Int) : Format.binary64.targetExponent t = max (t - 53) (-1074) := rfl

/-- Zeros at the end of a number count. -/
lemma log2_mul_two_pow {m : Nat} (hm : 0 < m) (k : Nat) : (m * 2 ^ k).log2 = m.log2 + k := by
  have hk : 0 < 2 ^ k := Nat.two_pow_pos k
  rw [Nat.log2_eq_iff (Nat.mul_pos hm hk).ne', Nat.pow_add, Nat.add_right_comm, Nat.pow_add]
  exact ⟨Nat.mul_le_mul_right _ (Nat.log2_self_le hm.ne'),
    Nat.mul_lt_mul_of_pos_right Nat.lt_log2_self hk⟩

/-- Zeros at the end of a mantissa change nothing if the exponent makes up for them. -/
lemma totalExponent_mul_two_pow {m : Nat} (hm : 0 < m) (e : Int) (k : Nat) :
    totalExponent (m * 2 ^ k) (e - k) = totalExponent m e := by
  rw [totalExponent, totalExponent, log2_mul_two_pow hm]
  omega

/-- A double has the exponent that a number of its size gets. -/
lemma targetExponent_of_canonical {s : Sign} {m : Nat} {e : Int} {hm : 0 < m}
    (h : Canonical (.finite s m e hm)) :
    Format.binary64.targetExponent (totalExponent m e) = e := by
  obtain ⟨hlt, hlow, -, hnormal⟩ := h
  have hbits := log2_eq_iff hm hlt
  have hlog := (Nat.log2_lt hm.ne').mpr hlt
  rw [targetExponent_eq, totalExponent]
  omega

/-! ## Exact rounding -/

/-- A mantissa that ends with zeros loses nothing but these. -/
lemma shiftRight_exact (m k : Nat) :
    (⟨m * 2 ^ k, false, false⟩ : ExtendedMantissa) >>> k = ⟨m, false, false⟩ := by
  show Nat.repeat ExtendedMantissa.shiftRightOne k _ = _
  induction k generalizing m with
  | zero => rw [Nat.repeat, Nat.pow_zero, Nat.mul_one]
  | succ k ih =>
    have hone : m * 2 ^ (k + 1) = m * 2 * 2 ^ k := by
      rw [Nat.pow_succ']
      exact (Nat.mul_assoc ..).symm
    rw [Nat.repeat, hone, ih, ExtendedMantissa.shiftRightOne]
    simp

/-- **A double is rounded to itself**, whatever zeros its mantissa has been given. -/
theorem roundWithAccuracy_exact {s : Sign} {m : Nat} {e : Int} {hm : 0 < m}
    (h : Canonical (.finite s m e hm)) (k : Nat) (sign : Sign) :
    roundWithAccuracy .binary64 sign (m * 2 ^ k) (e - k) .exact = .finite sign m e hm := by
  have htarget := targetExponent_of_canonical h
  have hshift : ∀ j : Nat, shiftToTargetExponent .binary64 (m * 2 ^ j) (e - j) .exact =
      (⟨m, false, false⟩, e) := by
    intro j
    have hamount : (e - (e - (j : Int))).toNat = j := by omega
    rw [shiftToTargetExponent, totalExponent_mul_two_pow hm, htarget, shiftToExponent]
    simp only [hamount, ExtendedMantissa.ofMantissaAndAccuracy, shiftRight_exact,
      Int.sub_add_cancel]
  have hrounded : ExtendedMantissa.roundedMantissa ⟨m, false, false⟩ = m := rfl
  have hsecond := hshift 0
  rw [Nat.pow_zero, Nat.mul_one, Int.natCast_zero, Int.sub_zero] at hsecond
  rw [roundWithAccuracy]
  simp only [hshift, hrounded, hsecond, dif_neg hm.ne']

/-! ## The size of what is rounded -/

/-- What is left of a mantissa without its last bits. -/
lemma mantissa_shiftRight (em : ExtendedMantissa) (k : Nat) :
    (em >>> k).mantissa = em.mantissa / 2 ^ k := by
  show (Nat.repeat ExtendedMantissa.shiftRightOne k em).mantissa = _
  induction k with
  | zero => rw [Nat.repeat, Nat.pow_zero, Nat.div_one]
  | succ k ih =>
    rw [Nat.repeat, ExtendedMantissa.shiftRightOne, ih, Nat.div_div_eq_div_mul, ← Nat.pow_succ]

/-- Rounding adds at most one to a mantissa. -/
lemma roundedMantissa_le (em : ExtendedMantissa) : em.roundedMantissa ≤ em.mantissa + 1 := by
  have hround : ∀ (m : Nat) (accuracy : Accuracy), accuracy.roundToNearestEven m ≤ m + 1 := by
    intro m accuracy
    cases accuracy with
    | exact => exact Nat.le_succ m
    | inexact order =>
      cases order with
      | lt => exact Nat.le_succ m
      | eq => exact Nat.add_le_add_left (Nat.le_of_lt_succ (Nat.mod_lt m Nat.two_pos)) m
      | gt => exact Nat.le_refl _
  exact hround _ _

/-- A mantissa with its accuracy is the same mantissa. -/
lemma mantissa_ofMantissaAndAccuracy (m : Nat) (accuracy : Accuracy) :
    (ExtendedMantissa.ofMantissaAndAccuracy m accuracy).mantissa = m := by
  cases accuracy with
  | exact => rfl
  | inexact order => cases order <;> rfl

/-- The exponent to which a mantissa is brought. -/
lemma exponent_shiftToTargetExponent (m : Nat) (e : Int) (accuracy : Accuracy) :
    (shiftToTargetExponent .binary64 m e accuracy).2 =
      max e (Format.binary64.targetExponent (totalExponent m e)) := by
  rw [shiftToTargetExponent, shiftToExponent]
  dsimp only
  omega

/-- What is left of a mantissa at that exponent has at most 53 bits, or one more after rounding. -/
lemma roundedMantissa_shiftToTargetExponent_le (m : Nat) (e : Int) (accuracy : Accuracy) :
    (shiftToTargetExponent .binary64 m e accuracy).1.roundedMantissa ≤ 2 ^ 53 := by
  refine (roundedMantissa_le _).trans (Nat.succ_le_of_lt ?_)
  rw [shiftToTargetExponent, shiftToExponent, mantissa_shiftRight, mantissa_ofMantissaAndAccuracy,
    targetExponent_eq, totalExponent]
  generalize hk : (max ((m.log2 : Int) + 1 + e - 53) (-1074) - e).toNat = k
  have hsize : m < 2 ^ (53 + k) :=
    Nat.lt_log2_self.trans_le (Nat.pow_le_pow_right Nat.two_pos (by omega))
  exact Nat.div_lt_of_lt_mul (by rwa [← Nat.pow_add, Nat.add_comm])

/-- Zero, or a finite number whose exponent is at most a bound. -/
def AtMost (bound : Int) : UnpackedFloat → Prop
  | .zero _ => True
  | .finite _ _ e _ => e ≤ bound
  | _ => False

/-- A number with a bounded exponent has any larger bound. -/
lemma AtMost.mono {b c : Int} {u : UnpackedFloat} (h : AtMost b u) (hbc : b ≤ c) : AtMost c u := by
  cases u with
  | zero s => trivial
  | finite s m e hm => exact Int.le_trans h hbc
  | infinity | notANumber => exact h

/-- A number with a bounded exponent is finite. -/
lemma AtMost.isFinite {b : Int} {u : UnpackedFloat} (h : AtMost b u) : u.isFinite = true := by
  cases u with
  | zero | finite => rfl
  | infinity | notANumber => exact h.elim

/-- **The exponent after rounding** is at most one more than that which the size asks for, unless it
was larger before.

**Proof sketch.** The first shift brings the exponent to what the size asks for. The rounded
mantissa is at most `2 ^ 53`, so its size has grown by one bit at most, and the second shift adds at
most one to the exponent. -/
theorem atMost_roundWithAccuracy (sign : Sign) (m : Nat) (e : Int) (accuracy : Accuracy) :
    AtMost (max e (Format.binary64.targetExponent (totalExponent m e)) + 1)
      (roundWithAccuracy .binary64 sign m e accuracy) := by
  have hfirst := exponent_shiftToTargetExponent m e accuracy
  have hrounded := roundedMantissa_shiftToTargetExponent_le m e accuracy
  rw [roundWithAccuracy]
  generalize shiftToTargetExponent .binary64 m e accuracy = a at hfirst hrounded
  dsimp only
  have hsecond := exponent_shiftToTargetExponent a.1.roundedMantissa a.2 .exact
  by_cases hzero :
      (shiftToTargetExponent .binary64 a.1.roundedMantissa a.2 .exact).1.mantissa = 0
  · rw [dif_pos hzero]
    trivial
  · have hlog : a.1.roundedMantissa.log2 ≤ 53 := by
      rcases Nat.eq_zero_or_pos a.1.roundedMantissa with hnone | hsome
      · rw [hnone]
        decide
      · exact Nat.le_of_lt_succ ((Nat.log2_lt hsome.ne').mpr
          (hrounded.trans_lt (Nat.pow_lt_pow_right Nat.one_lt_two (Nat.lt_succ_self 53))))
    rw [dif_neg hzero, AtMost, hsecond, ← hfirst, targetExponent_eq, totalExponent]
    rw [targetExponent_eq] at hfirst
    omega

/-- The exponent of a word that is put together, if it is not the largest one. -/
lemma atMost_unpack_packComponents (s : Sign) {e : BitVec 11} (m : BitVec 52) (h : e ≠ -1#11) :
    AtMost (max ((e.toNat : Int) - 1075) (-1074))
      (UnpackedFloat.unpack .binary64 (packComponents .binary64 s e m)) := by
  rw [UnpackedFloat.unpack]
  simp only [unpackSign_packComponents, unpackExponent_packComponents,
    unpackMantissa_packComponents]
  rw [if_neg h]
  split
  · next hzero =>
    split
    · trivial
    · have hvalue : e.toNat = 0 := congrArg BitVec.toNat hzero
      show (e.toNat : Int) - 1075 + 1 ≤ _
      omega
  · show (e.toNat : Int) - 1075 ≤ _
    omega

/-- **A number in the range** stays finite when it is put together, and its exponent does not grow
above the least one.

**Proof sketch.** Zero stays zero. A finite number of exponent at most 971 is not put together as an
infinity. With a leading one its exponent comes back from the word; without it the word has the
least exponent. -/
theorem atMost_parts_ofParts {b : Int} {u : UnpackedFloat} (h : AtMost b u) (hb : b ≤ 971) :
    AtMost (max b (-1074)) (parts (ofParts u)) := by
  cases u with
  | infinity | notANumber => exact h.elim
  | zero s =>
    have hzero : parts (ofParts (.zero s)) = .zero s := parts_ofParts (u := .zero s) trivial
    rw [hzero]
    trivial
  | finite s m e hm =>
    have hle : e ≤ b := h
    show AtMost _ (UnpackedFloat.unpack .binary64 (UnpackedFloat.pack .binary64 _))
    rw [pack_finite, if_neg (by omega)]
    split
    · have hvalue : (BitVec.ofNat 11 (e + 1075).toNat).toNat = (e + 1075).toNat :=
        Nat.mod_eq_of_lt (by omega)
      have hlast : (-1#11).toNat = 2047 := by decide
      have hexponent : BitVec.ofNat 11 (e + 1075).toNat ≠ -1#11 := fun heq => by
        have := (congrArg BitVec.toNat heq).symm.trans hvalue
        omega
      exact (atMost_unpack_packComponents s _ hexponent).mono (by omega)
    · have hvalue : (0 : BitVec 11).toNat = 0 := rfl
      exact (atMost_unpack_packComponents s _ (by decide)).mono (by omega)

/-! ## The size of sums and quotients -/

/-- A mantissa that is given zeros makes up for a smaller exponent. -/
lemma decreaseExponent_eq (m : Nat) (e t : Int) :
    decreaseExponent m e t = (m * 2 ^ (e - t).toNat, e - (e - t).toNat) := by
  rw [decreaseExponent]
  simp only [Nat.shiftLeft_eq]

/-- The size of a number with a bounded mantissa. -/
lemma totalExponent_le {m k : Nat} (hm : 0 < m) (h : m < 2 ^ k) (e : Int) :
    totalExponent m e ≤ k + e := by
  have hlog := (Nat.log2_lt hm.ne').mpr h
  rw [totalExponent]
  omega

/-- The exponent of a number that is rounded. -/
lemma atMost_round {m k : Nat} {e b : Int} (sign : Sign) (hm : 0 < m) (h : m < 2 ^ k)
    (hb : k + e - 53 ≤ b) (hlow : -1074 ≤ b) :
    AtMost (b + 1) (UnpackedFloat.round .binary64 sign m e) := by
  have hsize := totalExponent_le hm h e
  rw [UnpackedFloat.round]
  dsimp only
  rw [decreaseExponent_eq]
  dsimp only
  refine (atMost_roundWithAccuracy _ _ _ _).mono ?_
  rw [totalExponent_mul_two_pow hm, targetExponent_eq]
  omega

/-- The exponent of a signed mantissa that is rounded. -/
lemma atMost_normalize {m e b : Int} {k : Nat} (s : Sign) (h : m.natAbs < 2 ^ k)
    (hb : k + e - 53 ≤ b) (hlow : -1074 ≤ b) :
    AtMost (b + 1) (UnpackedFloat.normalize .binary64 m e s) := by
  rw [UnpackedFloat.normalize]
  split
  · next hneg =>
    have hneg := Int.compare_eq_lt.mp hneg
    exact atMost_round _ (by omega) (by omega) hb hlow
  · trivial
  · next hpos =>
    have hpos := Int.compare_eq_gt.mp hpos
    exact atMost_round _ (by omega) (by omega) hb hlow

/-- A mantissa of a double with the zeros for a smaller exponent. -/
lemma shifted_lt {m : Nat} {e b : Int} (hm : m < 2 ^ 53) (hb : e ≤ b) (t : Int) :
    m * 2 ^ (e - t).toNat < 2 ^ (53 + (b - t).toNat) := by
  rw [Nat.pow_add]
  exact Nat.mul_lt_mul_of_lt_of_le hm (Nat.pow_le_pow_right Nat.two_pos (by omega))
    (Nat.two_pow_pos _)

/-- **The exponent of a sum** is at most two more than those of the summands.

**Proof sketch.** A zero summand leaves the other one. Two numbers are brought to the smaller of
both exponents, at which each mantissa has at most `53 + (b - min e f)` bits, so their sum has one
bit more. Rounding adds one more to the exponent (`atMost_normalize`). -/
theorem atMost_add {b : Int} {u v : UnpackedFloat} (hu : Canonical u) (hv : Canonical v)
    (hub : AtMost b u) (hvb : AtMost b v) (hlow : -1074 ≤ b) :
    AtMost (b + 2) (UnpackedFloat.add .binary64 u v) := by
  have hmore : b ≤ b + 2 := by omega
  cases u with
  | infinity | notANumber => exact hub.elim
  | zero s =>
    cases v with
    | infinity | notANumber => exact hvb.elim
    | zero t =>
      rw [UnpackedFloat.add]
      split <;> trivial
    | finite t n f hn => exact hvb.mono hmore
  | finite s m e hm =>
    cases v with
    | infinity | notANumber => exact hvb.elim
    | zero t => exact hub.mono hmore
    | finite t n f hn =>
      have hrange : min e f ≤ b := Int.le_trans (Int.min_le_left e f) hub
      have hleft := shifted_lt hu.1 hub (min e f)
      have hright := shifted_lt hv.1 hvb (min e f)
      have hbound : (s.apply (m * 2 ^ (e - min e f).toNat : Nat) +
          t.apply (n * 2 ^ (f - min e f).toNat : Nat)).natAbs <
            2 ^ (54 + (b - min e f).toNat) := by
        rw [Nat.add_right_comm 53 1, Nat.pow_succ]
        cases s <;> cases t <;> simp only [Sign.apply] <;> omega
      rw [UnpackedFloat.add]
      dsimp only
      rw [decreaseExponent_eq, decreaseExponent_eq]
      dsimp only
      exact (atMost_normalize .positive hbound (b := b + 1) (by omega) (by omega)).mono (by omega)

/-- The bits of a quotient are those that the dividend has more than the divisor. -/
lemma log2_div_add_le {m n : Nat} (h : 0 < m / n) : (m / n).log2 + n.log2 ≤ m.log2 := by
  have hn : n ≠ 0 := fun hzero => by
    rw [hzero, Nat.div_zero] at h
    exact Nat.lt_irrefl 0 h
  have hproduct : 2 ^ ((m / n).log2 + n.log2) ≤ m := by
    rw [Nat.pow_add]
    exact (Nat.mul_le_mul (Nat.log2_self_le h.ne') (Nat.log2_self_le hn)).trans
      (Nat.div_mul_le_self m n)
  have hm : m ≠ 0 := ((Nat.two_pow_pos _).trans_le hproduct).ne'
  exact (Nat.le_log2 hm).mpr hproduct

/-- **The exponent of a quotient** is set by how much larger the dividend is. -/
theorem atMost_div {s t : Sign} {m n : Nat} {e f b : Int} {hm : 0 < m} {hn : 0 < n}
    (h : totalExponent m e ≤ totalExponent n f + b) (hlow : -1022 ≤ b) :
    AtMost (b - 51) (UnpackedFloat.div .binary64 (.finite s m e hm) (.finite t n f hn)) := by
  rw [UnpackedFloat.div, divCore, targetExponent_eq]
  dsimp only
  generalize hg : min (e - f) (max (totalExponent m e - totalExponent n f - 53) (-1074)) = g
  refine (atMost_roundWithAccuracy _ _ _ _).mono ?_
  have hsize : totalExponent (m <<< (e - f - g).toNat / n) g ≤ max (g + 1) (b + 1) := by
    simp only [totalExponent] at h ⊢
    rcases Nat.eq_zero_or_pos (m <<< (e - f - g).toNat / n) with hnone | hsome
    · rw [hnone, Nat.log2_zero]
      omega
    · have hbits := log2_div_add_le hsome
      rw [Nat.shiftLeft_eq, log2_mul_two_pow hm, ← Nat.shiftLeft_eq] at hbits
      omega
  rw [targetExponent_eq]
  omega

end Ohmic.Binary64
