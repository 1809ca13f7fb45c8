import Mathlib
import Ohmic.Number.Binary64
import Ohmic.Proofs.Number.Comparison

set_option autoImplicit false

/-!
# The parts of a double

A double is kept as a bit pattern. Its arithmetic takes the pattern apart into sign, mantissa and
exponent, computes with these, and puts the outcome together again. Here the two directions are
inverse to each other where they have to be, and the comparisons of doubles are read off the parts.

## Main definitions

* `Binary64.parts`, `Binary64.ofParts` — a double taken apart, and put together.
* `Binary64.Canonical` — the mantissa and the exponent are those of a double.
* `Binary64.sign?` — the sign of a number.

## Main results

* `Binary64.canonical_parts`, `Binary64.parts_ofParts`, `Binary64.ofParts_parts` — taking apart and
  putting together are inverse to each other.
* `Binary64.le_trans`, `Binary64.le_refl`, `Binary64.lt_asymm`, `Binary64.linearOn_of_not_nan` — the
  comparisons of doubles.
* `Binary64.not_lt_zero` — what has no minus sign is not below zero.
-/

namespace Ohmic.Binary64

open Float.Model (UnpackedFloat Format)
open Float.Model.UnpackedFloat (Sign packComponents unpackSign unpackExponent unpackMantissa
  unpackMantissa_packComponents unpackExponent_packComponents)

/-- A double taken apart. -/
def parts (x : Float) : UnpackedFloat := x.toModel.unpack

/-- A double put together from its parts. -/
def ofParts (u : UnpackedFloat) : Float := .ofModel (.pack u)

/-- A finite number has a mantissa of 53 bits, or a smaller one and the least exponent. -/
def Canonical : UnpackedFloat → Prop
  | .finite _ m e _ => m < 2 ^ 53 ∧ -1074 ≤ e ∧ e ≤ 971 ∧ (2 ^ 52 ≤ m ∨ e = -1074)
  | _ => True

/-! ## Taking apart and putting together -/

/-- The bias of the stored exponent of a mantissa that is an integer. -/
lemma bias_eq : (Format.binary64.exponentBias : Int) + Format.binary64.mantissaBitsWithoutImplicit =
    1075 := rfl

/-- A mantissa of at most 53 bits has all of them if it has a leading one. -/
lemma log2_eq_iff {m : Nat} (hm : 0 < m) (hlt : m < 2 ^ 53) : m.log2 = 52 ↔ 2 ^ 52 ≤ m := by
  have hlow := Nat.le_log2 (n := m) (k := 52) (by omega)
  have hhigh := Nat.log2_lt (n := m) (k := 53) (by omega)
  omega

/-- A leading one before a word. -/
lemma toNat_one_append {w : Nat} (v : BitVec w) : (1#1 ++ v).toNat = 2 ^ w + v.toNat := by
  rw [BitVec.toNat_append, ← Nat.shiftLeft_add_eq_or_of_lt v.isLt, Nat.shiftLeft_eq]
  exact congrArg (· + v.toNat) (Nat.one_mul _)

/-- The sign of a word put together. -/
lemma unpackSign_packComponents (sign : Sign) (e : BitVec 11) (m : BitVec 52) :
    Sign.ofBitVec (unpackSign (packComponents .binary64 sign e m)) = sign := by
  rw [unpackSign, packComponents, BitVec.extractLsb,
    BitVec.extractLsb'_append_eq_of_le (by decide), BitVec.extractLsb'_append_eq_of_le (by decide)]
  cases sign <;> rfl

/-- A word is put together from its own sign, exponent and mantissa. -/
lemma packComponents_unpack (b : BitVec Format.binary64.numBits) :
    packComponents .binary64 (Sign.ofBitVec (unpackSign b)) (unpackExponent b) (unpackMantissa b) =
      b := by
  have hsign : ∀ v : BitVec 1, (Sign.ofBitVec v).toBitVec = v := by decide
  rw [packComponents, hsign, unpackSign, unpackExponent, unpackMantissa]
  simp only [BitVec.extractLsb]
  ext i hi
  grind

/-- The parts of a word are canonical.

**Proof sketch.** By the stored exponent. The largest one is that of infinities and undefined
numbers. The least one has no leading one before the mantissa, so the number has the least exponent;
every other one has a leading one, hence all bits. -/
lemma canonical_unpack (b : BitVec Format.binary64.numBits) :
    Canonical (UnpackedFloat.unpack .binary64 b) := by
  have hbias := bias_eq
  have hmantissa : (unpackMantissa b).toNat < 2 ^ 52 := (unpackMantissa b).isLt
  have hexponent : (unpackExponent b).toNat < 2 ^ 11 := (unpackExponent b).isLt
  rw [UnpackedFloat.unpack]
  split
  · -- infinite or undefined
    split <;> trivial
  · next hmax =>
    have hmax : (unpackExponent b).toNat ≠ 2 ^ 11 - 1 := fun h =>
      hmax (BitVec.toNat_inj.mp (h.trans (by decide)))
    split
    · next hmin =>
      have hmin : (unpackExponent b).toNat = 0 := congrArg BitVec.toNat hmin
      split
      · trivial
      · -- the least exponent, without a leading one
        exact ⟨by omega, by omega, by omega, .inr (by omega)⟩
    · next hmin =>
      have hmin : (unpackExponent b).toNat ≠ 0 := fun h => hmin (BitVec.toNat_inj.mp h)
      have happend : (1#1 ++ unpackMantissa b).toNat = 2 ^ 52 + (unpackMantissa b).toNat :=
        toNat_one_append _
      exact ⟨by omega, by omega, by omega, .inl (by omega)⟩

/-- **The parts of a double** are canonical. -/
theorem canonical_parts (x : Float) : Canonical (parts x) := canonical_unpack _

/-- What a finite number is put together from: an infinity if its exponent is too large, a leading
one that is left out, or the least exponent. -/
lemma pack_finite (s : Sign) (m : Nat) (e : Int) (hm : 0 < m) :
    UnpackedFloat.pack .binary64 (.finite s m e hm) =
      if 971 < e then packComponents .binary64 s (-1#11) 0
      else if m.log2 = 52 then
        packComponents .binary64 s (BitVec.ofNat 11 (e + 1075).toNat) (BitVec.ofNat 52 m)
      else packComponents .binary64 s 0 (BitVec.ofNat 52 m) := by
  have hbias : (e + Format.binary64.exponentBias + Format.binary64.mantissaBitsWithoutImplicit) =
      e + 1075 := by have := bias_eq; omega
  have hover : 2 ^ 11 ≤ (e + 1075).toNat + 1 ↔ 971 < e := by omega
  have hbits : m.log2 + 1 = Format.binary64.mantissaBits ↔ m.log2 = 52 := Nat.add_right_cancel_iff
  rw [UnpackedFloat.pack]
  simp only [hbias, hover, hbits]
  rfl

/-- A normal number taken apart: the leading one comes back.

**Proof sketch.** The stored exponent `e + 1075` is neither the least nor the largest one, so a
leading one is put before the stored mantissa, which is `m` without its leading one. -/
lemma unpack_normal (s : Sign) {m : Nat} {e : Int} (hm : 0 < m) (hmin : 2 ^ 52 ≤ m)
    (hlt : m < 2 ^ 53) (hlow : -1074 ≤ e) (hhigh : e ≤ 971) :
    UnpackedFloat.unpack .binary64 (packComponents .binary64 s
      (BitVec.ofNat 11 (e + 1075).toNat) (BitVec.ofNat 52 m)) = .finite s m e hm := by
  have hexponent : (BitVec.ofNat 11 (e + 1075).toNat).toNat = (e + 1075).toNat :=
    Nat.mod_eq_of_lt (by omega)
  have hmantissa : (1#1 ++ BitVec.ofNat 52 m).toNat = m := by
    rw [toNat_one_append, BitVec.toNat_ofNat]
    omega
  have hmax : BitVec.ofNat 11 (e + 1075).toNat ≠ -1#11 := fun h => by
    have := (congrArg BitVec.toNat h).symm.trans hexponent
    have hvalue : (-1#11).toNat = 2047 := by decide
    omega
  have hzero : BitVec.ofNat 11 (e + 1075).toNat ≠ 0#11 := fun h => by
    have hvalue : (0#11).toNat = 0 := rfl
    have := (congrArg BitVec.toNat h).symm.trans hexponent
    omega
  rw [UnpackedFloat.unpack]
  simp only [unpackSign_packComponents, unpackExponent_packComponents,
    unpackMantissa_packComponents]
  rw [if_neg hmax, if_neg hzero, UnpackedFloat.finite.injEq]
  refine ⟨rfl, hmantissa, ?_⟩
  exact (congrArg (fun n : Nat => (n : Int) - 1075) hexponent).trans (by omega)

/-- A number with the least exponent and without a leading one taken apart. -/
lemma unpack_subnormal (s : Sign) {m : Nat} (hm : 0 < m) (hlt : m < 2 ^ 52) :
    UnpackedFloat.unpack .binary64 (packComponents .binary64 s 0 (BitVec.ofNat 52 m)) =
      .finite s m (-1074) hm := by
  have hmantissa : (BitVec.ofNat 52 m).toNat = m := Nat.mod_eq_of_lt hlt
  have hzero : BitVec.ofNat 52 m ≠ 0#52 := fun h => by
    have hvalue : (0#52).toNat = 0 := rfl
    have := (congrArg BitVec.toNat h).symm.trans hmantissa
    omega
  rw [UnpackedFloat.unpack]
  simp only [unpackSign_packComponents, unpackExponent_packComponents,
    unpackMantissa_packComponents]
  rw [if_neg (by decide), if_pos (by rfl), dif_neg hzero, UnpackedFloat.finite.injEq]
  exact ⟨rfl, hmantissa, rfl⟩

/-- **Canonical parts** are those of the double put together from them. -/
theorem parts_ofParts {u : UnpackedFloat} (h : Canonical u) : parts (ofParts u) = u := by
  show UnpackedFloat.unpack .binary64 (UnpackedFloat.pack .binary64 u) = u
  cases u with
  | infinity s => cases s <;> rfl
  | notANumber => rfl
  | zero s => cases s <;> rfl
  | finite s m e hm =>
    obtain ⟨hlt, hlow, hhigh, hnormal⟩ := h
    rw [pack_finite, if_neg (by omega)]
    simp only [log2_eq_iff hm hlt]
    split
    · next hone => exact unpack_normal s hm hone hlt hlow hhigh
    · next hone =>
      obtain rfl : e = -1074 := by omega
      exact unpack_subnormal s hm (by omega)

/-- A word of a double is put together from its parts.

**Proof sketch.** By the cases in which a word is taken apart: infinity, undefined, zero, a number
without a leading one, and one with it. A valid word has only one undefined number. In each of the
other cases the stored exponent and the stored mantissa come back, and a word is determined by its
sign and these (`packComponents_unpack`). -/
lemma pack_unpack {b : BitVec Format.binary64.numBits} (h : Format.binary64.Valid b) :
    UnpackedFloat.pack .binary64 (UnpackedFloat.unpack .binary64 b) = b := by
  have hself := packComponents_unpack b
  have hmantissa : (unpackMantissa b).toNat < 2 ^ 52 := (unpackMantissa b).isLt
  have hexponent : (unpackExponent b).toNat < 2 ^ 11 := (unpackExponent b).isLt
  rw [UnpackedFloat.unpack]
  split
  · next hmax =>
    split
    · next hzero =>
      rw [hmax, hzero] at hself
      exact hself
    · next hzero => exact (h.eq_packedNaN hmax hzero).symm
  · next hmax =>
    have hmax : (unpackExponent b).toNat ≠ 2 ^ 11 - 1 := fun h =>
      hmax (BitVec.toNat_inj.mp (h.trans (by decide)))
    split
    · next hmin =>
      split
      · next hzero =>
        rw [hmin, hzero] at hself
        exact hself
      · next hzero =>
        -- the least exponent, without a leading one
        have hvalue : (unpackExponent b).toNat = 0 := congrArg BitVec.toNat hmin
        have hpos : 0 < (unpackMantissa b).toNat :=
          Nat.pos_of_ne_zero fun h => hzero (BitVec.toNat_inj.mp h)
        have hbits := log2_eq_iff hpos (by omega)
        rw [pack_finite, if_neg (by omega), if_neg (by omega),
          BitVec.ofNat_toNat, BitVec.setWidth_eq]
        rw [hmin] at hself
        exact hself
    · next hmin =>
      have hmin : (unpackExponent b).toNat ≠ 0 := fun h => hmin (BitVec.toNat_inj.mp h)
      have happend : (1#1 ++ unpackMantissa b).toNat = 2 ^ 52 + (unpackMantissa b).toNat :=
        toNat_one_append _
      have hbias := bias_eq
      have hbits := log2_eq_iff (m := (1#1 ++ unpackMantissa b).toNat) (by omega) (by omega)
      rw [pack_finite, if_neg (by omega), if_pos (by omega)]
      have hstored : BitVec.ofNat 11 (((unpackExponent b).toNat : Int) -
          (Format.binary64.exponentBias + Format.binary64.mantissaBitsWithoutImplicit) +
          1075).toNat = unpackExponent b := by
        rw [hbias, Int.sub_add_cancel, Int.toNat_natCast, BitVec.ofNat_toNat, BitVec.setWidth_eq]
      have hleft : BitVec.ofNat 52 (1#1 ++ unpackMantissa b).toNat = unpackMantissa b := by
        rw [← BitVec.toNat_inj, BitVec.toNat_ofNat, happend]
        omega
      rw [hstored, hleft, hself]

/-- **A double** is put together from its parts. -/
theorem ofParts_parts (x : Float) : ofParts (parts x) = x := by
  obtain ⟨⟨bits, hvalid⟩⟩ := x
  have hword : UnpackedFloat.pack .binary64 (UnpackedFloat.unpack .binary64 bits.toBitVec) =
      bits.toBitVec := pack_unpack hvalid
  simp only [ofParts, parts, Float.Model.pack, Float.Model.unpack, hword]

/-! ## Comparisons -/

/-- Where a number lies: its sign and size first, then its exponent, then its mantissa. An undefined
number lies nowhere. -/
def place? : UnpackedFloat → Option (Int ×ₗ Int ×ₗ Int)
  | .infinity s => some (toLex (s.apply 2, toLex (0, 0)))
  | .notANumber => none
  | .zero _ => some (toLex (0, toLex (0, 0)))
  | .finite s m e _ => some (toLex (s.apply 1, toLex (s.apply e, s.apply m)))

/-- Places are compared one entry after the other. -/
lemma compare_place (a b c d e f : Int) :
    compare (toLex (a, toLex (b, c))) (toLex (d, toLex (e, f))) =
      (compare a d).then ((compare b e).then (compare c f)) := rfl

/-- Negation turns a comparison round. -/
lemma compare_neg (a b : Int) : compare (-a) (-b) = (compare a b).swap := by
  rcases Int.lt_trichotomy a b with h | rfl | h
  · rw [compare_lt_iff_lt.mpr h, compare_gt_iff_gt.mpr (Int.neg_lt_neg h)]
    rfl
  · rw [compare_eq_iff_eq.mpr rfl, compare_eq_iff_eq.mpr rfl]
    rfl
  · rw [compare_gt_iff_gt.mpr h, compare_lt_iff_lt.mpr (Int.neg_lt_neg h)]
    rfl

/-- Natural numbers are compared as integers are. -/
lemma compare_natCast (a b : Nat) : compare (a : Int) (b : Int) = compare a b := by
  simp only [compare, compareOfLessAndEq, Int.ofNat_lt, Int.ofNat_inj]

/-- **Numbers are compared** by where they lie.

**Proof sketch.** By the cases of both numbers. Only two finite numbers of one sign need their
exponents and mantissas, which the place holds in this order, both negated for negative numbers. -/
theorem compare_eq (u v : UnpackedFloat) :
    u.compare v = (place? u).bind fun a => (place? v).map fun b => compare a b := by
  cases u with
  | notANumber => rfl
  | infinity s => cases v with
    | notANumber => cases s <;> rfl
    | zero t => cases s <;> rfl
    | infinity t | finite t => cases s <;> cases t <;> rfl
  | zero s => cases v with
    | notANumber | zero => rfl
    | infinity t | finite t => cases t <;> rfl
  | finite s m e => cases v with
    | notANumber | zero => cases s <;> rfl
    | infinity t => cases s <;> cases t <;> rfl
    | finite t n f =>
      cases s <;> cases t
      case negative.positive | positive.negative => rfl
      case negative.negative =>
        simp [UnpackedFloat.compare, place?, Sign.apply, compare_place, compare_neg,
          compare_natCast, Ordering.swap_then]
      case positive.positive =>
        simp [UnpackedFloat.compare, place?, Sign.apply, compare_place, compare_natCast]

/-- A double is at most another one if it lies at most there. -/
lemma le_iff (x y : Float) :
    x ≤ y ↔ ∃ a ∈ place? (parts x), ∃ b ∈ place? (parts y), a ≤ b := by
  have hle : x ≤ y ↔ (parts x).le (parts y) = true := decide_eq_true_iff
  rw [hle, UnpackedFloat.le, compare_eq]
  cases place? (parts x) <;> cases place? (parts y) <;>
    simp [Ordering.isLE_iff_ne_gt, compare_le_iff_le]

/-- A double is below another one if it lies below. -/
lemma lt_iff (x y : Float) :
    x < y ↔ ∃ a ∈ place? (parts x), ∃ b ∈ place? (parts y), a < b := by
  have hlt : x < y ↔ (parts x).lt (parts y) = true := decide_eq_true_iff
  rw [hlt, UnpackedFloat.lt, compare_eq]
  cases place? (parts x) <;> cases place? (parts y) <;> simp [compare_lt_iff_lt]

/-- Doubles are equal in value if they lie at one place. -/
lemma beq_iff (x y : Float) :
    (x == y) = true ↔ ∃ a ∈ place? (parts x), ∃ b ∈ place? (parts y), a = b := by
  have hbeq : (x == y) = (parts x).beq (parts y) := rfl
  rw [hbeq, UnpackedFloat.beq, compare_eq]
  cases place? (parts x) <;> cases place? (parts y) <;>
    simp only [Option.bind_none, Option.bind_some, Option.map_none, Option.map_some,
      Option.mem_some_iff, Option.not_mem_none, exists_eq_left', false_and, exists_false,
      beq_iff_eq, reduceCtorEq, Option.some.injEq, compare_eq_iff_eq]

/-- **Being at most is transitive**, also where undefined numbers take part. -/
theorem le_trans {x y z : Float} (hxy : x ≤ y) (hyz : y ≤ z) : x ≤ z := by
  rw [le_iff] at *
  obtain ⟨a, ha, b, hb, hab⟩ := hxy
  obtain ⟨b', hb', c, hc, hbc⟩ := hyz
  obtain rfl := Option.mem_unique hb hb'
  exact ⟨a, ha, c, hc, hab.trans hbc⟩

/-- **A finite double** is at most itself. -/
theorem le_refl {x : Float} (h : x.isFinite = true) : x ≤ x := by
  have hplace : ∃ a, a ∈ place? (parts x) := by
    have hfinite : (parts x).isFinite = true := h
    cases hparts : parts x with
    | zero | finite => exact ⟨_, rfl⟩
    | infinity | notANumber =>
      rw [hparts] at hfinite
      cases hfinite
  obtain ⟨a, ha⟩ := hplace
  exact (le_iff x x).mpr ⟨a, ha, a, ha, le_rfl⟩

/-- **Doubles that are defined** are in linear order.

**Proof sketch.** A number that is defined has a place (`place?`), and comparisons of numbers are
those of their places (`le_iff`, `lt_iff`), which are in linear order. -/
theorem linearOn_of_not_nan : Scalar.LinearOn fun x : Float => x.isNaN = false := by
  have hplace : ∀ x : Float, x.isNaN = false → ∃ a, place? (parts x) = some a := by
    intro x hx
    have hdefined : (parts x).isNaN = false := hx
    cases hparts : parts x with
    | zero | finite | infinity => exact ⟨_, rfl⟩
    | notANumber =>
      rw [hparts] at hdefined
      cases hdefined
  refine ⟨fun x y hx hy => ?_, fun x y z _ _ _ => le_trans, fun x y hx hy => ?_⟩
  · obtain ⟨a, ha⟩ := hplace x hx
    obtain ⟨b, hb⟩ := hplace y hy
    exact (le_total a b).imp (fun h => (le_iff x y).mpr ⟨a, ha, b, hb, h⟩)
      fun h => (le_iff y x).mpr ⟨b, hb, a, ha, h⟩
  · obtain ⟨a, ha⟩ := hplace x hx
    obtain ⟨b, hb⟩ := hplace y hy
    have hlt : x < y ↔ ∃ a ∈ place? (parts x), ∃ b ∈ place? (parts y), a < b := lt_iff x y
    have hle : y ≤ x ↔ ∃ b ∈ place? (parts y), ∃ a ∈ place? (parts x), b ≤ a := le_iff y x
    rw [hlt, hle, ha, hb]
    simp only [Option.mem_some_iff, exists_eq_left', not_le]

/-- **What is below a double** is not above it. -/
theorem lt_asymm {x y : Float} (h : x < y) : ¬ y < x := by
  rw [lt_iff] at *
  obtain ⟨a, ha, b, hb, hab⟩ := h
  rintro ⟨b', hb', a', ha', hba⟩
  obtain rfl := Option.mem_unique hb hb'
  obtain rfl := Option.mem_unique ha ha'
  exact hab.asymm hba

/-! ## Signs -/

/-- The sign of a number; an undefined one has none. -/
def sign? : UnpackedFloat → Option Sign
  | .infinity s | .zero s | .finite s _ _ _ => some s
  | .notANumber => none

/-- The sign of a word that is put together, unless it is undefined. -/
lemma sign?_unpack_packComponents (s : Sign) {e : BitVec 11} {m : BitVec 52}
    (h : e = -1#11 → m = 0#52) :
    sign? (UnpackedFloat.unpack .binary64 (packComponents .binary64 s e m)) = some s := by
  rw [UnpackedFloat.unpack]
  simp only [unpackSign_packComponents, unpackExponent_packComponents,
    unpackMantissa_packComponents]
  split
  · next hmax => rw [if_pos (h hmax), sign?]
  · split
    · split <;> rfl
    · rfl

/-- **Putting together and taking apart** keeps the sign, whatever it does to the rest. -/
theorem sign?_parts_ofParts (u : UnpackedFloat) : sign? (parts (ofParts u)) = sign? u := by
  cases u with
  | infinity s | zero s | notANumber => exact congrArg sign? (parts_ofParts trivial)
  | finite s m e hm =>
    show sign? (UnpackedFloat.unpack .binary64 (UnpackedFloat.pack .binary64 _)) = some s
    rw [pack_finite]
    split
    · exact sign?_unpack_packComponents s fun _ => rfl
    · split
      · next hover hbits =>
        refine sign?_unpack_packComponents s fun h => ?_
        have hvalue : (e + 1075).toNat % 2 ^ 11 = 2 ^ 11 - 1 := congrArg BitVec.toNat h
        omega
      · exact sign?_unpack_packComponents s fun h => absurd h (by decide)

/-- No minus sign. -/
def Unsigned (x : Float) : Prop := sign? (parts x) ≠ some .negative

/-- What is put together from parts without a minus sign has none. -/
lemma unsigned_ofParts {u : UnpackedFloat} (h : sign? u ≠ some .negative) :
    Unsigned (ofParts u) := by
  rw [Unsigned, sign?_parts_ofParts]
  exact h

/-- **What has no minus sign** is not below zero.

**Proof sketch.** What is below zero has a place below that of zero. Zero has this place itself, and
the place of a positive number or infinity is above it. -/
theorem not_lt_zero {x : Float} (h : Unsigned x) : ¬ x < 0 := by
  have hzero : place? (parts 0) = some (toLex (0, toLex (0, 0))) := rfl
  rw [lt_iff, hzero]
  rintro ⟨a, ha, b, hb, hab⟩
  obtain rfl := Option.mem_some_iff.mp hb
  rw [Unsigned] at h
  cases hparts : parts x with
  | notANumber =>
    rw [hparts] at ha
    cases ha
  | zero s =>
    rw [hparts] at ha
    obtain rfl := Option.mem_some_iff.mp ha
    exact lt_irrefl _ hab
  | infinity s | finite s _ _ _ =>
    rw [hparts] at ha h
    cases s with
    | negative => exact h rfl
    | positive =>
      obtain rfl := Option.mem_some_iff.mp ha
      exact absurd hab (by rw [Prod.Lex.lt_iff]; simp [Sign.apply])

/-- An absolute value has no minus sign. -/
lemma unsigned_abs (x : Float) : Unsigned x.abs := by
  refine unsigned_ofParts (u := (parts x).abs) ?_
  cases parts x <;> exact nofun

/-- Rounding keeps the sign. -/
lemma sign?_roundWithAccuracy (s : Sign) (m : Nat) (e : Int)
    (accuracy : Float.Model.UnpackedFloat.Accuracy) :
    sign? (UnpackedFloat.roundWithAccuracy .binary64 s m e accuracy) = some s := by
  rw [UnpackedFloat.roundWithAccuracy]
  dsimp only
  split <;> rfl

/-- A quotient that is a number has the quotient of the signs. -/
lemma sign?_div (u v : UnpackedFloat) :
    sign? (UnpackedFloat.div .binary64 u v) = none ∨
      ∃ s t, sign? u = some s ∧ sign? v = some t ∧
        sign? (UnpackedFloat.div .binary64 u v) = some (s / t) := by
  cases u <;> cases v
  case finite.finite => exact .inr ⟨_, _, rfl, rfl, sign?_roundWithAccuracy _ _ _ _⟩
  all_goals first
    | exact .inl rfl
    | exact .inr ⟨_, _, rfl, rfl, rfl⟩

/-- A quotient of numbers without minus signs has none. -/
lemma unsigned_div {x y : Float} (hx : Unsigned x) (hy : Unsigned y) : Unsigned (x / y) := by
  refine unsigned_ofParts (u := UnpackedFloat.div .binary64 (parts x) (parts y)) fun h => ?_
  rcases sign?_div (parts x) (parts y) with hnone | ⟨s, t, hs, ht, hst⟩
  · rw [hnone] at h
    cases h
  · cases s with
    | negative => exact hx hs
    | positive =>
      cases t with
      | negative => exact hy ht
      | positive =>
        rw [hst] at h
        cases h

/-- A length has no minus sign. -/
lemma unsigned_hypotenuse (x y : Float) : Unsigned (Hypotenuse.hypotenuse x y) := by
  rw [Hypotenuse.hypotenuse]
  split
  · exact unsigned_ofParts fun h => by cases h
  · split
    · next m e n f _ _ =>
      refine unsigned_ofParts (u := Hypotenuse.root _ _) ?_
      rw [Hypotenuse.root]
      split
      · rw [UnpackedFloat.sqrt, sign?_roundWithAccuracy]
        exact fun h => by cases h
      · exact fun h => by cases h
    · exact unsigned_ofParts fun h => by cases h

end Ohmic.Binary64
