import Ohmic.Parts.Part
import Ohmic.Proofs.Number.Errors
import Ohmic.Proofs.Search.Limit

set_option autoImplicit false

/-!
# The impedances of capacitors

The impedance of a capacitor is the reciprocal of its susceptance, turned by a right angle. A
catalogue refuses a capacitor by its susceptance, while a search refuses an impedance that is not
finite. In double precision the two are not the same: the reciprocal of a very small susceptance is
infinite.

## Main definitions

* `Binary64.reciprocalBound` — the largest double with an infinite reciprocal.
* `Catalog.susceptances` — the susceptances of the values of a catalogue as capacitors.
* `Part.Conducts` — a susceptance that is not refused.

## Main results

* `Binary64.isFinite_neg_one_div_iff` — which doubles have a finite reciprocal.
* `Catalog.impedances_capacitor_eq_ok_iff`, `Catalog.impedances_capacitor_eq_error_iff` — the
  impedances of a catalogue of capacitors, or the refusal of the first one without.
* `Search.exists_alphabetValue_iff` — which searches are refused for a value that is not finite.
* `Catalog.impedances_capacitor_rounded` — which catalogues of capacitors can be searched.
* `Catalog.impedances_capacitor_lost` — one that cannot, though no capacitor is refused.

## Implementation notes

A rounded quotient is known to be near to the exact one, which tells a finite result from an
infinite one wherever the exact quotient is not within the error of `2^1024`. Only one susceptance
and its opposite are left, and these are computed.
-/

namespace Ohmic

namespace Binary64

open Scalar (IsZero)
open Float.Model (UnpackedFloat)
open Float.Model.UnpackedFloat (Sign)

/-! ## Reciprocals -/

/-- The double `2^-1024`, the largest one with an infinite reciprocal. -/
def reciprocalBound : Float := Float.ofBits 0x0004000000000000

/-- Its parts. -/
lemma parts_reciprocalBound :
    parts reciprocalBound = .finite .positive (2 ^ 50) (-1074) (Nat.two_pow_pos 50) := rfl

/-- It is finite. -/
lemma isFinite_reciprocalBound : reciprocalBound.isFinite = true :=
  congrArg UnpackedFloat.isFinite parts_reciprocalBound

/-- The number that it stands for. -/
lemma value_reciprocalBound : value reciprocalBound = 2 ^ (-1024 : ℤ) := by
  rw [value_of_parts parts_reciprocalBound, Sign.apply,
    (by norm_num : (-1024 : ℤ) = 50 + -1074), zpow_add₀ two_ne_zero]
  norm_num

/-- A finite double other than zero does not stand for zero. -/
lemma value_ne_zero {b : Float} (hb : b.isFinite = true) (hzero : ¬ IsZero b) : value b ≠ 0 := by
  obtain ⟨s, m, e, hm, hs⟩ := parts_of_not_isZero hb hzero
  rw [value_of_parts hs]
  refine mul_ne_zero (Int.cast_ne_zero.mpr ?_) (zpow_pos' e).ne'
  cases s <;> simp only [Sign.apply] <;> omega

/-- It and its opposite are the only doubles of their size.

**Proof sketch.** A double of this size has the least exponent, since a mantissa with all its bits
would make it larger. Then its mantissa is `2 ^ 50`, and a double is determined by its parts. -/
lemma eq_of_abs_value_eq {b : Float} (hb : b.isFinite = true)
    (h : |value b| = 2 ^ (-1024 : ℤ)) : b = reciprocalBound ∨ b = -reciprocalBound := by
  have hbound := h
  rw [← value_reciprocalBound, value_of_parts parts_reciprocalBound, Sign.apply] at hbound
  rcases parts_of_isFinite hb with ⟨s, hs⟩ | ⟨s, m, e, hm, hs⟩
  · rw [value, hs, rational, abs_zero] at h
    exact absurd h (zpow_pos' _).ne
  · have hcanonical := canonical_parts b
    rw [hs] at hcanonical
    obtain ⟨-, hleast, -, hfull⟩ := hcanonical
    have hsize : |value b| = m * 2 ^ e := by
      rw [value_of_parts hs, abs_mul, abs_of_pos (zpow_pos' e)]
      cases s <;> simp [Sign.apply]
    rw [hsize] at hbound
    obtain rfl : e = -1074 := by
      refine hfull.resolve_left fun hfull => ?_
      have hless : ((2 ^ 50 : ℕ) : ℚ) * 2 ^ (-1074 : ℤ) < m * 2 ^ e :=
        mul_zpow_lt (by norm_num) (.inl hfull) le_rfl (by omega)
      rw [hbound] at hless
      exact absurd hless (by rw [Int.cast_natCast]; exact lt_irrefl _)
    have hmantissa : (m : ℚ) = (2 ^ 50 : ℕ) :=
      mul_right_cancel₀ (zpow_pos' (-1074)).ne' (by exact_mod_cast hbound)
    obtain rfl : m = 2 ^ 50 := by exact_mod_cast hmantissa
    have hbits : b = ofParts (.finite s (2 ^ 50) (-1074) hm) := by rw [← hs, ofParts_parts]
    cases s with
    | positive => exact .inl (hbits.trans (ofParts_parts reciprocalBound))
    | negative =>
      right
      rw [hbits, ← ofParts_parts (-reciprocalBound), parts_neg, parts_reciprocalBound]
      rfl

/-- A number that is too large for a double, even if it is made less by the relative error of
rounding, is not rounded to a finite one.

**Proof sketch.** A number of this size has a relative error only. So a finite result would be at
least the number less this error, which is too large for a finite double (`abs_value_lt`). -/
lemma Rounds.not_isFinite {q : ℚ} {x : Float} (h : Rounds q x)
    (hq : 2 ^ (1024 : ℤ) ≤ |q| * (1 - 1 / 2 ^ 53)) : ¬ x.isFinite = true := by
  intro hx
  have hlarge : 2 ^ (1024 : ℤ) ≤ |q| :=
    hq.trans (mul_le_of_le_one_right (abs_nonneg q) (by norm_num))
  have hleast : (2 : ℚ) ^ (-1074 : ℤ) ≤ 2 ^ (1024 : ℤ) / 2 ^ 53 := by
    rw [← zpow_natCast, ← zpow_sub₀ two_ne_zero]
    exact zpow_le (by norm_num)
  have hslip : (2 : ℚ) ^ (-1074 : ℤ) / 2 ≤ |q| / 2 ^ 53 :=
    calc (2 : ℚ) ^ (-1074 : ℤ) / 2 ≤ 2 ^ (-1074 : ℤ) := half_le_self (zpow_pos' _).le
      _ ≤ 2 ^ (1024 : ℤ) / 2 ^ 53 := hleast
      _ ≤ |q| / 2 ^ 53 := div_le_div_of_nonneg_right hlarge (by norm_num)
  have herror : |value x - q| ≤ |q| / 2 ^ 53 := (h.error hx).elim id hslip.trans'
  have hdifference := abs_sub_abs_le_abs_sub q (value x)
  rw [abs_sub_comm] at hdifference
  have hlt := abs_value_lt hx
  generalize (2 : ℚ) ^ (1024 : ℤ) = ceiling at hq hlt
  linarith

/-- The size of a finite double is a multiple of the least double. -/
lemma exists_abs_value_eq_mul {b : Float} (hb : b.isFinite = true) :
    ∃ k : ℕ, |value b| = k * 2 ^ (-1074 : ℤ) := by
  obtain ⟨i, hi⟩ := exists_value_eq_mul hb
  exact ⟨i.natAbs, by
    rw [hi, abs_mul, abs_of_pos (zpow_pos' _), Nat.cast_natAbs, Int.cast_abs]⟩

/-- **The reciprocal of a double** other than zero is finite exactly if the size of the double is
above `2^-1024`.

**Proof sketch.** The size is a multiple of the least double. If it is above `2^-1024`, it is so by
the least double at least, and the reciprocal is not above the largest double. If it is below, the
reciprocal is above `2^1024` by more than the error of rounding. The reciprocal of `2^-1024` itself
is rounded to infinity. -/
theorem isFinite_neg_one_div_iff {b : Float} (hb : b.isFinite = true) (hzero : ¬ IsZero b) :
    (-1 / b).isFinite = true ↔ 2 ^ (-1024 : ℤ) < |value b| := by
  have hone : (-1 : Float).isFinite = true := by rw [isFinite_neg, isFinite_one]
  have hrounds : Rounds (-1 / value b) (-1 / b) := by
    have hquotient := rounds_div hone hb hzero
    rwa [value_neg, value_one] at hquotient
  have hpos : 0 < |value b| := abs_pos.mpr (value_ne_zero hb hzero)
  have hsize : |(-1 : ℚ) / value b| = 1 / |value b| := by rw [abs_div, abs_neg, abs_one]
  obtain ⟨k, hk⟩ := exists_abs_value_eq_mul hb
  have hbound : (2 : ℚ) ^ (-1024 : ℤ) = 2 ^ 50 * 2 ^ (-1074 : ℤ) := by
    rw [(by norm_num : (-1024 : ℤ) = 50 + -1074), zpow_add₀ two_ne_zero]
    norm_num
  have hceiling : (2 : ℚ) ^ (1024 : ℤ) * 2 ^ (-1074 : ℤ) = 1 / 2 ^ 50 := by
    rw [← zpow_add₀ two_ne_zero]
    norm_num
  rcases lt_trichotomy |value b| (2 ^ (-1024 : ℤ)) with hless | hequal | hgreater
  · refine iff_of_false (hrounds.not_isFinite ?_) hless.not_gt
    rw [hk, hbound] at hless
    have hmultiple : k < 2 ^ 50 := by
      exact_mod_cast lt_of_mul_lt_mul_right hless (zpow_pos' _).le
    have hmost : (k : ℚ) + 1 ≤ 2 ^ 50 := by exact_mod_cast hmultiple
    rw [hsize, one_div_mul_eq_div, le_div_iff₀ hpos, hk, mul_left_comm, hceiling]
    linarith
  · refine iff_of_false ?_ hequal.not_gt
    rcases eq_of_abs_value_eq hb hequal with rfl | rfl <;> decide +kernel
  · refine iff_of_true (hrounds.isFinite ?_) hgreater
    rw [hk, hbound] at hgreater
    have hmultiple : 2 ^ 50 < k := by
      exact_mod_cast lt_of_mul_lt_mul_right hgreater (zpow_pos' _).le
    have hleast : (2 : ℚ) ^ 50 + 1 ≤ k := by exact_mod_cast hmultiple
    have hrange : |(-1 : ℚ) / value b| ≤ value largest := by
      rw [hsize, value_largest_eq, div_le_iff₀ hpos, hk, mul_mul_mul_comm, hceiling]
      linarith
    exact_mod_cast hrange

end Binary64

/-! ## Catalogues of capacitors -/

/-- A function that refuses some elements of a list refuses the first of them, and else has a value
for each element. -/
lemma mapM_ite_eq {ε α β : Type} (p : α → Bool) (g : α → β) (e : α → ε) (xs : List α) :
    xs.mapM (fun a => if p a then Except.error (e a) else .ok (g a)) =
      (xs.find? p).elim (.ok (xs.map g)) fun a => .error (e a) := by
  induction xs with
  | nil => rfl
  | cons a xs ih =>
    rw [List.mapM_cons, ih, List.find?_cons]
    cases p a with
    | true => rfl
    | false => cases xs.find? p <;> rfl

section

variable {S : Type} [Scalar S]

namespace Part

/-- The test by which a capacitor is refused. -/
def isOpen (susceptance : S) : Bool := susceptance == 0 || !Scalar.isFinite susceptance

/-- A susceptance that is not refused: neither zero, nor infinite, nor undefined. -/
def Conducts (susceptance : S) : Prop :=
  Scalar.isFinite susceptance = true ∧ ¬ Scalar.IsZero susceptance

/-- What is refused does not conduct. -/
lemma isOpen_iff {b : S} : isOpen b = true ↔ ¬ Conducts b := by
  rw [isOpen, Conducts, Scalar.IsZero]
  cases b == 0 <;> cases Scalar.isFinite b <;> decide

end Part

namespace Catalog

/-- The susceptances of the values of a catalogue as capacitors, in catalogue order. -/
def susceptances (c : Catalog S) (omega : S) : List S := c.magnitudes.map fun value => omega * value

/-- Capacitors are handled one after the other, up to the first one that is refused. -/
lemma impedances_capacitor_eq (c : Catalog S) (omega : S) :
    c.impedances .capacitor omega =
      (c.magnitudes.find? fun v => Part.isOpen (omega * v)).elim
        (.ok ((c.susceptances omega).map fun b => ⟨0, -1 / b⟩))
        fun v => .error (.openCapacitor v omega) := by
  rw [susceptances, List.map_map]
  exact mapM_ite_eq _ _ _ c.magnitudes

/-- **Capacitors that are not refused** have the reciprocals of their susceptances as impedances,
one for each value in catalogue order. -/
theorem impedances_capacitor_eq_ok_iff {c : Catalog S} {omega : S} {values : List (Phasor S)} :
    c.impedances .capacitor omega = .ok values ↔
      (∀ b ∈ c.susceptances omega, Part.Conducts b) ∧
        values = (c.susceptances omega).map fun b => ⟨0, -1 / b⟩ := by
  have hnone : (c.magnitudes.find? fun v => Part.isOpen (omega * v)) = none ↔
      ∀ b ∈ c.susceptances omega, Part.Conducts b := by
    rw [List.find?_eq_none, susceptances, List.forall_mem_map]
    simp only [Part.isOpen_iff, not_not]
  rw [impedances_capacitor_eq, ← hnone]
  cases c.magnitudes.find? fun v => Part.isOpen (omega * v) with
  | none => rw [Option.elim_none, Except.ok.injEq, eq_comm, and_iff_right rfl]
  | some v => exact iff_of_false (fun h => by cases h) fun h => by cases h.1

/-- **The first capacitor that is refused** is the one named.

**Proof sketch.** The error names what a search for the first open capacitor finds
(`impedances_capacitor_eq`), and such a search splits the magnitudes where it succeeds. -/
theorem impedances_capacitor_eq_error_iff {c : Catalog S} {omega : S} {reason : CatalogError S} :
    c.impedances .capacitor omega = .error reason ↔
      ∃ before v after, c.magnitudes = before ++ v :: after ∧
        (∀ w ∈ before, Part.Conducts (omega * w)) ∧ ¬ Part.Conducts (omega * v) ∧
        reason = .openCapacitor v omega := by
  have hsome : ∀ v, (c.magnitudes.find? fun v => Part.isOpen (omega * v)) = some v ↔
      ¬ Part.Conducts (omega * v) ∧ ∃ before after,
        c.magnitudes = before ++ v :: after ∧ ∀ w ∈ before, Part.Conducts (omega * w) := by
    intro v
    simp only [List.find?_eq_some_iff_append, Part.isOpen_iff, Bool.not_eq_true',
      ← Bool.not_eq_true, not_not]
  have herror : c.impedances .capacitor omega = .error reason ↔
      ∃ v, (c.magnitudes.find? fun v => Part.isOpen (omega * v)) = some v ∧
        reason = .openCapacitor v omega := by
    rw [impedances_capacitor_eq]
    cases c.magnitudes.find? fun v => Part.isOpen (omega * v) with
    | none =>
      refine iff_of_false (fun h => by cases h) ?_
      rintro ⟨v, h, -⟩
      cases h
    | some v =>
      simp only [Option.elim_some, Except.error.injEq, Option.some.injEq, eq_comm,
        exists_eq_left']
  rw [herror]
  simp only [hsome]
  constructor
  · rintro ⟨v, ⟨hv, before, after, hsplit, hbefore⟩, rfl⟩
    exact ⟨before, v, after, hsplit, hbefore, hv, rfl⟩
  · rintro ⟨before, v, after, hsplit, hbefore, hv, rfl⟩
    exact ⟨v, ⟨hv, before, after, hsplit, hbefore⟩, rfl⟩

end Catalog

end

/-! ## Refused searches -/

section

variable {S Z : Type} [Scalar S] [Impedance S Z]

/-- The settings are not refused for a value to build with. -/
lemma Settings.check_ne_alphabetValue (s : Settings S Z) (z : Z) :
    s.check ≠ .error (.alphabetValue z) := by
  unfold check
  split
  · exact fun h => by cases h
  split
  · exact fun h => by cases h
  split
  · exact fun h => by cases h
  split <;> exact fun h => by cases h

omit [Scalar S] in
/-- Values are refused if one of them is not finite, and only then are they refused for a value.

**Proof sketch.** The value that is named was found among the values as one that is not finite.
Conversely, a value that is not finite makes the check fail, and it is not the failure of an empty
alphabet. -/
lemma Settings.exists_checkAlphabet_iff {alphabet : List Z} :
    (∃ z, checkAlphabet (S := S) alphabet = .error (.alphabetValue z)) ↔
      ∃ z ∈ alphabet, Impedance.isFinite z = false := by
  constructor
  · rintro ⟨z, h⟩
    rw [checkAlphabet] at h
    split at h
    · cases h
    split at h
    · next z' hfind =>
      have hbad := List.find?_some hfind
      rw [Bool.not_eq_true'] at hbad
      exact ⟨z', List.mem_of_find?_eq_some hfind, hbad⟩
    · cases h
  · rintro ⟨z, hz, hfinite⟩
    cases hcheck : checkAlphabet (S := S) alphabet with
    | ok u =>
      have hgood := (checkAlphabet_eq_ok_iff.mp hcheck).2 z hz
      rw [hfinite] at hgood
      cases hgood
    | error reason =>
      rw [checkAlphabet] at hcheck
      split at hcheck
      · next hempty =>
        rw [List.isEmpty_iff.mp hempty] at hz
        cases hz
      split at hcheck
      · next z' _ => exact ⟨z', congrArg _ (Except.error.inj hcheck).symm⟩
      · cases hcheck

/-- **A search is refused for a value** to build with exactly if its settings are permitted and one
of the values is not finite.

**Proof sketch.** A search ends with a refusal only if its check fails, with the same reason. The
settings are checked first and never blame a value, so they are permitted if one is blamed, and the
values decide. -/
theorem Search.exists_alphabetValue_iff {s : Search S Z} {clock : Clock} :
    (∃ z, (s.run clock).outcome = .error (.settings (.alphabetValue z))) ↔
      s.settings.check = .ok () ∧ ∃ z ∈ s.alphabet, Impedance.isFinite z = false := by
  have hrefused : ∀ reason, (s.run clock).outcome = .error (.settings reason) ↔
      s.check = .error reason := by
    intro reason
    rw [run]
    split
    · next reason' hcheck => simp only [hcheck, Except.error.injEq, SearchError.settings.injEq]
    · next hcheck =>
      rw [hcheck]
      refine iff_of_false (fun h => ?_) fun h => by cases h
      split at h
      · cases h
      · rw [conclude] at h
        split at h <;> cases h
  simp only [hrefused, check, ← Settings.exists_checkAlphabet_iff (S := S)]
  cases hcheck : s.settings.check with
  | error reason =>
    refine iff_of_false ?_ fun h => by cases h.1
    rintro ⟨z, h⟩
    exact s.settings.check_ne_alphabetValue z (hcheck.trans h)
  | ok u => exact (and_iff_right rfl).symm

end

/-! ## Capacitors in double precision -/

namespace Catalog

open Binary64 hiding mul_one

/-- The impedance of a capacitor that is not refused is finite if the susceptance is large enough,
and only then. -/
lemma isFinite_iff_of_conducts {b : Float} (h : Part.Conducts b) :
    Impedance.isFinite (⟨0, -1 / b⟩ : Phasor Float) = true ↔ 2 ^ (-1024 : ℤ) < |value b| := by
  have hzero : Scalar.isFinite (0 : Float) = true := isFinite_zero
  simp only [Impedance.isFinite, Phasor.isFinite, hzero, Bool.true_and]
  exact isFinite_neg_one_div_iff h.1 h.2

/-- **Capacitors in double precision.** Take any catalogue and any angular frequency.

* The impedances of the values as capacitors are all there is to return if every susceptance is
  finite and not zero: one for each value, in catalogue order.
* If a susceptance is not, the first such capacitor is refused.
* Impedances that are returned need not be finite. They are exactly if every susceptance has a size
  above `2^-1024`.
* A search with these impedances is refused for one of them exactly if its settings are permitted
  and the size of a susceptance is not above that.

**Proof sketch.** The reciprocal of a double is finite exactly if the double has a size above
`2^-1024` (`Binary64.isFinite_neg_one_div_iff`), and a search that is not refused for its settings
is refused for the first value that is not finite (`Search.exists_alphabetValue_iff`). -/
theorem impedances_capacitor_rounded (c : Catalog Float) (omega : Float) :
    (∀ values, c.impedances .capacitor omega = .ok values ↔
      (∀ b ∈ c.susceptances omega, Part.Conducts b) ∧
        values = (c.susceptances omega).map fun b => ⟨0, -1 / b⟩) ∧
    (∀ reason, c.impedances .capacitor omega = .error reason ↔
      ∃ before v after, c.magnitudes = before ++ v :: after ∧
        (∀ w ∈ before, Part.Conducts (omega * w)) ∧ ¬ Part.Conducts (omega * v) ∧
        reason = .openCapacitor v omega) ∧
    ∀ values, c.impedances .capacitor omega = .ok values →
      ((∀ z ∈ values, Impedance.isFinite z = true) ↔
        ∀ b ∈ c.susceptances omega, 2 ^ (-1024 : ℤ) < |value b|) ∧
      ∀ (settings : Settings Float (Phasor Float)) (clock : Clock),
        (∃ z, (Search.run ⟨values, settings⟩ clock).outcome =
            .error (.settings (.alphabetValue z))) ↔
          settings.check = .ok () ∧
            ∃ b ∈ c.susceptances omega, |value b| ≤ 2 ^ (-1024 : ℤ) := by
  refine ⟨fun values => impedances_capacitor_eq_ok_iff,
    fun reason => impedances_capacitor_eq_error_iff, fun values hok => ?_⟩
  obtain ⟨hconducts, rfl⟩ := impedances_capacitor_eq_ok_iff.mp hok
  refine ⟨?_, fun settings clock => ?_⟩
  · rw [List.forall_mem_map]
    exact forall₂_congr fun b hb => isFinite_iff_of_conducts (hconducts b hb)
  · rw [Search.exists_alphabetValue_iff]
    refine and_congr_right fun _ => ?_
    simp only [List.mem_map, exists_exists_and_eq_and]
    refine exists_congr fun b => and_congr_right fun hb => ?_
    rw [← Bool.not_eq_true, isFinite_iff_of_conducts (hconducts b hb), not_lt]

/-- Two farads at `2^-1024` radians a second have a susceptance of `2^-1023`, and an impedance. -/
theorem impedances_capacitor_rounded_two_farads :
    let c : Catalog Float := ⟨[⟨2, 0, 2⟩]⟩
    let values : List (Phasor Float) := [⟨0, -1 / (reciprocalBound * 2)⟩]
    c.impedances .capacitor reciprocalBound = .ok values ∧
      (∀ z ∈ values, Impedance.isFinite z = true) ∧
      ∀ (settings : Settings Float (Phasor Float)) (clock : Clock) (z : Phasor Float),
        (Search.run ⟨values, settings⟩ clock).outcome ≠
          .error (.settings (.alphabetValue z)) := by
  intro c values
  obtain ⟨hok, -, hsearch⟩ := impedances_capacitor_rounded c reciprocalBound
  have hconducts : Part.Conducts (reciprocalBound * 2) :=
    ⟨by decide +kernel, by unfold Scalar.IsZero; decide +kernel⟩
  have hvalues : c.impedances .capacitor reciprocalBound = .ok values :=
    (hok values).mpr ⟨List.forall_mem_singleton.mpr hconducts, rfl⟩
  have hfinite : ∀ z ∈ values, Impedance.isFinite z = true :=
    List.forall_mem_singleton.mpr (by decide +kernel)
  have hlarge := (hsearch values hvalues).1.mp hfinite
  refine ⟨hvalues, hfinite, fun settings clock z hz => ?_⟩
  obtain ⟨-, b, hb, hsmall⟩ := ((hsearch values hvalues).2 settings clock).mp ⟨z, hz⟩
  exact hsmall.not_gt (hlarge b hb)

/-- **One farad is lost** at the same angular frequency: its susceptance is not zero, but its
impedance is infinite. The catalogue does not refuse it, and the search does.

**Proof sketch.** The only susceptance is the reciprocal bound itself, which conducts, so the
catalogue gives the impedance as it is. It is not finite, and the other settings are permitted, so
the search is refused for this value. -/
theorem impedances_capacitor_lost :
    ∃ c : Catalog Float, ofSignificands [1] 1 1 = .ok c ∧
      c.impedances .capacitor reciprocalBound = .ok [⟨0, -1 / reciprocalBound⟩] ∧
      Impedance.isFinite (⟨0, -1 / reciprocalBound⟩ : Phasor Float) = false ∧
      ∃ z, (Search.run ⟨[⟨0, -1 / reciprocalBound⟩], Settings.of (⟨1, 0⟩ : Phasor Float)
        (.relative 0.01) 1⟩ Clock.still).outcome = .error (.settings (.alphabetValue z)) := by
  have hcatalog : (ofSignificands (S := Float) [1] 1 1).toOption.map magnitudes = some [1] := by
    decide +kernel
  have hconducts : Part.Conducts reciprocalBound :=
    ⟨isFinite_reciprocalBound, by unfold Scalar.IsZero; decide +kernel⟩
  have hinfinite : Impedance.isFinite (⟨0, -1 / reciprocalBound⟩ : Phasor Float) = false := by
    decide +kernel
  have hpermitted : (Settings.of (⟨1, 0⟩ : Phasor Float) (.relative (0.01 : Float)) 1).check =
      .ok () := by decide +kernel
  cases hbuilt : ofSignificands (S := Float) [1] 1 1 with
  | error reason =>
    rw [hbuilt] at hcatalog
    cases hcatalog
  | ok c =>
    rw [hbuilt] at hcatalog
    have hmagnitudes : c.magnitudes = [1] := Option.some.inj hcatalog
    have hsusceptances : c.susceptances reciprocalBound = [reciprocalBound] := by
      rw [susceptances, hmagnitudes]
      exact congrArg (fun b => [b]) (Binary64.mul_one reciprocalBound)
    refine ⟨c, rfl, impedances_capacitor_eq_ok_iff.mpr ⟨?_, ?_⟩, hinfinite,
      Search.exists_alphabetValue_iff.mpr ⟨hpermitted, _, List.mem_singleton_self _, hinfinite⟩⟩
    · rw [hsusceptances]
      exact List.forall_mem_singleton.mpr hconducts
    · rw [hsusceptances]
      rfl

end Catalog

end Ohmic
