import Mathlib.Algebra.Order.Ring.Rat
import Mathlib.Data.List.Destutter
import Mathlib.Tactic.Lemma
import Ohmic.Parts.Catalog

set_option autoImplicit false

/-!
# The order of a catalogue

The values of a catalogue are sorted, and of equal ones the first is kept. What is left is strictly
ascending, and for every value that was sorted there is one of its magnitude.

## Main definitions

* `Scalar.Reading` — finite scalars stand for rational numbers, in the order of these.
* `Catalog.Admissible` — the tables and ranges that are not refused.

## Main results

* `Catalog.dropRepeats_eq_destutter` — what is left of values when the repeated ones are dropped.
* `Catalog.exists_mem_inOrder` — every value keeps one of its magnitude.
* `Catalog.pairwise_inOrder` — the values that are left are strictly ascending.
* `Catalog.of_mem_entries`, `Catalog.exists_mem_entries` — what is in the catalogue of a table.
* `Catalog.ofSignificands_eq_ok_iff` — when there is a catalogue of a table.

## Implementation notes

Nothing is assumed of the operations of the scalars, so a reading says nothing on how a magnitude is
computed. The total order by which values are sorted need not tell more than the numbers where these
are positive.
-/

namespace Ohmic

/-! ## Scalars as rational numbers -/

/-- **A reading of scalars**: finite scalars stand for rational numbers, and are compared as these
are. What lies between finite scalars is finite. -/
structure Scalar.Reading {S : Type} [Scalar S] (read : S → ℚ) : Prop where
  /-- Zero is finite. -/
  isFinite_zero : isFinite (0 : S) = true
  /-- Zero stands for zero. -/
  read_zero : read 0 = 0
  /-- Strict comparison is that of the numbers. -/
  lt_iff : ∀ {x y : S}, isFinite x = true → isFinite y = true → (x < y ↔ read x < read y)
  /-- Comparison is that of the numbers. -/
  le_iff : ∀ {x y : S}, isFinite x = true → isFinite y = true → (x ≤ y ↔ read x ≤ read y)
  /-- Scalars are equal if the numbers are. -/
  beq_iff : ∀ {x y : S}, isFinite x = true → isFinite y = true →
    ((x == y) = true ↔ read x = read y)
  /-- Positive scalars are sorted like the numbers. -/
  isLE_rank_iff : ∀ {x y : S}, isFinite x = true → isFinite y = true → 0 < read x → 0 < read y →
    ((rank x y).isLE = true ↔ read x ≤ read y)
  /-- What lies between finite scalars is finite. -/
  isFinite_of_le_of_le : ∀ {x y z : S}, isFinite x = true → isFinite z = true → x ≤ y → y ≤ z →
    isFinite y = true

namespace Catalog

/-! ## Dropping repeated values -/

/-- Every element of a list has one that is kept when the list is gone through: itself, or one that
it is not set apart from.

**Proof sketch.** By induction on the list. An element that is dropped is not set apart from the one
kept before it, and that one stays in the list. -/
lemma exists_mem_destutter' {α : Type} {R : α → α → Prop} [DecidableRel R] {a b : α} {l : List α}
    (h : b ∈ a :: l) : ∃ c ∈ l.destutter' R a, b = c ∨ ¬ R c b := by
  induction l generalizing a with
  | nil => exact ⟨b, h, .inl rfl⟩
  | cons d l ih =>
    by_cases hd : R a d
    · rw [List.destutter'_cons_pos l hd]
      rcases List.mem_cons.mp h with rfl | hrest
      · exact ⟨b, List.mem_cons_self, .inl rfl⟩
      · obtain ⟨c, hc, hbc⟩ := ih hrest
        exact ⟨c, List.mem_cons_of_mem a hc, hbc⟩
    · rw [List.destutter'_cons_neg l hd]
      rcases List.mem_cons.mp h with rfl | hrest
      · exact ih List.mem_cons_self
      · rcases List.mem_cons.mp hrest with rfl | hrest
        · exact ⟨a, List.mem_destutter' l R a, .inr hd⟩
        · exact ih (List.mem_cons_of_mem a hrest)

variable {S : Type} [Scalar S] {read : S → ℚ}

/-- The magnitude of a value is not equal to that of the last one kept. -/
def Differs (last v : StandardValue S) : Prop := (v.magnitude == last.magnitude) = false

/-- Whether magnitudes are different can be decided. -/
instance instDecidableRelDiffers : DecidableRel (Differs (S := S)) := fun last v =>
  inferInstanceAs (Decidable ((v.magnitude == last.magnitude) = false))

/-- Values that are collected in front of the earlier ones, each if it differs from the last one
kept. -/
lemma foldl_eq_destutter' {keep : List (StandardValue S) → StandardValue S → List (StandardValue S)}
    (hkeep : ∀ last earlier v, keep (last :: earlier) v =
      if v.magnitude == last.magnitude then last :: earlier else v :: last :: earlier)
    (last : StandardValue S) (earlier rest : List (StandardValue S)) :
    (rest.foldl keep (last :: earlier)).reverse =
      earlier.reverse ++ rest.destutter' Differs last := by
  induction rest generalizing last earlier with
  | nil => rw [List.foldl_nil, List.reverse_cons, List.destutter'_nil]
  | cons v rest ih =>
    rw [List.foldl_cons, hkeep]
    by_cases hv : Differs last v
    · rw [if_neg (by rw [hv]; exact Bool.false_ne_true), ih, List.destutter'_cons_pos rest hv,
        List.reverse_cons, List.append_assoc]
      rfl
    · rw [if_pos (eq_true_of_ne_false hv), ih, List.destutter'_cons_neg rest hv]

/-- **Dropping repeated values** keeps the first value, and then each one that differs from the last
one kept. -/
lemma dropRepeats_eq_destutter (values : List (StandardValue S)) :
    dropRepeats values = values.destutter Differs := by
  cases values with
  | nil => rfl
  | cons v rest => exact foldl_eq_destutter' (fun _ _ _ => rfl) v [] rest

/-! ## Values in order -/

/-- The values in order are some of the values. -/
lemma mem_of_mem_inOrder {values : List (StandardValue S)} {v : StandardValue S}
    (h : v ∈ inOrder values) : v ∈ values := by
  rw [inOrder, dropRepeats_eq_destutter] at h
  exact List.mem_mergeSort.mp ((List.destutter_sublist Differs _).mem h)

/-- **Every value** is among the values in order, or one of its magnitude is. -/
lemma exists_mem_inOrder {values : List (StandardValue S)} {v : StandardValue S} (h : v ∈ values) :
    ∃ w ∈ inOrder values, v = w ∨ (v.magnitude == w.magnitude) = true := by
  rw [inOrder, dropRepeats_eq_destutter]
  have hsorted : v ∈ values.mergeSort fun a b => (Scalar.rank a.magnitude b.magnitude).isLE :=
    List.mem_mergeSort.mpr h
  revert hsorted
  generalize values.mergeSort _ = sorted
  intro hsorted
  cases sorted with
  | nil => cases hsorted
  | cons first rest =>
    rw [List.destutter_cons']
    obtain ⟨w, hw, heq⟩ := exists_mem_destutter' (R := Differs) hsorted
    exact ⟨w, hw, heq.imp_right eq_true_of_ne_false⟩

/-- **The values in order** are strictly ascending.

**Proof sketch.** Sorting puts the values in the total order, which for positive ones is that of
their numbers, and dropping repeats keeps a part of that list in which neighbours differ. So
neighbours ascend strictly, and by transitivity all values do. -/
theorem pairwise_inOrder [Std.TransCmp (Scalar.rank (S := S))] (hread : Scalar.Reading read)
    {values : List (StandardValue S)}
    (h : ∀ v ∈ values, Scalar.isFinite v.magnitude = true ∧ 0 < read v.magnitude) :
    (inOrder values).Pairwise fun v w => read v.magnitude < read w.magnitude := by
  have hmem : ∀ v ∈ inOrder values, Scalar.isFinite v.magnitude = true ∧ 0 < read v.magnitude :=
    fun v hv => h v (mem_of_mem_inOrder hv)
  have hranked : (inOrder values).Pairwise fun v w =>
      (Scalar.rank v.magnitude w.magnitude).isLE = true := by
    rw [inOrder, dropRepeats_eq_destutter]
    refine List.Pairwise.sublist (List.destutter_sublist Differs _)
      (List.pairwise_mergeSort (fun u v w => ?_) (fun v w => ?_) values)
    · exact Std.TransCmp.isLE_trans
    · have hswap : Scalar.rank w.magnitude v.magnitude =
          (Scalar.rank v.magnitude w.magnitude).swap := Std.OrientedCmp.eq_swap
      rw [hswap, Bool.or_eq_true]
      cases Scalar.rank v.magnitude w.magnitude <;> decide
  have hchain : (inOrder values).IsChain Differs := by
    rw [inOrder, dropRepeats_eq_destutter]
    exact List.isChain_destutter Differs _
  -- neighbours are in order and different, which makes all of them ascending
  have hneighbours : (inOrder values).IsChain fun v w => read v.magnitude < read w.magnitude := by
    rw [List.isChain_iff_getElem] at hchain ⊢
    intro i hi
    obtain ⟨hfinite, hpos⟩ := hmem _ (List.getElem_mem (Nat.lt_of_succ_lt hi))
    obtain ⟨hfinite', hpos'⟩ := hmem _ (List.getElem_mem hi)
    have hle := (hread.isLE_rank_iff hfinite hfinite' hpos hpos').mp
      (List.pairwise_iff_getElem.mp hranked i (i + 1) _ hi (Nat.lt_succ_self i))
    refine lt_of_le_of_ne hle fun heq => ?_
    have hsame := (hread.beq_iff hfinite' hfinite).mpr heq.symm
    rw [hchain i hi] at hsame
    cases hsame
  have : IsTrans (StandardValue S) fun v w => read v.magnitude < read w.magnitude :=
    ⟨fun _ _ _ => lt_trans⟩
  exact hneighbours.pairwise

/-! ## The catalogue of a table -/

/-- The integers between two bounds. -/
lemma mem_exponents {first last e : ℤ} : e ∈ exponents first last ↔ first ≤ e ∧ e ≤ last := by
  simp only [exponents, List.mem_map, List.mem_range]
  constructor
  · rintro ⟨i, hi, rfl⟩
    omega
  · rintro ⟨hfirst, hlast⟩
    exact ⟨(e - first).toNat, by omega, by omega⟩

variable [DecimalScale S] {table : List UInt16} {low high : S}

/-- **What is in the catalogue of a table**: standard values with a significand of the table, in the
range. -/
lemma of_mem_entries {v : StandardValue S} (h : v ∈ (replicate table low high).entries) :
    ∃ s ∈ table, ∃ e : ℤ, v = StandardValue.of s e ∧ low ≤ v.magnitude ∧ v.magnitude ≤ high := by
  obtain ⟨hmem, hrange⟩ := List.mem_filter.mp (mem_of_mem_inOrder h)
  obtain ⟨e, -, hmap⟩ := List.mem_flatMap.mp hmem
  obtain ⟨s, hs, rfl⟩ := List.mem_map.mp hmap
  rw [inRange, Bool.and_eq_true, decide_eq_true_eq, decide_eq_true_eq] at hrange
  exact ⟨s, hs, e, rfl, hrange⟩

/-- **Every standard value** in the range whose exponent is tried is in the catalogue of a table, or
one of its magnitude is. -/
lemma exists_mem_entries {s : UInt16} {e : ℤ} (hs : s ∈ table)
    (hfirst : (exponentRange table low high).1 ≤ e) (hlast : e ≤ (exponentRange table low high).2)
    (hlow : low ≤ (StandardValue.of (S := S) s e).magnitude)
    (hhigh : (StandardValue.of (S := S) s e).magnitude ≤ high) :
    ∃ w ∈ (replicate table low high).entries, StandardValue.of s e = w ∨
      ((StandardValue.of (S := S) s e).magnitude == w.magnitude) = true := by
  refine exists_mem_inOrder (List.mem_filter.mpr ⟨List.mem_flatMap.mpr ⟨e, ?_, ?_⟩, ?_⟩)
  · exact mem_exponents.mpr ⟨hfirst, hlast⟩
  · exact List.mem_map.mpr ⟨s, hs, rfl⟩
  · rw [inRange, Bool.and_eq_true, decide_eq_true_eq, decide_eq_true_eq]
    exact ⟨hlow, hhigh⟩

omit [DecimalScale S] in
/-- **Tables and ranges that are not refused**: the range is one of positive finite magnitudes, and
the table has significands, none of which is zero. -/
structure Admissible (read : S → ℚ) (table : List UInt16) (low high : S) : Prop where
  /-- The lower end is finite. -/
  isFinite_low : Scalar.isFinite low = true
  /-- The upper end is finite. -/
  isFinite_high : Scalar.isFinite high = true
  /-- The lower end is positive. -/
  pos : 0 < read low
  /-- The lower end is not above the upper one. -/
  le : read low ≤ read high
  /-- There are significands. -/
  ne_nil : table ≠ []
  /-- None of them is zero. -/
  zero_notMem : (0 : UInt16) ∉ table

/-- **When there is a catalogue of a table**: table and range are not refused, and a value lies in
the range.

**Proof sketch.** The two tests of the range and the table, read as numbers, are the conditions of
an admissible request. What passes both is the catalogue, unless it has no entries. -/
theorem ofSignificands_eq_ok_iff (hread : Scalar.Reading read) {c : Catalog S} :
    ofSignificands table low high = .ok c ↔ Admissible read table low high ∧
      (replicate table low high).entries ≠ [] ∧ replicate table low high = c := by
  have hrange : (!(Scalar.isFinite low && Scalar.isFinite high) || decide (low ≤ 0) ||
        decide (high < low)) = false ↔
      Scalar.isFinite low = true ∧ Scalar.isFinite high = true ∧ 0 < read low ∧
        read low ≤ read high := by
    simp only [Bool.or_eq_false_iff, Bool.not_eq_false', Bool.and_eq_true, decide_eq_false_iff_not,
      and_assoc]
    refine and_congr_right fun hlow => and_congr_right fun hhigh => ?_
    rw [hread.le_iff hlow hread.isFinite_zero, hread.lt_iff hhigh hlow, hread.read_zero, not_le,
      not_lt]
  have htable : (table.isEmpty || table.contains 0) = false ↔
      table ≠ [] ∧ (0 : UInt16) ∉ table := by
    rw [Bool.or_eq_false_iff, List.isEmpty_eq_false_iff, List.contains_eq_mem,
      decide_eq_false_iff_not]
  rw [ofSignificands]
  constructor
  · intro h
    split at h
    · cases h
    · next hvalid =>
      obtain ⟨hlow, hhigh, hpos, hle⟩ := hrange.mp (eq_false_of_ne_true hvalid)
      split at h
      · cases h
      · next hsome =>
        obtain ⟨hnil, hzero⟩ := htable.mp (eq_false_of_ne_true hsome)
        dsimp only at h
        split at h
        · cases h
        · next hentries =>
          exact ⟨⟨hlow, hhigh, hpos, hle, hnil, hzero⟩,
            fun hempty => hentries (List.isEmpty_iff.mpr hempty), Except.ok.inj h⟩
  · rintro ⟨hadmissible, hentries, rfl⟩
    rw [hrange.mpr ⟨hadmissible.isFinite_low, hadmissible.isFinite_high, hadmissible.pos,
      hadmissible.le⟩, htable.mpr ⟨hadmissible.ne_nil, hadmissible.zero_notMem⟩]
    simp only [Bool.false_eq_true, if_false, List.isEmpty_eq_false_iff.mpr hentries]

/-- The values of a catalogue of a table are finite and lie in the range. -/
lemma bounds_of_mem_entries (hread : Scalar.Reading read) (hlow : Scalar.isFinite low = true)
    (hhigh : Scalar.isFinite high = true) {v : StandardValue S}
    (h : v ∈ (replicate table low high).entries) :
    Scalar.isFinite v.magnitude = true ∧ read low ≤ read v.magnitude ∧
      read v.magnitude ≤ read high := by
  obtain ⟨-, -, -, -, hle, hge⟩ := of_mem_entries h
  have hfinite := hread.isFinite_of_le_of_le hlow hhigh hle hge
  exact ⟨hfinite, (hread.le_iff hlow hfinite).mp hle, (hread.le_iff hfinite hhigh).mp hge⟩

/-- **The values of a catalogue of a table** are strictly ascending. -/
theorem pairwise_replicate [Std.TransCmp (Scalar.rank (S := S))] (hread : Scalar.Reading read)
    (hlow : Scalar.isFinite low = true) (hhigh : Scalar.isFinite high = true)
    (hpos : 0 < read low) :
    (replicate table low high).entries.Pairwise fun v w => read v.magnitude < read w.magnitude := by
  refine pairwise_inOrder hread fun v hv => ?_
  have hrange := (List.mem_filter.mp hv).2
  rw [inRange, Bool.and_eq_true, decide_eq_true_eq, decide_eq_true_eq] at hrange
  have hfinite := hread.isFinite_of_le_of_le hlow hhigh hrange.1 hrange.2
  exact ⟨hfinite, hpos.trans_le ((hread.le_iff hlow hfinite).mp hrange.1)⟩

end Catalog

end Ohmic
