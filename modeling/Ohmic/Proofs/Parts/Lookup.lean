import Ohmic.Proofs.Parts.Rounded

set_option autoImplicit false

/-!
# The nearest value of a catalogue

Only the last value below a query and the first one that is not below it are compared. This is
enough because the values are ascending: any other value is farther away than one of these. Of two
values at equal distance the smaller one is found.

Distances are exact in the main statement. Where they are rounded, the value that is found is
nearest up to the errors of two differences.

## Main definitions

* `Catalog.Ascending` — finite, strictly ascending magnitudes.
* `Catalog.Found` — how a nearest value is found: at either end, or as one of two neighbours.
* `Catalog.map` — the same values with other magnitudes.

## Main results

* `Catalog.exists_found` — what is found, in any catalogue that is ascending.
* `Catalog.nearest?_exact`, `Catalog.nearest?_rounded` — how near that is, in exact arithmetic and
  in double precision.
* `Catalog.nearest?_optimal` — the catalogues that can be built.

## Implementation notes

The neighbours are found in the same way for all scalars, so what is said of them is proved from a
reading, and the two results on distances differ in the last comparison only.
-/

namespace Ohmic

open Binary64 hiding mul_one
open Float.Model.UnpackedFloat (Sign)

/-- The same significand and exponent with another magnitude. -/
def StandardValue.map {S T : Type} (f : S → T) (v : StandardValue S) : StandardValue T :=
  ⟨v.significand, v.exponent, f v.magnitude⟩

namespace Catalog

/-- The same values with other magnitudes. -/
def map {S T : Type} (f : S → T) (c : Catalog S) : Catalog T :=
  ⟨c.entries.map (StandardValue.map f)⟩

/-! ## Neighbours -/

/-- If what holds of an element holds of all earlier ones, it holds of none after the first of which
it does not hold. -/
lemma eq_false_of_mem_dropWhile {α : Type} {p : α → Bool} {l : List α}
    (h : l.Pairwise fun a b => p b = true → p a = true) {a : α} (ha : a ∈ l.dropWhile p) :
    p a = false := by
  induction l with
  | nil => cases ha
  | cons b l ih =>
    obtain ⟨hfirst, hrest⟩ := List.pairwise_cons.mp h
    by_cases hb : p b = true
    · rw [List.dropWhile_cons_of_pos hb] at ha
      exact ih hrest ha
    · rw [List.dropWhile_cons_of_neg hb] at ha
      rcases List.mem_cons.mp ha with rfl | hmem
      · exact eq_false_of_ne_true hb
      · exact eq_false_of_ne_true fun hpa => hb (hfirst a hmem hpa)

variable {S : Type} {read : S → ℚ}

/-- The last value of an ascending list is the largest one. -/
lemma le_of_pairwise_concat {values : List (StandardValue S)} {v w : StandardValue S}
    (h : (values ++ [v]).Pairwise fun v w => read v.magnitude < read w.magnitude)
    (hw : w ∈ values ++ [v]) : read w.magnitude ≤ read v.magnitude := by
  rcases List.mem_append.mp hw with hmem | hmem
  · exact ((List.pairwise_append.mp h).2.2 w hmem v (List.mem_singleton.mpr rfl)).le
  · rw [List.mem_singleton.mp hmem]

/-- The first value of an ascending list is the least one. -/
lemma le_of_pairwise_cons {values : List (StandardValue S)} {v w : StandardValue S}
    (h : (v :: values).Pairwise fun v w => read v.magnitude < read w.magnitude)
    (hw : w ∈ v :: values) : read v.magnitude ≤ read w.magnitude := by
  rcases List.mem_cons.mp hw with rfl | hmem
  · exact le_rfl
  · exact ((List.pairwise_cons.mp h).1 w hmem).le

/-- Two values with a query between them, and no other value there. -/
structure Neighbours (read : S → ℚ) (c : Catalog S) (x : S) (low high : StandardValue S) :
    Prop where
  /-- The lower one is below the query. -/
  lt : read low.magnitude < read x
  /-- The upper one is not below the query. -/
  le : read x ≤ read high.magnitude
  /-- There is no other value between them. -/
  apart : ∀ w ∈ c.entries, read w.magnitude ≤ read low.magnitude ∨
    read high.magnitude ≤ read w.magnitude

variable [Scalar S]
/-- **An ascending catalogue**: magnitudes are finite, and each of them is less than all that
follow. -/
structure Ascending (read : S → ℚ) (c : Catalog S) : Prop where
  /-- Magnitudes are finite. -/
  isFinite : ∀ v ∈ c.entries, Scalar.isFinite v.magnitude = true
  /-- Each of them is less than all that follow. -/
  pairwise : c.entries.Pairwise fun v w => read v.magnitude < read w.magnitude

/-- **How a nearest value is found**: all values are below the query, or none is, or the distances
from two neighbours are compared. -/
inductive Found (read : S → ℚ) (c : Catalog S) (x : S) : StandardValue S → Prop
  /-- All values are below the query, and the largest one is found. -/
  | largest {v : StandardValue S} (hlt : read v.magnitude < read x)
      (hmax : ∀ w ∈ c.entries, read w.magnitude ≤ read v.magnitude) : Found read c x v
  /-- No value is below the query, and the least one is found. -/
  | least {v : StandardValue S} (hle : read x ≤ read v.magnitude)
      (hmin : ∀ w ∈ c.entries, read v.magnitude ≤ read w.magnitude) : Found read c x v
  /-- The lower one of two neighbours is not farther away than the upper one. -/
  | lower {v high : StandardValue S} (hhigh : high ∈ c.entries) (h : Neighbours read c x v high)
      (hle : Scalar.abs (x - v.magnitude) ≤ Scalar.abs (high.magnitude - x)) : Found read c x v
  /-- The lower one of two neighbours is farther away than the upper one. -/
  | upper {low v : StandardValue S} (hlow : low ∈ c.entries) (h : Neighbours read c x low v)
      (hnot : ¬ Scalar.abs (x - low.magnitude) ≤ Scalar.abs (v.magnitude - x)) : Found read c x v

/-- **A nearest value is found** in every ascending catalogue that has values.

**Proof sketch.** The entries split into those below the query and the others, since the catalogue
ascends. The last one below it and the first of the others are its neighbours, as all entries before
the former are smaller and all after the latter are larger. If one side is empty the other one has
the nearest value; otherwise the distances to both neighbours decide. -/
theorem exists_found (hread : Scalar.Reading read) {c : Catalog S} (h : c.Ascending read)
    (hne : c.entries ≠ []) {x : S} (hx : Scalar.isFinite x = true) :
    ∃ v ∈ c.entries, c.nearest? x = some v ∧ Found read c x v := by
  have hless : ∀ v ∈ c.entries,
      (decide (v.magnitude < x) = true ↔ read v.magnitude < read x) := fun v hv => by
    rw [decide_eq_true_eq, hread.lt_iff (h.isFinite v hv) hx]
  have hbelow : ∀ v ∈ c.entries.takeWhile fun v => decide (v.magnitude < x),
      read v.magnitude < read x := fun v hv =>
    (hless v ((List.takeWhile_sublist _).mem hv)).mp
      (List.all_eq_true.mp (List.all_takeWhile) v hv)
  have habove : ∀ v ∈ c.entries.dropWhile fun v => decide (v.magnitude < x),
      read x ≤ read v.magnitude := fun v hv => by
    have hmem := (List.dropWhile_sublist _).mem hv
    have hfalse := eq_false_of_mem_dropWhile (h.pairwise.imp_of_mem fun {v w} hv hw hlt hwlt =>
      (hless v hv).mpr (hlt.trans ((hless w hw).mp hwlt))) hv
    exact not_lt.mp fun hlt => Bool.false_ne_true (hfalse.symm.trans ((hless v hmem).mpr hlt))
  have hsplit := List.takeWhile_append_dropWhile
    (p := fun v : StandardValue S => decide (v.magnitude < x)) (l := c.entries)
  have hpairwise := h.pairwise
  rw [nearest?]
  generalize c.entries.takeWhile (fun v => decide (v.magnitude < x)) = below at hbelow hsplit ⊢
  generalize c.entries.dropWhile (fun v => decide (v.magnitude < x)) = above at habove hsplit ⊢
  rw [← hsplit] at hpairwise hne
  obtain ⟨hbelowpairwise, habovepairwise, -⟩ := List.pairwise_append.mp hpairwise
  rcases List.eq_nil_or_concat' below with rfl | ⟨others, low, rfl⟩
  · cases above with
    | nil => exact absurd rfl hne
    | cons high rest =>
      have hhigh : high ∈ high :: rest := List.mem_cons_self
      refine ⟨high, hsplit ▸ hhigh, rfl, .least (habove high hhigh) fun w hw => ?_⟩
      rw [← hsplit] at hw
      exact le_of_pairwise_cons habovepairwise hw
  · have hlow : low ∈ others ++ [low] := List.mem_append_right _ (List.mem_singleton.mpr rfl)
    rw [List.getLast?_concat]
    cases above with
    | nil =>
      rw [List.append_nil] at hsplit
      refine ⟨low, hsplit ▸ hlow, rfl, .largest (hbelow low hlow) fun w hw => ?_⟩
      rw [← hsplit] at hw
      exact le_of_pairwise_concat hbelowpairwise hw
    | cons high rest =>
      have hhigh : high ∈ high :: rest := List.mem_cons_self
      have hlowmem : low ∈ c.entries := hsplit ▸ List.mem_append_left _ hlow
      have hhighmem : high ∈ c.entries := hsplit ▸ List.mem_append_right _ hhigh
      have hneighbours : Neighbours read c x low high := by
        refine ⟨hbelow low hlow, habove high hhigh, fun w hw => ?_⟩
        rw [← hsplit] at hw
        exact (List.mem_append.mp hw).imp (le_of_pairwise_concat hbelowpairwise)
          (le_of_pairwise_cons habovepairwise)
      rw [List.head?_cons]
      by_cases hle : Scalar.abs (x - low.magnitude) ≤ Scalar.abs (high.magnitude - x)
      · exact ⟨low, hlowmem, if_pos hle, .lower hhighmem hneighbours hle⟩
      · exact ⟨high, hhighmem, if_neg hle, .upper hlowmem hneighbours hle⟩

/-! ## Distances -/

/-- What is found is nearest up to a factor, if the comparison of the neighbours is right up to that
factor.

**Proof sketch.** By the way in which the value was found. At either end no entry is on the other
side of the query. A neighbour is nearest on its own side, and the comparison of both neighbours
makes up for the other side. -/
lemma Found.abs_sub_le {c : Catalog S} {x : S} {v : StandardValue S} {k : ℚ} (hk : 1 ≤ k)
    (hv : v ∈ c.entries) (hfound : Found read c x v)
    (hlower : ∀ low ∈ c.entries, ∀ high ∈ c.entries, Neighbours read c x low high →
      Scalar.abs (x - low.magnitude) ≤ Scalar.abs (high.magnitude - x) →
      read x - read low.magnitude ≤ k * (read high.magnitude - read x))
    (hupper : ∀ low ∈ c.entries, ∀ high ∈ c.entries, Neighbours read c x low high →
      ¬ Scalar.abs (x - low.magnitude) ≤ Scalar.abs (high.magnitude - x) →
      read high.magnitude - read x ≤ k * (read x - read low.magnitude)) :
    ∀ w ∈ c.entries, |read v.magnitude - read x| ≤ k * |read w.magnitude - read x| := by
  intro w hw
  have hmore : |read w.magnitude - read x| ≤ k * |read w.magnitude - read x| :=
    le_mul_of_one_le_left (abs_nonneg _) hk
  have hleft := neg_le_abs (read w.magnitude - read x)
  have hright := le_abs_self (read w.magnitude - read x)
  cases hfound with
  | largest hlt hmax =>
    rw [abs_of_neg (sub_neg.mpr hlt)]
    linarith [hmax w hw]
  | least hle hmin =>
    rw [abs_of_nonneg (sub_nonneg.mpr hle)]
    linarith [hmin w hw]
  | lower hhigh h hle =>
    rw [abs_of_neg (sub_neg.mpr h.lt), neg_sub]
    rcases h.apart w hw with hbelow | habove
    · linarith
    · refine (hlower _ hv _ hhigh h hle).trans (mul_le_mul_of_nonneg_left ?_ (by linarith))
      linarith
  | upper hlow h hnot =>
    rw [abs_of_nonneg (sub_nonneg.mpr h.le)]
    rcases h.apart w hw with hbelow | habove
    · refine (hupper _ hlow _ hv h hnot).trans (mul_le_mul_of_nonneg_left ?_ (by linarith))
      linarith
    · linarith

/-- Exact distances from neighbours are compared without their signs. -/
lemma Neighbours.abs_le_iff {c : Catalog ℚ} {x : ℚ} {low high : StandardValue ℚ}
    (h : Neighbours id c x low high) :
    Scalar.abs (x - low.magnitude) ≤ Scalar.abs (high.magnitude - x) ↔
      x - low.magnitude ≤ high.magnitude - x := by
  have hlow : Scalar.abs (x - low.magnitude) = x - low.magnitude :=
    abs_of_pos (sub_pos.mpr h.lt)
  have hhigh : Scalar.abs (high.magnitude - x) = high.magnitude - x :=
    abs_of_nonneg (sub_nonneg.mpr h.le)
  rw [hlow, hhigh]

/-- Of several values at the least distance the smallest one is found, if distances are exact.

**Proof sketch.** By the way in which the value was found. No entry below the query is farther down
than a value that is below it and at the same distance. The upper neighbour is found only if it is
strictly nearer than the lower one, so no entry below the query is as near. -/
lemma Found.le_of_tie {c : Catalog ℚ} {x : ℚ} {v : StandardValue ℚ} (h : Found id c x v)
    {w : StandardValue ℚ} (hw : w ∈ c.entries) (htie : |w.magnitude - x| = |v.magnitude - x|) :
    v.magnitude ≤ w.magnitude := by
  have hleft := neg_le_abs (w.magnitude - x)
  rw [htie] at hleft
  cases h with
  | largest hlt hmax =>
    have hlt : v.magnitude < x := hlt
    rw [abs_of_neg (sub_neg.mpr hlt)] at hleft
    linarith
  | least _ hmin => exact hmin w hw
  | lower _ hneighbours _ =>
    have hlt : v.magnitude < x := hneighbours.lt
    rw [abs_of_neg (sub_neg.mpr hlt)] at hleft
    linarith
  | @upper low _ _ hneighbours hnot =>
    have hle : x ≤ v.magnitude := hneighbours.le
    rw [hneighbours.abs_le_iff, not_le] at hnot
    rw [abs_of_nonneg (sub_nonneg.mpr hle)] at hleft
    -- values below the query are farther away
    rcases hneighbours.apart w hw with hbelow | habove
    · have hbelow : w.magnitude ≤ low.magnitude := hbelow
      linarith
    · exact habove

/-- **In exact arithmetic** a value is found that is nearest, and the smallest one of those. -/
theorem nearest?_exact {c : Catalog ℚ} (h : c.Ascending id) (hne : c.entries ≠ []) (x : ℚ) :
    ∃ v ∈ c.entries, c.nearest? x = some v ∧ ∀ w ∈ c.entries,
      |v.magnitude - x| ≤ |w.magnitude - x| ∧
        (|w.magnitude - x| = |v.magnitude - x| → v.magnitude ≤ w.magnitude) := by
  obtain ⟨v, hv, hnearest, hfound⟩ := exists_found Exact.reading h hne (x := x) rfl
  have hle := hfound.abs_sub_le (k := 1) le_rfl hv
    (fun low _ high _ hneighbours hcompare => by
      rw [one_mul]
      exact hneighbours.abs_le_iff.mp hcompare)
    (fun low _ high _ hneighbours hcompare => by
      rw [one_mul]
      exact (not_le.mp (hneighbours.abs_le_iff.not.mp hcompare)).le)
  refine ⟨v, hv, hnearest, fun w hw => ⟨?_, hfound.le_of_tie hw⟩⟩
  have hvw := hle w hw
  rwa [one_mul] at hvw

/-! ## Double precision -/

/-- The difference of two doubles that are not negative is rounded, with a relative error. -/
lemma abs_value_sub_bounds {x y : Float} (hx : x.isFinite = true) (hy : y.isFinite = true)
    (hypos : 0 ≤ value y) (hle : value y ≤ value x) :
    (value x - value y) * (1 - 1 / 2 ^ 53) ≤ value (Scalar.abs (x - y)) ∧
      value (Scalar.abs (x - y)) ≤ (value x - value y) * (1 + 1 / 2 ^ 53) := by
  have herror := abs_value_sub_sub_le hx hy (isFinite_sub hx hy (hypos.trans hle) hypos)
  rw [abs_of_nonneg (sub_nonneg.mpr hle)] at herror
  obtain ⟨hlow, hhigh⟩ := abs_le.mp herror
  have hpos : 0 ≤ value (x - y) := by linarith
  rw [value_abs, abs_of_nonneg hpos]
  constructor <;> linarith

/-- Rounded distances from neighbours are compared right up to the errors of both. -/
lemma Neighbours.compare_rounded {c : Catalog Float} {x : Float} {low high : StandardValue Float}
    (h : Neighbours value c x low high) (hx : x.isFinite = true)
    (hlow : low.magnitude.isFinite = true) (hhigh : high.magnitude.isFinite = true)
    (hpos : 0 ≤ value low.magnitude) :
    (Scalar.abs (x - low.magnitude) ≤ Scalar.abs (high.magnitude - x) →
      value x - value low.magnitude ≤ (1 + 1 / 2 ^ 51) * (value high.magnitude - value x)) ∧
    (¬ Scalar.abs (x - low.magnitude) ≤ Scalar.abs (high.magnitude - x) →
      value high.magnitude - value x ≤ (1 + 1 / 2 ^ 51) * (value x - value low.magnitude)) := by
  have hxpos : 0 ≤ value x := hpos.trans h.lt.le
  have hbelow := sub_pos.mpr h.lt
  have habove := sub_nonneg.mpr h.le
  obtain ⟨hlowless, hlowmore⟩ := abs_value_sub_bounds hx hlow hpos h.lt.le
  obtain ⟨hhighless, hhighmore⟩ := abs_value_sub_bounds hhigh hx hxpos h.le
  have hlowfinite : (Scalar.abs (x - low.magnitude)).isFinite = true := by
    rw [isFinite_abs]
    exact isFinite_sub hx hlow hxpos hpos
  have hhighfinite : (Scalar.abs (high.magnitude - x)).isFinite = true := by
    rw [isFinite_abs]
    exact isFinite_sub hhigh hx (hxpos.trans h.le) hxpos
  rw [le_iff_value_le hlowfinite hhighfinite, not_le]
  constructor <;> intro hcompare <;> linarith

/-- **In double precision** a value is found that is nearest up to the errors of two differences. -/
theorem nearest?_rounded {c : Catalog Float} (h : c.Ascending value)
    (hpos : ∀ v ∈ c.entries, 0 ≤ value v.magnitude) (hne : c.entries ≠ []) {x : Float}
    (hx : x.isFinite = true) :
    ∃ v ∈ c.entries, c.nearest? x = some v ∧ ∀ w ∈ c.entries,
      |value v.magnitude - value x| ≤ (1 + 1 / 2 ^ 51) * |value w.magnitude - value x| := by
  obtain ⟨v, hv, hnearest, hfound⟩ := exists_found reading h hne hx
  refine ⟨v, hv, hnearest, hfound.abs_sub_le (by norm_num) hv ?_ ?_⟩
  · intro low hlow high hhigh hneighbours
    exact (hneighbours.compare_rounded hx (h.isFinite low hlow) (h.isFinite high hhigh)
      (hpos low hlow)).1
  · intro low hlow high hhigh hneighbours
    exact (hneighbours.compare_rounded hx (h.isFinite low hlow) (h.isFinite high hhigh)
      (hpos low hlow)).2

/-! ## Catalogues that can be built -/

/-- What is said of an ascending catalogue is said of its numbers. -/
lemma Ascending.map {c : Catalog S} (h : c.Ascending read) : (c.map read).Ascending id where
  isFinite _ _ := rfl
  pairwise := List.pairwise_map.mpr h.pairwise

section

variable [DecimalScale Float] {table : List UInt16} {low high : Float}

/-- A catalogue of a table over a range is ascending. -/
lemma ascending_replicate (h : Admissible value table low high) :
    (replicate table low high).Ascending value where
  isFinite _ hv := (bounds_of_mem_entries reading h.isFinite_low h.isFinite_high hv).1
  pairwise := pairwise_replicate reading h.isFinite_low h.isFinite_high h.pos

/-- The ends of the range of the resistors are near to ten ohms and to ten megaohms. -/
lemma resistors_bounds (hscale : DecimalScale.OnDoubles) :
    Admissible value PreferredSeries.e6.significands (DecimalScale.powerOfTen 1 : Float)
        (DecimalScale.powerOfTen 7) ∧
      1 ≤ value (DecimalScale.powerOfTen 1) ∧ value (DecimalScale.powerOfTen 1) ≤ 11 ∧
      9000000 ≤ value (DecimalScale.powerOfTen 7) := by
  obtain ⟨hlow, hone, hten⟩ := Decimal.near_powerOfTen (n := 1) (by decide)
  obtain ⟨hhigh, -, hmega⟩ := Decimal.near_powerOfTen (n := 7) (by decide)
  rw [Nat.cast_one] at hlow hone hten
  rw [Nat.cast_ofNat] at hhigh hmega
  rw [hscale.powerOfTen, hscale.powerOfTen]
  have hlowmore := (abs_le.mp hten).2
  have hhighless := (abs_le.mp hmega).1
  refine ⟨⟨hlow, hhigh, ?_, ?_, by decide, by decide⟩, hone, ?_, ?_⟩ <;> linarith

/-- Among the resistors is one of twenty-two ohms, up to rounding. -/
lemma exists_near_mem_resistors (hscale : DecimalScale.OnDoubles) :
    ∃ v ∈ (resistors (S := Float)).entries, |value v.magnitude - 22| ≤ 22 / 2 ^ 40 := by
  obtain ⟨h, hone, hlow, hhigh⟩ := resistors_bounds hscale
  have hstandard : standard 22 0 = 22 := by
    show ((22 : ℕ) : ℚ) * 10 ^ (0 : ℤ) = 22
    norm_num
  have hnormal : (2 : ℚ) ^ (-1022 : ℤ) ≤ 1 := zpow_zero (2 : ℚ) ▸ zpow_le (by norm_num)
  rw [← hstandard]
  exact exists_near_mem_entries hscale h (hnormal.trans hone) (by decide) (by decide)
    (by rw [hstandard]; linarith) (by rw [hstandard]; linarith)

/-- **Catalogues that can be built**: those of a table over a range, and the resistors. -/
inductive Built : Catalog Float → Prop
  /-- The catalogue of a table over a range. -/
  | ofSignificands {table : List UInt16} {low high : Float} {c : Catalog Float}
      (h : Catalog.ofSignificands table low high = .ok c) : Built c
  /-- The catalogue of common resistors. -/
  | resistors : Built Catalog.resistors

/-- A catalogue that can be built is ascending and not empty, and its magnitudes are positive. -/
lemma Built.ascending (hscale : DecimalScale.OnDoubles) {c : Catalog Float} (hc : Built c) :
    c.Ascending value ∧ c.entries ≠ [] ∧ ∀ v ∈ c.entries, 0 < value v.magnitude := by
  have hpos : ∀ {table : List UInt16} {low high : Float}, Admissible value table low high →
      ∀ v ∈ (replicate table low high).entries, 0 < value v.magnitude := fun h v hv =>
    h.pos.trans_le (bounds_of_mem_entries reading h.isFinite_low h.isFinite_high hv).2.1
  cases hc with
  | ofSignificands h =>
    obtain ⟨hadmissible, hne, rfl⟩ := (ofSignificands_eq_ok_iff reading).mp h
    exact ⟨ascending_replicate hadmissible, hne, hpos hadmissible⟩
  | resistors =>
    obtain ⟨hadmissible, -⟩ := resistors_bounds hscale
    obtain ⟨v, hv, -⟩ := exists_near_mem_resistors hscale
    exact ⟨ascending_replicate hadmissible, List.ne_nil_of_mem hv, hpos hadmissible⟩

/-- **The nearest value of a catalogue** is found for every finite query. With distances that are
exact, none of the values is nearer to the query, and of those at the same distance the smallest one
is found; with rounded distances none is nearer by more than the errors of two differences.

**Proof sketch.** The values are strictly ascending (`pairwise_replicate`), so any other value lies
beyond one of the two that are compared (`exists_found`). -/
theorem nearest?_optimal (hscale : DecimalScale.OnDoubles) {c : Catalog Float} (hc : Built c)
    {x : Float} (hx : x.isFinite = true) :
    (∃ v ∈ c.entries, (c.map value).nearest? (value x) = some (v.map value) ∧
      ∀ w ∈ c.entries,
        |value v.magnitude - value x| ≤ |value w.magnitude - value x| ∧
          (|value w.magnitude - value x| = |value v.magnitude - value x| →
            value v.magnitude ≤ value w.magnitude)) ∧
    ∃ v ∈ c.entries, c.nearest? x = some v ∧ ∀ w ∈ c.entries,
      |value v.magnitude - value x| ≤ (1 + 1 / 2 ^ 51) * |value w.magnitude - value x| := by
  obtain ⟨hascending, hne, hpos⟩ := hc.ascending hscale
  refine ⟨?_, nearest?_rounded hascending (fun v hv => (hpos v hv).le) hne hx⟩
  obtain ⟨u, hu, hnearest, hall⟩ := nearest?_exact hascending.map
    (fun hempty => hne (List.map_eq_nil_iff.mp hempty)) (value x)
  obtain ⟨v, hv, rfl⟩ := List.mem_map.mp hu
  exact ⟨v, hv, hnearest, fun w hw => hall (w.map value) (List.mem_map_of_mem hw)⟩

end

/-- The resistor that is nearest to twenty-five ohms is one of about twenty-two ohms, or nearer. -/
theorem nearest?_twenty_five : DecimalScale.OnDoubles ∧ Built resistors ∧
    (25 : Float).isFinite = true ∧ value 25 = 25 ∧
    (∃ v ∈ (resistors (S := Float)).entries,
      (resistors.map value).nearest? (value 25) = some (v.map value) ∧
        |value v.magnitude - 25| ≤ 4) ∧
    ∃ v ∈ (resistors (S := Float)).entries,
      resistors.nearest? (25 : Float) = some v ∧ |value v.magnitude - 25| ≤ 4 := by
  have hscale := DecimalScale.onDoubles
  have hvalue : value 25 = 25 := by
    have hparts : parts 25 = .finite .positive (25 * 2 ^ 48) (-48) (by decide) := rfl
    rw [value_of_parts hparts]
    norm_num [Sign.apply]
  obtain ⟨⟨u, hu, hexact, hallexact⟩, v, hv, hrounded, hallrounded⟩ :=
    nearest?_optimal hscale Built.resistors (x := 25) rfl
  obtain ⟨w, hw, hnear⟩ := exists_near_mem_resistors hscale
  -- the value of twenty-two ohms is three ohms away
  have hthree : |value w.magnitude - 25| ≤ 7 / 2 := by
    obtain ⟨hbelow, habove⟩ := abs_le.mp hnear
    rw [abs_le]
    constructor <;> linarith
  have hu' := (hallexact w hw).1
  have hv' := hallrounded w hw
  rw [hvalue] at hu' hv'
  exact ⟨hscale, Built.resistors, rfl, hvalue, ⟨u, hu, hexact, by linarith⟩, v, hv, hrounded,
    by linarith⟩

end Catalog

end Ohmic
