import Ohmic.Proofs.Decimal.Exponents
import Ohmic.Proofs.Number.Exact
import Ohmic.Proofs.Parts.Order

set_option autoImplicit false

/-!
# The standard values in a range

A catalogue tries the significands of a table over finitely many powers of ten. These are enough:
every standard value in the range has its exponent among them, whatever the digits of the
significands, and even if the decimal exponents around the range are off by one. So in exact
arithmetic a catalogue holds all standard values in its range, each once.

## Main definitions

* `DecimalScale.NearExponents` — decimal exponents that are off by one at most.
* `DecimalScale.Exact` — standard values without rounding.
* `Catalog.standard` — the number that a significand and an exponent make.
* `Exact.scale` — rational numbers as a decimal scale.

## Main results

* `Catalog.mem_exponentRange` — the exponents that are tried are enough.
* `Catalog.ofSignificands_exact` — what a catalogue of exact standard values holds, and when there
  is one.

## Implementation notes

The exponents that are tried reach just far enough. One less at the lower end, and a value might be
lost if the logarithm of the lower end was rounded up; the same holds at the upper end.
-/

namespace Ohmic

variable {S : Type} [Scalar S] [DecimalScale S] {read : S → ℚ}

/-! ## Exponents that are tried -/

/-- **Near decimal exponents**: the exponents around a positive scalar are off by one at most. -/
structure DecimalScale.NearExponents (read : S → ℚ) : Prop where
  /-- The exponent below a scalar is near to its logarithm, rounded down. -/
  floorLog10 : ∀ x : S, Scalar.isFinite x = true → 0 < read x →
    |DecimalScale.floorLog10 x - Int.log 10 (read x)| ≤ 1
  /-- The exponent above a scalar is near to its logarithm, rounded up. -/
  ceilLog10 : ∀ x : S, Scalar.isFinite x = true → 0 < read x →
    |DecimalScale.ceilLog10 x - Int.clog 10 (read x)| ≤ 1

namespace Catalog

/-- **The number of a standard value**: a significand times a power of ten. -/
def standard (s : UInt16) (e : ℤ) : ℚ := s.toNat * 10 ^ e

/-- The significands of a table without zero are positive. -/
lemma toNat_pos_of_mem {table : List UInt16} (h : (0 : UInt16) ∉ table) {s : UInt16}
    (hs : s ∈ table) : 0 < s.toNat := by
  refine Nat.pos_of_ne_zero fun hzero => h ?_
  have hs0 : s = 0 := UInt16.toNat_inj.mp hzero
  rwa [← hs0]

/-- Standard values of positive significands are positive. -/
lemma standard_pos {s : UInt16} (hs : 0 < s.toNat) (e : ℤ) : 0 < standard s e :=
  mul_pos (Nat.cast_pos.mpr hs) (zpow_pos (by norm_num) e)

/-- No significand of a table is wider than the widest. -/
lemma toNat_le_widest {table : List UInt16} {s : UInt16} (hs : s ∈ table) :
    s.toNat ≤ table.foldl (fun w s => Nat.max w s.toNat) 1 := by
  have hfold : ∀ (rest : List UInt16) (w : ℕ),
      w ≤ rest.foldl (fun w s => Nat.max w s.toNat) w ∧
        ∀ t ∈ rest, t.toNat ≤ rest.foldl (fun w s => Nat.max w s.toNat) w := by
    intro rest
    induction rest with
    | nil => exact fun w => ⟨Nat.le_refl w, nofun⟩
    | cons t rest ih =>
      intro w
      obtain ⟨hstart, hrest⟩ := ih (Nat.max w t.toNat)
      rw [List.foldl_cons, List.forall_mem_cons]
      exact ⟨(Nat.le_max_left _ _).trans hstart, (Nat.le_max_right _ _).trans hstart, hrest⟩
  exact (hfold table 1).2 s hs

/-- A significand of a table has at most as many digits as the widest one. -/
lemma toNat_lt_pow_extraDigits {table : List UInt16} {s : UInt16} (hs : s ∈ table) :
    (s.toNat : ℚ) < 10 ^ (extraDigits table + 1) := by
  rw [extraDigits, sub_add_cancel, zpow_natCast]
  exact_mod_cast (toNat_le_widest hs).trans_lt (Decimal.lt_pow_digitCount _)

/-- **The exponents that are tried are enough**: that of every standard value in the range is one of
them.

**Proof sketch.** A significand is below ten to the number of its digits, so the lower end, which is
at most the value, is below ten to the exponent plus that number, and its logarithm is smaller. The
significand is at least one, so ten to the exponent is at most the upper end. Both logarithms are
off by one at most, which the range allows for. -/
theorem mem_exponentRange (hnear : DecimalScale.NearExponents read) {table : List UInt16}
    {low high : S} (h : Admissible read table low high) {s : UInt16} (hs : s ∈ table) {e : ℤ}
    (hlow : read low ≤ standard s e) (hhigh : standard s e ≤ read high) :
    (exponentRange table low high).1 ≤ e ∧ e ≤ (exponentRange table low high).2 := by
  have hten : 1 < 10 := by decide
  have hpos := h.pos.trans_le h.le
  have hfloor := abs_le.mp (hnear.floorLog10 low h.isFinite_low h.pos)
  have hceil := abs_le.mp (hnear.ceilLog10 high h.isFinite_high hpos)
  have hpower : (0 : ℚ) < 10 ^ e := zpow_pos (by norm_num) e
  constructor
  · -- the lower end is below ten to the exponent plus the number of digits
    have hbelow : read low < 10 ^ (extraDigits table + 1 + e) := by
      rw [zpow_add₀ (by norm_num)]
      exact hlow.trans_lt (mul_lt_mul_of_pos_right (toNat_lt_pow_extraDigits hs) hpower)
    rw [← Nat.cast_ofNat (R := ℚ), Int.lt_zpow_iff_log_lt hten h.pos] at hbelow
    rw [exponentRange]
    dsimp only
    linarith [hfloor.2]
  · -- ten to the exponent is not above the upper end
    have hone : (1 : ℚ) ≤ s.toNat := by exact_mod_cast toNat_pos_of_mem h.zero_notMem hs
    have hself := Int.self_le_zpow_clog hten (read high)
    rw [Nat.cast_ofNat] at hself
    have habove : (10 : ℚ) ^ e ≤ 10 ^ Int.clog 10 (read high) :=
      (le_mul_of_one_le_left hpower.le hone).trans (hhigh.trans hself)
    have hle := (zpow_le_zpow_iff_right₀ (by norm_num : (1 : ℚ) < 10)).mp habove
    rw [exponentRange]
    dsimp only
    linarith [hceil.1]

end Catalog

/-! ## Exact standard values -/

/-- **An exact decimal scale**: standard values are finite and stand for a significand times a power
of ten, and the decimal exponents are off by one at most. -/
structure DecimalScale.Exact (read : S → ℚ) : Prop extends DecimalScale.NearExponents read where
  /-- A standard value is finite. -/
  isFinite_of : ∀ (s : UInt16) (e : ℤ),
    Scalar.isFinite (StandardValue.of (S := S) s e).magnitude = true
  /-- It stands for the number that the significand and the exponent make. -/
  read_of : ∀ (s : UInt16) (e : ℤ),
    read (StandardValue.of (S := S) s e).magnitude = Catalog.standard s e

/-! ## Rational numbers -/

namespace Exact

/-- Rational numbers stand for themselves. -/
lemma reading : Scalar.Reading (id : ℚ → ℚ) where
  isFinite_zero := rfl
  read_zero := rfl
  lt_iff _ _ := Iff.rfl
  le_iff _ _ := Iff.rfl
  beq_iff _ _ := decide_eq_true_iff
  isLE_rank_iff _ _ _ _ := by
    rw [Ordering.isLE_iff_ne_gt]
    exact compare_le_iff_le
  isFinite_of_le_of_le _ _ _ _ := rfl

/-- **Rational numbers as a decimal scale**, with any decimal exponents. -/
@[reducible] def scale (floorLog10 ceilLog10 : ℚ → ℤ) : DecimalScale ℚ where
  ofSignificand s := s.toNat
  powerOfTen e := 10 ^ e
  floorLog10 := floorLog10
  ceilLog10 := ceilLog10

/-- Rational numbers with near decimal exponents are an exact decimal scale. -/
lemma exact_scale {floorLog10 ceilLog10 : ℚ → ℤ}
    (hfloor : ∀ x, 0 < x → |floorLog10 x - Int.log 10 x| ≤ 1)
    (hceil : ∀ x, 0 < x → |ceilLog10 x - Int.clog 10 x| ≤ 1) :
    letI := scale floorLog10 ceilLog10
    DecimalScale.Exact (id : ℚ → ℚ) :=
  letI := scale floorLog10 ceilLog10
  { floorLog10 := fun x _ hx => hfloor x hx
    ceilLog10 := fun x _ hx => hceil x hx
    isFinite_of := fun _ _ => rfl
    read_of := fun s e => by
      show (if 0 ≤ e then (s.toNat : ℚ) * 10 ^ e else (s.toNat : ℚ) / 10 ^ (-e)) = _
      rw [Catalog.standard, zpow_neg, div_inv_eq_mul, ite_self] }

/-- Rational numbers are ordered totally. -/
lemma transCmp_rank : Std.TransCmp (Scalar.rank (S := ℚ)) :=
  inferInstanceAs (Std.TransCmp (compare (α := ℚ)))

end Exact

/-! ## Catalogues of exact standard values -/

namespace Catalog

variable {table : List UInt16} {low high : S}

/-- A standard value is in the range if its number is. -/
lemma exists_mem_entries_exact (hread : Scalar.Reading read) (hexact : DecimalScale.Exact read)
    (h : Admissible read table low high) {s : UInt16} (hs : s ∈ table) {e : ℤ}
    (hlow : read low ≤ standard s e) (hhigh : standard s e ≤ read high) :
    ∃ w ∈ (replicate table low high).entries, read w.magnitude = standard s e := by
  obtain ⟨hfirst, hlast⟩ := mem_exponentRange hexact.toNearExponents h hs hlow hhigh
  have hfinite := hexact.isFinite_of s e
  rw [← hexact.read_of] at hlow hhigh ⊢
  obtain ⟨w, hw, heq⟩ := exists_mem_entries hs hfirst hlast
    ((hread.le_iff h.isFinite_low hfinite).mpr hlow)
    ((hread.le_iff hfinite h.isFinite_high).mpr hhigh)
  refine ⟨w, hw, ?_⟩
  rcases heq with rfl | heq
  · rfl
  · obtain ⟨hwfinite, -⟩ := bounds_of_mem_entries hread h.isFinite_low h.isFinite_high hw
    exact ((hread.beq_iff hfinite hwfinite).mp heq).symm

/-- **A catalogue holds exactly the standard values in its range.** In exact arithmetic, with
decimal exponents that may be off by one, there is a catalogue of a table and a range exactly if the
range is one of positive finite magnitudes, the table is not empty and free of zeros, and a standard
value of the table lies in the range. The magnitudes of the catalogue are then strictly ascending,
its values are standard values of the table in the range, and every standard value of the table in
the range, of any exponent, occurs exactly once.

**Proof sketch.** A standard value in the range has its exponent among those that are tried
(`mem_exponentRange`), so that one value of its magnitude is left after the repeated ones were
dropped (`exists_mem_entries`); strictly ascending magnitudes have no duplicates. -/
theorem ofSignificands_exact [Std.TransCmp (Scalar.rank (S := S))] (hread : Scalar.Reading read)
    (hexact : DecimalScale.Exact read) (table : List UInt16) (low high : S) :
    ((∃ c, ofSignificands table low high = .ok c) ↔
      (Scalar.isFinite low = true ∧ Scalar.isFinite high = true ∧ 0 < read low ∧
        read low ≤ read high) ∧ (table ≠ [] ∧ (0 : UInt16) ∉ table) ∧
        ∃ s ∈ table, ∃ e : ℤ, read low ≤ standard s e ∧ standard s e ≤ read high) ∧
    ∀ c, ofSignificands table low high = .ok c →
      (c.magnitudes.Pairwise (· < ·) ∧ (c.magnitudes.map read).Pairwise (· < ·)) ∧
      c.magnitudes = c.entries.map StandardValue.magnitude ∧
      (∀ v ∈ c.entries, ∃ s ∈ table, ∃ e : ℤ, v = StandardValue.of s e ∧
        read v.magnitude = standard s e ∧ read low ≤ standard s e ∧ standard s e ≤ read high) ∧
      ∀ s ∈ table, ∀ e : ℤ, read low ≤ standard s e → standard s e ≤ read high →
        (c.magnitudes.map read).count (standard s e) = 1 := by
  have hvalues : ∀ v ∈ (replicate table low high).entries, Scalar.isFinite low = true →
      Scalar.isFinite high = true → ∃ s ∈ table, ∃ e : ℤ, v = StandardValue.of s e ∧
        read v.magnitude = standard s e ∧ read low ≤ standard s e ∧ standard s e ≤ read high := by
    intro v hv hlow hhigh
    obtain ⟨s, hs, e, rfl, -⟩ := of_mem_entries hv
    have hbounds := (bounds_of_mem_entries hread hlow hhigh hv).2
    rw [hexact.read_of] at hbounds
    exact ⟨s, hs, e, rfl, hexact.read_of s e, hbounds⟩
  constructor
  · simp only [ofSignificands_eq_ok_iff hread, exists_and_left, exists_eq', and_true]
    constructor
    · rintro ⟨h, hsome⟩
      obtain ⟨v, hv⟩ := List.exists_mem_of_ne_nil _ hsome
      obtain ⟨s, hs, e, -, -, hbounds⟩ := hvalues v hv h.isFinite_low h.isFinite_high
      exact ⟨⟨h.isFinite_low, h.isFinite_high, h.pos, h.le⟩, ⟨h.ne_nil, h.zero_notMem⟩, s, hs, e,
        hbounds⟩
    · rintro ⟨⟨hlow, hhigh, hpos, hle⟩, ⟨hnil, hzero⟩, s, hs, e, hbelow, habove⟩
      have h : Admissible read table low high := ⟨hlow, hhigh, hpos, hle, hnil, hzero⟩
      obtain ⟨w, hw, -⟩ := exists_mem_entries_exact hread hexact h hs hbelow habove
      exact ⟨h, List.ne_nil_of_mem hw⟩
  · intro c hc
    obtain ⟨h, -, rfl⟩ := (ofSignificands_eq_ok_iff hread).mp hc
    have hascending : (replicate table low high).entries.Pairwise fun v w =>
        read v.magnitude < read w.magnitude :=
      pairwise_replicate hread h.isFinite_low h.isFinite_high h.pos
    have hnumbers : ((replicate table low high).magnitudes.map read).Pairwise (· < ·) := by
      rw [magnitudes, List.map_map, List.pairwise_map]
      exact hascending
    refine ⟨⟨?_, hnumbers⟩, rfl, fun v hv => hvalues v hv h.isFinite_low h.isFinite_high, ?_⟩
    · rw [magnitudes, List.pairwise_map]
      refine hascending.imp_of_mem fun {v w} hv hw hlt => ?_
      have hvfinite := (bounds_of_mem_entries hread h.isFinite_low h.isFinite_high hv).1
      have hwfinite := (bounds_of_mem_entries hread h.isFinite_low h.isFinite_high hw).1
      exact (hread.lt_iff hvfinite hwfinite).mpr hlt
    · intro s hs e hbelow habove
      obtain ⟨w, hw, hnumber⟩ := exists_mem_entries_exact hread hexact h hs hbelow habove
      refine List.count_eq_one_of_mem (hnumbers.imp fun hlt => hlt.ne) ?_
      exact List.mem_map.mpr ⟨w.magnitude, List.mem_map.mpr ⟨w, hw, rfl⟩, hnumber⟩

/-- One ohm is `100·10⁻²` and `10·10⁻¹`. A catalogue from one half of an ohm to five ohms holds it
once, and 4.7 ohms as well; there is none whose range starts below zero. The decimal exponents are
off by one, so that as few exponents as possible are tried.

**Proof sketch.** Logarithms that are off by one are near enough (`Exact.exact_scale`). One ohm and
4.7 ohms are standard values in the range, each of which is in the catalogue once. -/
theorem ofSignificands_exact_one_ohm :
    let _scale : DecimalScale ℚ :=
      Exact.scale (fun x => Int.log 10 x + 1) (fun x => Int.clog 10 x - 1)
    let table : List UInt16 := [100, 47, 10]
    Std.TransCmp (Scalar.rank (S := ℚ)) ∧ Scalar.Reading (id : ℚ → ℚ) ∧
      DecimalScale.Exact (id : ℚ → ℚ) ∧
      (∃ c, ofSignificands table (1 / 2 : ℚ) 5 = .ok c ∧ c.magnitudes.Pairwise (· < ·) ∧
        c.magnitudes.count 1 = 1 ∧ c.magnitudes.count (47 / 10) = 1) ∧
      ¬ ∃ c, ofSignificands table (-1 : ℚ) 5 = .ok c := by
  intro _ table
  have hexact : DecimalScale.Exact (id : ℚ → ℚ) := Exact.exact_scale
    (fun x _ => by rw [add_sub_cancel_left, abs_one])
    (fun x _ => by rw [sub_sub_cancel_left, abs_neg, abs_one])
  have := Exact.transCmp_rank
  have hone : standard 100 (-2) = 1 := by
    show ((100 : ℕ) : ℚ) * 10 ^ (-2 : ℤ) = 1
    norm_num
  have hmore : standard 47 (-1) = 47 / 10 := by
    show ((47 : ℕ) : ℚ) * 10 ^ (-1 : ℤ) = 47 / 10
    norm_num
  obtain ⟨hiff, hall⟩ := ofSignificands_exact Exact.reading hexact table (1 / 2) 5
  obtain ⟨c, hc⟩ := hiff.mpr ⟨⟨rfl, rfl, by norm_num, by norm_num⟩, by decide, 100, by decide, -2,
    by norm_num [hone], by norm_num [hone]⟩
  obtain ⟨⟨hascending, -⟩, -, -, honce⟩ := hall c hc
  rw [List.map_id] at honce
  refine ⟨this, Exact.reading, hexact, ⟨c, hc, hascending, ?_, ?_⟩, fun hnone => ?_⟩
  · exact hone ▸ honce 100 (by decide) (-2) (by norm_num [hone]) (by norm_num [hone])
  · exact hmore ▸ honce 47 (by decide) (-1) (by norm_num [hmore]) (by norm_num [hmore])
  · obtain ⟨⟨-, -, hpos, -⟩, -⟩ :=
      (ofSignificands_exact Exact.reading hexact table (-1) 5).1.mp hnone
    norm_num at hpos

end Catalog

end Ohmic
