import Mathlib.Tactic.Lemma
import Ohmic.Number.Impedance

set_option autoImplicit false

/-!
# Comparisons of positive scalars

Scalars bring comparisons of which nothing is known. The laws named here hold in exact arithmetic,
and in double precision as well, since only positive finite scalars are compared both ways.

## Main definitions

* `Scalar.Positive` — a positive finite scalar.
* `Scalar.Ordered` — the comparisons order the positive finite scalars.
* `Scalar.LinearOn` — the comparisons are a linear order of some scalars.

## Main results

* `Scalar.least_le`, `Scalar.le_greatest` — the extremes of a list of positive scalars.
* `Scalar.pairwise_of_ascending` — in an ascending list earlier values are at most later ones.
-/

namespace Ohmic

namespace Scalar

variable {S : Type} [Scalar S]

/-- Above zero and finite. -/
def Positive (x : S) : Prop := 0 < x ∧ isFinite x = true

/-- The comparisons are transitive, agree with each other, and decide between any two positive
finite scalars. -/
structure Ordered (S : Type) [Scalar S] : Prop where
  /-- A positive scalar is at most itself. -/
  le_refl : ∀ x : S, Positive x → x ≤ x
  /-- Being at most is transitive. -/
  le_trans : ∀ x y z : S, x ≤ y → y ≤ z → x ≤ z
  /-- What is below a scalar is at most that. -/
  le_of_lt : ∀ x y : S, x < y → x ≤ y
  /-- What is at most a scalar is not above it. -/
  not_lt_of_le : ∀ x y : S, x ≤ y → ¬ y < x
  /-- A positive scalar that is not above another one is at most that. -/
  le_of_not_lt : ∀ x y : S, Positive x → Positive y → ¬ y < x → x ≤ y

/-- **A linear order** of the scalars in `P`: any two of them can be compared, and being below is
the opposite of being at least. -/
structure LinearOn (P : S → Prop) : Prop where
  /-- Of two scalars one is at most the other. -/
  le_total : ∀ x y, P x → P y → x ≤ y ∨ y ≤ x
  /-- Being at most is transitive. -/
  le_trans : ∀ x y z, P x → P y → P z → x ≤ y → y ≤ z → x ≤ z
  /-- What is not at least a scalar is below it. -/
  lt_iff_not_le : ∀ x y, P x → P y → (x < y ↔ ¬ y ≤ x)

namespace LinearOn

variable {P : S → Prop} (h : LinearOn P) {x y z : S}

include h

/-- A scalar is at most itself. -/
lemma le_refl (hx : P x) : x ≤ x := (h.le_total x x hx hx).elim id id

/-- What is not below a scalar is at least that. -/
lemma le_of_not_lt (hx : P x) (hy : P y) (hlt : ¬ y < x) : x ≤ y :=
  Decidable.byContradiction fun hle => hlt ((h.lt_iff_not_le y x hy hx).mpr hle)

/-- What is below a scalar is at most that. -/
lemma le_of_lt (hx : P x) (hy : P y) (hlt : x < y) : x ≤ y :=
  (h.le_total x y hx hy).resolve_right ((h.lt_iff_not_le x y hx hy).mp hlt)

/-- What is below a scalar is below everything that this is at most. -/
lemma lt_of_lt_of_le (hx : P x) (hy : P y) (hz : P z) (hlt : x < y) (hle : y ≤ z) : x < z := by
  rw [h.lt_iff_not_le x z hx hz]
  intro hzx
  exact (h.lt_iff_not_le x y hx hy).mp hlt (h.le_trans y z x hy hz hx hle hzx)

end LinearOn

/-- A scalar is read as positive if it is so. -/
lemma positive?_eq_some {x r : S} : positive? x = some r ↔ Positive x ∧ r = x := by
  unfold positive? Positive
  split
  · next h => exact ⟨fun hr => ⟨h, (Option.some.inj hr).symm⟩, fun hr => congrArg some hr.2.symm⟩
  · next h => exact ⟨fun hr => (by cases hr), fun hr => absurd hr.1 h⟩

/-! ## Extremes -/

omit [Scalar S] in
/-- A choice between two, made again and again, ends with one of all. -/
lemma foldl_mem {choose : S → S → S} (h : ∀ x y, choose x y = x ∨ choose x y = y) (first : S)
    (rest : List S) : rest.foldl choose first ∈ first :: rest := by
  induction rest generalizing first with
  | nil => exact List.mem_singleton_self first
  | cons y rest ih =>
    rw [List.foldl_cons]
    rcases h first y with heq | heq
    · rw [heq]
      rcases List.mem_cons.mp (ih first) with hfirst | hrest
      · rw [hfirst]
        exact List.mem_cons_self
      · exact List.mem_cons_of_mem _ (List.mem_cons_of_mem _ hrest)
    · rw [heq]
      exact List.mem_cons_of_mem _ (ih y)

/-- The least of some scalars is one of them. -/
lemma least_mem (first : S) (rest : List S) : least first rest ∈ first :: rest := by
  refine foldl_mem (fun x y => ?_) first rest
  unfold min
  split
  · exact .inl rfl
  · exact .inr rfl

/-- The greatest of some scalars is one of them. -/
lemma greatest_mem (first : S) (rest : List S) : greatest first rest ∈ first :: rest := by
  refine foldl_mem (fun x y => ?_) first rest
  unfold max
  split
  · exact .inl rfl
  · exact .inr rfl

section

variable (hord : Ordered S)

include hord

/-- The smaller of two positive scalars is positive, and at most either. -/
lemma min_le {x y : S} (hx : Positive x) (hy : Positive y) :
    Positive (min x y) ∧ min x y ≤ x ∧ min x y ≤ y := by
  unfold min
  split
  · next h => exact ⟨hx, hord.le_refl x hx, hord.le_of_lt x y h⟩
  · next h => exact ⟨hy, hord.le_of_not_lt y x hy hx h, hord.le_refl y hy⟩

/-- The larger of two positive scalars is positive, and at least either. -/
lemma le_max {x y : S} (hx : Positive x) (hy : Positive y) :
    Positive (max x y) ∧ x ≤ max x y ∧ y ≤ max x y := by
  unfold max
  split
  · next h => exact ⟨hx, hord.le_refl x hx, hord.le_of_lt y x h⟩
  · next h => exact ⟨hy, hord.le_of_not_lt x y hx hy h, hord.le_refl y hy⟩

/-- The least of positive scalars is at most each of them. -/
lemma least_le {first : S} {rest : List S} (h : ∀ x ∈ first :: rest, Positive x) :
    ∀ x ∈ first :: rest, least first rest ≤ x := by
  induction rest generalizing first with
  | nil =>
    intro x hx
    rw [List.mem_singleton.mp hx]
    exact hord.le_refl first (h first (List.mem_singleton_self first))
  | cons y rest ih =>
    rw [List.forall_mem_cons, List.forall_mem_cons] at h
    obtain ⟨hpos, hfirst, hy⟩ := min_le hord h.1 h.2.1
    have hrest := ih (List.forall_mem_cons.mpr ⟨hpos, h.2.2⟩)
    rw [List.forall_mem_cons] at hrest
    rw [least, List.foldl_cons, ← least, List.forall_mem_cons, List.forall_mem_cons]
    exact ⟨hord.le_trans _ _ _ hrest.1 hfirst, hord.le_trans _ _ _ hrest.1 hy, hrest.2⟩

/-- The greatest of positive scalars is at least each of them. -/
lemma le_greatest {first : S} {rest : List S} (h : ∀ x ∈ first :: rest, Positive x) :
    ∀ x ∈ first :: rest, x ≤ greatest first rest := by
  induction rest generalizing first with
  | nil =>
    intro x hx
    rw [List.mem_singleton.mp hx]
    exact hord.le_refl first (h first (List.mem_singleton_self first))
  | cons y rest ih =>
    rw [List.forall_mem_cons, List.forall_mem_cons] at h
    obtain ⟨hpos, hfirst, hy⟩ := le_max hord h.1 h.2.1
    have hrest := ih (List.forall_mem_cons.mpr ⟨hpos, h.2.2⟩)
    rw [List.forall_mem_cons] at hrest
    rw [greatest, List.foldl_cons, ← greatest, List.forall_mem_cons, List.forall_mem_cons]
    exact ⟨hord.le_trans _ _ _ hfirst hrest.1, hord.le_trans _ _ _ hy hrest.1, hrest.2⟩

/-- In an ascending list earlier values are at most later ones. -/
lemma pairwise_of_ascending {xs : List S} (h : ascending xs = true) : xs.Pairwise (· ≤ ·) := by
  induction xs with
  | nil => exact List.Pairwise.nil
  | cons x xs ih =>
    cases xs with
    | nil => exact List.pairwise_singleton _ x
    | cons y rest =>
      simp only [ascending, Bool.and_eq_true, decide_eq_true_eq] at h
      have hrest := ih h.2
      rw [List.pairwise_cons] at hrest
      refine List.pairwise_cons.mpr ⟨?_, ih h.2⟩
      rw [List.forall_mem_cons]
      exact ⟨h.1, fun z hz => hord.le_trans _ _ _ h.1 (hrest.1 z hz)⟩

end

end Scalar

end Ohmic
