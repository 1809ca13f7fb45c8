import Mathlib.Data.List.Forall2
import Mathlib.Tactic.Lemma
import Ohmic.Search.Bounds

set_option autoImplicit false

/-!
# How bounds are made

## Main results

* `mapM_eq_some_iff` — a change of all elements succeeds if it succeeds for each of them.
* `Bounds.of?_eq_some` — the bounds of an alphabet and a target that are positive reals.
-/

namespace Ohmic

/-- A change of all elements succeeds if it succeeds for each of them. -/
lemma mapM_eq_some_iff {α β : Type} {f : α → Option β} {xs : List α} {ys : List β} :
    xs.mapM f = some ys ↔ List.Forall₂ (fun a b => f a = some b) xs ys := by
  induction xs generalizing ys with
  | nil => simp [List.mapM_nil, pure, eq_comm]
  | cons x xs ih =>
    rw [List.mapM_cons, List.forall₂_cons_left_iff]
    simp only [bind, Option.bind_eq_some_iff, pure, Option.some.injEq, ih]
    constructor
    · rintro ⟨y, hy, rest, hrest, rfl⟩
      exact ⟨y, rest, hy, hrest, rfl⟩
    · rintro ⟨y, rest, hy, hrest, rfl⟩
      exact ⟨y, hy, rest, hrest, rfl⟩

namespace Bounds

variable {S Z : Type} [Scalar S] [Impedance S Z] {alphabet : List Z} {target : Z}
  {tolerance : Tolerance S}

/-- The bounds of an alphabet and a target that are positive reals. -/
lemma of?_eq_some {bd : Bounds S} (h : of? alphabet target tolerance = some bd) :
    ∃ r first rest, Impedance.positiveReal? target = some r ∧
      List.Forall₂ (fun z v => Impedance.positiveReal? z = some v) alphabet (first :: rest) ∧
      bd = {
        values := first :: rest
        min := Scalar.least first rest
        max := Scalar.greatest first rest
        low := (tolerance.band r).1 * (1 - Scalar.slack)
        high := (tolerance.band r).2 * (1 + Scalar.slack)
        ascending := Scalar.ascending (first :: rest) } := by
  simp only [of?, bind, Option.bind_eq_some_iff] at h
  obtain ⟨r, hr, values, hvalues, hbd⟩ := h
  cases values with
  | nil => cases hbd
  | cons first rest => exact ⟨r, first, rest, hr, mapM_eq_some_iff.mp hvalues,
      (Option.some.inj hbd).symm⟩

/-- There is a positive real for each value. -/
lemma length_values {bd : Bounds S} (h : of? alphabet target tolerance = some bd) :
    bd.values.length = alphabet.length := by
  obtain ⟨r, first, rest, -, hvalues, rfl⟩ := of?_eq_some h
  exact hvalues.length_eq.symm

end Bounds

end Ohmic
