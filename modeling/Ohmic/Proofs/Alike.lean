import Mathlib.Tactic.Lemma

set_option autoImplicit false

/-!
# Computations that end alike

Two computations that may fail are compared step by step: they end alike if both fail with one
error, or both succeed and their values are related.

## Main definitions

* `Alike` — two computations end alike.

## Main results

* `Alike.bind` — computations that go on alike after ending alike.
-/

namespace Ohmic

/-- Two computations fail with the same error, or succeed with related values. -/
inductive Alike {ε α β : Type} (r : α → β → Prop) : Except ε α → Except ε β → Prop
  /-- Both fail. -/
  | error (reason : ε) : Alike r (.error reason) (.error reason)
  /-- Both succeed. -/
  | ok {a : α} {b : β} (h : r a b) : Alike r (.ok a) (.ok b)

namespace Alike

variable {ε α β γ δ : Type} {r : α → β → Prop} {r' : γ → δ → Prop}

/-- Values that are related are so in a weaker sense. -/
lemma mono {m : Except ε α} {m' : Except ε β} (h : Alike r m m') {r'' : α → β → Prop}
    (hr : ∀ a b, r a b → r'' a b) : Alike r'' m m' := by
  cases h with
  | error reason => exact .error reason
  | ok hab => exact .ok (hr _ _ hab)

/-- What holds of the value of the one computation may be added to the relation. -/
lemma and_of_ok {m : Except ε α} {m' : Except ε β} (h : Alike r m m') {q : α → Prop}
    (hq : ∀ a, m = .ok a → q a) : Alike (fun a b => r a b ∧ q a) m m' := by
  cases h with
  | error reason => exact .error reason
  | ok hab => exact .ok ⟨hab, hq _ rfl⟩

/-- A computation ends like itself. -/
lemma refl (m : Except ε α) : Alike Eq m m := by
  cases m with
  | error reason => exact .error reason
  | ok a => exact .ok rfl

/-- **What goes on alike** after computations that end alike ends alike. -/
theorem bind {m : Except ε α} {m' : Except ε β} (h : Alike r m m') {f : α → Except ε γ}
    {f' : β → Except ε δ} (hf : ∀ a b, r a b → Alike r' (f a) (f' b)) :
    Alike r' (m >>= f) (m' >>= f') := by
  cases h with
  | error reason => exact .error reason
  | ok hr => exact hf _ _ hr

/-- The same computation may go on in two ways that end alike. -/
lemma bind_same (m : Except ε α) {f : α → Except ε γ} {f' : α → Except ε δ}
    (hf : ∀ a, Alike r' (f a) (f' a)) : Alike r' (m >>= f) (m >>= f') :=
  (refl m).bind fun a _ hab => hab ▸ hf a

/-- The same computation may go on in two ways that end alike from the value it has. -/
lemma bind_of_ok (m : Except ε α) {f : α → Except ε γ} {f' : α → Except ε δ}
    (hf : ∀ a, m = .ok a → Alike r' (f a) (f' a)) : Alike r' (m >>= f) (m >>= f') := by
  cases m with
  | error reason => exact .error reason
  | ok a => exact hf a rfl

/-- Computations that end alike are the same, if related values are. -/
lemma eq_of_imp {m m' : Except ε α} {r : α → α → Prop} (h : Alike r m m')
    (hr : ∀ a b, r a b → a = b) : m = m' := by
  cases h with
  | error reason => rfl
  | ok hab => exact congrArg Except.ok (hr _ _ hab)

/-- Both fail, or both succeed. -/
lemma error_or_ok {m : Except ε α} {m' : Except ε β} (h : Alike r m m') :
    (∃ reason, m = .error reason ∧ m' = .error reason) ∨
      ∃ a b, m = .ok a ∧ m' = .ok b ∧ r a b := by
  cases h with
  | error reason => exact .inl ⟨reason, rfl, rfl⟩
  | ok hab => exact .inr ⟨_, _, rfl, rfl, hab⟩

/-- Functions of the values that take related ones to related ones. -/
lemma map {m : Except ε α} {m' : Except ε β} (h : Alike r m m') {f : α → γ} {f' : β → δ}
    (hf : ∀ a b, r a b → r' (f a) (f' b)) : Alike r' (m.map f) (m'.map f') := by
  cases h with
  | error reason => exact .error reason
  | ok hr => exact .ok (hf _ _ hr)

/-- A function of the values that agrees on related ones. -/
lemma map_eq {m : Except ε α} {m' : Except ε β} (h : Alike r m m') {f : α → γ} {f' : β → γ}
    (hf : ∀ a b, r a b → f a = f' b) : m.map f = m'.map f' := by
  cases h with
  | error reason => rfl
  | ok hr => exact congrArg Except.ok (hf _ _ hr)

end Alike

end Ohmic
