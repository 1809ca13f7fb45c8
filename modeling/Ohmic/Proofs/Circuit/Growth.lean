import Ohmic.Proofs.Circuit.Evaluation
import Ohmic.Proofs.Number.Comparison

set_option autoImplicit false

/-!
# Growth of networks with their parts

Over positive reals both connections grow with either operand. If they do so in an arithmetic, then
so does every tree: with smaller leaves a tree with a value keeps one, and it is not larger.

## Main definitions

* `Connection.Monotone` — positive scalars that can be combined can be replaced by smaller ones,
  which gives no larger combination.
* `Connection.Grows` — the same for the impedances of two domains that are positive reals.

## Main results

* `Connection.grows_of_monotone` — growth within the real domain.
* `Tree.value?_of_grows` — growth of trees.

## Implementation notes

Bounds are computed with scalars, and candidates with impedances of either domain, so growth is a
relation between two domains: a lower bound is below a candidate, and a candidate below an upper
bound.
-/

namespace Ohmic

namespace Connection

/-- Positive scalars with a combination can be replaced by smaller positive ones: these have a
combination too, which is positive and not larger. -/
def Monotone (S : Type) [Scalar S] : Prop :=
  ∀ (c : Connection) (a b a' b' v' : S), Scalar.Positive a → Scalar.Positive b →
    Scalar.Positive a' → Scalar.Positive b' → a ≤ a' → b ≤ b' → c.combine? a' b' = some v' →
    ∃ v, c.combine? a b = some v ∧ Scalar.Positive v ∧ v ≤ v'

/-- Impedances in `B` that are positive reals and have a combination can be replaced by impedances
in `A` that are smaller positive reals: these have a combination too, and both combinations are
positive reals, the one in `A` not the larger one. -/
def Grows {S : Type} [Scalar S] (A B : Type) [Impedance S A] [Impedance S B] : Prop :=
  ∀ (c : Connection) (a₁ a₂ : A) (b₁ b₂ b : B) (r₁ r₂ s₁ s₂ : S),
    Impedance.positiveReal? a₁ = some r₁ → Impedance.positiveReal? a₂ = some r₂ →
    Impedance.positiveReal? b₁ = some s₁ → Impedance.positiveReal? b₂ = some s₂ →
    r₁ ≤ s₁ → r₂ ≤ s₂ → c.combine? b₁ b₂ = some b →
    ∃ a r s, c.combine? a₁ a₂ = some a ∧ Impedance.positiveReal? a = some r ∧
      Impedance.positiveReal? b = some s ∧ r ≤ s

/-- A scalar is read as the positive real that it is. -/
lemma positiveReal?_eq_some {S : Type} [Scalar S] {x r : S} :
    Impedance.positiveReal? x = some r ↔ Scalar.Positive x ∧ r = x := Scalar.positive?_eq_some

/-- Growth within the real domain. -/
lemma grows_of_monotone {S : Type} [Scalar S] (hord : Scalar.Ordered S) (h : Monotone S) :
    Grows S S := by
  intro c a₁ a₂ b₁ b₂ b r₁ r₂ s₁ s₂ ha₁ ha₂ hb₁ hb₂ hle₁ hle₂ hb
  obtain ⟨hpa₁, rfl⟩ := positiveReal?_eq_some.mp ha₁
  obtain ⟨hpa₂, rfl⟩ := positiveReal?_eq_some.mp ha₂
  obtain ⟨hpb₁, rfl⟩ := positiveReal?_eq_some.mp hb₁
  obtain ⟨hpb₂, rfl⟩ := positiveReal?_eq_some.mp hb₂
  obtain ⟨v, hv, hpos, hle⟩ := h c r₁ r₂ s₁ s₂ b hpa₁ hpa₂ hpb₁ hpb₂ hle₁ hle₂ hb
  -- the larger combination is positive as well, since operands may be replaced by themselves
  obtain ⟨v', hv', hpos', -⟩ := h c s₁ s₂ s₁ s₂ b hpb₁ hpb₂ hpb₁ hpb₂
    (hord.le_refl _ hpb₁) (hord.le_refl _ hpb₂) hb
  obtain rfl := Option.some.inj (hv'.symm.trans hb)
  exact ⟨v, v, v', hv, positiveReal?_eq_some.mpr ⟨hpos, rfl⟩,
    positiveReal?_eq_some.mpr ⟨hpos', rfl⟩, hle⟩

end Connection

namespace Tree

variable {S A B α : Type} [Scalar S] [Impedance S A] [Impedance S B]

/-- **Trees grow with their leaves.** A tree over `B` with a value keeps one over `A`, where each
leaf is a positive real that is not larger, and the value is not larger either.

**Proof sketch.** By induction on the tree: at a leaf that is the hypothesis, and at a connection
both operands have values that grow. -/
theorem value?_of_grows (h : Connection.Grows A B) {t : Tree α} {f : α → A} {g : α → B}
    (hle : ∀ s ∈ t.leaves, Impedance.isFinite (f s) = true ∧ ∃ r r',
      Impedance.positiveReal? (f s) = some r ∧ Impedance.positiveReal? (g s) = some r' ∧ r ≤ r')
    {b : B} (hb : (t.map g).value? = some b) :
    ∃ a r r', (t.map f).value? = some a ∧ Impedance.positiveReal? a = some r ∧
      Impedance.positiveReal? b = some r' ∧ r ≤ r' := by
  induction t generalizing b with
  | leaf s =>
    obtain ⟨hfinite, r, r', hr, hr', hrr⟩ := hle s (List.mem_singleton_self s)
    rw [map, value?] at hb
    split at hb
    · obtain rfl := Option.some.inj hb
      exact ⟨f s, r, r', by rw [map, value?, if_pos hfinite], hr, hr', hrr⟩
    · cases hb
  | node c l r ihl ihr =>
    obtain ⟨b₁, b₂, hb₁, hb₂, hcombine⟩ := value?_node_eq_some.mp hb
    obtain ⟨a₁, r₁, s₁, ha₁, hr₁, hs₁, hle₁⟩ :=
      ihl (fun s hs => hle s (List.mem_append_left _ hs)) hb₁
    obtain ⟨a₂, r₂, s₂, ha₂, hr₂, hs₂, hle₂⟩ :=
      ihr (fun s hs => hle s (List.mem_append_right _ hs)) hb₂
    obtain ⟨a, r, s, ha, hr, hs, hrs⟩ :=
      h c a₁ a₂ b₁ b₂ b r₁ r₂ s₁ s₂ hr₁ hr₂ hs₁ hs₂ hle₁ hle₂ hcombine
    exact ⟨a, r, s, value?_node_eq_some.mpr ⟨a₁, a₂, ha₁, ha₂, ha⟩, hr, hs, hrs⟩

end Tree

end Ohmic
