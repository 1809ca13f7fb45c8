import Mathlib.Tactic.Lemma
import Ohmic.Circuit.Machine
import Ohmic.Proofs.Circuit.Trees

set_option autoImplicit false

/-!
# Evaluation of trees

The stack machine computes the impedance of a tree from the tokens of its postfix form. Where only
the value matters and not the position of a fault, the impedance is a function `Tree.value?` of
the values of the two operands alone.

## Main definitions

* `Connection.combine?` — the combination of two impedances, if there is a finite one.
* `Tree.value?` — the impedance of a tree, if it has one.

## Main results

* `Machine.evaluate_tokens` — the machine computes what the tree evaluates to.
* `Tree.toOption_evaluate` — the value of an evaluation does not depend on positions.
* `Tree.evaluateAt_ne_malformed` — a tree with finite leaves has no malformation.
-/

namespace Ohmic

variable {S Z : Type} [Scalar S] [Impedance S Z]

/-! ## The machine on a tree -/

namespace Machine

/-- Before what follows, the tokens of a tree with a value push that value.

**Proof sketch.** By induction on the tree. Both operands have values, which are on the stack when
the connection is reached, the right one on top. -/
lemma scan_tokens_of_ok (t : Tree Z) (position : Nat) (stack : List Z) (rest : List (Token Z))
    {v : Z} (h : t.evaluateAt position = .ok v) :
    scan position stack (t.tokens ++ rest) = scan (position + t.tokenCount) (v :: stack) rest := by
  induction t generalizing position stack rest v with
  | leaf z =>
    simp only [Tree.evaluateAt] at h
    simp only [Tree.tokens, List.singleton_append, scan, h, Tree.tokenCount]
  | node c l r ihl ihr =>
    simp only [Tree.evaluateAt] at h
    cases hl : l.evaluateAt position with
    | error fault => simp [hl, bind, Except.bind] at h
    | ok a =>
      cases hr : r.evaluateAt (position + l.tokenCount) with
      | error fault => simp [hl, hr, bind, Except.bind] at h
      | ok b =>
        simp only [hl, hr, bind, Except.bind] at h
        simp only [Tree.tokens, List.append_assoc, ihl _ _ _ hl, ihr _ _ _ hr,
          List.singleton_append, scan, h, Tree.tokenCount]
        simp only [Nat.add_assoc]

/-- The tokens of a tree with a fault stop the machine at that fault.

**Proof sketch.** By induction on the tree. A fault of the left operand stops the machine among its
tokens. If it has a value, the machine goes on with this value on the stack (`scan_tokens_of_ok`),
and so for the right operand; a fault is left to the connection only if both have values. -/
lemma scan_tokens_of_error (t : Tree Z) (position : Nat) (stack : List Z) (rest : List (Token Z))
    {fault : Fault} (h : t.evaluateAt position = .error fault) :
    (scan position stack (t.tokens ++ rest)).2 = some fault := by
  induction t generalizing position stack rest with
  | leaf z =>
    simp only [Tree.evaluateAt] at h
    simp only [Tree.tokens, List.singleton_append, scan, h]
  | node c l r ihl ihr =>
    simp only [Tree.evaluateAt] at h
    simp only [Tree.tokens, List.append_assoc]
    cases hl : l.evaluateAt position with
    | error fault' =>
      simp only [hl, bind, Except.bind, Except.error.injEq] at h
      exact ihl _ _ _ (h ▸ hl)
    | ok a =>
      rw [scan_tokens_of_ok l _ _ _ hl]
      cases hr : r.evaluateAt (position + l.tokenCount) with
      | error fault' =>
        simp only [hl, hr, bind, Except.bind, Except.error.injEq] at h
        exact ihr _ _ _ (h ▸ hr)
      | ok b =>
        simp only [hl, hr, bind, Except.bind] at h
        rw [scan_tokens_of_ok r _ _ _ hr]
        simp only [List.singleton_append, scan, h]

/-- **The machine computes the impedance of a tree** from the tokens of its postfix form, whatever
an earlier evaluation left on the stack.

**Proof sketch.** If the tree has a value, it is all that is on the stack in the end
(`scan_tokens_of_ok`), and otherwise the machine stops at the fault of the tree
(`scan_tokens_of_error`). -/
theorem evaluate_tokens (m : Machine Z) (t : Tree Z) :
    (m.evaluate t.tokens).1 = t.evaluate := by
  have hne : t.tokens.isEmpty = false := List.isEmpty_eq_false_iff.mpr t.tokens_ne_nil
  unfold evaluate Tree.evaluate
  rw [hne]
  cases h : t.evaluateAt 0 with
  | ok v =>
    have hscan := scan_tokens_of_ok t 0 [] [] h
    rw [List.append_nil, scan] at hscan
    simp only [Bool.false_eq_true, if_false, hscan]
  | error fault =>
    have hscan := scan_tokens_of_error t 0 [] [] h
    rw [List.append_nil] at hscan
    generalize hs : scan 0 [] t.tokens = result at hscan
    obtain ⟨stack, stop⟩ := result
    obtain rfl : stop = some fault := hscan
    simp only [Bool.false_eq_true, if_false]

end Machine

/-! ## Values without positions -/

/-- The combination of two impedances, if the connection has one and it is finite. -/
def Connection.combine? (c : Connection) (a b : Z) : Option Z := (c.joinAt 0 a b).toOption

/-- Where two impedances are joined has no influence on their combination. -/
lemma Connection.toOption_joinAt (c : Connection) (position : Nat) (a b : Z) :
    (c.joinAt position a b).toOption = c.combine? a b := by
  unfold combine? joinAt
  cases c.join a b with
  | error _ => rfl
  | ok v =>
    by_cases hv : Impedance.isFinite v
    · simp only [hv, if_true]
    · simp only [hv, Bool.false_eq_true, if_false]
      rfl

/-- Two impedances have a combination exactly if joining them succeeds. -/
lemma Connection.joinAt_eq_ok_iff {c : Connection} (position : Nat) {a b v : Z} :
    c.joinAt position a b = .ok v ↔ c.combine? a b = some v := by
  rw [← c.toOption_joinAt position]
  cases c.joinAt position a b <;> simp [Except.toOption]

namespace Tree

/-- The impedance of a tree, if all its leaves and combinations are finite and none cancels. -/
def value? : Tree Z → Option Z
  | leaf z => if Impedance.isFinite z then some z else none
  | node c l r => l.value?.bind fun a => r.value?.bind fun b => c.combine? a b

/-- The value of an evaluation does not depend on the position of the first token. -/
lemma toOption_evaluateAt (t : Tree Z) (position : Nat) :
    (t.evaluateAt position).toOption = t.value? := by
  induction t generalizing position with
  | leaf z =>
    simp only [evaluateAt, leafAt, value?]
    split <;> rfl
  | node c l r ihl ihr =>
    simp only [evaluateAt, value?, ← ihl position, ← ihr (position + l.tokenCount)]
    cases l.evaluateAt position with
    | error fault => rfl
    | ok a =>
      cases r.evaluateAt (position + l.tokenCount) with
      | error fault => rfl
      | ok b => exact Connection.toOption_joinAt _ _ _ _

/-- The value of an evaluation. -/
lemma toOption_evaluate (t : Tree Z) : t.evaluate.toOption = t.value? := t.toOption_evaluateAt 0

/-- A tree evaluates to an impedance exactly if that is its value. -/
lemma evaluate_eq_ok_iff {t : Tree Z} {v : Z} : t.evaluate = .ok v ↔ t.value? = some v := by
  rw [← toOption_evaluate]
  cases t.evaluate <;> simp [Except.toOption]

/-- A connection has a value exactly if its operands have values that can be combined. -/
lemma value?_node_eq_some {c : Connection} {l r : Tree Z} {v : Z} :
    (node c l r).value? = some v ↔
      ∃ a b, l.value? = some a ∧ r.value? = some b ∧ c.combine? a b = some v := by
  simp only [value?, Option.bind_eq_some_iff]
  constructor
  · rintro ⟨a, ha, b, hb, hv⟩
    exact ⟨a, b, ha, hb, hv⟩
  · rintro ⟨a, b, ha, hb, hv⟩
    exact ⟨a, ha, b, hb, hv⟩

/-- A value is finite. -/
lemma isFinite_of_value? {t : Tree Z} {v : Z} (h : t.value? = some v) :
    Impedance.isFinite v = true := by
  cases t with
  | leaf z =>
    simp only [value?] at h
    split at h
    · obtain rfl := Option.some.inj h
      assumption
    · cases h
  | node c l r =>
    obtain ⟨a, b, -, -, hv⟩ := value?_node_eq_some.mp h
    rw [← Connection.joinAt_eq_ok_iff 0, Connection.joinAt] at hv
    split at hv
    · cases hv
    · split at hv
      · obtain rfl := Except.ok.inj hv
        assumption
      · cases hv

/-! ## Malformations -/

/-- Joining two impedances has no malformation. -/
lemma joinAt_ne_malformed (c : Connection) (position : Nat) (a b : Z) (at' : Nat)
    (reason : Malformation) : c.joinAt position a b ≠ .error (.malformed at' reason) := by
  unfold Connection.joinAt
  split
  · intro h
    cases h
  · split <;> exact fun h => by cases h

/-- A tree with finite leaves has no malformation. -/
lemma evaluateAt_ne_malformed (t : Tree Z) (ht : ∀ z ∈ t.leaves, Impedance.isFinite z = true)
    (position at' : Nat) (reason : Malformation) :
    t.evaluateAt position ≠ .error (.malformed at' reason) := by
  induction t generalizing position with
  | leaf z =>
    have hz : Impedance.isFinite z = true := ht z (List.mem_singleton_self z)
    simp only [evaluateAt, leafAt, hz, if_true]
    intro h
    cases h
  | node c l r ihl ihr =>
    have hl := ihl (fun z hz => ht z (List.mem_append_left _ hz)) position
    have hr := ihr (fun z hz => ht z (List.mem_append_right _ hz)) (position + l.tokenCount)
    simp only [evaluateAt]
    cases hle : l.evaluateAt position with
    | error fault => exact fun h => hl (hle.trans h)
    | ok a =>
      cases hre : r.evaluateAt (position + l.tokenCount) with
      | error fault => exact fun h => hr (hre.trans h)
      | ok b => exact joinAt_ne_malformed c _ a b at' reason

end Tree

end Ohmic
