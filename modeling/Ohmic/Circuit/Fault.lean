set_option autoImplicit false

/-!
# Faults of a network

Why a network has no impedance, and where. Positions count the tokens of the network's postfix
form from zero; a fault that shows only after the last token has the number of tokens.

## Main definitions

* `Malformation` — what is wrong with a token sequence.
* `Fault` — a malformed sequence, a cancelling parallel connection, or a result that is not
  finite, each with its position.
* `Fault.message` — the text of a fault.
-/

namespace Ohmic

/-- What is wrong with a token sequence. -/
inductive Malformation where
  /-- There are no tokens. -/
  | empty
  /-- A connection comes before two operands do. -/
  | missingOperands
  /-- Values are left over after the last token, `count` in all. -/
  | leftoverOperands (count : Nat)
  /-- A leaf has an infinite or undefined component. -/
  | nonFiniteLeaf
deriving DecidableEq

/-- The text of a malformation. -/
def Malformation.message : Malformation → String
  | .empty => "expression is empty"
  | .missingOperands => "operator has fewer than two operands"
  | .leftoverOperands count => toString count ++ " values left after the last operator"
  | .nonFiniteLeaf => "leaf value is not finite"

/-- Why a network has no impedance. -/
inductive Fault where
  /-- The token sequence is not the form of a network. -/
  | malformed (position : Nat) (reason : Malformation)
  /-- The operands of a parallel connection cancel. -/
  | degenerate (position : Nat)
  /-- Two finite operands have a combination that is not finite. -/
  | overflow (position : Nat)
deriving DecidableEq

namespace Fault

/-- The token at which the fault lies. -/
def position : Fault → Nat
  | malformed position _ => position
  | degenerate position => position
  | overflow position => position

/-- The text of a fault. -/
def message : Fault → String
  | malformed position reason =>
    "malformed expression at token " ++ toString position ++ ": " ++ reason.message
  | degenerate position =>
    "degenerate network at token " ++ toString position ++ ": parallel operands sum to zero"
  | overflow position =>
    "overflow at token " ++ toString position ++ ": combined impedance is not finite"

end Fault

end Ohmic
