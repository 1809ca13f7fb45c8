import Ohmic.Circuit.Postfix

set_option autoImplicit false

/-!
# The stack machine

The impedance of a postfix form, computed with a stack: a leaf is pushed, and a connection takes
the right and then the left operand off the stack and pushes their combination.

## Main definitions

* `Machine` — a stack that is kept from one evaluation to the next.
* `Machine.scan` — the effect of a sequence of tokens on a stack.
* `Machine.evaluate` — the impedance of a token sequence, and the machine afterwards.
* `Postfix.evaluate` — the impedance of a form on a fresh machine.

## Implementation notes

An evaluation empties the stack before it starts, so what an earlier one left there, also by
stopping at a fault, has no influence. Only the empty sequence leaves the stack alone: it is
refused first.
-/

namespace Ohmic

/-- A stack of values, the top first. -/
structure Machine (Z : Type) where
  /-- What the last evaluation left. -/
  stack : List Z := []

namespace Machine

variable {S Z : Type} [Scalar S] [Impedance S Z]

/-- What is left on the stack after the tokens, the first of which is at `position`, and the fault
at which the scan stopped, if there is one. -/
def scan (position : Nat) (stack : List Z) : List (Token Z) → List Z × Option Fault
  | [] => (stack, none)
  | .leaf z :: rest =>
    match leafAt position z with
    | .error fault => (stack, some fault)
    | .ok z => scan (position + 1) (z :: stack) rest
  | .join c :: rest =>
    match stack with
    | b :: a :: below =>
      match c.joinAt position a b with
      | .error fault => (below, some fault)
      | .ok value => scan (position + 1) (value :: below) rest
    | _ => ([], some (.malformed position .missingOperands))

/-- The impedance of a token sequence, for which exactly one value has to remain, and the machine
afterwards. -/
def evaluate (m : Machine Z) (tokens : List (Token Z)) : Except Fault Z × Machine Z :=
  if tokens.isEmpty then (.error (.malformed 0 .empty), m)
  else
    match scan 0 [] tokens with
    | (stack, some fault) => (.error fault, ⟨stack⟩)
    | ([value], none) => (.ok value, ⟨[value]⟩)
    | (stack, none) =>
      (.error (.malformed tokens.length (.leftoverOperands stack.length)), ⟨stack⟩)

/-- Each sequence on the machine that the one before it left. -/
def evaluateAll (m : Machine Z) : List (List (Token Z)) → List (Except Fault Z)
  | [] => []
  | tokens :: rest =>
    let (result, m) := m.evaluate tokens
    result :: m.evaluateAll rest

end Machine

/-- The impedance of a postfix form. -/
def Postfix.evaluate {S Z : Type} [Scalar S] [Impedance S Z] (e : Postfix Z) : Except Fault Z :=
  (Machine.evaluate {} e.tokens).1

end Ohmic
