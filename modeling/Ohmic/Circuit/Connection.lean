import Ohmic.Circuit.Fault
import Ohmic.Number.Impedance

set_option autoImplicit false

/-!
# Series and parallel connection

## Main definitions

* `Connection` — the two ways to join networks, with their symbols `+` and `||`.
* `Connection.seriesOf` — impedances in series add.
* `Connection.parallelOf` — impedances in parallel have `a·b / (a + b)`, or cancel.
* `Connection.joinAt` — a connection at a position of a network, with its faults.

## Implementation notes

The product over the sum is computed as `small / (1 + small / big)`, where `big` is the operand of
larger magnitude. Both quotients are taken after their terms were scaled to about one, so that no
intermediate product leaves the range of the scalars. For this the magnitude of `big` has to be
finite, which finite components do not ensure. The sum counts as zero, and the connection as
degenerate, if `big` is zero or `|1 + small / big|` does not exceed the scalars' `epsilon`.
-/

namespace Ohmic

/-- A way to join two networks. -/
inductive Connection where
  /-- One after the other. -/
  | series
  /-- Side by side. -/
  | parallel
deriving DecidableEq

/-- The operands of a parallel connection cancel. -/
inductive Degenerate where
  /-- There is one way to be degenerate. -/
  | cancelled
deriving DecidableEq

/-- The text of a parallel connection that cancels. -/
def Degenerate.message (_ : Degenerate) : String :=
  "parallel combination of impedances summing to zero"

namespace Connection

/-- Both connections, in the order in which they are searched. -/
def all : List Connection := [series, parallel]

/-- The symbol of a connection. -/
def symbol : Connection → String
  | series => "+"
  | parallel => "||"

/-- Series comes before parallel. -/
protected def compare : Connection → Connection → Ordering
  | series, parallel => .lt
  | parallel, series => .gt
  | series, series | parallel, parallel => .eq

/-- The order of connections. -/
instance instOrdConnection : Ord Connection where
  compare := Connection.compare

variable {S Z : Type} [Scalar S] [Impedance S Z]

/-- The operand of larger magnitude and the other one; the first is kept on a tie. -/
def bigAndSmall (a b : Z) : Z × Z :=
  if Impedance.magnitude a < Impedance.magnitude b then (b, a) else (a, b)

/-- The impedance of `a` and `b` in series. -/
def seriesOf (a b : Z) : Z := a + b

/-- The impedance of `a` and `b` in parallel, unless their sum counts as zero. -/
def parallelOf (a b : Z) : Except Degenerate Z :=
  let (big, small) := bigAndSmall a b
  let scale := Impedance.magnitude big
  if scale == 0 then .error .cancelled
  else
    let ratio := Impedance.unscale small scale / Impedance.unscale big scale
    let denominator := Impedance.ofReal 1 + ratio
    let norm := Impedance.magnitude denominator
    if norm ≤ Scalar.epsilon then .error .cancelled
    else .ok (Impedance.unscale small norm / Impedance.unscale denominator norm)

/-- The impedance of two joined networks. -/
def join (c : Connection) (a b : Z) : Except Degenerate Z :=
  match c with
  | series => .ok (seriesOf a b)
  | parallel => parallelOf a b

/-- The impedance of two networks joined by the token at `position`. A cancelling connection is
degenerate, and a combination that is not finite is an overflow. -/
def joinAt (c : Connection) (position : Nat) (a b : Z) : Except Fault Z :=
  match c.join a b with
  | .error _ => .error (.degenerate position)
  | .ok value => if Impedance.isFinite value then .ok value else .error (.overflow position)

end Connection

/-- The value of the leaf at `position`, which has to be finite. -/
def leafAt {S Z : Type} [Impedance S Z] (position : Nat) (z : Z) : Except Fault Z :=
  if Impedance.isFinite z then .ok z else .error (.malformed position .nonFiniteLeaf)

end Ohmic
