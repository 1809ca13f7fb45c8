import Ohmic.Circuit.Connection

set_option autoImplicit false

/-!
# Binary network trees

A series/parallel network as a binary tree: a part, or two networks joined by a connection.

## Main definitions

* `Tree` — the trees, over any type of leaves.
* `Tree.leafCount`, `Tree.depth`, `Tree.tokenCount` — the number of parts, of levels, and of
  tokens of the postfix form.
* `Tree.map`, `Tree.mapM?` — a change of every leaf; the latter fails if one of them does.
* `Tree.evaluate` — the impedance of a tree.

## Implementation notes

A fault is reported at its position in the postfix form, where both operands precede their
connection. `Tree.evaluateAt` is given the position of the first token of the tree and finds the
others by counting tokens.
-/

namespace Ohmic

/-- A binary series/parallel network. -/
inductive Tree (α : Type) where
  /-- A single part. -/
  | leaf (value : α)
  /-- Two networks joined. -/
  | node (connection : Connection) (left right : Tree α)
deriving DecidableEq, BEq

namespace Tree

variable {α β : Type}

/-- Two networks in series. -/
def series (left right : Tree α) : Tree α := node .series left right

/-- Two networks in parallel. -/
def parallel (left right : Tree α) : Tree α := node .parallel left right

/-- The number of parts. -/
def leafCount : Tree α → Nat
  | leaf _ => 1
  | node _ left right => left.leafCount + right.leafCount

/-- The number of levels; a single part has one. -/
def depth : Tree α → Nat
  | leaf _ => 1
  | node _ left right => 1 + max left.depth right.depth

/-- The number of tokens of the postfix form. -/
def tokenCount : Tree α → Nat
  | leaf _ => 1
  | node _ left right => left.tokenCount + right.tokenCount + 1

/-- The leaves from left to right. -/
def leaves : Tree α → List α
  | leaf a => [a]
  | node _ left right => left.leaves ++ right.leaves

/-- Every leaf changed by `f`. -/
def map (f : α → β) : Tree α → Tree β
  | leaf a => leaf (f a)
  | node c left right => node c (left.map f) (right.map f)

/-- Every leaf changed by `f`, if that succeeds for all of them. -/
def mapM? (f : α → Option β) : Tree α → Option (Tree β)
  | leaf a => (f a).map leaf
  | node c left right => do
    let left ← left.mapM? f
    let right ← right.mapM? f
    return node c left right

section Evaluation

variable {S Z : Type} [Scalar S] [Impedance S Z]

/-- The impedance of a tree whose first token is at `position`: the left operand, then the right
one, then their connection. -/
def evaluateAt (position : Nat) : Tree Z → Except Fault Z
  | leaf z => leafAt position z
  | node c left right => do
    let a ← left.evaluateAt position
    let b ← right.evaluateAt (position + left.tokenCount)
    c.joinAt (position + left.tokenCount + right.tokenCount) a b

/-- The impedance of a tree. -/
def evaluate (t : Tree Z) : Except Fault Z := t.evaluateAt 0

end Evaluation

end Tree

end Ohmic
