import Ohmic.Circuit.Postfix
import Ohmic.Search.Shape

set_option autoImplicit false

/-!
# Layouts

A layout is a shape made ready to be filled: its leaves are slots, numbered from left to right,
and the search puts a value into one slot after the other.

## Main definitions

* `Layout` — the numbered tree, its postfix form, where each slot lies in that form, and which
  slots are tied to an earlier one.
* `Shape.numbered` — the shape with its leaves numbered.
* `Shape.ties` — the first slot of a right operand, tied to the first slot of the left one, for
  every connection of two equal operands.
* `Layout.withLeaves` — the layouts with a number of leaves, in search order.

## Implementation notes

A tied slot takes no value before that of the slot it is tied to. Exchanging two operands of equal
shape gives the same network. The tie rules one of the two arrangements out if the first values of
the operands differ, and keeps both if they agree.
-/

namespace Ohmic

namespace Shape

/-- The shape with its leaves numbered from `next` on. -/
def numbered (next : Nat) : Shape → Tree Nat
  | .leaf _ => .leaf next
  | .node c left right => .node c (numbered next left) (numbered (next + left.leafCount) right)

/-- The ties of the shape whose first slot is `next`: each a slot and the earlier one to which it
is tied, inner connections first. -/
def ties (next : Nat) : Shape → List (Nat × Nat)
  | .leaf _ => []
  | .node _ left right =>
    ties next left ++ ties (next + left.leafCount) right ++
      if left = right then [(next + left.leafCount, next)] else []

end Shape

/-- A shape made ready to be filled. -/
structure Layout where
  /-- The tree, with the number of the slot at each leaf. -/
  tree : Tree Nat
  /-- The postfix form of the tree. -/
  form : Postfix Nat
  /-- The position of each slot in the form. -/
  slotPositions : List Nat
  /-- The earlier slot to which each slot is tied, if it is. -/
  minFrom : List (Option Nat)

namespace Layout

/-- The positions of the leaves, where the first token is at `position`. -/
def leafPositions (position : Nat) : List (Token Nat) → List Nat
  | [] => []
  | .leaf _ :: rest => position :: leafPositions (position + 1) rest
  | .join _ :: rest => leafPositions (position + 1) rest

/-- The ties entered into a table with one place for each slot. -/
def tieTable (slots : Nat) (ties : List (Nat × Nat)) : List (Option Nat) :=
  ties.foldl (fun table tie => table.set tie.1 (some tie.2)) (List.replicate slots none)

/-- The layout of a shape. -/
def ofShape (shape : Shape) : Layout where
  tree := shape.numbered 0
  form := (shape.numbered 0).toPostfix
  slotPositions := leafPositions 0 (shape.numbered 0).tokens
  minFrom := tieTable shape.leafCount (shape.ties 0)

/-- The number of slots. -/
def slots (l : Layout) : Nat := l.slotPositions.length

/-- The layouts with `n` leaves, in search order. -/
def withLeaves (n : Nat) : List Layout := (Shape.withLeaves n).map ofShape

end Layout

end Ohmic
