import Ohmic.Circuit.Tree

set_option autoImplicit false

/-!
# The shapes of networks

A shape is a binary tree with connections but without values. Since both connections commute,
shapes are listed up to the order of the two operands: the left operand is never larger than the
right one, and operands of one size appear in the order of the list. There are 1, 2, 4 and 14
shapes with one to four leaves.

## Main definitions

* `Shape` — a tree whose leaves say nothing.
* `Shape.joinedBetween`, `Shape.joinedWithin` — the shapes made of a left and a right operand of
  two lists, and of one list.
* `Shape.table`, `Shape.withLeaves` — the shapes by number of leaves.
-/

namespace Ohmic

/-- A tree without values. -/
abbrev Shape := Tree Unit

namespace Shape

/-- A single leaf. -/
def single : Shape := .leaf ()

/-- Two shapes in both connections. -/
def joined (left right : Shape) : List Shape := Connection.all.map fun c => .node c left right

/-- Every left operand with every right one. -/
def joinedBetween (lefts rights : List Shape) : List Shape :=
  lefts.flatMap fun left => rights.flatMap (joined left)

/-- Every operand with itself and with those after it. -/
def joinedWithin : List Shape → List Shape
  | [] => []
  | left :: rest => (left :: rest).flatMap (joined left) ++ joinedWithin rest

/-- The shapes with `n` leaves, from a list that holds the shapes of every smaller number of leaves
at that index. -/
def ofSmaller (smaller : List (List Shape)) (n : Nat) : List Shape :=
  (List.range (n / 2)).flatMap fun i =>
    let left := i + 1
    let right := n - left
    if left = right then joinedWithin (smaller.getD left [])
    else joinedBetween (smaller.getD left []) (smaller.getD right [])

/-- The shapes with up to `n` leaves; those with `k` leaves are at index `k`. -/
def table : Nat → List (List Shape)
  | 0 => [[]]
  | 1 => [[], [single]]
  | n + 2 => table (n + 1) ++ [ofSmaller (table (n + 1)) (n + 2)]

/-- The shapes with `n` leaves. -/
def withLeaves (n : Nat) : List Shape := (table n).getD n []

end Shape

end Ohmic
