import Ohmic.Search.Bench

set_option autoImplicit false

/-!
# The construction of layouts, step by step

Layouts are built in loops that look up lists of smaller shapes, count slots, and write into tables
made beforehand. Here every look-up and every write is checked, as it is on the bench.

## Main definitions

* `Shape.ofSmallerChecked`, `Shape.withLeavesChecked` — the shapes from a growing table.
* `Shape.number` — one pass over a shape that numbers its leaves and enters its ties.
* `Layout.recordPositions` — the positions of the slots, entered in the order of the tokens.
* `Layout.withLeavesChecked` — the layouts with a number of leaves.

## Implementation notes

`Layout.withLeaves` says what the layouts are, without tables that could be too short. The passes
here say how they are made.
-/

namespace Ohmic

namespace Shape

/-- The shapes with `n` leaves. Both lists of operands have to be in the table of smaller shapes. -/
def ofSmallerChecked (smaller : List (List Shape)) (n : Nat) : Except Defect (List Shape) := do
  let parts ← (List.range (n / 2)).mapM fun i => do
    let left := i + 1
    let right := n - left
    let lefts ← readAt smaller left
    let rights ← readAt smaller right
    return if left = right then joinedWithin lefts else joinedBetween lefts rights
  return parts.flatten

/-- The table of shapes with one more list at its end, that of the shapes with `n` leaves. -/
def growTable (table : List (List Shape)) (n : Nat) : Except Defect (List (List Shape)) := do
  let level ← ofSmallerChecked table n
  return table ++ [level]

/-- The shapes with `n` leaves, taken from a table that grows up to `n`. -/
def withLeavesChecked (n : Nat) : Except Defect (List Shape) := do
  let table ← (List.range' 2 (n - 1)).foldlM growTable [[], [single]]
  readAt table n

/-- One pass over a shape: the leaves are numbered from `next` on, and the first slot of the right
one of two equal operands is tied to that of the left one. The result is the numbered tree, the next
number and the table of ties. -/
def number (table : List (Option Nat)) (next : Nat) :
    Shape → Except Defect (Tree Nat × Nat × List (Option Nat))
  | .leaf _ => .ok (.leaf next, next + 1, table)
  | .node c left right => do
    let (numberedLeft, middle, table) ← number table next left
    let (numberedRight, stop, table) ← number table middle right
    let table ← if left = right then writeAt table middle (some next) else .ok table
    return (.node c numberedLeft numberedRight, stop, table)

end Shape

namespace Layout

/-- The position of each leaf entered at the number of its slot, where the first token is at
`position`. -/
def recordPositions (positions : List Nat) (position : Nat) :
    List (Token Nat) → Except Defect (List Nat)
  | [] => .ok positions
  | .leaf slot :: rest => do
    let positions ← writeAt positions slot position
    recordPositions positions (position + 1) rest
  | .join _ :: rest => recordPositions positions (position + 1) rest

/-- The layout of a shape, with tables of as many places as the shape has leaves. -/
def ofShapeChecked (shape : Shape) : Except Defect Layout := do
  let (tree, _, minFrom) ← shape.number (List.replicate shape.leafCount none) 0
  let form := tree.toPostfix
  let positions ← recordPositions (List.replicate shape.leafCount 0) 0 form.tokens
  return { tree := tree, form := form, slotPositions := positions, minFrom := minFrom }

/-- The layouts with `n` leaves, in search order. -/
def withLeavesChecked (n : Nat) : Except Defect (List Layout) :=
  if n = 0 then .ok []
  else do
    let shapes ← Shape.withLeavesChecked n
    shapes.mapM ofShapeChecked

end Layout

end Ohmic
