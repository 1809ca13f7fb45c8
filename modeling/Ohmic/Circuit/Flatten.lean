import Ohmic.Circuit.Flat
import Ohmic.Circuit.Tree
import Ohmic.StableSort

set_option autoImplicit false

/-!
# The flat form of a tree

## Main definitions

* `Tree.flatten` — the flat form of a binary tree: chains of one connection are merged into one
  group, and smaller children come first.

## Implementation notes

The sort is by size alone and stable, so children of one size keep the order of the tree. The
leaves are not looked at, hence flattening works over any type of leaves.
-/

namespace Ohmic

/-- The networks sorted by size alone; those of one size keep their order. -/
def Flat.sortBySize {α : Type} (children : List (Flat α)) : List (Flat α) :=
  stableSort (fun x y => decide (x.size ≤ y.size)) children

/-- What a network contributes to a group of the connection: its children if it is such a group
itself, and itself otherwise. -/
def Flat.spread {α : Type} (c : Connection) : Flat α → List (Flat α)
  | .group d children => if d = c then children else [.group d children]
  | .leaf a => [.leaf a]

/-- The flat form of a tree. -/
def Tree.flatten {α : Type} : Tree α → Flat α
  | leaf a => .leaf a
  | node c left right =>
    .group c (Flat.sortBySize (left.flatten.spread c ++ right.flatten.spread c))

/-- A tree is written as its flat form. -/
instance instHasTextTree {α : Type} [HasText α] : HasText (Tree α) where
  text t := t.flatten.text

end Ohmic
