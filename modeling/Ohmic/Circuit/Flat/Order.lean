import Ohmic.Circuit.Flat
import Ohmic.StableSort

set_option autoImplicit false

/-!
# The order of flat networks and their canonical form

## Main definitions

* `Flat.compare` — the structural order: a leaf before a group, series before parallel, and then
  the children from first to last, where a list that ends first comes first.
* `Flat.compareChildren` — the order of the children of a canonical group: by size, then by
  structure.
* `Flat.canonical` — the network with the children of every group sorted, from the inside out.

## Implementation notes

The sort is stable. It puts children that are already canonical in order, so two networks that
differ in the order of children at any depth have one canonical form.
-/

namespace Ohmic

namespace Flat

variable {α : Type} [Ord α]

mutual

/-- The structural order of networks. -/
protected def compare : Flat α → Flat α → Ordering
  | leaf a, leaf b => Ord.compare a b
  | leaf _, group _ _ => .lt
  | group _ _, leaf _ => .gt
  | group c xs, group d ys => (Ord.compare c d).then (compareAll xs ys)

/-- The lexicographic order of lists of networks. -/
def compareAll : List (Flat α) → List (Flat α) → Ordering
  | [], [] => .eq
  | [], _ :: _ => .lt
  | _ :: _, [] => .gt
  | x :: xs, y :: ys => (x.compare y).then (compareAll xs ys)

end

/-- The structural order. -/
instance instOrdFlat : Ord (Flat α) where
  compare := Flat.compare

/-- By size, then by structure. -/
def compareChildren (x y : Flat α) : Ordering :=
  (Ord.compare x.size y.size).then (x.compare y)

/-- The networks sorted by size, then by structure. -/
def sortChildren (children : List (Flat α)) : List (Flat α) :=
  stableSort (fun x y => (compareChildren x y).isLE) children

mutual

/-- The children of every group sorted by size, then by structure. -/
def canonical : Flat α → Flat α
  | leaf a => leaf a
  | group c children => group c (sortChildren (canonicalAll children))

/-- The canonical forms of all the networks, in the given order. -/
def canonicalAll : List (Flat α) → List (Flat α)
  | [] => []
  | child :: rest => child.canonical :: canonicalAll rest

end

end Flat

end Ohmic
