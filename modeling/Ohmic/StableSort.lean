set_option autoImplicit false

/-!
# Stable insertion sort

The children of a network are few, so they are sorted by insertion. The sort is stable: elements
that compare equal both ways keep their order.

## Main definitions

* `insertBefore` — a value put in front of the first element that it may precede.
* `stableSort` — the elements inserted one by one, from the last to the first.
-/

namespace Ohmic

variable {α : Type}

/-- The value in front of the first element that it may precede. -/
def insertBefore (le : α → α → Bool) (x : α) : List α → List α
  | [] => [x]
  | y :: ys => if le x y then x :: y :: ys else y :: insertBefore le x ys

/-- The elements in order, where equal ones keep the order they had. -/
def stableSort (le : α → α → Bool) : List α → List α
  | [] => []
  | x :: xs => insertBefore le x (stableSort le xs)

end Ohmic
