import Ohmic.Circuit.Flat.Order
import Ohmic.Circuit.Flatten
import Ohmic.Search.Descent

set_option autoImplicit false

/-!
# Findings

A finding is a network that the search reports, in all its forms.

## Main definitions

* `Finding` — the tree, its impedance and deviation, and its canonical flat form over the alphabet
  and over the indices of its values.
* `Finding.ofCandidate` — the finding of a candidate.
* `Finding.compare` — the ranking: by number of leaves, by relative deviation, by canonical form.
* `Finding.ranked` — the findings from the best to the worst.
-/

namespace Ohmic

/-- A network that the search reports. -/
structure Finding (S Z : Type) where
  /-- The tree that was evaluated. -/
  tree : Tree Z
  /-- Its impedance. -/
  impedance : Z
  /-- The deviation of the impedance from the target. -/
  deviation : Deviation S Z
  /-- The canonical flat form over the indices of the values. -/
  key : Flat Nat
  /-- The canonical flat form. -/
  network : Flat Z

namespace Finding

variable {S Z : Type}

/-- The finding of a candidate. -/
def ofCandidate (layouts : List Layout) (alphabet : List Z) (c : Candidate S Z) :
    Except Defect (Finding S Z) := do
  let layout ← readAt layouts c.layout
  let some indexTree := layout.tree.mapM? fun slot => c.indices[slot]? | .error .outOfRange
  let some tree := indexTree.mapM? fun index => alphabet[index]? | .error .outOfRange
  let key := indexTree.flatten.canonical
  let some network := key.mapM? fun index => alphabet[index]? | .error .outOfRange
  return {
    tree := tree
    impedance := c.value
    deviation := c.deviation
    key := key
    network := network }

/-- The postfix form of the tree. -/
def form (f : Finding S Z) : Postfix Z := f.tree.toPostfix

/-- The number of leaves. -/
def leafCount (f : Finding S Z) : Nat := f.key.size

/-- A finding is written as its canonical network. -/
instance instHasTextFinding [HasText Z] : HasText (Finding S Z) where
  text f := f.network.text

variable [Scalar S]

/-- The ranking of findings, the better one first. -/
protected def compare (f g : Finding S Z) : Ordering :=
  (Ord.compare f.leafCount g.leafCount).then
    ((Scalar.rank f.deviation.relative g.deviation.relative).then (f.key.compare g.key))

/-- The findings from the best to the worst. -/
def ranked (findings : List (Finding S Z)) : List (Finding S Z) :=
  findings.mergeSort fun f g => (f.compare g).isLE

end Finding

end Ohmic
