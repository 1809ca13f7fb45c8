import Ohmic.Circuit.Connection
import Ohmic.Text.Basic

set_option autoImplicit false

/-!
# Flat networks

A series/parallel network in which a connection joins any number of networks at once. Chains of
one connection, which a binary tree can arrange in many ways, have one flat form up to the order
of the children.

## Main definitions

* `Flat` — the networks, over any type of leaves. A group may be empty or have a single child;
  `Tree.flatten` never builds one.
* `Flat.size` — the number of parts.
* `Flat.map` — a change of every leaf.
* `Flat.evaluate` — the impedance, every group folded from left to right.
* `Flat.text` — the infix form, such as `(220000 || (47000 + 100000))`.

## Implementation notes

Each function comes with its companion on lists of children, so that both recurse on the
structure.
-/

namespace Ohmic

/-- A series/parallel network with groups of any size. -/
inductive Flat (α : Type) where
  /-- A single part. -/
  | leaf (value : α)
  /-- Networks joined by one connection. -/
  | group (connection : Connection) (children : List (Flat α))

namespace Flat

variable {α β : Type}

mutual

/-- Equality of networks can be decided. -/
def decEq [DecidableEq α] : (x y : Flat α) → Decidable (x = y)
  | leaf a, leaf b => if h : a = b then isTrue (h ▸ rfl) else isFalse fun e => h (leaf.inj e)
  | leaf _, group _ _ => isFalse nofun
  | group _ _, leaf _ => isFalse nofun
  | group c xs, group d ys =>
    if h : c = d then
      match decEqAll xs ys with
      | isTrue e => isTrue (h ▸ e ▸ rfl)
      | isFalse e => isFalse fun same => e (group.inj same).2
    else isFalse fun same => h (group.inj same).1

/-- Equality of lists of networks can be decided. -/
def decEqAll [DecidableEq α] : (xs ys : List (Flat α)) → Decidable (xs = ys)
  | [], [] => isTrue rfl
  | [], _ :: _ => isFalse nofun
  | _ :: _, [] => isFalse nofun
  | x :: xs, y :: ys =>
    match decEq x y, decEqAll xs ys with
    | isTrue e, isTrue es => isTrue (e ▸ es ▸ rfl)
    | isFalse e, _ => isFalse fun same => e (List.cons.inj same).1
    | _, isFalse es => isFalse fun same => es (List.cons.inj same).2

end

/-- Equality of networks can be decided. -/
instance instDecidableEqFlat [DecidableEq α] : DecidableEq (Flat α) := decEq

mutual

/-- The number of parts. -/
def size : Flat α → Nat
  | leaf _ => 1
  | group _ children => sizeAll children

/-- The number of parts of all the networks. -/
def sizeAll : List (Flat α) → Nat
  | [] => 0
  | child :: rest => child.size + sizeAll rest

end

mutual

/-- Every leaf changed by `f`. -/
def map (f : α → β) : Flat α → Flat β
  | leaf a => leaf (f a)
  | group c children => group c (mapAll f children)

/-- Every leaf of all the networks changed by `f`. -/
def mapAll (f : α → β) : List (Flat α) → List (Flat β)
  | [] => []
  | child :: rest => child.map f :: mapAll f rest

end

mutual

/-- Every leaf changed by `f`, if that succeeds for all of them. -/
def mapM? (f : α → Option β) : Flat α → Option (Flat β)
  | leaf a => (f a).map leaf
  | group c children => (mapAllM? f children).map (group c)

/-- Every leaf of all the networks changed by `f`, if that succeeds for all of them. -/
def mapAllM? (f : α → Option β) : List (Flat α) → Option (List (Flat β))
  | [] => some []
  | child :: rest => do
    let child ← child.mapM? f
    let rest ← mapAllM? f rest
    return child :: rest

end

/-! ## Evaluation

A group `(c₀ op c₁ op c₂)` stands for the postfix form `c₀ c₁ op c₂ op`. -/

mutual

/-- The number of tokens of the postfix form. -/
def tokenCount : Flat α → Nat
  | leaf _ => 1
  | group _ [] => 0
  | group _ (first :: rest) => first.tokenCount + tokenCountAll rest

/-- The number of tokens of the networks, each followed by a connection. -/
def tokenCountAll : List (Flat α) → Nat
  | [] => 0
  | child :: rest => child.tokenCount + 1 + tokenCountAll rest

end

section Evaluation

variable {S Z : Type} [Scalar S] [Impedance S Z]

mutual

/-- The impedance of a network whose first token is at `position`. -/
def evaluateAt (position : Nat) : Flat Z → Except Fault Z
  | leaf z => leafAt position z
  | group _ [] => .error (.malformed position .empty)
  | group c (first :: rest) => do
    let value ← first.evaluateAt position
    joinAll c value (position + first.tokenCount) rest

/-- The networks joined one after the other to a value, where the first token of the first one
is at `position`. -/
def joinAll (c : Connection) (value : Z) (position : Nat) : List (Flat Z) → Except Fault Z
  | [] => .ok value
  | child :: rest => do
    let next ← child.evaluateAt position
    let position := position + child.tokenCount
    let value ← c.joinAt position value next
    joinAll c value (position + 1) rest

end

/-- The impedance of a network. -/
def evaluate (n : Flat Z) : Except Fault Z := n.evaluateAt 0

end Evaluation

/-! ## Text -/

mutual

/-- The infix form: a group in parentheses, with the symbol of its connection between the
children. -/
protected def text [HasText α] : Flat α → String
  | leaf a => HasText.text a
  | group c children => "(" ++ (" " ++ c.symbol ++ " ").intercalate (textAll children) ++ ")"

/-- The infix forms of all the networks. -/
def textAll [HasText α] : List (Flat α) → List String
  | [] => []
  | child :: rest => child.text :: textAll rest

end

/-- A flat network is written in infix form. -/
instance instHasTextFlat [HasText α] : HasText (Flat α) where
  text := Flat.text

end Flat

end Ohmic
