import Ohmic.Circuit.Tree
import Ohmic.Text.Basic

set_option autoImplicit false

/-!
# Networks in postfix form

A network as a sequence of tokens in which both operands precede their connection, such as
`47000 100000 +`. Any sequence can be written down; `check` tells whether it is the form of a
network.

## Main definitions

* `Token`, `Postfix` — leaves and connections, and sequences of them.
* `Tree.toPostfix`, `Postfix.toTree` — the form of a tree, and the tree of a form.
* `Postfix.check` — the balance of a sequence, without building anything.
* `Postfix.combine` — two forms joined by a connection.
* `Postfix.map` — a change of every leaf.
* `Postfix.text` — the tokens, separated by blanks.

## Implementation notes

`check` and `toTree` read from left to right. `check` counts the values that wait for a
connection; `toTree` keeps them, the latest first.
-/

namespace Ohmic

/-- An element of a postfix form. -/
inductive Token (α : Type) where
  /-- A part. -/
  | leaf (value : α)
  /-- A connection of the two networks before it. -/
  | join (connection : Connection)
deriving DecidableEq, BEq

namespace Token

variable {α β : Type}

/-- The token is a part. -/
def isLeaf : Token α → Bool
  | leaf _ => true
  | join _ => false

/-- The value of a part. -/
def leaf? : Token α → Option α
  | leaf a => some a
  | join _ => none

/-- A leaf changed by `f`; a connection stays. -/
def map (f : α → β) : Token α → Token β
  | leaf a => leaf (f a)
  | join c => join c

/-- The written form of a token. -/
protected def text [HasText α] : Token α → String
  | leaf a => HasText.text a
  | join c => c.symbol

end Token

/-- A sequence of tokens. -/
structure Postfix (α : Type) where
  /-- The tokens from first to last. -/
  tokens : List (Token α)
deriving DecidableEq, BEq

/-- The tokens of a tree: those of the left operand, those of the right one, the connection. -/
def Tree.tokens {α : Type} : Tree α → List (Token α)
  | leaf a => [.leaf a]
  | node c left right => left.tokens ++ right.tokens ++ [.join c]

/-- The postfix form of a tree. -/
def Tree.toPostfix {α : Type} (t : Tree α) : Postfix α := ⟨t.tokens⟩

namespace Postfix

variable {α β : Type}

/-- A single part. -/
def leaf (a : α) : Postfix α := ⟨[.leaf a]⟩

/-- Two forms joined by a connection. -/
def combine (c : Connection) (left right : Postfix α) : Postfix α :=
  ⟨left.tokens ++ right.tokens ++ [.join c]⟩

/-- Two forms in series. -/
def series (left right : Postfix α) : Postfix α := combine .series left right

/-- Two forms in parallel. -/
def parallel (left right : Postfix α) : Postfix α := combine .parallel left right

/-- The number of tokens. -/
def size (e : Postfix α) : Nat := e.tokens.length

/-- There are no tokens. -/
def isEmpty (e : Postfix α) : Bool := e.tokens.isEmpty

/-- The number of parts. -/
def leafCount (e : Postfix α) : Nat := e.tokens.countP Token.isLeaf

/-- The number of connections. -/
def connectionCount (e : Postfix α) : Nat := e.size - e.leafCount

/-- The parts from first to last. -/
def leaves (e : Postfix α) : List α := e.tokens.filterMap Token.leaf?

/-- Every leaf changed by `f`. -/
def map (f : α → β) (e : Postfix α) : Postfix β := ⟨e.tokens.map (Token.map f)⟩

/-- The same network with phasors as leaves. -/
def toPhasor {S Z : Type} [Impedance S Z] (e : Postfix Z) : Postfix (Phasor S) :=
  e.map Impedance.toPhasor

/-- The written form: the tokens separated by blanks. -/
protected def text [HasText α] (e : Postfix α) : String :=
  " ".intercalate (e.tokens.map Token.text)

/-- A postfix form is written token by token. -/
instance instHasTextPostfix [HasText α] : HasText (Postfix α) where
  text := Postfix.text

/-! ## Balance -/

/-- The number of values that wait after the given tokens, when `waiting` of them did before the
first token, at `position`. -/
def balance (position waiting : Nat) : List (Token α) → Except Fault Nat
  | [] => .ok waiting
  | .leaf _ :: rest => balance (position + 1) (waiting + 1) rest
  | .join _ :: rest =>
    if waiting < 2 then .error (.malformed position .missingOperands)
    else balance (position + 1) (waiting - 1) rest

/-- Whether the sequence is the form of a network: it has tokens, every connection has two
operands before it, and one value is left. -/
def check (e : Postfix α) : Except Fault Unit :=
  if e.tokens.isEmpty then .error (.malformed 0 .empty)
  else
    match balance 0 0 e.tokens with
    | .error fault => .error fault
    | .ok 1 => .ok ()
    | .ok count => .error (.malformed e.size (.leftoverOperands count))

/-! ## Trees -/

/-- The trees that wait after the given tokens, the latest first, when `waiting` did before the
first token, at `position`. -/
def grow (position : Nat) (waiting : List (Tree α)) : List (Token α) → Except Fault (List (Tree α))
  | [] => .ok waiting
  | .leaf a :: rest => grow (position + 1) (.leaf a :: waiting) rest
  | .join c :: rest =>
    match waiting with
    | right :: left :: below => grow (position + 1) (.node c left right :: below) rest
    | _ => .error (.malformed position .missingOperands)

/-- The tree of a form. -/
def toTree (e : Postfix α) : Except Fault (Tree α) :=
  match grow 0 [] e.tokens with
  | .error fault => .error fault
  | .ok [] => .error (.malformed 0 .empty)
  | .ok [t] => .ok t
  | .ok trees => .error (.malformed e.size (.leftoverOperands trees.length))

end Postfix

end Ohmic
