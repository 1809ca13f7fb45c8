import Mathlib.Data.List.Forall2
import Ohmic.Proofs.Circuit.Evaluation
import Ohmic.Proofs.Circuit.Reading
import Ohmic.Proofs.Number.Exact

set_option autoImplicit false

/-!
# The stack machine on any sequence

The stack machine can be given any sequence of tokens. If the sequence is the form of a tree, the
machine computes what the tree evaluates to. If it is not, the machine stops at the first token
without a value, or, if there is none, at the fault for which the sequence is not the form of a
tree. Which of both happens is said here of the sequence alone, without a stack.

## Main definitions

* `Postfix.FaultAt` — a token without a value: a leaf that is not finite, or a connection of the
  two networks written just before it whose impedances have no combination.
* `Postfix.FaultFree`, `Postfix.FirstFault` — no token before a position is without a value, and
  the first token that is.
* `Machine.Ending` — how a scan of the machine ends, beside a reading of the same sequence.

## Main results

* `Postfix.faultAt_leaf_iff`, `Postfix.faultAt_join_iff` — the fault of a token that the machine
  comes to.
* `Machine.scan_ending` — the scan of the machine beside the reading.
* `Machine.evaluate_toTree` — the machine, the tree and the balance agree on every sequence.

## Implementation notes

The machine and the reader go through the same tokens, and their stacks correspond: the values on
the one are the impedances of the trees on the other. The operands of a connection are found in the
text before it. They are determined by it, since the tokens of a tree can be read in one way only.
-/

namespace Ohmic

variable {S Z : Type} [Scalar S] [Impedance S Z]

/-! ## Tokens without a value -/

namespace Postfix

/-- The token at a position has no value, for the given fault. -/
inductive FaultAt (tokens : List (Token Z)) (i : Nat) (fault : Fault) : Prop where
  /-- It is a leaf that is not finite. -/
  | leaf {z : Z} (htoken : tokens[i]? = some (.leaf z)) (h : leafAt i z = .error fault)
  /-- It joins the two networks written just before it, and their impedances have no
  combination. -/
  | join {c : Connection} {before : List (Token Z)} {left right : Tree Z} {a b : Z}
    (htoken : tokens[i]? = some (.join c))
    (hoperands : tokens.take i = before ++ (left.tokens ++ right.tokens))
    (hleft : left.evaluate = .ok a) (hright : right.evaluate = .ok b)
    (h : c.joinAt i a b = .error fault)

/-- All tokens before a position have values, as far as they have operands. -/
def FaultFree (tokens : List (Token Z)) (stop : Nat) : Prop :=
  ∀ i < stop, ∀ fault, ¬ FaultAt tokens i fault

/-- The first token without a value. -/
structure FirstFault (tokens : List (Token Z)) (i : Nat) (fault : Fault) : Prop where
  /-- The token has no value. -/
  faultAt : FaultAt tokens i fault
  /-- Those before it do. -/
  free : FaultFree tokens i

variable {tokens : List (Token Z)} {position : Nat} {fault : Fault}

/-- The fault of a leaf. -/
lemma faultAt_leaf_iff {z : Z} (htoken : tokens[position]? = some (.leaf z)) :
    FaultAt tokens position fault ↔ leafAt position z = .error fault := by
  constructor
  · rintro (⟨htoken', h⟩ | ⟨htoken', -, -, -, -⟩)
    · obtain rfl := Token.leaf.inj (Option.some.inj (htoken.symm.trans htoken'))
      exact h
    · cases htoken.symm.trans htoken'
  · exact .leaf htoken

/-- The latest two trees that wait are those written last. -/
lemma operands_of_grow {before done : List (Token Z)} {left right left' right' : Tree Z}
    {below : List (Tree Z)} (hgrow : grow 0 [] done = .ok (right :: left :: below))
    (hdone : done = before ++ (left'.tokens ++ right'.tokens)) :
    left' = left ∧ right' = right := by
  rw [hdone, grow_append] at hgrow
  cases hbefore : grow 0 [] before with
  | error fault =>
    rw [hbefore] at hgrow
    cases hgrow
  | ok waiting =>
    have hright := grow_tokens right' (0 + before.length + left'.tokenCount) (left' :: waiting) []
    rw [List.append_nil] at hright
    rw [hbefore, Except.bind, grow_tokens, hright] at hgrow
    obtain ⟨rfl, hrest⟩ := List.cons.inj (Except.ok.inj hgrow)
    obtain ⟨rfl, -⟩ := List.cons.inj hrest
    exact ⟨rfl, rfl⟩

/-- The fault of a connection with two operands. -/
lemma faultAt_join_iff {c : Connection} {left right : Tree Z} {below : List (Tree Z)} {a b : Z}
    (htoken : tokens[position]? = some (.join c))
    (hgrow : grow 0 [] (tokens.take position) = .ok (right :: left :: below))
    (hleft : left.evaluate = .ok a) (hright : right.evaluate = .ok b) :
    FaultAt tokens position fault ↔ c.joinAt position a b = .error fault := by
  constructor
  · rintro (⟨htoken', -⟩ | ⟨htoken', hoperands, hleft', hright', h⟩)
    · cases htoken.symm.trans htoken'
    · obtain rfl := Token.join.inj (Option.some.inj (htoken.symm.trans htoken'))
      obtain ⟨rfl, rfl⟩ := operands_of_grow hgrow hoperands
      obtain rfl := Except.ok.inj (hleft.symm.trans hleft')
      obtain rfl := Except.ok.inj (hright.symm.trans hright')
      exact h
  · have hwritten := written_of_grow hgrow
    rw [written_cons, written_cons, List.append_assoc] at hwritten
    exact .join htoken hwritten hleft hright

/-- A token with a value lengthens the beginning that is free of faults. -/
lemma FaultFree.succ (h : FaultFree tokens position)
    (hnext : ∀ fault, ¬ FaultAt tokens position fault) : FaultFree tokens (position + 1) := by
  intro i hi
  rcases Nat.lt_or_eq_of_le (Nat.le_of_lt_succ hi) with hlt | rfl
  · exact h i hlt
  · exact hnext

end Postfix

/-! ## Machine and reader side by side -/

/-- A leaf that has a value somewhere has this value anywhere. -/
lemma Tree.evaluate_leaf_of_leafAt {position : Nat} {z v : Z} (h : leafAt position z = .ok v) :
    (Tree.leaf z).evaluate = .ok v := by
  rw [Tree.evaluate_eq_ok_iff, ← Tree.toOption_evaluateAt _ position, Tree.evaluateAt, h,
    Except.toOption]

/-- Operands that are joined somewhere are joined anywhere. -/
lemma Tree.evaluate_node_of_joinAt {c : Connection} {left right : Tree Z} {position : Nat}
    {a b v : Z} (hleft : left.evaluate = .ok a) (hright : right.evaluate = .ok b)
    (h : c.joinAt position a b = .ok v) : (Tree.node c left right).evaluate = .ok v := by
  rw [Tree.evaluate_eq_ok_iff] at hleft hright ⊢
  exact Tree.value?_node_eq_some.mpr
    ⟨a, b, hleft, hright, (Connection.joinAt_eq_ok_iff position).mp h⟩

namespace Machine

open Postfix

/-- How a scan of a token sequence ends, beside a reading of the same sequence. -/
inductive Ending (tokens : List (Token Z)) :
    Except Fault (List (Tree Z)) → List Z × Option Fault → Prop where
  /-- At the first token without a value, which the reading comes to as well. -/
  | valueless {reading : Except Fault (List (Tree Z))} {i : Nat} {fault : Fault} (stack : List Z)
    (hfirst : FirstFault tokens i fault) (hlt : i < tokens.length)
    (hreading : ∀ unread, reading = .error unread → i < unread.position) :
    Ending tokens reading (stack, some fault)
  /-- Where the reading ends. -/
  | unread {fault : Fault} (stack : List Z) (hfree : FaultFree tokens fault.position) :
    Ending tokens (.error fault) (stack, some fault)
  /-- After the last token, with the impedances of the trees that wait. -/
  | complete {trees : List (Tree Z)} {stack : List Z} (hfree : FaultFree tokens tokens.length)
    (hvalues : List.Forall₂ (fun t v => t.evaluate = .ok v) trees stack) :
    Ending tokens (.ok trees) (stack, none)

/-- **Machine and reader side by side.** After a beginning of the sequence that is read and has
values, the machine ends as `Ending` says.

**Proof sketch.** By induction on the tokens that are left. The trees that wait and the values on
the stack correspond, so a connection has two operands in both or in none of them, and its fault is
the one of the values (`faultAt_join_iff`). -/
lemma scan_ending {tokens done rest : List (Token Z)} (htokens : done ++ rest = tokens)
    {trees : List (Tree Z)} {stack : List Z} (hgrow : grow 0 [] done = .ok trees)
    (hvalues : List.Forall₂ (fun t v => t.evaluate = .ok v) trees stack)
    (hfree : FaultFree tokens done.length) :
    Ending tokens (grow done.length trees rest) (scan done.length stack rest) := by
  induction rest generalizing done trees stack with
  | nil =>
    rw [List.append_nil] at htokens
    exact .complete (htokens ▸ hfree) hvalues
  | cons token rest ih =>
    have hat : tokens[done.length]? = some token := by
      rw [← htokens, List.getElem?_append_right (Nat.le_refl _), Nat.sub_self,
        List.getElem?_cons_zero]
    have hlt : done.length < tokens.length := (List.getElem?_eq_some_iff.mp hat).1
    have htake : tokens.take done.length = done := by rw [← htokens, List.take_left]
    have hnext : (done ++ [token]) ++ rest = tokens := by
      rw [← htokens, List.append_assoc, List.singleton_append]
    have hlength : (done ++ [token]).length = done.length + 1 := by
      rw [List.length_append, List.length_singleton]
    have hunread : ∀ {trees' : List (Tree Z)} {unread : Fault},
        grow (done.length + 1) trees' rest = .error unread → done.length < unread.position := by
      intro trees' unread h
      obtain ⟨at', rfl, hle, -⟩ := grow_eq_error h
      exact hle
    cases token with
    | leaf z =>
      have hgrow' : grow 0 [] (done ++ [.leaf z]) = .ok (.leaf z :: trees) := by
        rw [grow_append, hgrow]
        rfl
      cases hleaf : leafAt done.length z with
      | error fault =>
        simp only [scan, hleaf]
        exact .valueless stack ⟨(faultAt_leaf_iff hat).mpr hleaf, hfree⟩ hlt fun _ => hunread
      | ok v =>
        have hfault : ∀ fault, ¬ FaultAt tokens done.length fault := by
          intro fault
          rw [faultAt_leaf_iff hat, hleaf]
          exact fun h => by cases h
        simp only [grow, scan, hleaf]
        rw [← hlength]
        exact ih hnext hgrow' (.cons (Tree.evaluate_leaf_of_leafAt hleaf) hvalues)
          (hlength ▸ hfree.succ hfault)
    | join c =>
      -- the stacks are equally high
      rcases hvalues with _ | @⟨right, b, trees, stack, hright, hvalues⟩
      · exact .unread _ hfree
      rcases hvalues with _ | @⟨left, a, below, belowStack, hleft, hvalues⟩
      · exact .unread _ hfree
      have hgrow' : grow 0 [] (done ++ [.join c]) = .ok (.node c left right :: below) := by
        rw [grow_append, hgrow]
        rfl
      have hfaultAt : ∀ fault, FaultAt tokens done.length fault ↔
          c.joinAt done.length a b = .error fault := fun fault =>
        faultAt_join_iff hat (htake ▸ hgrow) hleft hright
      cases hjoin : c.joinAt done.length a b with
      | error fault =>
        simp only [scan, hjoin]
        exact .valueless belowStack ⟨(hfaultAt fault).mpr hjoin, hfree⟩ hlt fun _ => hunread
      | ok v =>
        have hfault : ∀ fault, ¬ FaultAt tokens done.length fault := by
          intro fault
          rw [hfaultAt, hjoin]
          exact fun h => by cases h
        simp only [grow, scan, hjoin]
        rw [← hlength]
        exact ih hnext hgrow' (.cons (Tree.evaluate_node_of_joinAt hleft hright hjoin) hvalues)
          (hlength ▸ hfree.succ hfault)

/-- What an earlier evaluation left on the stack has no influence. -/
lemma fst_evaluate_eq (m m' : Machine Z) (tokens : List (Token Z)) :
    (m.evaluate tokens).1 = (m'.evaluate tokens).1 := by
  unfold evaluate
  split <;> rfl

/-- A machine that is used again gives to each sequence what a fresh one gives to it. -/
lemma evaluateAll_eq_map (m : Machine Z) (runs : List (List (Token Z))) :
    m.evaluateAll runs = runs.map fun tokens => (Postfix.mk tokens).evaluate := by
  induction runs generalizing m with
  | nil => rfl
  | cons tokens runs ih =>
    simp only [evaluateAll, ih, List.map_cons]
    exact congrArg (· :: _) (fst_evaluate_eq m {} tokens)

/-- **A sequence that is not the form of a tree** has no impedance. The machine stops at the fault
of the reading if no token before it is without a value, and else at the first such token.

**Proof sketch.** The machine and the reading go through the tokens together, and `Ending` says how
the two may end. The reading has a fault on its way, and then so has the machine, there or at an
earlier token. Or the reading ends with several trees, and then the machine has stopped at a token
or ends with as many values, which is the same fault. -/
lemma evaluate_of_unread (m : Machine Z) (e : Postfix Z) {unread : Fault}
    (h : e.toTree = .error unread) :
    (FaultFree e.tokens unread.position ∧ (m.evaluate e.tokens).1 = .error unread) ∨
    ∃ i fault, i < unread.position ∧ FirstFault e.tokens i fault ∧
      (m.evaluate e.tokens).1 = .error fault := by
  by_cases hempty : e.tokens = []
  · -- the empty sequence
    obtain rfl : Fault.malformed 0 .empty = unread := by
      simpa only [toTree, hempty, grow, Except.error.injEq] using h
    exact .inl ⟨fun i hi => absurd hi (Nat.not_lt_zero i), by rw [hempty]; rfl⟩
  · have hending : Ending e.tokens (grow 0 [] e.tokens) (scan 0 [] e.tokens) :=
      scan_ending (List.nil_append _) rfl .nil fun i hi => absurd hi (Nat.not_lt_zero i)
    rw [evaluate, List.isEmpty_eq_false_iff.mpr hempty]
    generalize scan 0 [] e.tokens = result at hending
    rcases grow_of_toTree_eq_error h hempty with hgrow | ⟨trees, hgrow, hone, rfl⟩
    · rw [hgrow] at hending
      cases hending with
      | valueless stack hfirst hlt hreading =>
        exact .inr ⟨_, _, hreading unread rfl, hfirst, rfl⟩
      | unread stack hfree => exact .inl ⟨hfree, rfl⟩
    · rw [hgrow] at hending
      cases hending with
      | valueless stack hfirst hlt hreading => exact .inr ⟨_, _, hlt, hfirst, rfl⟩
      | @complete _ stack hfree hvalues =>
        refine .inl ⟨hfree, ?_⟩
        rw [hvalues.length_eq] at hone ⊢
        rcases stack with _ | ⟨a, _ | ⟨b, stack⟩⟩
        · rfl
        · exact absurd rfl hone
        · rfl

/-- **The machine, the tree and the balance agree on every sequence of tokens**, whatever an earlier
evaluation left on the stack, and whatever the arithmetic.

* The form of a tree: the machine computes what the tree evaluates to, or stops at the same fault.
* Any other sequence: the machine stops, at the fault for which the sequence is not the form of a
  tree if no token before it is without a value, and otherwise at the first token without a value.
* So a sequence that is not balanced has no impedance.
* The tokens of a tree, and all sequences that one machine is given, are special cases.

**Proof sketch.** The form of a tree consists of its tokens (`tokens_of_toTree`), and the machine
evaluates these as the tree does (`evaluate_tokens`). For any other sequence the reading fails in
between or several trees wait in the end, and `scan_ending` says how the machine ends beside it. -/
theorem evaluate_toTree (m : Machine Z) (e : Postfix Z) :
    (∀ t, e.toTree = .ok t → (m.evaluate e.tokens).1 = t.evaluate) ∧
    (∀ unread, e.toTree = .error unread →
      (FaultFree e.tokens unread.position ∧ (m.evaluate e.tokens).1 = .error unread) ∨
      ∃ i fault, i < unread.position ∧ FirstFault e.tokens i fault ∧
        (m.evaluate e.tokens).1 = .error fault) ∧
    (∀ unbalanced, e.check = .error unbalanced →
      ∃ fault, (m.evaluate e.tokens).1 = .error fault) ∧
    (∀ t : Tree Z, (m.evaluate t.toPostfix.tokens).1 = t.evaluate) ∧
    ∀ runs, m.evaluateAll runs = runs.map fun tokens => (Postfix.mk tokens).evaluate := by
  have hmalformed : ∀ unread, e.toTree = .error unread →
      (FaultFree e.tokens unread.position ∧ (m.evaluate e.tokens).1 = .error unread) ∨
      ∃ i fault, i < unread.position ∧ FirstFault e.tokens i fault ∧
        (m.evaluate e.tokens).1 = .error fault := fun _ => evaluate_of_unread m e
  refine ⟨fun t ht => ?_, hmalformed, fun unbalanced hcheck => ?_, fun t => evaluate_tokens m t,
    evaluateAll_eq_map m⟩
  · rw [tokens_of_toTree ht, evaluate_tokens]
  · rw [check_eq] at hcheck
    cases htree : e.toTree with
    | ok t =>
      rw [htree] at hcheck
      cases hcheck
    | error unread =>
      rcases hmalformed unread htree with ⟨-, h⟩ | ⟨i, fault, -, -, h⟩
      · exact ⟨unread, h⟩
      · exact ⟨fault, h⟩

/-- One and minus one cancel in parallel, before a connection in series that has one operand only;
one and two in series are three. -/
theorem evaluate_toTree_cancelling :
    let m : Machine ℚ := ⟨[7]⟩
    let cancelling : Postfix ℚ := ⟨[.leaf 1, .leaf (-1), .join .parallel, .join .series]⟩
    let three : Postfix ℚ := ⟨[.leaf 1, .leaf 2, .join .series]⟩
    cancelling.toTree = .error (.malformed 3 .missingOperands) ∧
      (∃ i fault, i < 3 ∧ FirstFault cancelling.tokens i fault ∧
        (m.evaluate cancelling.tokens).1 = .error fault) ∧
      cancelling.check = .error (.malformed 3 .missingOperands) ∧
      (∃ fault, (m.evaluate cancelling.tokens).1 = .error fault) ∧
      three.toTree = .ok (.series (.leaf 1) (.leaf 2)) ∧
      (m.evaluate three.tokens).1 = (Tree.series (.leaf 1) (.leaf 2)).evaluate := by
  intro m cancelling three
  have htree : cancelling.toTree = .error (.malformed 3 .missingOperands) := rfl
  have hcheck : cancelling.check = .error (.malformed 3 .missingOperands) := rfl
  have hthree : three.toTree = .ok (.series (.leaf 1) (.leaf 2)) := rfl
  obtain ⟨-, hfirst, hunbalanced, -⟩ := evaluate_toTree m cancelling
  refine ⟨htree, ?_, hcheck, hunbalanced _ hcheck, hthree, (evaluate_toTree m three).1 _ hthree⟩
  rcases hfirst _ htree with ⟨-, h⟩ | h
  · exact absurd h (by decide +kernel)
  · exact h

end Machine

end Ohmic
