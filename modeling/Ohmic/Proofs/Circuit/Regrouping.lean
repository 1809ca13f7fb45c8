import Ohmic.Proofs.Circuit.Evaluation
import Ohmic.Proofs.Circuit.Reordering

set_option autoImplicit false

/-!
# Regrouped networks have one impedance

The flat form of a tree merges chains of one connection and sorts their operands, and the impedance
of a group is folded from left to right. Neither changes the impedance where the connections commute
and associate and never fail.

## Main definitions

* `Connection.Regular` — impedances on which the connections commute, associate and never fail.
* `Connection.join?`, `Connection.total?` — connections of impedances that may be missing.
* `Flat.value?` — the impedance of a flat network, if it has one.

## Main results

* `Flat.toOption_evaluateAt` — the value of an evaluation does not depend on positions.
* `Connection.Regular.total?_perm`, `Connection.Regular.total?_append` — totals can be reordered and
  split.
* `Tree.value?_flatten` — the flat form has the value of the tree.
* `Flat.value?_eq_of_reordering` — reordered networks have one value.
* `Tree.value?_eq_of_key_eq` — so have trees with one canonical form.

## Implementation notes

A missing impedance stays missing in every connection, so the laws hold of impedances that may be
missing as well, and a group without children needs no case of its own: its value is missing, in
every order of its children.
-/

namespace Ohmic

variable {S Z : Type} [Scalar S] [Impedance S Z]

/-! ## Regular impedances -/

namespace Connection

/-- **Regular impedances**: finite ones on which both connections succeed without leaving them,
commute and associate. -/
structure Regular (P : Z → Prop) : Prop where
  /-- They are finite. -/
  isFinite : ∀ a, P a → Impedance.isFinite a = true
  /-- Any two of them can be joined, and the result is one of them. -/
  closed : ∀ (c : Connection) a b, P a → P b → ∃ v, c.join a b = .ok v ∧ P v
  /-- The order of two operands does not matter. -/
  comm : ∀ (c : Connection) a b, P a → P b → c.join a b = c.join b a
  /-- Nor does it matter which two of three are joined first. -/
  assoc : ∀ (c : Connection) a b d, P a → P b → P d →
    (c.join a b).bind (fun v => c.join v d) = (c.join b d).bind fun v => c.join a v

/-- The connection of two impedances that may be missing. -/
def join? (c : Connection) (a b : Option Z) : Option Z :=
  a.bind fun v => b.bind fun w => c.combine? v w

/-- Impedances that may be missing, joined from the first one to the last. -/
def total? (c : Connection) : List (Option Z) → Option Z
  | [] => none
  | a :: rest => rest.foldl c.join? a

/-- What is not missing is in `P`. -/
def Within (P : Z → Prop) (a : Option Z) : Prop := ∀ v, a = some v → P v

/-- A missing impedance stays missing. -/
lemma foldl_join?_none (c : Connection) (rest : List (Option Z)) :
    rest.foldl c.join? none = none := by
  induction rest with
  | nil => rfl
  | cons b rest ih => exact ih

namespace Regular

variable {P : Z → Prop} (h : Regular P) (c : Connection)

include h

/-- Regular impedances have a regular combination. -/
lemma exists_combine? {a b : Z} (ha : P a) (hb : P b) :
    ∃ v, c.join a b = .ok v ∧ c.combine? a b = some v ∧ P v := by
  obtain ⟨v, hv, hP⟩ := h.closed c a b ha hb
  refine ⟨v, hv, ?_, hP⟩
  rw [combine?, joinAt, hv]
  simp only [h.isFinite v hP, if_true]
  rfl

/-- Connections stay within the regular impedances. -/
lemma join?_within {a b : Option Z} (ha : Within P a) (hb : Within P b) :
    Within P (c.join? a b) := by
  intro v hv
  obtain ⟨x, rfl, y, rfl, hxy⟩ :
      ∃ x, a = some x ∧ ∃ y, b = some y ∧ c.combine? x y = some v := by
    simpa only [join?, Option.bind_eq_some_iff] using hv
  obtain ⟨w, -, hw, hP⟩ := h.exists_combine? c (ha x rfl) (hb y rfl)
  obtain rfl : w = v := Option.some.inj (hw.symm.trans hxy)
  exact hP

/-- Connections commute. -/
lemma join?_comm {a b : Option Z} (ha : Within P a) (hb : Within P b) :
    c.join? a b = c.join? b a := by
  rcases a with _ | x <;> rcases b with _ | y
  · rfl
  · rfl
  · rfl
  · have hjoin : c.join x y = c.join y x := h.comm c x y (ha x rfl) (hb y rfl)
    simp only [join?, Option.bind_some, combine?, joinAt, hjoin]

/-- Connections associate. -/
lemma join?_assoc {a b d : Option Z} (ha : Within P a) (hb : Within P b) (hd : Within P d) :
    c.join? (c.join? a b) d = c.join? a (c.join? b d) := by
  rcases a with _ | x
  · rfl
  rcases b with _ | y
  · rfl
  rcases d with _ | z
  · simp only [join?, Option.bind_none, Option.bind_fun_none]
  obtain ⟨v, hv, hxy, hPv⟩ := h.exists_combine? c (ha x rfl) (hb y rfl)
  obtain ⟨w, hw, hyz, hPw⟩ := h.exists_combine? c (hb y rfl) (hd z rfl)
  have hjoin : c.join v z = c.join x w := by
    have hassoc := h.assoc c x y z (ha x rfl) (hb y rfl) (hd z rfl)
    rwa [hv, hw] at hassoc
  simp only [join?, Option.bind_some, hxy, hyz]
  simp only [combine?, joinAt, hjoin]

/-! ## Totals -/

variable {a b : Option Z} {as bs : List (Option Z)}

/-- Folds stay within the regular impedances. -/
lemma foldl_within (ha : Within P a) (has : ∀ x ∈ as, Within P x) :
    Within P (as.foldl c.join? a) := by
  induction as generalizing a with
  | nil => exact ha
  | cons x as ih =>
    rw [List.forall_mem_cons] at has
    exact ih (h.join?_within c ha has.1) has.2

/-- Totals stay within the regular impedances. -/
lemma total?_within (has : ∀ x ∈ as, Within P x) : Within P (c.total? as) := by
  cases as with
  | nil => exact nofun
  | cons x as =>
    rw [List.forall_mem_cons] at has
    exact h.foldl_within c has.1 has.2

/-- What is joined in front of a fold can be joined to its result. -/
lemma foldl_join? (ha : Within P a) (hb : Within P b) (hbs : ∀ x ∈ bs, Within P x) :
    bs.foldl c.join? (c.join? a b) = c.join? a (bs.foldl c.join? b) := by
  induction bs generalizing b with
  | nil => rfl
  | cons x bs ih =>
    rw [List.forall_mem_cons] at hbs
    rw [List.foldl_cons, List.foldl_cons, h.join?_assoc c ha hb hbs.1,
      ih (h.join?_within c hb hbs.1) hbs.2]

/-- A fold does not depend on the order of what is joined. -/
lemma foldl_perm (ha : Within P a) (hperm : as.Perm bs) (has : ∀ x ∈ as, Within P x) :
    as.foldl c.join? a = bs.foldl c.join? a := by
  induction hperm generalizing a with
  | nil => rfl
  | cons x _ ih =>
    rw [List.forall_mem_cons] at has
    exact ih (h.join?_within c ha has.1) has.2
  | swap x y l =>
    simp only [List.forall_mem_cons] at has
    obtain ⟨hy, hx, -⟩ := has
    rw [List.foldl_cons, List.foldl_cons, List.foldl_cons, List.foldl_cons,
      h.join?_assoc c ha hy hx, h.join?_comm c hy hx, h.join?_assoc c ha hx hy]
  | trans hfirst _ ih ih' =>
    exact (ih ha has).trans (ih' ha fun x hx => has x (hfirst.mem_iff.mpr hx))

/-- **Totals can be reordered.** -/
lemma total?_perm (hperm : as.Perm bs) (has : ∀ x ∈ as, Within P x) :
    c.total? as = c.total? bs := by
  induction hperm with
  | nil => rfl
  | cons x hperm _ =>
    rw [List.forall_mem_cons] at has
    exact h.foldl_perm c has.1 hperm has.2
  | swap x y l =>
    simp only [List.forall_mem_cons] at has
    exact congrArg (l.foldl c.join?) (h.join?_comm c has.1 has.2.1)
  | trans hfirst _ ih ih' =>
    exact (ih has).trans (ih' fun x hx => has x (hfirst.mem_iff.mpr hx))

/-- **Totals can be split**, if neither part is empty. -/
lemma total?_append (has : ∀ x ∈ as, Within P x) (hbs : ∀ x ∈ bs, Within P x) (hne : as ≠ [])
    (hne' : bs ≠ []) : c.total? (as ++ bs) = c.join? (c.total? as) (c.total? bs) := by
  obtain ⟨x, as, rfl⟩ := List.exists_cons_of_ne_nil hne
  obtain ⟨y, bs, rfl⟩ := List.exists_cons_of_ne_nil hne'
  rw [List.forall_mem_cons] at has hbs
  rw [List.cons_append, total?, List.foldl_append, List.foldl_cons]
  exact h.foldl_join? c (h.foldl_within c has.1 has.2) hbs.1 hbs.2

end Regular

end Connection

/-! ## The value of a flat network -/

namespace Flat

mutual

/-- The impedance of a network, if all its leaves and combinations are finite, none cancels and no
group is empty. -/
def value? : Flat Z → Option Z
  | leaf z => if Impedance.isFinite z then some z else none
  | group c children => c.total? (values children)

/-- The impedances of networks. -/
def values : List (Flat Z) → List (Option Z)
  | [] => []
  | child :: rest => child.value? :: values rest

end

/-- The impedances are those of each network. -/
lemma values_eq_map (xs : List (Flat Z)) : values xs = xs.map value? := by
  induction xs with
  | nil => rfl
  | cons x xs ih => rw [values, ih, List.map_cons]

mutual

/-- **The value of an evaluation** does not depend on the position of the first token. -/
lemma toOption_evaluateAt (position : Nat) :
    ∀ n : Flat Z, (n.evaluateAt position).toOption = n.value?
  | leaf z => by
    rw [evaluateAt, leafAt, value?]
    split <;> rfl
  | group c [] => rfl
  | group c (first :: rest) => by
    rw [evaluateAt, value?, values, Connection.total?, ← toOption_evaluateAt position first]
    cases first.evaluateAt position with
    | error fault => exact (Connection.foldl_join?_none c _).symm
    | ok value => exact toOption_joinAll c value (position + first.tokenCount) rest

/-- The value of networks joined to a value. -/
lemma toOption_joinAll (c : Connection) (value : Z) (position : Nat) :
    ∀ xs : List (Flat Z),
      (joinAll c value position xs).toOption = (values xs).foldl c.join? (some value)
  | [] => rfl
  | child :: rest => by
    rw [joinAll, values, List.foldl_cons, ← toOption_evaluateAt position child]
    cases child.evaluateAt position with
    | error fault => exact (Connection.foldl_join?_none c _).symm
    | ok next =>
      have hjoin : c.join? (some value) (some next) =
          (c.joinAt (position + child.tokenCount) value next).toOption :=
        (c.toOption_joinAt _ _ _).symm
      simp only [bind, Except.bind, Except.toOption] at hjoin ⊢
      rw [hjoin]
      cases c.joinAt (position + child.tokenCount) value next with
      | error fault => exact (Connection.foldl_join?_none c _).symm
      | ok value' => exact toOption_joinAll c value' (position + child.tokenCount + 1) rest

end

/-- A network evaluates to an impedance exactly if that is its value. -/
lemma evaluate_eq_ok_iff {n : Flat Z} {v : Z} : n.evaluate = .ok v ↔ n.value? = some v := by
  rw [← toOption_evaluateAt 0 n, evaluate]
  cases n.evaluateAt 0 <;> simp [Except.toOption]

variable {P : Z → Prop}

mutual

/-- The value of a network with regular leaves is regular. -/
lemma value?_within (h : Connection.Regular P) :
    ∀ n : Flat Z, (∀ z ∈ n.leaves, P z) → Connection.Within P n.value?
  | leaf z, hz => by
    intro v hv
    rw [value?, if_pos (h.isFinite z (hz z (List.mem_singleton_self z)))] at hv
    exact Option.some.inj hv ▸ hz z (List.mem_singleton_self z)
  | group c xs, hxs => h.total?_within c (values_within h xs hxs)

/-- The values of networks with regular leaves are regular. -/
lemma values_within (h : Connection.Regular P) :
    ∀ xs : List (Flat Z), (∀ z ∈ leavesAll xs, P z) → ∀ a ∈ values xs, Connection.Within P a
  | [], _ => nofun
  | x :: xs, hxs => by
    rw [leavesAll, List.forall_mem_append] at hxs
    exact List.forall_mem_cons.mpr ⟨value?_within h x hxs.1, values_within h xs hxs.2⟩

end

variable (h : Connection.Regular P)

include h

/-- One reordering keeps the value. -/
lemma value?_eq_of_reordered {n m : Flat Z} (hn : ∀ z ∈ n.leaves, P z) (hr : Reordered n m) :
    m.value? = n.value? := by
  induction hr with
  | @children c xs ys hperm =>
    rw [value?, value?]
    refine (h.total?_perm c ?_ (values_within h xs hn)).symm
    rw [values_eq_map, values_eq_map]
    exact hperm.map _
  | @child c before after x y _ ih =>
    have hx : ∀ z ∈ x.leaves, P z := by
      intro z hz
      refine hn z ?_
      rw [leaves, leavesAll_eq_flatMap]
      exact List.mem_flatMap.mpr ⟨x, List.mem_append_right _ List.mem_cons_self, hz⟩
    simp only [value?, values_eq_map, List.map_append, List.map_cons, ih hx]

/-- **Reordered networks** with regular leaves have one value. -/
theorem value?_eq_of_reordering {n m : Flat Z} (hn : ∀ z ∈ n.leaves, P z) (hr : Reordering n m) :
    m.value? = n.value? := by
  induction hr with
  | refl => rfl
  | @tail m' m hfirst hlast ih =>
    have hm' : ∀ z ∈ m'.leaves, P z := by
      intro z hz
      exact hn z ((Reordering.leaves_perm hfirst).mem_iff.mpr hz)
    exact (value?_eq_of_reordered h hm' hlast).trans ih

end Flat

/-! ## Trees and their flat forms -/

namespace Tree

variable {P : Z → Prop} (h : Connection.Regular P)

include h

/-- A tree with regular leaves has a regular value. -/
lemma exists_value? {t : Tree Z} (ht : ∀ z ∈ t.leaves, P z) : ∃ v, t.value? = some v ∧ P v := by
  induction t with
  | leaf z =>
    have hz := ht z (List.mem_singleton_self z)
    exact ⟨z, if_pos (h.isFinite z hz), hz⟩
  | node c l r ihl ihr =>
    obtain ⟨a, ha, hPa⟩ := ihl fun z hz => ht z (List.mem_append_left _ hz)
    obtain ⟨b, hb, hPb⟩ := ihr fun z hz => ht z (List.mem_append_right _ hz)
    obtain ⟨v, -, hv, hPv⟩ := h.exists_combine? c hPa hPb
    exact ⟨v, value?_node_eq_some.mpr ⟨a, b, ha, hb, hv⟩, hPv⟩

omit h in
/-- What a network contributes to a group has the total of the network, if it is not empty. -/
lemma total?_spread (c : Connection) (n : Flat Z) :
    c.total? ((n.spread c).map Flat.value?) = n.value? := by
  cases n with
  | leaf z => rfl
  | group d xs =>
    by_cases hd : d = c
    · subst hd
      rw [Flat.spread, if_pos rfl, Flat.value?, Flat.values_eq_map]
    · rw [Flat.spread, if_neg hd]
      rfl

/-- **The flat form** of a tree with regular leaves has the value of the tree.

**Proof sketch.** Induction on the tree. What the flat forms of the operands contribute to the group
has their values as totals (`total?_spread`). The sort of the group only reorders these, and the
total of all of them is the connection of both totals. -/
theorem value?_flatten {t : Tree Z} (ht : ∀ z ∈ t.leaves, P z) : t.flatten.value? = t.value? := by
  induction t with
  | leaf z => rfl
  | node c l r ihl ihr =>
    rw [leaves, List.forall_mem_append] at ht
    -- what an operand contributes: regular values, and at least one
    have side : ∀ t : Tree Z, (∀ z ∈ t.leaves, P z) → t.flatten.value? = t.value? →
        (∀ a ∈ (t.flatten.spread c).map Flat.value?, Connection.Within P a) ∧
          (t.flatten.spread c).map Flat.value? ≠ [] := by
      intro t ht hvalue
      constructor
      · rw [← Flat.values_eq_map]
        refine Flat.values_within h _ fun z hz => ht z ?_
        rw [Flat.leavesAll_spread] at hz
        exact t.leaves_flatten_perm.mem_iff.mp hz
      · intro hnil
        obtain ⟨v, hv, -⟩ := exists_value? h ht
        have htotal := total?_spread c t.flatten
        rw [hnil, hvalue, hv] at htotal
        cases htotal
    obtain ⟨hl, hlne⟩ := side l ht.1 (ihl ht.1)
    obtain ⟨hr, hrne⟩ := side r ht.2 (ihr ht.2)
    have hsort := (stableSort_perm (fun x y : Flat Z => decide (x.size ≤ y.size))
      (l.flatten.spread c ++ r.flatten.spread c)).map Flat.value?
    rw [List.map_append] at hsort
    calc (node c l r).flatten.value?
        = c.total? ((Flat.sortBySize (l.flatten.spread c ++ r.flatten.spread c)).map
            Flat.value?) := by rw [flatten, Flat.value?, Flat.values_eq_map]
      _ = c.total? ((l.flatten.spread c).map Flat.value? ++
            (r.flatten.spread c).map Flat.value?) :=
          (h.total?_perm c hsort.symm (List.forall_mem_append.mpr ⟨hl, hr⟩)).symm
      _ = c.join? l.flatten.value? r.flatten.value? := by
          rw [h.total?_append c hl hr hlne hrne, total?_spread, total?_spread]
      _ = (node c l r).value? := by
          rw [ihl ht.1, ihr ht.2]
          rfl

/-- The canonical form with its leaves filled in has the value of the tree with its leaves filled
in. -/
lemma value?_key_map {α : Type} [Ord α] {f : α → Z} {t : Tree α} (ht : ∀ a ∈ t.leaves, P (f a)) :
    (t.key.map f).value? = (t.map f).value? := by
  have hleaves : ∀ z ∈ (t.map f).leaves, P z := by
    rw [leaves_map, List.forall_mem_map]
    exact ht
  have hflat : ∀ z ∈ (t.map f).flatten.leaves, P z :=
    fun z hz => hleaves z ((t.map f).leaves_flatten_perm.mem_iff.mp hz)
  have hkey : Flat.Reordering (t.map f).flatten (t.key.map f) := by
    rw [flatten_map]
    exact (Flat.reordering_canonical t.flatten).map f
  rw [Flat.value?_eq_of_reordering h hflat hkey, value?_flatten h hleaves]

/-- **Trees with one canonical form** have one value, once their leaves are filled in. -/
theorem value?_eq_of_key_eq {α : Type} [Ord α] {f : α → Z} {s t : Tree α}
    (hs : ∀ a ∈ s.leaves, P (f a)) (hkey : s.key = t.key) :
    (s.map f).value? = (t.map f).value? := by
  have ht : ∀ a ∈ t.leaves, P (f a) := by
    intro a ha
    have hperm := (leaves_key_perm t).symm.trans (hkey ▸ leaves_key_perm s)
    exact hs a (hperm.mem_iff.mp ha)
  rw [← value?_key_map h hs, hkey, value?_key_map h ht]

end Tree

end Ohmic
