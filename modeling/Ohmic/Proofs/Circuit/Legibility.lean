import Ohmic.Proofs.Circuit.NormalForm

set_option autoImplicit false

/-!
# Written networks can be read

The infix form shows the connection of a group between its children only, and groups within groups
repeat the same symbols. Still the text of a network determines the network, if every group has two
children or more and the texts of the parts can be told apart from each other and from the symbols.
A postfix form is determined by its text, whatever its tokens are.

## Main definitions

* `Legible` — leaves with texts that can be told apart and keep clear of the symbols.
* `Flat.Branching` — every group has two children or more.
* `Flat.characters` — the infix form, character by character.

## Main results

* `Flat.Branching.readable` — the text of a network determines where it ends, and the network.
* `Flat.Branching.text_inj`, `Postfix.text_inj` — the infix form and the postfix form determine the
  network and the token sequence.
* `Flat.text_group_of_length_le_one` — the connection of a smaller group is not written.
* `Legible.texts_unambiguous` — all written forms together.

## Implementation notes

Text that follows a network is part of the statements by which it is read: the children of a group
are read from the text of the whole group, where a blank or a closing parenthesis follows each of
them.
-/

namespace Ohmic

/-- **Legible leaves**: no two leaves have one text, and a text is a word without blanks and
parentheses that is not the symbol of a connection. -/
structure Legible (α : Type) [HasText α] : Prop where
  /-- Different leaves have different texts. -/
  injective : Function.Injective (text : α → String)
  /-- A text is not empty. -/
  nonempty : ∀ a : α, (text a).toList ≠ []
  /-- It has no blanks. -/
  blank_notMem : ∀ a : α, ' ' ∉ (text a).toList
  /-- It has no opening parenthesis. -/
  open_notMem : ∀ a : α, '(' ∉ (text a).toList
  /-- It has no closing parenthesis. -/
  close_notMem : ∀ a : α, ')' ∉ (text a).toList
  /-- It is not the symbol of a connection. -/
  ne_symbol : ∀ (a : α) (c : Connection), text a ≠ c.symbol

/-- The connections have different symbols. -/
lemma Connection.symbol_injective : Function.Injective symbol := by
  intro c d h
  cases c <;> cases d <;> first | rfl | exact absurd h (by decide)

/-- Texts with a separator in between: the first one, and each further one after the separator. -/
lemma intercalate_cons_eq_append_flatMap {α : Type} (separator first : List α)
    (rest : List (List α)) :
    separator.intercalate (first :: rest) = first ++ rest.flatMap (separator ++ ·) := by
  induction rest generalizing first with
  | nil => rw [List.intercalate_singleton, List.flatMap_nil, List.append_nil]
  | cons second rest ih =>
    rw [List.intercalate_cons_cons, ih, List.flatMap_cons, List.append_assoc, List.append_assoc]

variable {α : Type}

namespace Flat

/-- **Branching networks**: every group, at any depth, has two children or more. -/
inductive Branching : Flat α → Prop where
  /-- A single part. -/
  | leaf (a : α) : Branching (leaf a)
  /-- A group of branching networks. -/
  | group {c : Connection} {children : List (Flat α)} (two : 2 ≤ children.length)
    (branching : ∀ child ∈ children, Branching child) : Branching (group c children)

/-- Normal networks are branching. -/
lemma Normal.branching {n : Flat α} (h : n.Normal) : n.Branching := by
  induction h with
  | leaf a => exact .leaf a
  | group two _ _ _ ih => exact .group two ih

variable [HasText α]

/-! ## Characters -/

/-- The infix form, character by character. -/
def characters (n : Flat α) : List Char := (Flat.text n).toList

/-- What is written of the children of a group after the first one: each after the symbol of the
connection, with a blank on either side. -/
def furtherCharacters (c : Connection) (children : List (Flat α)) : List Char :=
  children.flatMap fun child => ' ' :: c.symbol.toList ++ ' ' :: child.characters

/-- The first of the further children is written before the others. -/
lemma furtherCharacters_cons (c : Connection) (x : Flat α) (xs : List (Flat α)) :
    furtherCharacters c (x :: xs) =
      ' ' :: (c.symbol.toList ++ ' ' :: (x.characters ++ furtherCharacters c xs)) := by
  rw [furtherCharacters, List.flatMap_cons, List.cons_append, List.cons_append, List.append_assoc]
  rfl

/-- A part is written as its text. -/
lemma characters_leaf (a : α) : (leaf a).characters = (text a).toList := by
  rw [characters, Flat.text]

/-- The texts of networks are the texts of each of them. -/
lemma textAll_eq_map (xs : List (Flat α)) : textAll xs = xs.map Flat.text := by
  induction xs with
  | nil => rfl
  | cons x xs ih => rw [textAll, ih, List.map_cons]

/-- A group is written as its children in parentheses. -/
lemma characters_group (c : Connection) (first : Flat α) (rest : List (Flat α)) :
    (group c (first :: rest)).characters =
      '(' :: first.characters ++ furtherCharacters c rest ++ [')'] := by
  have hseparator : (" " ++ c.symbol ++ " ").toList = ' ' :: c.symbol.toList ++ [' '] := by
    cases c <;> rfl
  rw [characters, Flat.text, String.toList_append, String.toList_append, String.toList_intercalate,
    textAll_eq_map, List.map_map, List.map_cons, intercalate_cons_eq_append_flatMap,
    List.flatMap_map, hseparator]
  simp [furtherCharacters, characters]

/-- **The connection of a small group** is not written: with at most one child it makes no
difference to the text. -/
lemma text_group_of_length_le_one (c d : Connection) {children : List (Flat α)}
    (h : children.length ≤ 1) : (group c children).text = (group d children).text := by
  match children, h with
  | [], _ => rfl
  | [child], _ => rw [Flat.text, Flat.text, textAll, textAll]; rfl

/-! ## Where a network ends -/

/-- A character that ends the text of a part within a network. -/
def isBreak (a : Char) : Bool := a == ' ' || a == ')'

/-- Nothing follows, or a break does. -/
def Ended (rest : List Char) : Prop := rest.takeWhile (fun a => !isBreak a) = []

/-- Two words without breaks, after each of which something has ended, are the same word. -/
lemma eq_of_append_ended {v w r s : List Char} (hv : ∀ a ∈ v, isBreak a = false)
    (hw : ∀ a ∈ w, isBreak a = false) (hr : Ended r) (hs : Ended s) (h : v ++ r = w ++ s) :
    v = w ∧ r = s := by
  have hwords := congrArg (List.takeWhile fun a => !isBreak a) h
  rw [List.takeWhile_append_of_pos fun a ha => by rw [hv a ha]; rfl,
    List.takeWhile_append_of_pos fun a ha => by rw [hw a ha]; rfl, hr, hs, List.append_nil,
    List.append_nil] at hwords
  subst hwords
  exact ⟨rfl, List.append_cancel_left h⟩

/-- After a child of a group something has ended. -/
lemma ended_furtherCharacters (c : Connection) (children : List (Flat α)) (rest : List Char) :
    Ended (furtherCharacters c children ++ ')' :: rest) := by
  cases children <;> rfl

/-! ## Reading a network -/

/-- A network can be told from every branching one by its text, whatever follows. -/
def Readable (x : Flat α) : Prop :=
  ∀ y : Flat α, y.Branching → ∀ r s, Ended r → Ended s →
    x.characters ++ r = y.characters ++ s → x = y ∧ r = s

/-- **The further children of a group** can be read up to the parenthesis that closes the group,
and the connection if there is one of them.

**Proof sketch.** By induction on the children. A group that is closed and one that goes on differ
in their next character. Where both go on, the symbols agree from their first character on, the
child in front is read (`Readable`) as it is followed by what ends it, and the rest is read by
induction. -/
lemma eq_of_furtherCharacters {c d : Connection} {xs ys : List (Flat α)} {r s : List Char}
    (hx : ∀ x ∈ xs, Readable x) (hy : ∀ y ∈ ys, y.Branching)
    (h : furtherCharacters c xs ++ ')' :: r = furtherCharacters d ys ++ ')' :: s) :
    (xs = ys ∧ r = s) ∧ (xs ≠ [] → c = d) := by
  induction xs generalizing ys with
  | nil =>
    cases ys with
    | nil => exact ⟨⟨rfl, (List.cons.inj h).2⟩, fun hne => absurd rfl hne⟩
    | cons y ys => exact absurd (List.cons.inj h).1 (by decide)
  | cons x xs ih =>
    cases ys with
    | nil => exact absurd (List.cons.inj h).1 (by decide)
    | cons y ys =>
      rw [List.forall_mem_cons] at hx hy
      simp only [furtherCharacters_cons, List.cons_append, List.append_assoc, List.cons.injEq,
        true_and] at h
      -- the symbols are told apart by their first character
      obtain rfl : c = d := by
        cases c <;> cases d <;> first | rfl | exact absurd (List.cons.inj h).1 (by decide)
      have hchild := (List.cons.inj (List.append_cancel_left h)).2
      obtain ⟨rfl, hrest⟩ := hx.1 y hy.1 _ _ (ended_furtherCharacters c xs r)
        (ended_furtherCharacters c ys s) hchild
      obtain ⟨⟨rfl, rfl⟩, -⟩ := ih hx.2 hy.2 hrest
      exact ⟨⟨rfl, rfl⟩, fun _ => rfl⟩

section

variable (hlegible : Legible α)

include hlegible

/-- The text of a part has no break. -/
lemma isBreak_of_mem_text {a : α} {b : Char} (hb : b ∈ (text a).toList) : isBreak b = false := by
  rw [isBreak, Bool.or_eq_false_iff, beq_eq_false_iff_ne, beq_eq_false_iff_ne]
  exact ⟨fun h => hlegible.blank_notMem a (h ▸ hb), fun h => hlegible.close_notMem a (h ▸ hb)⟩

/-- What starts with a parenthesis is not the text of a part. -/
lemma text_append_ne {a : α} {r s : List Char} : (text a).toList ++ r ≠ '(' :: s := by
  intro h
  cases hword : (text a).toList with
  | nil => exact hlegible.nonempty a hword
  | cons b word =>
    rw [hword] at h
    obtain rfl := (List.cons.inj h).1
    exact hlegible.open_notMem a (hword ▸ List.mem_cons_self)

/-- A part can be read. -/
lemma readable_leaf (a : α) : Readable (leaf a) := by
  intro y hy r s hr hs h
  rw [characters_leaf] at h
  cases hy with
  | leaf b =>
    rw [characters_leaf] at h
    obtain ⟨hword, hrest⟩ := eq_of_append_ended (fun _ => isBreak_of_mem_text hlegible)
      (fun _ => isBreak_of_mem_text hlegible) hr hs h
    exact ⟨congrArg leaf (hlegible.injective (String.toList_inj.mp hword)), hrest⟩
  | @group d children two branching =>
    match children, two with
    | first :: rest, _ =>
      rw [characters_group] at h
      exact absurd h (text_append_ne hlegible)

/-- **Where a branching network ends**, and which one it is, can be read from its text.

**Proof sketch.** Induction on the network. The text of a part ends at the first break, and that of
a group starts with a parenthesis. The children of a group are read one after the other: each is
followed by a blank or by the parenthesis that closes the group, and after a blank stands the symbol
of the connection. -/
theorem Branching.readable {x : Flat α} (hx : x.Branching) : Readable x := by
  induction hx with
  | leaf a => exact readable_leaf hlegible a
  | @group c children two _ ih =>
    match children, two with
    | first :: second :: rest, _ =>
      intro y hy r s _ _ h
      rw [List.forall_mem_cons] at ih
      cases hy with
      | leaf b =>
        rw [characters_leaf, characters_group] at h
        exact absurd h.symm (text_append_ne hlegible)
      | @group d others two' branching =>
        match others, two' with
        | first' :: others, _ =>
          rw [List.forall_mem_cons] at branching
          simp only [characters_group, List.cons_append, List.append_assoc, List.nil_append,
            List.cons.injEq, true_and] at h
          obtain ⟨rfl, hfurther⟩ := ih.1 first' branching.1 _ _
            (ended_furtherCharacters c (second :: rest) r) (ended_furtherCharacters d others s) h
          obtain ⟨⟨rfl, rfl⟩, hconnection⟩ := eq_of_furtherCharacters ih.2 branching.2 hfurther
          obtain rfl := hconnection (List.cons_ne_nil _ _)
          exact ⟨rfl, rfl⟩

/-- **The infix form** of a branching network determines the network. -/
theorem Branching.text_inj {x y : Flat α} (hx : x.Branching) (hy : y.Branching)
    (h : x.text = y.text) : x = y :=
  (hx.readable hlegible y hy [] [] rfl rfl (congrArg (·.toList ++ []) h)).1

end

end Flat

/-! ## Postfix forms -/

namespace Token

variable [HasText α] (hlegible : Legible α)

include hlegible

/-- Different tokens have different texts. -/
lemma text_injective : Function.Injective (Token.text : Token α → String) := by
  intro t u h
  cases t with
  | leaf a =>
    cases u with
    | leaf b => exact congrArg leaf (hlegible.injective h)
    | join d => exact absurd h (hlegible.ne_symbol a d)
  | join c =>
    cases u with
    | leaf b => exact absurd h.symm (hlegible.ne_symbol b c)
    | join d => exact congrArg join (Connection.symbol_injective h)

/-- The text of a token is a word: it is not empty and has no blanks. -/
lemma word_text (t : Token α) : t.text.toList ≠ [] ∧ ' ' ∉ t.text.toList := by
  cases t with
  | leaf a => exact ⟨hlegible.nonempty a, hlegible.blank_notMem a⟩
  | join c =>
    rw [Token.text]
    cases c <;> decide

end Token

namespace Postfix

variable [HasText α]

/-- The postfix form, character by character. -/
lemma toList_text (e : Postfix α) :
    (text e).toList = [' '].intercalate (e.tokens.map fun t => t.text.toList) := by
  show (" ".intercalate (e.tokens.map Token.text)).toList = _
  rw [String.toList_intercalate, List.map_map]
  rfl

variable (hlegible : Legible α)

include hlegible

/-- Only the empty sequence is written as nothing. -/
lemma text_eq_nil_iff (e : Postfix α) : (text e).toList = [] ↔ e.tokens = [] := by
  rw [toList_text]
  constructor
  · intro h
    cases htokens : e.tokens with
    | nil => rfl
    | cons t tokens =>
      rw [htokens, List.map_cons, intercalate_cons_eq_append_flatMap] at h
      exact absurd (List.append_eq_nil_iff.mp h).1 (Token.word_text hlegible t).1
  · intro h
    rw [h]
    rfl

/-- **The postfix form** determines the sequence of tokens.

**Proof sketch.** A sequence without tokens has the empty text. Any other text is split at its
blanks into the texts of the tokens, none of which holds a blank (`Token.word_text`), and these
determine the tokens (`Token.text_injective`). -/
theorem text_inj {e f : Postfix α} (h : text e = text f) : e = f := by
  have hlist := congrArg String.toList h
  have hnil : e.tokens = [] ↔ f.tokens = [] := by
    rw [← text_eq_nil_iff hlegible, ← text_eq_nil_iff hlegible, hlist]
  by_cases he : e.tokens = []
  · rw [Postfix.mk.injEq, he, hnil.mp he]
  · -- the words are what stands between the blanks
    have hsplit : ∀ g : Postfix α, g.tokens ≠ [] →
        (text g).toList.splitOn ' ' = g.tokens.map fun t => t.text.toList := by
      intro g hg
      rw [toList_text]
      refine List.splitOn_intercalate ' ' (List.forall_mem_map.mpr fun t _ => ?_) ?_
      · exact (Token.word_text hlegible t).2
      · exact fun hmap => hg (List.map_eq_nil_iff.mp hmap)
    have hwords := hsplit e he
    rw [hlist, hsplit f fun hf => he (hnil.mpr hf)] at hwords
    have hinjective : Function.Injective fun t : Token α => t.text.toList :=
      fun t u htu => Token.text_injective hlegible (String.toList_inj.mp htu)
    rw [Postfix.mk.injEq]
    exact (hinjective.list_map hwords).symm

end Postfix

/-! ## All written forms -/

/-- Natural numbers are legible. -/
lemma legible_nat : Legible ℕ := by
  have hdigit : ∀ (n : ℕ) (a : Char), a.isDigit = false → a ∉ (text n).toList := by
    intro n a ha hmem
    have hdigits : (text n).toList = Nat.toDigits 10 n := String.toList_ofList
    rw [hdigits] at hmem
    rw [Nat.isDigit_of_mem_toDigits (by decide) (by decide) hmem] at ha
    cases ha
  refine ⟨fun m n h => ?_, fun n hnil => ?_, fun n => hdigit n _ rfl,
    fun n => hdigit n _ rfl, fun n => hdigit n _ rfl, fun n c hsymbol => ?_⟩
  · have hdigits := congrArg (Nat.ofDigitChars 10 · 0) (String.ofList_inj.mp h)
    simpa only [Nat.ofDigitChars_ten_toDigits] using hdigits
  · exact Nat.toDigits_ne_nil (String.toList_ofList.symm.trans hnil)
  · cases c with
    | series => exact hdigit n '+' rfl (hsymbol ▸ by decide)
    | parallel => exact hdigit n '|' rfl (hsymbol ▸ by decide)

/-- **Written networks are unambiguous.** If the leaves are legible, flat networks in which every
group has two children or more have different texts, two trees have one text exactly if they have
one flat form, and different sequences of tokens have different texts, well formed or not.

**Proof sketch.** A branching network can be read from its text and whatever follows it
(`Flat.Branching.readable`). The flat form of a tree is branching, and a tree is written as its flat
form. The tokens of a postfix form are the words between its blanks. -/
theorem Legible.texts_unambiguous [HasText α] (h : Legible α) :
    (∀ x y : Flat α, x.Branching → y.Branching → text x = text y → x = y) ∧
      (∀ s t : Tree α, text s = text t ↔ s.flatten = t.flatten) ∧
      ∀ e f : Postfix α, text e = text f → e = f := by
  refine ⟨fun x y hx hy => Flat.Branching.text_inj h hx hy, fun s t => ⟨fun hst => ?_, ?_⟩,
    fun e f => Postfix.text_inj h⟩
  · exact Flat.Branching.text_inj h s.normal_flatten.branching t.normal_flatten.branching hst
  · exact fun hst => congrArg Flat.text hst

/-- Indices are legible. Two arrangements of a chain have one text, a chain of the other connection
has a different one, and so have a symbol alone and nothing. -/
theorem Legible.texts_unambiguous_indices :
    let s : Tree ℕ := .node .series (.leaf 0) (.node .series (.leaf 1) (.leaf 2))
    let t : Tree ℕ := .node .series (.node .series (.leaf 0) (.leaf 1)) (.leaf 2)
    let u : Tree ℕ := .node .series (.node .parallel (.leaf 0) (.leaf 1)) (.leaf 2)
    let single : Postfix ℕ := ⟨[.join .series]⟩
    Legible ℕ ∧ text s = text t ∧ text s ≠ text u ∧ text s.flatten ≠ text u.flatten ∧
      text single ≠ text (⟨[]⟩ : Postfix ℕ) := by
  intro s t u single
  obtain ⟨hflat, htree, htokens⟩ := texts_unambiguous legible_nat
  have hne : s.flatten ≠ u.flatten := by decide
  refine ⟨legible_nat, (htree s t).mpr (by decide), fun h => hne ((htree s u).mp h), fun h => ?_,
    fun h => absurd (htokens _ _ h) (by decide)⟩
  exact hne (hflat _ _ s.normal_flatten.branching u.normal_flatten.branching h)

end Ohmic
