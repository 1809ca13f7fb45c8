import Ohmic.Proofs.Search.Slots
import Ohmic.Proofs.Search.Workers

set_option autoImplicit false

/-!
# What holds at every call of the descent

The descent writes into one candidate and into its two bounds, and goes on to the next slot in the
middle of the loop over the values of a slot. What each call finds on the bench, and what it leaves
there, is said here with the descent watched: every call is checked when it begins and when it ends,
and an alarm takes the place of its result if a check fails. No check fails, for the watched search
ends as the search does, whatever the alarm is.

## Main definitions

* `Bench.Holds` — what a call finds: the values of the filled slots, and the extreme values in the
  open slots of the bounds.
* `Bench.Restores` — what a call leaves as it was.
* `Explorer.watch`, `Explorer.descendWatched`, `Explorer.exploreWatched` — the search with every
  call of the descent checked.

## Main results

* `Explorer.Stands.holds`, `Explorer.Stands.restores` — both follow from the indices in the filled
  slots.
* `Explorer.fillSlot_alike`, `Explorer.fillFrom_alike` — one slot ends as it began.
* `Explorer.descendWatched_alike` — no check fails in the slots from one on.
* `Explorer.exploreWatched_eq` — no check fails in a work item.

## Implementation notes

An alarm is any result at all, and a failing check hands it to the calls around. A defect is handed
on to the end, so a search that equals the watched one for every alarm has no failing check. Nothing
is assumed of the values and of the bounds: a candidate may be malformed, and there may be fewer
bounds than values. The search fails then, but its calls up to this point are as they should be.
-/

namespace Ohmic

variable {S Z : Type}

/-- A computation of two steps succeeds if both do. -/
lemma bind_eq_ok_iff {ε α β : Type} {m : Except ε α} {f : α → Except ε β} {b : β} :
    m >>= f = .ok b ↔ ∃ a, m = .ok a ∧ f a = .ok b := by
  constructor
  · intro h
    cases m with
    | error reason => cases h
    | ok a => exact ⟨a, rfl, h⟩
  · rintro ⟨a, rfl, h⟩
    exact h

/-! ## What a call finds and leaves -/

namespace Bench

/-- **What a call finds on the bench** when it is to fill the slot after the first `slot` ones. -/
structure Holds (alphabet : List Z) (bounds : Option (Bounds S)) (l : Layout) (slot : Nat)
    (b : Bench S Z) : Prop where
  /-- But for the values of its leaves the candidate is the form of the layout. -/
  tokens_form : skeleton b.tokens () = skeleton l.form.tokens ()
  /-- So are the bounds. -/
  bounds_form : ∀ bd, bounds = some bd → skeleton b.lower () = skeleton l.form.tokens () ∧
    skeleton b.upper () = skeleton l.form.tokens ()
  /-- A filled slot holds the value of its index, in the candidate and in both bounds. -/
  filled : ∀ s < slot, ∃ (place index : Nat) (value : Z), l.slotPositions[s]? = some place ∧
    b.assignment[s]? = some index ∧ alphabet[index]? = some value ∧
    b.tokens[place]? = some (.leaf value) ∧ ∀ bd, bounds = some bd → ∃ real : S,
      bd.values[index]? = some real ∧ b.lower[place]? = some (.leaf real) ∧
      b.upper[place]? = some (.leaf real)
  /-- An open slot holds the extreme values in the bounds. -/
  free : ∀ s < l.slots, slot ≤ s → ∃ place : Nat, l.slotPositions[s]? = some place ∧
    ∀ bd, bounds = some bd → b.lower[place]? = some (.leaf bd.min) ∧
      b.upper[place]? = some (.leaf bd.max)

/-- **What a call leaves as it was**, between the bench `b` at its begin and the bench `b'` at its
end. -/
structure Restores (l : Layout) (slot : Nat) (b b' : Bench S Z) : Prop where
  /-- The lower bound is the same. -/
  lower_eq : b'.lower = b.lower
  /-- So is the upper bound. -/
  upper_eq : b'.upper = b.upper
  /-- Earlier slots keep their indices. -/
  assignment_eq : ∀ s < slot, b'.assignment[s]? = b.assignment[s]?
  /-- So do they keep their values in the candidate. -/
  tokens_eq : ∀ s < slot, ∀ place : Nat, l.slotPositions[s]? = some place →
    b'.tokens[place]? = b.tokens[place]?

end Bench

variable [Scalar S] [Impedance S Z]

namespace Explorer

/-! ## The watched search -/

open Classical in
/-- A call that fills the slot after the first `slot` ones, with the bench checked before and after
it. If a check fails there is an alarm in place of the result. -/
noncomputable def watch (x : Explorer S Z) (alarm : Except Defect (Exploration S Z)) (l : Layout)
    (slot : Nat) (call : Exploration S Z → Except Defect (Exploration S Z))
    (e : Exploration S Z) : Except Defect (Exploration S Z) :=
  if e.bench.Holds x.alphabet x.bounds l slot ∧
      ∀ e', call e = .ok e' → e.bench.Restores l slot e'.bench then call e
  else alarm

/-- The slots from `slot` on, as in the descent, with every call watched. -/
noncomputable def descendWatched (x : Explorer S Z) (alarm : Except Defect (Exploration S Z))
    (layouts : List Layout) (layout : Nat) (l : Layout) :
    (after slot first stop : Nat) → Exploration S Z → Except Defect (Exploration S Z)
  | 0, slot, first, stop =>
    x.watch alarm l slot (x.fillFrom layouts layout slot first stop none)
  | after + 1, slot, first, stop =>
    x.watch alarm l slot (x.fillFrom layouts layout slot first stop
      (some (x.descendWatched alarm layouts layout l after (slot + 1) 0 x.alphabet.length)))

/-- A work item with every call of the descent watched. -/
noncomputable def exploreWatched (x : Explorer S Z) (alarm : Except Defect (Exploration S Z))
    (layouts : List Layout) (layout first : Nat) (bench : Bench S Z) (budget : Budget) :
    Except Defect (Exploration S Z) := do
  let budget := budget.look x.clock
  if budget.stopped then return { bench := bench, budget := budget }
  let l ← readAt layouts layout
  let start : Exploration S Z := { bench := bench.load l x.bounds, budget := budget }
  x.descendWatched alarm layouts layout l (l.slots - 1) 0 first (first + 1) start

/-! ## The indices on the bench -/

variable {x : Explorer S Z} {l : Layout} {layout : Nat} {indices : List Nat} {b₀ b b' : Bench S Z}

/-- The bench inside of the loop over the values of the slot after the indices. Without bounds
nothing is written into those that `b₀` had. -/
structure StandsBut (x : Explorer S Z) (l : Layout) (indices : List Nat) (b₀ b : Bench S Z) :
    Prop where
  /-- The candidate holds the values of the indices. -/
  filled : b.Filled x.alphabet l indices
  /-- So do the bounds, the current slot apart. -/
  boundedBut : b.BoundedBut x.bounds l indices
  /-- Without bounds nothing is written there. -/
  unbounded : x.bounds = none → b.lower = b₀.lower ∧ b.upper = b₀.upper
  /-- Every index is that of a value, and of a bound if there are bounds. -/
  indexed : ∀ i ∈ indices, i < x.alphabet.length ∧ ∀ bd, x.bounds = some bd → i < bd.values.length

/-- The bench before and after the loop over the values of the slot after the indices. -/
structure Stands (x : Explorer S Z) (l : Layout) (indices : List Nat) (b₀ b : Bench S Z) : Prop
    extends StandsBut x l indices b₀ b where
  /-- All bounds are those of the indices. -/
  bounded : b.Bounded x.bounds l indices

omit [Scalar S] in
/-- The machines and the ticks play no part. -/
lemma StandsBut.congr (h : StandsBut x l indices b₀ b) (hsame : b'.SameTokens b) :
    StandsBut x l indices b₀ b' where
  filled := h.filled.congr hsame.tokens hsame.assignment
  boundedBut := by
    intro bd hbd
    rw [hsame.lower, hsame.upper]
    exact h.boundedBut bd hbd
  unbounded := by
    rw [hsame.lower, hsame.upper]
    exact h.unbounded
  indexed := h.indexed

omit [Scalar S] in
/-- With one more index the bench is one inside of the loop over the values of its slot. -/
lemma Stands.butLast {index : Nat} (h : Stands x l (indices ++ [index]) b₀ b) :
    StandsBut x l indices b₀ b where
  filled := h.filled.butLast
  boundedBut :=
    h.bounded.butLast (h.indexed index (List.mem_append_right _ (List.mem_singleton_self _))).2
  unbounded := h.unbounded
  indexed i hi := h.indexed i (List.mem_append_left _ hi)

omit [Scalar S] in
/-- A fresh layout stands on the bench. -/
lemma stands_load (b : Bench S Z) (hl : l.Sound) :
    Stands x l [] (b.load l x.bounds) (b.load l x.bounds) where
  filled := Bench.filled_load b hl x.bounds
  boundedBut := (Bench.bounded_load b hl x.bounds).but
  unbounded _ := ⟨rfl, rfl⟩
  indexed _ hi := absurd hi List.not_mem_nil
  bounded := Bench.bounded_load b hl x.bounds

/-! ## What the indices say of a call -/

/-- Values in the leaves do not change the form. -/
lemma skeleton_map_tokens (hl : l.Sound) {β : Type} (f : Nat → β) :
    Bench.skeleton (l.tree.tokens.map (Token.map f)) () = Bench.skeleton l.form.tokens () := by
  rw [hl.form_eq, Bench.skeleton, Bench.skeleton, List.map_map]
  refine List.map_congr_left fun token _ => ?_
  cases token <;> rfl

omit [Scalar S] in
/-- **What a call finds** follows from the indices in the filled slots.

**Proof sketch.** The three buffers hold the tokens of the layout with the values of filled slots,
and their skeleton is that of the layout. The leaf of a slot is at the position of the slot: for a
filled one it is the value of its index, and for an open one, in the buffers of the bounds, the
extreme value. -/
theorem Stands.holds (h : Stands x l indices b₀ b) (hl : l.Sound)
    (hslots : indices.length ≤ l.slots) :
    b.Holds x.alphabet x.bounds l indices.length := by
  obtain ⟨f, htokens, hf⟩ := h.filled.tokens
  have hlower : ∀ bd, x.bounds = some bd →
      b.lower = l.tree.tokens.map (Token.map (Layout.pick bd.values bd.min indices)) :=
    fun bd hbd => (h.bounded bd hbd).1.trans (Tree.tokens_map _ _)
  have hupper : ∀ bd, x.bounds = some bd →
      b.upper = l.tree.tokens.map (Token.map (Layout.pick bd.values bd.max indices)) :=
    fun bd hbd => (h.bounded bd hbd).2.trans (Tree.tokens_map _ _)
  refine ⟨?_, fun bd hbd => ⟨?_, ?_⟩, fun s hs => ?_, fun s hs hopen => ?_⟩
  · rw [htokens, skeleton_map_tokens hl]
  · rw [hlower bd hbd, skeleton_map_tokens hl]
  · rw [hupper bd hbd, skeleton_map_tokens hl]
  · obtain ⟨place, hplace, -⟩ := hl.write s (hs.trans_le hslots)
    have hindex := List.getElem?_eq_getElem hs
    obtain ⟨hvalue, hreal⟩ := h.indexed _ (List.mem_of_getElem? hindex)
    refine ⟨place, _, _, hplace, (h.filled.getElem?_assignment hs).trans hindex,
      List.getElem?_eq_getElem hvalue, ?_, fun bd hbd =>
        ⟨_, List.getElem?_eq_getElem (hreal bd hbd), ?_, ?_⟩⟩
    · rw [htokens, hl.getElem?_map_tokens hplace, hf s hs,
        Layout.pick_of_getElem? hindex (List.getElem?_eq_getElem hvalue)]
    · rw [hlower bd hbd, hl.getElem?_map_tokens hplace,
        Layout.pick_of_getElem? hindex (List.getElem?_eq_getElem (hreal bd hbd))]
    · rw [hupper bd hbd, hl.getElem?_map_tokens hplace,
        Layout.pick_of_getElem? hindex (List.getElem?_eq_getElem (hreal bd hbd))]
  · obtain ⟨place, hplace, -⟩ := hl.write s hs
    refine ⟨place, hplace, fun bd hbd => ⟨?_, ?_⟩⟩
    · rw [hlower bd hbd, hl.getElem?_map_tokens hplace, Layout.pick_of_length_le hopen]
    · rw [hupper bd hbd, hl.getElem?_map_tokens hplace, Layout.pick_of_length_le hopen]

omit [Scalar S] in
/-- **What a call leaves as it was** follows from the same indices at its begin and its end.

**Proof sketch.** Both benches hold the values of the same indices in the filled slots, and the same
tokens for the bounds; without bounds these buffers are as they were at the start. -/
theorem Stands.restores (h : Stands x l indices b₀ b) (h' : Stands x l indices b₀ b')
    (hl : l.Sound) : b.Restores l indices.length b' := by
  have hbounds : b'.lower = b.lower ∧ b'.upper = b.upper := by
    cases hbounds : x.bounds with
    | none =>
      obtain ⟨hlower, hupper⟩ := h.unbounded hbounds
      obtain ⟨hlower', hupper'⟩ := h'.unbounded hbounds
      exact ⟨hlower'.trans hlower.symm, hupper'.trans hupper.symm⟩
    | some bd =>
      obtain ⟨hlower, hupper⟩ := h.bounded bd hbounds
      obtain ⟨hlower', hupper'⟩ := h'.bounded bd hbounds
      exact ⟨hlower'.trans hlower.symm, hupper'.trans hupper.symm⟩
  refine ⟨hbounds.1, hbounds.2, fun s hs => ?_, fun s hs place hplace => ?_⟩
  · rw [h.filled.getElem?_assignment hs, h'.filled.getElem?_assignment hs]
  · obtain ⟨f, htokens, hf⟩ := h.filled.tokens
    obtain ⟨f', htokens', hf'⟩ := h'.filled.tokens
    rw [htokens, htokens', hl.getElem?_map_tokens hplace, hl.getElem?_map_tokens hplace, hf s hs,
      hf' s hs]

/-! ## One value -/

omit [Scalar S] [Impedance S Z] in
/-- A look-up that succeeds finds an element. -/
lemma getElem?_of_readAt {α : Type} {xs : List α} {i : Nat} {a : α} (h : readAt xs i = .ok a) :
    xs[i]? = some a := by
  unfold readAt at h
  split at h
  · next b hb => rw [hb, Except.ok.inj h]
  · cases h

/-- A complete candidate is evaluated as it is. -/
lemma record_sameTokens {e e' : Exploration S Z} (h : x.record layout e = .ok e') :
    e'.bench.SameTokens e.bench := by
  rcases hm : e.bench.machine.evaluate e.bench.tokens with ⟨result, machine⟩
  simp only [record, hm] at h
  cases result with
  | ok value =>
    obtain rfl := Except.ok.inj h
    exact ⟨rfl, rfl, rfl, rfl⟩
  | error fault =>
    cases fault with
    | degenerate position | overflow position =>
      obtain rfl := Except.ok.inj h
      exact ⟨rfl, rfl, rfl, rfl⟩
    | malformed position reason => cases h

/-- So it is if the budget grants it, and nothing is done if not. -/
lemma finish_sameTokens {e : Exploration S Z} {r : Bool × Exploration S Z}
    (h : x.finish layout e = .ok r) : r.2.bench.SameTokens e.bench := by
  unfold finish at h
  split at h
  · obtain rfl := Except.ok.inj h
    exact ⟨rfl, rfl, rfl, rfl⟩
  · obtain ⟨e', hrecord, hr⟩ := bind_eq_ok_iff.mp h
    obtain rfl := Except.ok.inj hr
    exact (record_sameTokens hrecord :)

omit [Scalar S] [Impedance S Z] in
/-- One more index is that of a value. -/
lemma indexed_append_singleton {index : Nat}
    (h : ∀ i ∈ indices, i < x.alphabet.length ∧ ∀ bd, x.bounds = some bd → i < bd.values.length)
    (hindex : index < x.alphabet.length)
    (hreal : ∀ bd, x.bounds = some bd → index < bd.values.length) :
    ∀ i ∈ indices ++ [index], i < x.alphabet.length ∧
      ∀ bd, x.bounds = some bd → i < bd.values.length :=
  List.forall_mem_append.mpr ⟨h, List.forall_mem_singleton.mpr ⟨hindex, hreal⟩⟩

/-- **Once a value is judged** the bounds hold it too, whatever the verdict is.

**Proof sketch.** Without bounds nothing is judged. With bounds the extreme values of the slot are
replaced in both buffers (`Bench.fixBounds_of_boundedBut`), and the verdict changes the machine only
(`Bench.verdict_of_bounded`), so afterwards all three buffers know of the index. -/
lemma stands_of_judge (hl : l.Sound) (hslot : indices.length < l.slots) {position index : Nat}
    (hposition : l.slotPositions[indices.length]? = some position)
    (hindex : index < x.alphabet.length) {e : Exploration S Z}
    {r : Verdict × Exploration S Z}
    (hfilled : e.bench.Filled x.alphabet l (indices ++ [index]))
    (h : StandsBut x l indices b₀ e.bench) (hjudge : x.judge position index e = .ok r) :
    Stands x l (indices ++ [index]) b₀ r.2.bench := by
  cases hbounds : x.bounds with
  | none =>
    simp only [judge, hbounds] at hjudge
    obtain rfl := Except.ok.inj hjudge
    have hno {P : Bounds S → Prop} : ∀ bd, x.bounds = some bd → P bd := fun bd hbd => by
      cases hbounds.symm.trans hbd
    exact ⟨⟨hfilled, hno, h.unbounded, indexed_append_singleton h.indexed hindex hno⟩, hno⟩
  | some bd =>
    have hbut := h.boundedBut
    simp only [judge, hbounds] at hjudge hbut
    obtain ⟨value, hread, hjudge⟩ := bind_eq_ok_iff.mp hjudge
    have hvalue := getElem?_of_readAt hread
    obtain ⟨c, hfix, hc, htokens, hassignment, -⟩ :=
      Bench.fixBounds_of_boundedBut hbut hl hslot hposition hvalue
    obtain ⟨machine, hverdict⟩ := Bench.verdict_of_bounded hc
    rw [hfix] at hjudge
    have hr : r.2.bench = { c with boundMachine := machine } := by
      simp only [hverdict, bind, Except.bind] at hjudge
      split at hjudge <;>
      · obtain rfl := Except.ok.inj hjudge
        rfl
    have hreal : ∀ bd', x.bounds = some bd' → index < bd'.values.length := fun bd' hbd' => by
      obtain rfl := Option.some.inj (hbounds.symm.trans hbd')
      exact (List.getElem?_eq_some_iff.mp hvalue).1
    have hbounded : c.Bounded x.bounds l (indices ++ [index]) := hbounds ▸ hc
    rw [hr]
    refine ⟨⟨hfilled.congr htokens hassignment, hbounded.but, fun hno => ?_,
      indexed_append_singleton h.indexed hindex hreal⟩, hbounded⟩
    cases hbounds.symm.trans hno

/-! ## One slot -/

/-- The same exploration twice, with something said of its bench. -/
def Twice (P : Bench S Z → Prop) (e e' : Exploration S Z) : Prop := e = e' ∧ P e.bench

/-- **The loop over the values of one slot** does the same with two descents that do the same on
every bench it hands to them, and ends as it began.

**Proof sketch.** By induction on the values that are left. A tick and a placed value keep what is
known of the bench, up to the slot that is being filled. In the last slot the candidate is finished,
which writes no token. In every other slot the value is judged, after which all buffers stand for
the indices with it (`stands_of_judge`); a feasible one goes to the two descents, which do the same
there and restore the buffers. -/
theorem fillSlot_alike (hl : l.Sound) (hslot : indices.length < l.slots) {position : Nat}
    (hposition : l.slotPositions[indices.length]? = some position)
    {deeper deeper' : Option (Exploration S Z → Except Defect (Exploration S Z))}
    (hdeeper : Option.Rel (fun descend descend' => ∀ (index : Nat) (e : Exploration S Z),
      Stands x l (indices ++ [index]) b₀ e.bench →
        Alike (Twice (Stands x l (indices ++ [index]) b₀)) (descend e) (descend' e))
      deeper deeper')
    (others : List Nat) {e : Exploration S Z} (h : StandsBut x l indices b₀ e.bench) :
    Alike (Twice (StandsBut x l indices b₀))
      (x.fillSlot layout indices.length position deeper others e)
      (x.fillSlot layout indices.length position deeper' others e) := by
  induction others generalizing e with
  | nil => exact .ok ⟨rfl, h⟩
  | cons index others ih =>
    have htick : StandsBut x l indices b₀ (x.tick e).bench := h.congr ⟨rfl, rfl, rfl, rfl⟩
    rw [fillSlot, fillSlot]
    split
    · exact .ok ⟨rfl, htick⟩
    refine .bind_of_ok _ fun value hread => ?_
    have hvalue := getElem?_of_readAt hread
    have hindex := (List.getElem?_eq_some_iff.mp hvalue).1
    obtain ⟨c, hplace, hfilled, hlower, hupper, -⟩ :=
      Bench.place_of_filled htick.filled hl hslot hposition hvalue
    have hplaced : StandsBut x l indices b₀ c := by
      refine ⟨hfilled.butLast, ?_, ?_, h.indexed⟩
      · intro bd hbd
        rw [hlower, hupper]
        exact htick.boundedBut bd hbd
      · rw [hlower, hupper]
        exact htick.unbounded
    refine .bind_of_ok _ fun c' hplace' => ?_
    obtain rfl := Except.ok.inj (hplace.symm.trans hplace')
    cases hdeeper with
    | none =>
      refine .bind_of_ok _ fun r hfinish => ?_
      have hr : StandsBut x l indices b₀ r.2.bench := hplaced.congr (finish_sameTokens hfinish)
      obtain ⟨granted, e'⟩ := r
      cases granted with
      | true => exact ih hr
      | false => exact .ok ⟨rfl, hr⟩
    | some hdescend =>
      refine .bind_of_ok _ fun r hjudge => ?_
      have hr := stands_of_judge hl hslot hposition hindex hfilled hplaced hjudge
      obtain ⟨verdict, e'⟩ := r
      cases verdict with
      | feasible =>
        refine (hdescend index e' hr).bind fun f f' hf => ?_
        obtain ⟨rfl, hf⟩ := hf
        exact ih hf.butLast
      | overshoot | undershoot =>
        dsimp only
        split
        · exact .ok ⟨rfl, hr.butLast⟩
        · exact ih hr.butLast

/-- **One slot**, with its bounds reset in the end, ends as it began.

**Proof sketch.** Both computations read the same layout, position and tie, and so they start at the
same index. The loops over the values do the same (`fillSlot_alike`). What they leave differs from
the entry in the bounds of this slot only, and these are reset in the end
(`Bench.freeBounds_of_boundedBut`). -/
theorem fillFrom_alike (hl : l.Sound) (hslot : indices.length < l.slots) {layouts : List Layout}
    (hlayout : layouts[layout]? = some l) (first stop : Nat)
    {deeper deeper' : Option (Exploration S Z → Except Defect (Exploration S Z))}
    (hdeeper : Option.Rel (fun descend descend' => ∀ (index : Nat) (e : Exploration S Z),
      Stands x l (indices ++ [index]) b₀ e.bench →
        Alike (Twice (Stands x l (indices ++ [index]) b₀)) (descend e) (descend' e))
      deeper deeper')
    {e : Exploration S Z} (h : Stands x l indices b₀ e.bench) :
    Alike (Twice (Stands x l indices b₀))
      (x.fillFrom layouts layout indices.length first stop deeper e)
      (x.fillFrom layouts layout indices.length first stop deeper' e) := by
  obtain ⟨position, hposition, -⟩ := hl.write indices.length hslot
  rw [fillFrom, fillFrom]
  refine .bind_of_ok _ fun l' hlayout' => ?_
  obtain rfl := Except.ok.inj ((readAt_of_getElem? hlayout).symm.trans hlayout')
  refine .bind_of_ok _ fun position' hposition' => ?_
  obtain rfl := Except.ok.inj ((readAt_of_getElem? hposition).symm.trans hposition')
  have hfill : ∀ start, Alike (Twice (Stands x l indices b₀))
      (x.fillSlot layout indices.length position deeper (List.range' start (stop - start)) e >>=
        fun e => e.bench.freeBounds position x.bounds >>= fun bench =>
          pure { e with bench := bench })
      (x.fillSlot layout indices.length position deeper' (List.range' start (stop - start)) e >>=
        fun e => e.bench.freeBounds position x.bounds >>= fun bench =>
          pure { e with bench := bench }) := by
    intro start
    refine (fillSlot_alike hl hslot hposition hdeeper _ h.toStandsBut).bind fun f f' hf => ?_
    obtain ⟨rfl, hf⟩ := hf
    obtain ⟨c, hfree, hbounded, htokens, hassignment, -⟩ :=
      Bench.freeBounds_of_boundedBut hf.boundedBut hl hslot hposition
    refine .bind_of_ok _ fun c' hfree' => ?_
    obtain rfl := Except.ok.inj (hfree.symm.trans hfree')
    refine .ok ⟨rfl, ⟨hf.filled.congr htokens hassignment, hbounded.but, fun hno => ?_,
      hf.indexed⟩, hbounded⟩
    rw [hno] at hfree
    obtain rfl := Except.ok.inj hfree
    exact hf.unbounded hno
  refine .bind_same _ fun tie => ?_
  cases tie with
  | none => exact hfill first
  | some earlier => exact .bind_same _ fun index => hfill (max first index)

/-! ## All slots -/

omit [Scalar S] in
/-- No check fails at a call that ends as it begins. -/
lemma watch_eq (hl : l.Sound) (hslots : indices.length ≤ l.slots)
    {call call' : Exploration S Z → Except Defect (Exploration S Z)} {e : Exploration S Z}
    (h : Stands x l indices b₀ e.bench)
    (hcall : Alike (Twice (Stands x l indices b₀)) (call e) (call' e))
    (alarm : Except Defect (Exploration S Z)) :
    x.watch alarm l indices.length call' e = call' e := by
  refine if_pos ⟨h.holds hl hslots, fun e' he' => ?_⟩
  rcases hcall.error_or_ok with ⟨reason, -, herror⟩ | ⟨f, f', -, hf', rfl, hf⟩
  · cases he'.symm.trans herror
  · obtain rfl := Except.ok.inj (he'.symm.trans hf')
    exact h.restores hf hl

/-- **The watched descent** does what the descent does.

**Proof sketch.** By induction on the slots behind the current one. Every call begins with a bench
that stands for the filled slots, so the watch lets it pass (`watch_eq`), and the rest is one slot
with descents behind it that do the same (`fillFrom_alike`). -/
theorem descendWatched_alike (hl : l.Sound) {layouts : List Layout}
    (hlayout : layouts[layout]? = some l) (alarm : Except Defect (Exploration S Z))
    (after first stop : Nat) (hslots : indices.length + after + 1 = l.slots)
    {e : Exploration S Z} (h : Stands x l indices b₀ e.bench) :
    Alike (Twice (Stands x l indices b₀))
      (x.descend layouts layout after indices.length first stop e)
      (x.descendWatched alarm layouts layout l after indices.length first stop e) := by
  have hslot : indices.length < l.slots := by omega
  induction after generalizing indices first stop e with
  | zero =>
    have hfill := fillFrom_alike hl hslot hlayout first stop .none h
    rw [descend, descendWatched, watch_eq hl hslot.le h hfill]
    exact hfill
  | succ after ih =>
    have hdeeper : ∀ (index : Nat) (f : Exploration S Z),
        Stands x l (indices ++ [index]) b₀ f.bench →
        Alike (Twice (Stands x l (indices ++ [index]) b₀))
          (x.descend layouts layout after (indices.length + 1) 0 x.alphabet.length f)
          (x.descendWatched alarm layouts layout l after (indices.length + 1) 0
            x.alphabet.length f) := by
      intro index f hf
      have hlength : (indices ++ [index]).length = indices.length + 1 := by
        rw [List.length_append, List.length_singleton]
      rw [← hlength]
      exact ih 0 x.alphabet.length (by omega) hf (by omega)
    have hfill := fillFrom_alike hl hslot hlayout first stop (.some hdeeper) h
    rw [descend, descendWatched, watch_eq hl hslot.le h hfill]
    exact hfill

/-! ## Work items -/

/-- **No check fails.** Take the layouts with any number of leaves, any values, bounds, target,
tolerance, clock and budget, any work item and any bench. Watch every call of the descent: when it
begins, the bench has the form of the layout, holds the values of the filled slots and holds the
extreme values in the open slots of the bounds (`Bench.Holds`); and when it ends without a defect,
the bounds are as they were, and so are the indices and the values of the slots before its own
(`Bench.Restores`). Whatever is given as the result of a call for which this fails, the work item
ends as it does unwatched.

**Proof sketch.** A loop over the values of a slot keeps the indices of the slots before it, and
bounds of its own slot are reset behind it (`fillFrom_alike`). So a call that finds the values of
some indices leaves the values of the same indices, by induction on the slots behind it
(`descendWatched_alike`). -/
theorem exploreWatched_eq (x : Explorer S Z) (alarm : Except Defect (Exploration S Z))
    (n layout first : Nat) (bench : Bench S Z) (budget : Budget) :
    x.exploreWatched alarm (Layout.withLeaves n) layout first bench budget =
      x.explore (Layout.withLeaves n) layout first bench budget := by
  symm
  rw [exploreWatched, explore]
  dsimp only
  split
  · rfl
  refine (Alike.bind_of_ok _ fun l hread => ?_).eq_of_imp fun f f' (h : f = f') => h
  have hlayout := getElem?_of_readAt hread
  have hl := Layout.sound_of_mem_withLeaves (List.mem_of_getElem? hlayout)
  have hslots : ([] : List Nat).length + (l.slots - 1) + 1 = l.slots := by
    have := hl.slots_pos
    rw [List.length_nil]
    omega
  exact (descendWatched_alike hl hlayout alarm (l.slots - 1) first (first + 1) hslots
    (stands_load bench hl)).mono fun _ _ h => h.1

end Explorer

end Ohmic
