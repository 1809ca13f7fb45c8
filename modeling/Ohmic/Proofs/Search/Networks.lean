import Ohmic.Proofs.Circuit.Regrouping
import Ohmic.Proofs.Search.Coherence

set_option autoImplicit false

/-!
# Reported networks have the impedance that is reported

A search keeps one network for each canonical form, the first that it meets, and reports the
impedance of the tree that it met. Where the connections of the alphabet's values commute, associate
and never fail, nothing is lost by it: trees with one canonical form have one impedance, and it is
that of the network that is reported.

## Main results

* `Search.coherent_network` — the network of a coherent finding has its impedance.
* `Search.networks_evaluate` — flat forms, canonical forms and reported networks.
-/

namespace Ohmic

/-- A change of a tree that succeeded had a result at every leaf. -/
lemma Tree.exists_of_mapM?_eq_some {α β : Type} {f : α → Option β} {t : Tree α} {u : Tree β}
    (h : t.mapM? f = some u) : ∀ a ∈ t.leaves, ∃ b, f a = some b := by
  induction t generalizing u with
  | leaf a =>
    obtain ⟨b, hb, -⟩ := Option.map_eq_some_iff.mp h
    exact fun a' ha => ⟨b, List.mem_singleton.mp ha ▸ hb⟩
  | node c l r ihl ihr =>
    obtain ⟨l', hl, hrest⟩ := Option.bind_eq_some_iff.mp h
    obtain ⟨r', hr, -⟩ := Option.bind_eq_some_iff.mp hrest
    exact fun a ha => (List.mem_append.mp ha).elim (ihl hl a) (ihr hr a)

variable {S Z : Type} [Scalar S] [Impedance S Z] {P : Z → Prop}

omit [Scalar S] in
/-- A tree over indices with its values filled in: every index is one of the alphabet. -/
lemma Tree.lt_of_mapM?_eq_some {alphabet : List Z} {t : Tree Nat} {u : Tree Z}
    (h : t.mapM? (fun index => alphabet[index]?) = some u) :
    ∀ index ∈ t.leaves, index < alphabet.length := by
  intro index hindex
  obtain ⟨z, hz⟩ := exists_of_mapM?_eq_some h index hindex
  exact (List.getElem?_eq_some_iff.mp hz).1

omit [Scalar S] in
/-- A tree over indices with its values filled in has a value of the alphabet at every index. -/
lemma Tree.eq_map_of_mapM?_eq_some (alphabet : List Z) (hP : ∀ z ∈ alphabet, P z) {t : Tree Nat}
    {u : Tree Z} (h : t.mapM? (fun index => alphabet[index]?) = some u) :
    u = t.map (valueAt alphabet) ∧ ∀ index ∈ t.leaves, P (valueAt alphabet index) := by
  have hat : ∀ index ∈ t.leaves, alphabet[index]? = some (valueAt alphabet index) :=
    fun index hindex => getElem?_eq_valueAt (lt_of_mapM?_eq_some h index hindex)
  constructor
  · exact Option.some.inj (h.symm.trans (mapM?_eq_some hat))
  · exact fun index hindex => hP _ (List.mem_of_getElem? (hat index hindex))

/-- **The forms of a coherent finding** are those of one tree over the indices of the alphabet, with
the values filled in. -/
lemma Finding.Coherent.exists_tree {s : Search S Z} {f : Finding S Z} (h : f.Coherent s) :
    ∃ t : Tree Nat, (∀ index ∈ t.leaves, index < s.alphabet.length) ∧
      f.tree = t.map (valueAt s.alphabet) ∧ f.network = t.key.map (valueAt s.alphabet) := by
  obtain ⟨t, htree, hkey, hnetwork⟩ := h.indexed
  have hlt := Tree.lt_of_mapM?_eq_some htree
  have hat : ∀ index ∈ t.leaves, s.alphabet[index]? = some (valueAt s.alphabet index) :=
    fun index hindex => getElem?_eq_valueAt (hlt index hindex)
  refine ⟨t, hlt, Option.some.inj (htree.symm.trans (Tree.mapM?_eq_some hat)), ?_⟩
  rw [← hkey] at hnetwork
  exact Option.some.inj (hnetwork.symm.trans (Flat.mapM?_eq_some t.key fun index hindex =>
    hat index (t.leaves_key_perm.mem_iff.mp hindex)))

namespace Search

/-- **The network of a coherent finding** over regular impedances has the impedance of the
finding. -/
lemma coherent_network (h : Connection.Regular P) {s : Search S Z} (hP : ∀ z ∈ s.alphabet, P z)
    {f : Finding S Z} (hf : f.Coherent s) : f.network.evaluate = .ok f.impedance := by
  obtain ⟨t, hlt, htree, hnetwork⟩ := hf.exists_tree
  have hleaves : ∀ index ∈ t.leaves, P (valueAt s.alphabet index) := fun index hindex =>
    hP _ (List.mem_of_getElem? (getElem?_eq_valueAt (hlt index hindex)))
  rw [Flat.evaluate_eq_ok_iff, hnetwork, Tree.value?_key_map h hleaves, ← htree,
    ← Tree.evaluate_eq_ok_iff]
  exact hf.evaluate_tree

/-- **One impedance for each canonical form.** Let the impedances in `P` be finite, and let series
and parallel connections of them never fail, stay in `P`, commute and associate.

* A tree with leaves in `P` has an impedance in `P`. Its flat form has the same, and so has every
  network that is made from the flat form by reordering children at any depth.
* Two trees over the indices of an alphabet in `P` with one canonical flat form have one impedance.
* Whatever the settings and whatever the clock shows, each network that a search over such an
  alphabet reports has the impedance that is reported with it.

**Proof sketch.** The value of a network does not depend on positions (`Flat.toOption_evaluateAt`).
The total of a group can be split and reordered, so flattening keeps the value
(`Tree.value?_flatten`), and so does sorting at every depth (`Flat.value?_eq_of_reordering`). A
reported network is the canonical form of the tree whose impedance is reported. -/
theorem networks_evaluate (h : Connection.Regular P) :
    (∀ t : Tree Z, (∀ z ∈ t.leaves, P z) → ∃ v, P v ∧ t.evaluate = .ok v ∧
      t.flatten.evaluate = .ok v ∧
        ∀ n, Relation.ReflTransGen Flat.Reordered t.flatten n → n.evaluate = .ok v) ∧
    (∀ alphabet : List Z, (∀ z ∈ alphabet, P z) → ∀ (i j : Tree Nat) (t u : Tree Z),
      i.mapM? (fun index => alphabet[index]?) = some t →
      j.mapM? (fun index => alphabet[index]?) = some u →
      i.flatten.canonical = j.flatten.canonical → t.evaluate = u.evaluate) ∧
    ∀ (s : Search S Z) (clock : Clock), (∀ z ∈ s.alphabet, P z) →
      ∀ results, (s.run clock).outcome = .ok results →
        ∀ f ∈ results.findings, f.network.evaluate = .ok f.impedance := by
  refine ⟨fun t ht => ?_, fun alphabet hP i j t u hi hj hkey => ?_,
    fun s clock hP results hresults f hf => ?_⟩
  · obtain ⟨v, hv, hPv⟩ := Tree.exists_value? h ht
    have hflat : t.flatten.value? = some v := (Tree.value?_flatten h ht).trans hv
    refine ⟨v, hPv, Tree.evaluate_eq_ok_iff.mpr hv, Flat.evaluate_eq_ok_iff.mpr hflat,
      fun n hn => Flat.evaluate_eq_ok_iff.mpr ?_⟩
    rw [Flat.value?_eq_of_reordering h
      (fun z hz => ht z (t.leaves_flatten_perm.mem_iff.mp hz)) hn, hflat]
  · obtain ⟨rfl, hleaves⟩ := Tree.eq_map_of_mapM?_eq_some alphabet hP hi
    obtain ⟨rfl, -⟩ := Tree.eq_map_of_mapM?_eq_some alphabet hP hj
    obtain ⟨v, hv, -⟩ := Tree.exists_value? h (t := i.map (valueAt alphabet)) (by
      rw [Tree.leaves_map, List.forall_mem_map]
      exact hleaves)
    have hv' := (Tree.value?_eq_of_key_eq h hleaves hkey).symm.trans hv
    rw [Tree.evaluate_eq_ok_iff.mpr hv, Tree.evaluate_eq_ok_iff.mpr hv']
  · obtain ⟨hcheck, course, p, hadmits, hreplay, htaken⟩ := exists_replay_of_results hresults
    have hmem : f ∈ p.findings :=
      List.mem_reverse.mp ((Finding.ranked_perm _).mem_iff.mp (htaken.subset hf))
    obtain ⟨c, hmet, -⟩ := exists_accepted_of_mem_findings hcheck hadmits hreplay hmem
    exact coherent_network h hP (coherent_of_meets hadmits hmet).1

/-- Positive numbers in exact arithmetic: four parts regrouped and reordered, and the network that
makes three ohms from one and two.

**Proof sketch.** Positive numbers in exact arithmetic are regular. The children of the flat form
are put in order in two steps, and the tree and the search are evaluated. -/
theorem networks_evaluate_three_ohms :
    let t : Tree ℚ := .parallel (.parallel (.leaf 3) (.series (.leaf 1) (.leaf 2))) (.leaf 6)
    let n : Flat ℚ := .group .parallel [.group .series [.leaf 2, .leaf 1], .leaf 6, .leaf 3]
    let s : Search ℚ ℚ := ⟨[1, 2], Settings.of 3 (.relative (1 / 100)) 2⟩
    Connection.Regular (fun x : ℚ => 0 < x) ∧ Relation.ReflTransGen Flat.Reordered t.flatten n ∧
      t.evaluate = .ok (6 / 5) ∧ n.evaluate = .ok (6 / 5) ∧
      ∃ results f, (s.run Clock.still).outcome = .ok results ∧ results.findings = [f] ∧
        f.impedance = 3 ∧ f.network.evaluate = .ok 3 := by
  intro t n s
  have hregular : Connection.Regular (fun x : ℚ => 0 < x) := Exact.regular
  obtain ⟨htrees, -, hruns⟩ := networks_evaluate hregular
  have hreordering : Relation.ReflTransGen Flat.Reordered t.flatten n := by
    have hflat : t.flatten =
        .group .parallel [.leaf 3, .leaf 6, .group .series [.leaf 1, .leaf 2]] := by decide
    rw [hflat]
    refine .head (.children .parallel (List.reverse_perm _).symm) ?_
    exact .single (.child .parallel [] [.leaf 6, .leaf 3] (.children .series (.swap _ _ _)))
  have hvalue : t.evaluate = .ok (6 / 5) := by decide +kernel
  obtain ⟨v, -, hv, -, hreordered⟩ := htrees t (by decide +kernel)
  obtain rfl : v = 6 / 5 := Except.ok.inj (hv.symm.trans hvalue)
  have hlevels : (s.runLevels Clock.still 2 1 (Budget.ofSettings s.settings) {}).toOption.map
      (fun p => (p.findings.map Finding.impedance, p.stats.truncated)) = some ([3], false) := by
    decide +kernel
  obtain ⟨f, stats, houtcome, himpedance, -⟩ :=
    exists_single_of_runLevels Finding.impedance Stats.truncated (by decide +kernel) rfl hlevels
  have hnetwork := hruns s Clock.still (by decide +kernel) _ houtcome f (List.mem_singleton_self f)
  rw [himpedance] at hnetwork
  exact ⟨hregular, hreordering, hvalue, hreordered n hreordering, _, f, houtcome, rfl, himpedance,
    hnetwork⟩

end Search

end Ohmic
