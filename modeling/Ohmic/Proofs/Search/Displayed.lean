import Ohmic.Proofs.Circuit.ChildOrder
import Ohmic.Proofs.Search.Networks
import Ohmic.Proofs.Search.Ranking

set_option autoImplicit false

/-!
# Reported networks are displayed in the order of their values

The key of a finding is the canonical form of a tree over indices, and the network that is displayed
is the key with the values filled in. The tree of the finding has its values filled in first. If the
alphabet is ascending, indices are in the order of their values, and it makes no difference what is
done first: the network is the canonical form of the tree, with children in the order of their sizes
and then of their values.

## Main results

* `Search.compare_valueAt` — the values of an ascending alphabet are in the order of their indices.
* `Finding.Coherent.network_eq` — the network of a coherent finding is a canonical form.
* `Search.networks_canonical` — flat forms and canonical forms of changed trees and networks, and
  the networks that a search reports.
-/

namespace Ohmic

/-- Doubles in their total order. -/
instance instOrdFloat : Ord Float := ⟨Scalar.rank⟩

/-- The total order of doubles is one. -/
instance instTransOrdFloat : Std.TransOrd Float := instTransCmpRankFloat

variable {S Z : Type} [Scalar S] [Impedance S Z]

namespace Search

omit [Scalar S] in
/-- **The values of an ascending alphabet** are in the order of their indices. -/
lemma compare_valueAt [Ord Z] [Std.OrientedOrd Z] {alphabet : List Z}
    (h : alphabet.Pairwise fun x y => Ord.compare x y = .lt) {i j : ℕ}
    (hi : i < alphabet.length) (hj : j < alphabet.length) :
    Ord.compare (valueAt alphabet i) (valueAt alphabet j) = Ord.compare i j := by
  have hat : ∀ {k} (hk : k < alphabet.length), valueAt alphabet k = alphabet[k] :=
    fun hk => List.getD_eq_getElem _ _ hk
  have hless := List.pairwise_iff_getElem.mp h
  rw [hat hi, hat hj]
  rcases Nat.lt_trichotomy i j with hlt | rfl | hgt
  · rw [hless i j hi hj hlt, Nat.compare_eq_lt.mpr hlt]
  · rw [Std.ReflOrd.compare_self, Std.ReflOrd.compare_self]
  · rw [Std.OrientedOrd.eq_swap, hless j i hj hi hgt, Nat.compare_eq_gt.mpr hgt]
    rfl

end Search

/-- **The network of a coherent finding** over an ascending alphabet is the canonical form of its
tree. -/
lemma Finding.Coherent.network_eq [Ord Z] [Std.OrientedOrd Z] {s : Search S Z} {f : Finding S Z}
    (h : f.Coherent s) (hascending : s.alphabet.Pairwise fun x y => Ord.compare x y = .lt) :
    f.network = f.tree.flatten.canonical := by
  obtain ⟨t, hlt, htree, hnetwork⟩ := h.exists_tree
  have hindex : ∀ i ∈ t.flatten.leaves, i < s.alphabet.length :=
    fun i hi => hlt i (t.leaves_flatten_perm.mem_iff.mp hi)
  rw [hnetwork, htree, Tree.flatten_map, Tree.key, Flat.canonical_map]
  exact fun i hi j hj => Search.compare_valueAt hascending (hindex i hi) (hindex j hj)

namespace Search

/-- **Keys and displayed networks correspond.**

* The flat form of a tree with changed leaves is the flat form of the tree with its leaves changed.
* A change of the leaves that keeps their strict order may be made before a network is brought to
  its canonical form, or after.
* So whatever the settings and whatever the clock shows, each network that a search over a strictly
  ascending alphabet reports is the canonical form of the tree that is reported with it: children
  are in the order of their sizes, and then of their values.

**Proof sketch.** Flattening sorts by size alone, and does not look at the leaves
(`Tree.flatten_map`). The order of networks compares leaves and connections at every depth, and so
stays as it is when the order of the leaves does (`Flat.compare_map`). In an ascending alphabet a
value is above another one exactly if its index is. -/
theorem networks_canonical :
    (∀ {α β : Type} (f : α → β) (t : Tree α), (t.map f).flatten = t.flatten.map f) ∧
    (∀ {α β : Type} [Ord α] [Std.OrientedOrd α] [Std.LawfulEqOrd α] [Ord β] [Std.OrientedOrd β]
      (f : α → β), (∀ a b, Ord.compare a b = .lt → Ord.compare (f a) (f b) = .lt) →
        ∀ n : Flat α, (n.map f).canonical = n.canonical.map f) ∧
    ∀ {S Z : Type} [Scalar S] [Impedance S Z] [Ord Z] [Std.OrientedOrd Z] (s : Search S Z)
      (clock : Clock), s.alphabet.Pairwise (fun x y => Ord.compare x y = .lt) →
        (∀ results, (s.run clock).outcome = .ok results →
          ∀ f ∈ results.findings, f.network = f.tree.flatten.canonical) ∧
        ∀ f truncated, (s.run clock).outcome = .error (.noNetwork (some f) truncated) →
          f.network = f.tree.flatten.canonical := by
  refine ⟨Tree.flatten_map, fun f hf n => Flat.canonical_map n fun a _ b _ => ?_,
    fun s clock hascending => ?_⟩
  · cases hab : Ord.compare a b with
    | lt => exact hf a b hab
    | eq =>
      obtain rfl := Std.LawfulEqOrd.eq_of_compare hab
      exact Std.ReflOrd.compare_self
    | gt =>
      rw [Std.OrientedOrd.eq_swap, hf b a (Std.OrientedCmp.lt_of_gt hab)]
      rfl
  · exact ⟨fun results h f hf => (coherent_of_mem_results h hf).1.network_eq hascending,
      fun f truncated h => (coherent_of_noNetwork h).1.network_eq hascending⟩

/-- Two ohms of three and minus one in double precision, and the same values not joined to ten. Ten
times the values of a network are in the order of the values.

**Proof sketch.** The values ascend, so the theorem speaks about both searches; what they find is
evaluated. -/
theorem networks_canonical_two_ohms :
    let n : Flat ℕ := .group .series [.leaf 3, .group .parallel [.leaf 2, .leaf 1], .leaf 0]
    let hit : Search Float Float := ⟨[-1, 3], Settings.of 2 (.relative 0.01) 2⟩
    let miss : Search Float Float := ⟨[-1, 3], Settings.of 10 (.relative 0.01) 2⟩
    (n.map (10 * ·)).canonical = n.canonical.map (10 * ·) ∧ n.canonical ≠ n ∧
      hit.alphabet.Pairwise (fun x y => Ord.compare x y = .lt) ∧
      (∃ results f, (hit.run Clock.still).outcome = .ok results ∧ results.findings = [f] ∧
        f.key = .group .series [.leaf 0, .leaf 1] ∧ f.network = f.tree.flatten.canonical) ∧
      ∃ f truncated, (miss.run Clock.still).outcome = .error (.noNetwork (some f) truncated) ∧
        f.key = .group .series [.leaf 1, .leaf 1] ∧ f.network = f.tree.flatten.canonical := by
  intro n hit miss
  obtain ⟨-, hmap, hruns⟩ := networks_canonical
  have hascending : hit.alphabet.Pairwise fun x y => Ord.compare x y = .lt := by decide +kernel
  refine ⟨hmap (10 * ·) (fun a b hab => ?_) n, by decide, hascending, ?_, ?_⟩
  · rw [Nat.compare_eq_lt] at hab ⊢
    omega
  · have hlevels : (hit.runLevels Clock.still 2 1 (Budget.ofSettings hit.settings) {}).toOption.map
        (fun p => (p.findings.map Finding.key, p.stats.truncated)) =
          some ([.group .series [.leaf 0, .leaf 1]], false) := by decide +kernel
    obtain ⟨f, stats, houtcome, hkey, -⟩ :=
      exists_single_of_runLevels Finding.key Stats.truncated (by decide +kernel) rfl hlevels
    exact ⟨_, f, houtcome, rfl, hkey,
      (hruns hit Clock.still hascending).1 _ houtcome f (List.mem_singleton_self f)⟩
  · have hlevels :
        (miss.runLevels Clock.still 2 1 (Budget.ofSettings miss.settings) {}).toOption.map
          (fun p => (p.findings.isEmpty, p.closest.map Finding.key, p.stats.truncated)) =
            some (true, some (.group .series [.leaf 1, .leaf 1]), false) := by decide +kernel
    obtain ⟨f, houtcome, hkey⟩ :=
      exists_miss_of_runLevels Finding.key (by decide +kernel) rfl hlevels
    exact ⟨f, _, houtcome, hkey, (hruns miss Clock.still hascending).2 f _ houtcome⟩

end Search

end Ohmic
