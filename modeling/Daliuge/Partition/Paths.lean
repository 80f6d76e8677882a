import Mathlib.Data.List.Sublists
import Daliuge.Partition.Swarm

/-!
# Following paths

What parts expect of the functions of `networkx`, and those functions, computed by following the
edges for as many steps as the graph has nodes.
-/
namespace Daliuge.Partition

open Relation

section Expected

variable {V : Type} {G : Digraph V} {A B : List V}

/-- The list has every antichain. -/
structure Digraph.Lists (G : Digraph V) (mas : List (List V)) : Prop where
  sound : ∀ A ∈ mas, G.Antichain A
  complete : ∀ A, G.Antichain A → ∃ B ∈ mas, A.Perm B

theorem Digraph.Antichain.perm (h : G.Antichain A) (hp : A.Perm B) : G.Antichain B := by
  refine ⟨hp.nodup h.1, fun v hv => h.2.1 v (hp.mem_iff.mpr hv), fun u hu v hv => ?_⟩
  exact h.2.2 u (hp.mem_iff.mpr hu) v (hp.mem_iff.mpr hv)

/-- What `networkx` says of graphs without cycles. -/
structure DagTools.Faithful (nx : DagTools V) : Prop where
  antichains : ∀ G : Digraph V, G.Dag → G.Lists (nx.antichains G)
  ancestors : ∀ G : Digraph V, G.Dag → ∀ v ∈ G.nodes, ∀ u,
    u ∈ nx.ancestors G v ↔ TransGen G.Edge u v
  descendants : ∀ G : Digraph V, G.Dag → ∀ v ∈ G.nodes, ∀ u,
    u ∈ nx.descendants G v ↔ TransGen G.Edge v u

end Expected

section Within

variable {V : Type} [DecidableEq V] {G : Digraph V} {u v : V} {n : Nat}

/-- Whether some edges, at most so many, lead from one node to another. -/
def Digraph.within (G : Digraph V) : Nat → V → V → Bool
  | 0, _, _ => false
  | n + 1, u, v => (G.successors u).any fun w => decide (w = v) || G.within n w v

theorem transGen_of_within (h : G.within n u v = true) : TransGen G.Edge u v := by
  induction n generalizing u with
  | zero => simp [Digraph.within] at h
  | succ n ih =>
    obtain ⟨w, hw, h⟩ := List.any_eq_true.mp h
    have he : G.Edge u w := Digraph.mem_successors.mp hw
    rcases Bool.or_eq_true_iff.mp h with h | h
    · obtain rfl := of_decide_eq_true h
      exact .single he
    · exact .head he (ih h)

open Classical in
/-- The nodes something leads to. -/
noncomputable def below (G : Digraph V) (u : V) : Finset V :=
  G.nodes.toFinset.filter fun v => TransGen G.Edge u v

theorem mem_below (hG : G.Dag) : v ∈ below G u ↔ TransGen G.Edge u v := by
  have hv : TransGen G.Edge u v → v ∈ G.nodes := by
    intro h
    obtain ⟨w, -, he⟩ := TransGen.tail'_iff.mp h
    exact (hG.closed w v he).2
  simp only [below, Finset.mem_filter, List.mem_toFinset]
  exact ⟨And.right, fun h => ⟨hv h, h⟩⟩

/-- Every edge leaves one node behind. -/
theorem within_of_transGen (hG : G.Dag) (hn : (below G u).card ≤ n) (h : TransGen G.Edge u v) :
    G.within n u v = true := by
  induction n generalizing u with
  | zero =>
    have hv : v ∈ below G u := (mem_below hG).mpr h
    have hpos := Finset.card_pos.mpr ⟨v, hv⟩
    omega
  | succ n ih =>
    obtain ⟨w, he, hw⟩ := TransGen.head'_iff.mp h
    refine List.any_eq_true.mpr ⟨w, Digraph.mem_successors.mpr he, ?_⟩
    rcases reflTransGen_iff_eq_or_transGen.mp hw with rfl | hw
    · simp
    · have hss : below G w ⊂ below G u := by
        refine Finset.ssubset_iff_of_subset (fun x hx => ?_) |>.mpr ⟨w, ?_, ?_⟩
        · exact (mem_below hG).mpr (.head he ((mem_below hG).mp hx))
        · exact (mem_below hG).mpr (.single he)
        · exact fun hx => hG.acyclic w ((mem_below hG).mp hx)
      have hlt := Finset.card_lt_card hss
      simp [ih (by omega) hw]

theorem within_iff (hG : G.Dag) : G.within G.nodes.length u v = true ↔ TransGen G.Edge u v := by
  refine ⟨transGen_of_within, within_of_transGen hG ?_⟩
  have hsub : below G u ⊆ G.nodes.toFinset := by
    intro x hx
    simp only [below, Finset.mem_filter] at hx
    exact hx.1
  calc (below G u).card ≤ G.nodes.toFinset.card := Finset.card_le_card hsub
    _ ≤ G.nodes.length := List.toFinset_card_le _

end Within

variable {V : Type} [DecidableEq V]

/-- The functions, for graphs of few nodes. -/
def pathTools : DagTools V where
  antichains G := G.nodes.sublists.filter fun A =>
    A.all fun a => A.all fun b => !G.within G.nodes.length a b
  ancestors G v := G.nodes.filter fun u => G.within G.nodes.length u v
  descendants G v := G.nodes.filter fun u => G.within G.nodes.length v u
  isDirectedAcyclicGraph G := G.nodes.all fun v => !G.within G.nodes.length v v
  topologicalSort G := G.nodes

theorem pathTools_faithful : (pathTools (V := V)).Faithful where
  antichains G hG := by
    have hno : ∀ A : List V, (A.all fun a => A.all fun b => !G.within G.nodes.length a b) = true ↔
        ∀ a ∈ A, ∀ b ∈ A, ¬ TransGen G.Edge a b := by
      intro A
      simp [List.all_eq_true, ← within_iff hG]
    constructor
    · intro A hA
      obtain ⟨hs, hA⟩ := List.mem_filter.mp hA
      have hsub := List.mem_sublists.mp hs
      exact ⟨hG.nodup.sublist hsub, fun v hv => hsub.subset hv, (hno A).mp hA⟩
    · intro A hA
      have hp : A.Perm (G.nodes.filter (· ∈ A)) := by
        refine (List.perm_ext_iff_of_nodup hA.1 (hG.nodup.filter _)).mpr fun a => ?_
        simp only [List.mem_filter, decide_eq_true_eq]
        exact ⟨fun ha => ⟨hA.2.1 a ha, ha⟩, And.right⟩
      refine ⟨_, List.mem_filter.mpr ⟨List.mem_sublists.mpr List.filter_sublist, ?_⟩, hp⟩
      exact (hno _).mpr (hA.perm hp).2.2
  ancestors G hG v hv u := by
    have hu : TransGen G.Edge u v → u ∈ G.nodes := by
      intro h
      obtain ⟨w, he, -⟩ := TransGen.head'_iff.mp h
      exact (hG.closed u w he).1
    rw [← within_iff hG, pathTools, List.mem_filter]
    exact ⟨And.right, fun h => ⟨hu (transGen_of_within h), h⟩⟩
  descendants G hG v hv u := by
    have hu : TransGen G.Edge v u → u ∈ G.nodes := by
      intro h
      obtain ⟨w, -, he⟩ := TransGen.tail'_iff.mp h
      exact (hG.closed w u he).2
    rw [← within_iff hG, pathTools, List.mem_filter]
    exact ⟨And.right, fun h => ⟨hu (transGen_of_within h), h⟩⟩

end Daliuge.Partition
