import Mathlib.Data.Fintype.Card
import Daliuge.Lib.Kahn

/-!
# Directed graphs of the scheduler

What the scheduler reads and changes of a `networkx.DiGraph`: nodes and edges in the order they
were added, and numbers kept as attributes of both.
-/
namespace Daliuge.Partition

variable {V : Type}

/-- The nodes and edges of a `DiGraph`. -/
structure Digraph (V : Type) where
  nodes : List V := []
  edges : List (V × V) := []
  deriving DecidableEq, Repr

scoped instance lawfulBEqEdge [DecidableEq V] : LawfulBEq (V × V) := inferInstance

/-- The attribute `weight` of nodes and edges, where there is one. -/
structure Weights (V : Type) where
  node : V → Option Nat
  edge : V → V → Option Nat

namespace Digraph

variable (G H : Digraph V)

def Edge (u v : V) : Prop := (u, v) ∈ G.edges

/-- The edges are between nodes, each node is there once and no path comes back. -/
structure Dag : Prop where
  nodup : G.nodes.Nodup
  closed : ∀ u v, G.Edge u v → u ∈ G.nodes ∧ v ∈ G.nodes
  acyclic : ∀ v, ¬ Relation.TransGen G.Edge v v

/-- No node of the set leads to another one. -/
def Antichain (ns : List V) : Prop :=
  ns.Nodup ∧ (∀ v ∈ ns, v ∈ G.nodes) ∧ ∀ u ∈ ns, ∀ v ∈ ns, ¬ Relation.TransGen G.Edge u v

variable [DecidableEq V]

instance {u v : V} : Decidable (G.Edge u v) := inferInstanceAs (Decidable ((u, v) ∈ G.edges))

def predecessors (v : V) : List V := (G.edges.filter fun e => e.2 = v).map Prod.fst

def successors (v : V) : List V := (G.edges.filter fun e => e.1 = v).map Prod.snd

/-- Without edges from or to it. -/
def Isolated (v : V) : Prop := G.predecessors v = [] ∧ G.successors v = []

/-- Every node once, after all that lead to it. -/
def TopologicalSort (order : List V) : Prop :=
  order.Perm G.nodes ∧ Kahn.Topological G.nodes G.successors order

def addNode (u : V) : Digraph V := if u ∈ G.nodes then G else { G with nodes := G.nodes ++ [u] }

/-- `add_edge`: the ends are added when they are not there. -/
def addEdge (u v : V) : Digraph V :=
  let G := (G.addNode u).addNode v
  if (u, v) ∈ G.edges then G else { G with edges := G.edges ++ [(u, v)] }

/-- `nx.compose`. -/
def compose : Digraph V where
  nodes := G.nodes ++ H.nodes.filter (· ∉ G.nodes)
  edges := G.edges ++ H.edges.filter (· ∉ G.edges)

def removeNode (u : V) : Digraph V where
  nodes := G.nodes.filter (· ≠ u)
  edges := G.edges.filter fun e => e.1 ≠ u ∧ e.2 ≠ u

variable {G H} {u v w : V} {order : List V}

@[simp] theorem mem_predecessors : u ∈ G.predecessors v ↔ G.Edge u v := by
  simp [predecessors, Edge]

@[simp] theorem mem_successors : v ∈ G.successors u ↔ G.Edge u v := by
  simp [successors, Edge]

theorem mem_addNode : w ∈ (G.addNode u).nodes ↔ w ∈ G.nodes ∨ w = u := by
  unfold addNode
  split
  · rename_i hu
    constructor
    · exact Or.inl
    · rintro (h | rfl)
      · exact h
      · exact hu
  · simp

@[simp] theorem addNode_edges : (G.addNode u).edges = G.edges := by
  unfold addNode
  split <;> rfl

theorem addEdge_nodes : (G.addEdge u v).nodes = ((G.addNode u).addNode v).nodes := by
  unfold addEdge
  dsimp only
  split <;> rfl

theorem mem_addEdge : w ∈ (G.addEdge u v).nodes ↔ w ∈ G.nodes ∨ w = u ∨ w = v := by
  rw [addEdge_nodes, mem_addNode, mem_addNode, or_assoc]

theorem edge_addEdge {a b : V} : (G.addEdge u v).Edge a b ↔ G.Edge a b ∨ (a = u ∧ b = v) := by
  unfold addEdge Edge
  dsimp only
  split
  · rename_i h
    rw [addNode_edges, addNode_edges] at h
    simp only [addNode_edges]
    constructor
    · exact Or.inl
    · rintro (he | ⟨rfl, rfl⟩)
      · exact he
      · exact h
  · simp

theorem mem_compose : w ∈ (G.compose H).nodes ↔ w ∈ G.nodes ∨ w ∈ H.nodes := by
  by_cases hw : w ∈ G.nodes <;> simp [compose, hw]

theorem edge_compose : (G.compose H).Edge u v ↔ G.Edge u v ∨ H.Edge u v := by
  unfold Edge
  by_cases he : (u, v) ∈ G.edges <;> simp [compose, he]

theorem nodup_addNode (hG : G.nodes.Nodup) : (G.addNode u).nodes.Nodup := by
  unfold addNode
  split
  · exact hG
  · rename_i hu
    exact List.nodup_append'.mpr ⟨hG, List.nodup_singleton u, by simpa using hu⟩

theorem nodup_addEdge (hG : G.nodes.Nodup) : (G.addEdge u v).nodes.Nodup := by
  rw [addEdge_nodes]
  exact nodup_addNode (nodup_addNode hG)

theorem nodup_compose (hG : G.nodes.Nodup) (hH : H.nodes.Nodup) : (G.compose H).nodes.Nodup := by
  refine List.nodup_append'.mpr ⟨hG, hH.filter _, fun v hv hf => ?_⟩
  simp only [List.mem_filter, decide_eq_true_eq] at hf
  exact hf.2 hv

namespace TopologicalSort

theorem nodup (h : G.TopologicalSort order) (hG : G.Dag) : order.Nodup :=
  h.1.nodup_iff.mpr hG.nodup

theorem mem_iff (h : G.TopologicalSort order) : v ∈ order ↔ v ∈ G.nodes := h.1.mem_iff

theorem notMem_before (h : G.TopologicalSort order) (hG : G.Dag) {pre post : List V}
    (he : order = pre ++ v :: post) : v ∉ pre := by
  have hnd := he ▸ h.nodup hG
  exact fun hm => List.disjoint_of_nodup_append hnd hm (by simp)

/-- What leads to a node comes before it. -/
theorem before (h : G.TopologicalSort order) (hG : G.Dag) {pre post : List V}
    (ho : order = pre ++ v :: post) (he : G.Edge u v) : u ∈ pre :=
  h.2 pre v post ho u ⟨(hG.closed u v he).1, mem_successors.mpr he⟩

end TopologicalSort

theorem Dag.kahn (hG : G.Dag) : Kahn.Acyclic G.nodes G.successors := by
  intro v hv
  exact hG.acyclic v (hv.lift id fun a b hab => mem_successors.mp hab.2)

/-- What holds at a node when it holds at all that lead to it holds at every node. -/
theorem Dag.induction (hG : G.Dag) {P : V → Prop}
    (step : ∀ v ∈ G.nodes, (∀ u, G.Edge u v → P u) → P v) : ∀ v ∈ G.nodes, P v := by
  refine hG.kahn.induction fun v hv ih => step v hv fun u he => ?_
  exact ih u ⟨(hG.closed u v he).1, mem_successors.mpr he⟩

/-- From every node a path leads to one that leads nowhere. -/
theorem Dag.exists_sink (hG : G.Dag) : ∀ v ∈ G.nodes,
    ∃ l ∈ G.nodes, G.successors l = [] ∧ Relation.ReflTransGen G.Edge v l := by
  intro v hv
  obtain ⟨l, hl, hs, hp⟩ := hG.kahn.exists_leaf
    (fun u _ w hw => (hG.closed u w (mem_successors.mp hw)).2) v hv
  exact ⟨l, hl, hs, hp.lift id fun a b hab => mem_successors.mp hab.2⟩

omit [DecidableEq V] in
/-- Where the nodes fall into chains, an antichain has no more nodes than there are chains. -/
theorem Antichain.length_le {ns : List V} (h : G.Antichain ns) {k : Nat} (chain : V → Fin k)
    (hc : ∀ u ∈ G.nodes, ∀ v ∈ G.nodes, chain u = chain v →
      u = v ∨ Relation.TransGen G.Edge u v ∨ Relation.TransGen G.Edge v u) : ns.length ≤ k := by
  have hnd : (ns.map chain).Nodup := by
    refine List.Nodup.map_on (fun u hu v hv he => ?_) h.1
    rcases hc u (h.2.1 u hu) v (h.2.1 v hv) he with he | he | he
    · exact he
    · exact absurd he (h.2.2 u hu v hv)
    · exact absurd he (h.2.2 v hv u hu)
  simpa using hnd.length_le_card

omit [DecidableEq V] in
/-- A graph whose edges go up has no cycles. -/
theorem dag_of_lt [Preorder V] (hn : G.nodes.Nodup)
    (hc : ∀ e ∈ G.edges, e.1 ∈ G.nodes ∧ e.2 ∈ G.nodes) (h : ∀ e ∈ G.edges, e.1 < e.2) :
    G.Dag where
  nodup := hn
  closed u v he := hc (u, v) he
  acyclic v hv := by
    have hlt : ∀ a b, Relation.TransGen G.Edge a b → a < b := by
      intro a b hab
      induction hab with
      | single he => exact h _ he
      | tail _ he ih => exact ih.trans (h _ he)
    exact lt_irrefl v (hlt v v hv)

/-- An order in which the ends of every edge come in turn. -/
theorem topologicalSort_of_before (hp : order.Perm G.nodes) (hn : order.Nodup)
    (h : ∀ e ∈ G.edges, order.idxOf e.1 < order.idxOf e.2) : G.TopologicalSort order := by
  refine ⟨hp, ?_⟩
  rintro pre d post rfl u ⟨hu, he⟩
  have hlt := h (u, d) (mem_successors.mp he)
  have hd : d ∉ pre := fun hm => List.disjoint_of_nodup_append hn hm (by simp)
  rw [List.idxOf_append_of_notMem hd, List.idxOf_cons_self] at hlt
  by_contra hu
  rw [List.idxOf_append_of_notMem hu] at hlt
  omega

end Digraph

end Daliuge.Partition
