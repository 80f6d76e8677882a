import Daliuge.Partition.Dense
import Daliuge.Partition.Grouping
import Daliuge.Partition.Placing

/-!
# What the schedulers leave

Whatever the weights, the merges and the vector the optimiser returns, `partition_dag` leaves every
node of the DAG in a part of the list it returns, with ids counted from the first free key.
-/
namespace Daliuge.Partition

open Collect

/-- The graph with what a scheduler has written into it. -/
def DropGraph.partitioned (G : DropGraph) (graph : Digraph Int) (weight : Int → Int → Nat)
    (gid : Int → Option Nat) : DropGraph :=
  { G with
    graph
    edgeWeight := fun a b => if (a, b) ∈ graph.edges then some (weight a b) else none
    gid := fun k => (gid k).map fun g : Nat => (g : Int) }

/-- What `partition_dag` may return for the graph of `n` drops. -/
inductive Partitions (G : DropGraph) (n : Nat) : Scheduled → Prop
  | minNumParts {P : Problem Int} {width : Digraph Int → (Int → Nat) → Nat}
      {topoSorted : List Int} {fuel num : Nat} {lpl : Int} {s : State Int}
      (hdag : P.dag = G.graph) (hn : P.dropCount = n)
      (h : P.partitionDag width topoSorted fuel = some (.ok (num, lpl, s))) :
      Partitions G n {
        numParts := num
        partitions := s.parts.map fun ref => (s.idOf ref : Int)
        dag := G.partitioned P.dag s.edgeWeight s.gid }
  | pso {P : Problem Int} {nx : DagTools Int} {x : Nat → Int} {num : Nat} {lpl : Int}
      {t : Swarm Int} (hdag : P.dag = G.graph) (hn : P.dropCount = n) (hnx : nx.Sound)
      (htopo : ∀ G, (nx.topologicalSort G).Perm G.nodes)
      (h : P.partitionDagPso nx x = .ok (num, lpl, t)) :
      Partitions G n {
        numParts := num
        partitions := t.parts.map fun ref => ((t.heap ref).partitionId : Int)
        dag := G.partitioned t.edges.graph t.edges.weight t.gid }

/-! Linking keeps the edges between nodes. -/

/-- The edges are between nodes. -/
def Digraph.Inside {V : Type} (G : Digraph V) : Prop := ∀ e ∈ G.edges, e.1 ∈ G.nodes ∧ e.2 ∈ G.nodes

section Inside

variable {V : Type} [DecidableEq V] {nx : DagTools V} {P : Problem V} {p q : Partition V}
  {E E' : Edges V} {s s' : Swarm V} {e : V × V} {u v : V}

theorem Digraph.Inside.addEdge {G : Digraph V} (h : G.Inside) : (G.addEdge u v).Inside := by
  intro e he
  rw [Digraph.mem_addEdge, Digraph.mem_addEdge]
  rcases Digraph.edge_addEdge.mp he with he | ⟨h1, h2⟩
  · exact ⟨Or.inl (h e he).1, Or.inl (h e he).2⟩
  · exact ⟨Or.inr (Or.inl h1), Or.inr (Or.inr h2)⟩

theorem inside_link {c : Digraph V × Edges V} (h : c.2.graph.Inside) :
    (Partition.link nx c u v).2.graph.Inside := by
  unfold Partition.link
  dsimp only
  split
  · exact h.addEdge
  · exact fun e he => h.addEdge e (List.mem_of_mem_filter he)

theorem inside_linearise {unew : Bool} {dag : Digraph V} (h : E.graph.Inside) :
    (Partition.linearise nx unew u v dag E).2.graph.Inside := by
  have hfold : ∀ (f : Digraph V × Edges V → V → Digraph V × Edges V) (l : List V)
      (c : Digraph V × Edges V), (∀ c w, c.2.graph.Inside → (f c w).2.graph.Inside) →
      c.2.graph.Inside → (l.foldl f c).2.graph.Inside := by
    intro f l c hf hc
    induction l generalizing c with
    | nil => exact hc
    | cons w l ih => exact ih (f c w) (hf c w hc)
  unfold Partition.linearise
  split
  · refine hfold _ _ _ (fun c w hc => ?_) h
    split
    · exact hc
    · split
      · exact inside_link hc
      · exact hc
  · refine hfold _ _ _ (fun c w hc => ?_) h
    split
    · exact hc
    · split
      · exact inside_link hc
      · exact hc

theorem inside_add {sequential : Bool} (h : E.graph.Inside)
    (hadd : p.add nx P u v sequential E = .ok (q, E')) : E'.graph.Inside := by
  unfold Partition.add at hadd
  obtain ⟨_, -, hadd⟩ := bind_ok.mp hadd
  obtain ⟨_, -, hadd⟩ := bind_ok.mp hadd
  obtain ⟨_, -, hadd⟩ := bind_ok.mp hadd
  obtain ⟨_, -, hadd⟩ := bind_ok.mp hadd
  split at hadd
  · obtain ⟨-, rfl⟩ := Prod.mk.inj (pure_ok.mp hadd)
    exact h
  · obtain ⟨_, -, hadd⟩ := bind_ok.mp hadd
    obtain ⟨-, rfl⟩ := Prod.mk.inj (pure_ok.mp hadd)
    have hlinear : (if sequential then Partition.linearise nx (decide (u ∉ p.dag.nodes)) u v
        (p.dag.addEdge u v) E else (p.dag.addEdge u v, E)).2.graph.Inside := by
      split
      · exact inside_linearise h
      · exact h
    exact hlinear

theorem inside_meet {ref ow : Nat} {linear : Bool} (h : s.edges.graph.Inside)
    (hm : s.meet nx P ref e ow linear = .ok s') : s'.edges.graph.Inside := by
  unfold Swarm.meet at hm
  obtain ⟨_, -, hm⟩ := bind_ok.mp hm
  dsimp only at hm
  split at hm
  · obtain ⟨⟨q, E⟩, hadd, hm⟩ := bind_ok.mp hm
    obtain rfl := pure_ok.mp hm
    exact inside_add h hadd
  · obtain rfl := pure_ok.mp hm
    exact h

theorem inside_zeroEdge {linear : Bool} (h : s.edges.graph.Inside)
    (hz : s.zeroEdge nx P e linear = .ok s') : s'.edges.graph.Inside := by
  have hzero : (s.zero e).edges.graph.Inside := h
  unfold Swarm.zeroEdge at hz
  dsimp only at hz
  split at hz
  · obtain ⟨ref, -, hz⟩ := bind_ok.mp hz
    exact inside_meet hzero hz
  · obtain ⟨ref, -, hz⟩ := bind_ok.mp hz
    exact inside_meet hzero hz
  · exact inside_meet (s := (s.zero e).newPart) hzero hz
  · obtain rfl := Except.ok.inj hz
    exact h

theorem placeAll_inside {x : Nat → Int} (h : P.dag.Inside) (hs : Swarm.placeAll nx P x = .ok s) :
    s.edges.graph.Inside := by
  refine foldlM_kept (I := fun s : Swarm V => s.edges.graph.Inside)
    (fun e _ s s' hi hstep => ?_) h hs
  unfold Swarm.place at hstep
  split at hstep
  · obtain rfl := Except.ok.inj hstep
    exact hi
  · exact inside_zeroEdge hi hstep
  · exact inside_zeroEdge hi hstep
  · exact absurd hstep (by simp)

end Inside

/-! The parts of the nodes. -/

section Parts

variable {G : DropGraph} {n : Nat} {r : Scheduled} {specs : List DropSpec}

/-- Every node is in a part of the list, and there are nodes. -/
structure Assigned (G : DropGraph) (n : Nat) (r : Scheduled) : Prop where
  nonempty : G.graph.nodes ≠ []
  nodes : r.dag.graph.nodes = G.graph.nodes
  dropType : r.dag.dropType = G.dropType
  inside : r.dag.graph.Inside
  parts : ∀ id ∈ r.partitions, (n : Int) + 1 ≤ id ∧ id < (n : Int) + 1 + r.partitions.length
  gids : ∀ k ∈ G.graph.nodes, ∃ id ∈ r.partitions, r.dag.gid k = some id

theorem reduceLoop_empty {V : Type} [DecidableEq V] {P : Problem V}
    {width : Digraph V → (V → Nat) → Nat} {s : State V} (hs : s.parts = []) (fuel i : Nat) :
    P.reduceLoop width fuel i s = none := by
  induction fuel generalizing i with
  | zero => rfl
  | succ fuel ih =>
    have hstep : P.reduceStep width i s = .ok (.next 0 s) := by
      unfold Problem.reduceStep
      rw [hs]
      rfl
    rw [Problem.reduceLoop, hstep]
    exact ih 0

/-- Without nodes `reduce_partitions` does not come to an end. -/
theorem partitionDag_empty {V : Type} [LinearOrder V] {P : Problem V}
    {width : Digraph V → (V → Nat) → Nat} {topoSorted : List V} {fuel : Nat}
    (hn : P.dag.nodes = []) (hi : P.dag.Inside) :
    P.partitionDag width topoSorted fuel = none := by
  have he : P.dag.edges = [] := by
    refine List.eq_nil_iff_forall_not_mem.mpr fun e he => ?_
    have hmem := (hi e he).1
    simp [hn] at hmem
  have hz : P.zeroEdges width = .ok P.blank := by
    simp [Problem.zeroEdges, Problem.sortedEdges, Problem.singles, he, hn, pure, Except.pure]
  unfold Problem.partitionDag
  rw [hz]
  have hs : P.sortParts P.blank = .ok P.blank := by
    unfold Problem.sortParts
    rw [if_pos (Or.inl (show P.blank.parts = [] from rfl))]
    rfl
  have hr : P.reducePartitions width fuel P.blank = none := by
    unfold Problem.reducePartitions
    rw [hs]
    exact reduceLoop_empty rfl fuel 0
  simp only [hr]

theorem getLongestPath_empty {V : Type} [LinearOrder V] {G : Digraph V} {W : Weights V}
    {defaultWeight : Nat} : getLongestPath G W defaultWeight [] = .error .emptyMax := rfl

/-- What `partition_dag` returns. -/
theorem Partitions.assigned (hG : Numbered specs G) (hnd : G.graph.nodes.Nodup)
    (h : Partitions G n r) : Assigned G n r := by
  have hinside : G.graph.Inside := fun e he => hG.edges e.1 e.2 he
  cases h with
  | @minNumParts P width topoSorted fuel num lpl s hdag hn h =>
    have hcl : ∀ e ∈ P.dag.edges, e.1 ∈ P.dag.nodes ∧ e.2 ∈ P.dag.nodes := hdag ▸ hinside
    have hd : Dense P s :=
      (visited_dense (hdag ▸ hnd) hcl (visited_of_partitionDag h)).1
    refine ⟨fun he => ?_, congrArg Digraph.nodes hdag, rfl, hdag ▸ hinside, fun id hid => ?_,
      fun k hk => ?_⟩
    · have hnone : P.partitionDag width topoSorted fuel = none :=
        partitionDag_empty (hdag ▸ he) hcl
      rw [hnone] at h
      simp at h
    · obtain ⟨ref, hr, rfl⟩ := List.mem_map.mp hid
      obtain ⟨h1, h2⟩ := hd.idOf_mem hr
      rw [List.length_map]
      omega
    · obtain ⟨ref, hr, hk⟩ := hd.cover k (hdag ▸ hk)
      refine ⟨s.idOf ref, List.mem_map_of_mem hr, ?_⟩
      show (s.gid k).map _ = _
      rw [hd.gid ref hr k hk]
      rfl
  | @pso P nx x num lpl t hdag hn hnx htopo h =>
    have hcl : ∀ e ∈ P.dag.edges, e.1 ∈ P.dag.nodes ∧ e.2 ∈ P.dag.nodes := hdag ▸ hinside
    obtain ⟨s, hs, hown⟩ := partitionDagPso_cases h
    have hb := placeAll_between hnx hcl hs
    have ho := ownParts_owned (P := P) (hb.grouped.nodes ▸ hdag ▸ hnd)
    rw [hown] at ho
    have hnodes : t.edges.graph.nodes = G.graph.nodes := by
      rw [ho.graph, hb.grouped.nodes, hdag]
    have hlen : t.parts.length = s.parts.length + (s.leftOver s.edges.graph.nodes).length := by
      rw [ho.parts, List.length_append, List.length_range']
    -- the ids of the parts
    have hids : ∀ i < t.parts.length, (t.heap i).partitionId = P.dropCount + 1 + i ∧
          i < s.parts.length ∨
        (t.heap i).partitionId = P.dropCount + 1 + s.parts.length ∧ s.parts.length ≤ i := by
      intro i hi
      by_cases hlt : i < s.parts.length
      · rw [ho.old i hlt]
        exact Or.inl ⟨hb.grouped.ids i hlt, hlt⟩
      · have hj : i - s.parts.length < (s.leftOver s.edges.graph.nodes).length := by omega
        have hid := (ho.new _ _ (List.getElem?_eq_getElem hj)).1
        rw [Nat.add_sub_cancel' (by omega)] at hid
        exact Or.inr ⟨hid, by omega⟩
    have hparts : t.parts = List.range t.parts.length := by
      rw [hlen, ho.parts, hb.grouped.parts, List.length_range, List.range_eq_range',
        List.range_eq_range', ← List.range'_append_1, Nat.zero_add]
    refine ⟨fun he => ?_, hnodes, rfl, ?_, fun id hid => ?_, fun k hk => ?_⟩
    · unfold Problem.partitionDagPso at h
      obtain ⟨s', hs', h⟩ := bind_ok.mp h
      obtain ⟨lp, hlp, -⟩ := bind_ok.mp h
      obtain rfl := Except.ok.inj (hs.symm.trans hs')
      have hsort : nx.topologicalSort s.edges.graph = [] := by
        have hp := htopo s.edges.graph
        rw [hb.grouped.nodes, hdag, he] at hp
        exact hp.eq_nil
      rw [hsort, getLongestPath_empty] at hlp
      simp at hlp
    · rw [show (G.partitioned t.edges.graph t.edges.weight t.gid).graph = t.edges.graph from rfl,
        ho.graph]
      exact placeAll_inside (hdag ▸ hinside) hs
    · obtain ⟨ref, hr, rfl⟩ := List.mem_map.mp hid
      rw [List.length_map]
      have hlt : ref < t.parts.length := by
        rw [hparts] at hr
        exact List.mem_range.mp hr
      rcases hids ref hlt with ⟨h1, h2⟩ | ⟨h1, h2⟩ <;> omega
    · have hmem : ∀ i < t.parts.length, ((t.heap i).partitionId : Int) ∈
          t.parts.map fun ref => ((t.heap ref).partitionId : Int) := by
        intro i hi
        refine List.mem_map_of_mem (f := fun ref => ((t.heap ref).partitionId : Int)) ?_
        rw [hparts]
        exact List.mem_range.mpr hi
      have hgid : ∀ g, t.gid k = some g → (G.partitioned t.edges.graph t.edges.weight t.gid).gid k =
          some (g : Int) := by
        intro g hg
        show (t.gid k).map _ = _
        rw [hg]
        rfl
      have hks : k ∈ s.edges.graph.nodes := by rw [hb.grouped.nodes, hdag]; exact hk
      have ht := ho.gids k
      by_cases hnone : s.gid k = none
      · rw [if_pos ⟨hks, hnone⟩] at ht
        have hleft : k ∈ s.leftOver s.edges.graph.nodes :=
          List.mem_filter.mpr ⟨hks, by simpa using hnone⟩
        have hpos := List.length_pos_of_mem hleft
        refine ⟨_, hmem s.parts.length (by omega), ?_⟩
        rcases hids s.parts.length (by omega) with ⟨-, h2⟩ | ⟨h1, -⟩
        · omega
        · rw [h1]
          exact hgid _ ht
      · rw [if_neg fun hc => hnone hc.2] at ht
        obtain ⟨g, hg⟩ := Option.ne_none_iff_exists'.mp hnone
        obtain ⟨-, i, hi, rfl⟩ := hb.grouped.known k g hg
        refine ⟨_, hmem i (by omega), ?_⟩
        rcases hids i (by omega) with ⟨h1, -⟩ | ⟨-, h2⟩
        · rw [h1]
          exact hgid _ (ht.trans hg)
        · omega

end Parts

end Daliuge.Partition
