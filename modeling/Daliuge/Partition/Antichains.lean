import Mathlib.Algebra.BigOperators.Ring.Finset
import Mathlib.Algebra.Order.BigOperators.Group.List
import Daliuge.Lib.Flow
import Daliuge.Partition.Digraph

/-!
# The heaviest antichain

`get_max_weighted_antichain`: the graph is split into two copies of every node, a maximum flow
goes from the first copies to the second ones, and the antichain is read off what the residual
graph still reaches. The functions of `networkx` are parameters.
-/
namespace Daliuge.Partition

/-- The nodes "s", "t", "v_x" and "v_y" of the split graph. -/
inductive SplitNode (V : Type)
  | s
  | t
  | x (v : V)
  | y (v : V)
  deriving DecidableEq, Repr

/-- `sys.maxsize`, and the float next to it. -/
def maxsize : Nat := 2 ^ 63 - 1

def floatMaxsize : Nat := 2 ^ 63

/-- An edge with its attributes `capacity` and `weight`. -/
structure Arc (N : Type) where
  src : N
  dst : N
  capacity : Nat
  weight : Nat

/-- A `DiGraph` with these attributes. -/
structure Network (N : Type) where
  graph : Digraph N := {}
  capacity : N → N → Nat := fun _ _ => 0
  weight : N → N → Nat := fun _ _ => 0

variable {V N : Type}

/-- What is used of `networkx`. -/
structure Networkx (V : Type) where
  descendants : Digraph V → V → List V
  ancestors : Digraph V → V → List V
  hasPath : Digraph (SplitNode V) → SplitNode V → SplitNode V → Bool
  maximumFlow : Network (SplitNode V) → SplitNode V → SplitNode V → SplitNode V → SplitNode V → Int

/-- `get(w_attr, 1)`. -/
def weightOf (attr : V → Option Nat) (v : V) : Nat := (attr v).getD 1

section Functions

variable [DecidableEq N] [DecidableEq V] (nx : Networkx V) (attr : V → Option Nat)

/-- `add_edge`. -/
def Network.addArc (B : Network N) (a : Arc N) : Network N where
  graph := B.graph.addEdge a.src a.dst
  capacity u v := if u = a.src ∧ v = a.dst then a.capacity else B.capacity u v
  weight u v := if u = a.src ∧ v = a.dst then a.weight else B.weight u v

/-- The edges that are added for a node, in turn. -/
def splitArcs (dag : Digraph V) (el : V) : List (Arc (SplitNode V)) :=
  [⟨.s, .x el, weightOf attr el, 0⟩, ⟨.x el, .y el, maxsize, 1⟩, ⟨.y el, .t, weightOf attr el, 0⟩]
    ++ (nx.descendants dag el).map (fun udown => ⟨.x el, .y udown, floatMaxsize, 0⟩)
    ++ (nx.ancestors dag el).map (fun uup => ⟨.x uup, .y el, floatMaxsize, 0⟩)

/-- `_create_split_graph`. -/
def createSplitGraph (dag : Digraph V) : Network (SplitNode V) :=
  (dag.nodes.flatMap (splitArcs nx attr dag)).foldl Network.addArc {}

/-- The graph H: the edges of weight 0 that let something through. -/
def Network.admissible (B : Network N) : Network N :=
  { B with graph :=
    { B.graph with
      edges := B.graph.edges.filter fun e => B.weight e.1 e.2 = 0 ∧ 0 < B.capacity e.1 e.2 } }

/-- One edge of H in the residual graph: there, back, or both. -/
def Network.residualStep (H : Network N) (flow : N → N → Int) (R : Digraph N) (e : N × N) :
    Digraph N :=
  let R := if 0 < (H.capacity e.1 e.2 : Int) - flow e.1 e.2 then R.addEdge e.1 e.2 else R
  if 0 < flow e.1 e.2 then R.addEdge e.2 e.1 else R

/-- The residual graph R. -/
def Network.residual (H : Network N) (flow : N → N → Int) : Digraph N :=
  H.graph.edges.foldl (H.residualStep flow) { nodes := H.graph.nodes }

/-- `_get_pi_solution`. -/
def getPiSolution (splitGraph : Network (SplitNode V)) (n : SplitNode V) : Int :=
  let H := splitGraph.admissible
  let R := H.residual (nx.maximumFlow H .s .t)
  if nx.hasPath R .s n then 0 else 1

/-- The condition on a node of the split graph in the loop over `h`. -/
def chosen (pai : SplitNode V → Int) (h : Nat) : SplitNode V → Bool
  | .x v => 1 - pai (.x v) + pai .s = h ∧ pai (.y v) - pai (.x v) = 1
  | _ => false

/-- `get_max_weighted_antichain`: the weight, and the names "v_x" of the nodes. -/
def getMaxWeightedAntichain (dag : Digraph V) : Nat × List (SplitNode V) :=
  let bpg := createSplitGraph nx attr dag
  let pai := getPiSolution nx bpg
  let names := (List.range 2).flatMap fun h => bpg.graph.nodes.filter (chosen pai h)
  ((names.map (bpg.capacity .s)).sum, names)

end Functions

/-! What `networkx` promises. -/

section Promises

variable [DecidableEq N]

/-- The capacities of the edges. -/
def Network.cap (H : Network N) (u v : N) : Int :=
  if (u, v) ∈ H.graph.edges then H.capacity u v else 0

/-- What the documentation says of the functions used. -/
structure Networkx.Correct [DecidableEq V] (nx : Networkx V) : Prop where
  descendants : ∀ (G : Digraph V), G.Dag → ∀ u v,
    v ∈ nx.descendants G u ↔ Relation.TransGen G.Edge u v
  ancestors : ∀ (G : Digraph V), G.Dag → ∀ u v,
    u ∈ nx.ancestors G v ↔ Relation.TransGen G.Edge u v
  hasPath : ∀ (R : Digraph (SplitNode V)) a b,
    nx.hasPath R a b = true ↔ Relation.ReflTransGen R.Edge a b
  maximumFlow : ∀ (H : Network (SplitNode V)) a b, a ∈ H.graph.nodes → b ∈ H.graph.nodes → a ≠ b →
    Flow.Maximum H.graph.nodes.toFinset H.cap a b (nx.maximumFlow H a b)

end Promises

/-! The split graph. -/

section Arcs

variable [DecidableEq N] {B : Network N} {arcs : List (Arc N)} {u v n : N}

theorem edge_foldl_addArc : (arcs.foldl Network.addArc B).graph.Edge u v ↔
    B.graph.Edge u v ∨ ∃ a ∈ arcs, u = a.src ∧ v = a.dst := by
  induction arcs generalizing B with
  | nil => simp
  | cons a arcs ih =>
    rw [List.foldl_cons, ih, Network.addArc, Digraph.edge_addEdge]
    simp only [List.mem_cons, exists_eq_or_imp]
    exact or_assoc

theorem mem_foldl_addArc : n ∈ (arcs.foldl Network.addArc B).graph.nodes ↔
    n ∈ B.graph.nodes ∨ ∃ a ∈ arcs, n = a.src ∨ n = a.dst := by
  induction arcs generalizing B with
  | nil => simp
  | cons a arcs ih =>
    rw [List.foldl_cons, ih, Network.addArc, Digraph.mem_addEdge]
    simp only [List.mem_cons, exists_eq_or_imp]
    exact or_assoc

theorem nodup_foldl_addArc (h : B.graph.nodes.Nodup) :
    (arcs.foldl Network.addArc B).graph.nodes.Nodup := by
  induction arcs generalizing B with
  | nil => exact h
  | cons a arcs ih => exact ih (Digraph.nodup_addEdge h)

/-- Where edges with the same ends have the same attributes, these are the attributes. -/
theorem attributes_foldl_addArc {C K : N → N → Nat}
    (ha : ∀ a ∈ arcs, a.capacity = C a.src a.dst ∧ a.weight = K a.src a.dst)
    (hB : ∀ u v, B.graph.Edge u v → B.capacity u v = C u v ∧ B.weight u v = K u v)
    (h : (arcs.foldl Network.addArc B).graph.Edge u v) :
    (arcs.foldl Network.addArc B).capacity u v = C u v ∧
      (arcs.foldl Network.addArc B).weight u v = K u v := by
  induction arcs generalizing B with
  | nil => exact hB u v h
  | cons a arcs ih =>
    refine ih (fun b hb => ha b (by simp [hb])) (fun p q hpq => ?_) h
    by_cases he : p = a.src ∧ q = a.dst
    · obtain ⟨rfl, rfl⟩ := he
      simpa [Network.addArc] using ha a (by simp)
    · rcases Digraph.edge_addEdge.mp hpq with hpq | hpq
      · simpa [Network.addArc, he] using hB p q hpq
      · exact absurd hpq he

end Arcs

section Split

variable [DecidableEq V] {nx : Networkx V} {attr : V → Option Nat} {dag : Digraph V}
  {a b n : SplitNode V} {u v : V}

/-- The edges of the split graph. -/
def SplitEdge (dag : Digraph V) : SplitNode V → SplitNode V → Prop
  | .s, .x v => v ∈ dag.nodes
  | .x u, .y v => (u = v ∧ v ∈ dag.nodes) ∨ Relation.TransGen dag.Edge u v
  | .y v, .t => v ∈ dag.nodes
  | _, _ => False

def splitCapacity (attr : V → Option Nat) : SplitNode V → SplitNode V → Nat
  | .s, .x v => weightOf attr v
  | .x u, .y v => if u = v then maxsize else floatMaxsize
  | .y v, .t => weightOf attr v
  | _, _ => 0

def splitWeight : SplitNode V → SplitNode V → Nat
  | .x u, .y v => if u = v then 1 else 0
  | _, _ => 0

/-- The nodes of the split graph. -/
def SplitNode.Of (dag : Digraph V) : SplitNode V → Prop
  | .s => dag.nodes ≠ []
  | .t => dag.nodes ≠ []
  | .x v => v ∈ dag.nodes
  | .y v => v ∈ dag.nodes

open Classical in
/-- The capacities of H: the weights of the nodes at the ends, as good as unlimited between. -/
noncomputable def flowCapacity (attr : V → Option Nat) (dag : Digraph V) :
    SplitNode V → SplitNode V → Int
  | .s, .x v => if v ∈ dag.nodes then (weightOf attr v : Int) else 0
  | .x u, .y v => if Relation.TransGen dag.Edge u v then (floatMaxsize : Int) else 0
  | .y v, .t => if v ∈ dag.nodes then (weightOf attr v : Int) else 0
  | _, _ => 0

omit [DecidableEq V] in
theorem leads_mem (hG : dag.Dag) (h : Relation.TransGen dag.Edge u v) :
    u ∈ dag.nodes ∧ v ∈ dag.nodes := by
  constructor
  · obtain ⟨w, hw, -⟩ := Relation.TransGen.head'_iff.mp h
    exact (hG.closed u w hw).1
  · obtain ⟨w, -, hw⟩ := Relation.TransGen.tail'_iff.mp h
    exact (hG.closed w v hw).2

omit [DecidableEq V] in
theorem leads_ne (hG : dag.Dag) (h : Relation.TransGen dag.Edge u v) : u ≠ v := by
  rintro rfl
  exact hG.acyclic u h

section Made

variable (hnx : nx.Correct) (hG : dag.Dag)

include hnx hG

/-- Every edge that is added is one of the split graph and has its attributes. -/
theorem splitArcs_spec {el : V} (hel : el ∈ dag.nodes) {c : Arc (SplitNode V)}
    (hc : c ∈ splitArcs nx attr dag el) : SplitEdge dag c.src c.dst ∧
      c.capacity = splitCapacity attr c.src c.dst ∧ c.weight = splitWeight c.src c.dst := by
  simp only [splitArcs, List.mem_append, List.mem_cons, List.not_mem_nil, or_false,
    List.mem_map] at hc
  rcases hc with ((rfl | rfl | rfl) | ⟨d, hd, rfl⟩) | ⟨d, hd, rfl⟩
  · exact ⟨hel, rfl, rfl⟩
  · exact ⟨Or.inl ⟨rfl, hel⟩, by simp [splitCapacity], by simp [splitWeight]⟩
  · exact ⟨hel, rfl, rfl⟩
  · have hlead := (hnx.descendants dag hG el d).mp hd
    have hne := leads_ne hG hlead
    exact ⟨Or.inr hlead, by simp [splitCapacity, hne], by simp [splitWeight, hne]⟩
  · have hlead := (hnx.ancestors dag hG d el).mp hd
    have hne := leads_ne hG hlead
    exact ⟨Or.inr hlead, by simp [splitCapacity, hne], by simp [splitWeight, hne]⟩

theorem edge_createSplitGraph :
    (createSplitGraph nx attr dag).graph.Edge a b ↔ SplitEdge dag a b := by
  rw [createSplitGraph, edge_foldl_addArc]
  constructor
  · rintro (h | ⟨c, hc, rfl, rfl⟩)
    · exact absurd h (by simp [Digraph.Edge])
    · obtain ⟨el, hel, hc⟩ := List.mem_flatMap.mp hc
      exact (splitArcs_spec hnx hG hel hc).1
  · intro h
    have hadd : ∀ el ∈ dag.nodes, ∀ c ∈ splitArcs nx attr dag el, c.src = a → c.dst = b →
        ∃ c ∈ dag.nodes.flatMap (splitArcs nx attr dag), a = c.src ∧ b = c.dst :=
      fun el hel c hc hs hd => ⟨c, List.mem_flatMap.mpr ⟨el, hel, hc⟩, hs.symm, hd.symm⟩
    refine Or.inr ?_
    unfold SplitEdge at h
    split at h
    · rename_i v
      exact hadd v h ⟨.s, .x v, weightOf attr v, 0⟩ (by simp [splitArcs]) rfl rfl
    · rename_i u v
      rcases h with ⟨rfl, hu⟩ | h
      · exact hadd u hu ⟨.x u, .y u, maxsize, 1⟩ (by simp [splitArcs]) rfl rfl
      · refine hadd u (leads_mem hG h).1 ⟨.x u, .y v, floatMaxsize, 0⟩ ?_ rfl rfl
        simp [splitArcs, (hnx.descendants dag hG u v).mpr h]
    · rename_i v
      exact hadd v h ⟨.y v, .t, weightOf attr v, 0⟩ (by simp [splitArcs]) rfl rfl
    · exact absurd h id

variable (attr) in
theorem attributes_createSplitGraph (h : SplitEdge dag a b) :
    (createSplitGraph nx attr dag).capacity a b = splitCapacity attr a b ∧
      (createSplitGraph nx attr dag).weight a b = splitWeight a b := by
  refine attributes_foldl_addArc (fun c hc => ?_) (by simp [Digraph.Edge])
    ((edge_createSplitGraph hnx hG).mpr h)
  obtain ⟨el, hel, hc⟩ := List.mem_flatMap.mp hc
  exact (splitArcs_spec hnx hG hel hc).2

theorem mem_createSplitGraph :
    n ∈ (createSplitGraph nx attr dag).graph.nodes ↔ n.Of dag := by
  rw [createSplitGraph, mem_foldl_addArc]
  constructor
  · rintro (h | ⟨c, hc, hn⟩)
    · exact absurd h (by simp)
    · obtain ⟨el, hel, hc⟩ := List.mem_flatMap.mp hc
      have hne : dag.nodes ≠ [] := List.ne_nil_of_mem hel
      have hedge := (splitArcs_spec hnx hG hel hc).1
      unfold SplitEdge at hedge
      split at hedge
      · rename_i v hs hd
        rcases hn with rfl | rfl
        · rw [hs]
          exact hne
        · rw [hd]
          exact hedge
      · rename_i u v hs hd
        have hmem : u ∈ dag.nodes ∧ v ∈ dag.nodes := by
          rcases hedge with ⟨rfl, hv⟩ | hlead
          · exact ⟨hv, hv⟩
          · exact leads_mem hG hlead
        rcases hn with rfl | rfl
        · rw [hs]
          exact hmem.1
        · rw [hd]
          exact hmem.2
      · rename_i v hs hd
        rcases hn with rfl | rfl
        · rw [hs]
          exact hedge
        · rw [hd]
          exact hne
      · exact absurd hedge id
  · intro h
    refine Or.inr ?_
    have hadd : ∀ el ∈ dag.nodes, ∀ c ∈ splitArcs nx attr dag el, n = c.src ∨ n = c.dst →
        ∃ c ∈ dag.nodes.flatMap (splitArcs nx attr dag), n = c.src ∨ n = c.dst :=
      fun el hel c hc hn => ⟨c, List.mem_flatMap.mpr ⟨el, hel, hc⟩, hn⟩
    cases n with
    | s =>
      obtain ⟨v, hv⟩ := List.exists_mem_of_ne_nil _ h
      exact hadd v hv ⟨.s, .x v, weightOf attr v, 0⟩ (by simp [splitArcs]) (Or.inl rfl)
    | t =>
      obtain ⟨v, hv⟩ := List.exists_mem_of_ne_nil _ h
      exact hadd v hv ⟨.y v, .t, weightOf attr v, 0⟩ (by simp [splitArcs]) (Or.inr rfl)
    | x v => exact hadd v h ⟨.x v, .y v, maxsize, 1⟩ (by simp [splitArcs]) (Or.inl rfl)
    | y v => exact hadd v h ⟨.x v, .y v, maxsize, 1⟩ (by simp [splitArcs]) (Or.inr rfl)

variable (attr) in
theorem cap_admissible :
    (createSplitGraph nx attr dag).admissible.cap = flowCapacity attr dag := by
  classical
  funext a b
  have hedge : (a, b) ∈ (createSplitGraph nx attr dag).graph.edges ↔ SplitEdge dag a b :=
    edge_createSplitGraph hnx hG
  by_cases he : SplitEdge dag a b
  · obtain ⟨hc, hw⟩ := attributes_createSplitGraph attr hnx hG he
    simp only [Network.cap, Network.admissible, List.mem_filter, hedge, he, hc, hw, true_and,
      decide_eq_true_eq]
    unfold SplitEdge at he
    split at he
    · rename_i v
      by_cases hz : 0 < weightOf attr v
      · simp [splitWeight, splitCapacity, flowCapacity, he, hz]
      · simp [splitWeight, splitCapacity, flowCapacity, he]
        omega
    · rename_i u v
      rcases he with ⟨rfl, hu⟩ | hlead
      · have hno : ¬ Relation.TransGen dag.Edge u u := hG.acyclic u
        simp [splitWeight, flowCapacity, hno]
      · have hne := leads_ne hG hlead
        simp [splitWeight, splitCapacity, flowCapacity, hne, hlead, floatMaxsize]
    · rename_i v
      by_cases hz : 0 < weightOf attr v
      · simp [splitWeight, splitCapacity, flowCapacity, he, hz]
      · simp [splitWeight, splitCapacity, flowCapacity, he]
        omega
    · exact absurd he id
  · have hzero : flowCapacity attr dag a b = 0 := by
      unfold flowCapacity
      split
      · exact if_neg he
      · exact if_neg fun hl => he (Or.inr hl)
      · exact if_neg he
      · rfl
    rw [hzero]
    simp [Network.cap, Network.admissible, hedge, he]

end Made

end Split

section Outside

variable [DecidableEq V] {attr : V → Option Nat} {dag : Digraph V} {ns : Finset (SplitNode V)}

/-- Nothing goes from or to a node that is not there. -/
theorem flowCapacity_outside (hG : dag.Dag) (hns : ∀ n, n ∈ ns ↔ n.Of dag) (a b : SplitNode V)
    (h : a ∉ ns ∨ b ∉ ns) : flowCapacity attr dag a b = 0 := by
  rw [hns, hns] at h
  unfold flowCapacity
  split
  · rename_i v
    refine if_neg fun hv => ?_
    rcases h with h | h
    · exact h (List.ne_nil_of_mem hv)
    · exact h hv
  · rename_i u v
    refine if_neg fun hlead => ?_
    obtain ⟨hu, hv⟩ := leads_mem hG hlead
    exact h.elim (· hu) (· hv)
  · rename_i v
    refine if_neg fun hv => ?_
    rcases h with h | h
    · exact h hv
    · exact h (List.ne_nil_of_mem hv)
  · rfl

end Outside

/-! The residual graph. -/

section Residual

variable [DecidableEq N] {H : Network N} {flow : N → N → Int} {a b : N}

theorem edge_residual : (H.residual flow).Edge a b ↔
    ((a, b) ∈ H.graph.edges ∧ 0 < (H.capacity a b : Int) - flow a b) ∨
      ((b, a) ∈ H.graph.edges ∧ 0 < flow b a) := by
  have hstep : ∀ (R : Digraph N) (e : N × N), (H.residualStep flow R e).Edge a b ↔ R.Edge a b ∨
      ((a, b) = e ∧ 0 < (H.capacity a b : Int) - flow a b) ∨ ((b, a) = e ∧ 0 < flow b a) := by
    rintro R ⟨p, q⟩
    unfold Network.residualStep
    simp only [Prod.mk.injEq]
    split_ifs <;> grind [Digraph.edge_addEdge]
  have hfold : ∀ (es : List (N × N)) (R : Digraph N), (es.foldl (H.residualStep flow) R).Edge a b ↔
      R.Edge a b ∨ ((a, b) ∈ es ∧ 0 < (H.capacity a b : Int) - flow a b) ∨
        ((b, a) ∈ es ∧ 0 < flow b a) := by
    intro es
    induction es with
    | nil => simp
    | cons e es ih =>
      intro R
      rw [List.foldl_cons, ih, hstep]
      simp only [List.mem_cons]
      grind
  rw [Network.residual, hfold]
  simp [Digraph.Edge]

/-- For a flow it is the residual network. -/
theorem edge_residual_iff (hH : ∀ u v, H.graph.Edge u v → u ∈ H.graph.nodes ∧ v ∈ H.graph.nodes)
    (h0 : ∀ u v, 0 ≤ flow u v) (hc : ∀ u v, flow u v ≤ H.cap u v) :
    (H.residual flow).Edge a b ↔ Flow.Residual H.graph.nodes.toFinset H.cap flow a b := by
  have hcap : ∀ u v, (u, v) ∈ H.graph.edges → H.cap u v = H.capacity u v := fun u v h => if_pos h
  have hno : ∀ u v, (u, v) ∉ H.graph.edges → flow u v = 0 ∧ H.cap u v = 0 := by
    intro u v h
    have h1 := h0 u v
    have h2 := hc u v
    have h3 : H.cap u v = 0 := if_neg h
    omega
  rw [edge_residual, Flow.Residual]
  simp only [List.mem_toFinset]
  constructor
  · rintro (⟨he, hlt⟩ | ⟨he, hlt⟩)
    · have h1 := hcap a b he
      exact ⟨(hH a b he).1, (hH a b he).2, Or.inl (by omega)⟩
    · exact ⟨(hH b a he).2, (hH b a he).1, Or.inr hlt⟩
  · rintro ⟨-, -, hlt | hlt⟩
    · by_cases he : (a, b) ∈ H.graph.edges
      · have h1 := hcap a b he
        exact Or.inl ⟨he, by omega⟩
      · obtain ⟨h1, h2⟩ := hno a b he
        omega
    · by_cases he : (b, a) ∈ H.graph.edges
      · exact Or.inr ⟨he, hlt⟩
      · obtain ⟨h1, -⟩ := hno b a he
        omega

end Residual

/-! Cuts of the split graph. -/

section Cuts

open Finset

variable [DecidableEq V] {attr : V → Option Nat} {dag : Digraph V} {ns : Finset (SplitNode V)}

/-- A sum over the split graph, copy by copy. -/
theorem sum_split (hne : dag.nodes ≠ []) (hns : ∀ n, n ∈ ns ↔ n.Of dag) (F : SplitNode V → Int) :
    ∑ n ∈ ns, F n = F .s + F .t + ∑ v ∈ dag.nodes.toFinset, F (.x v) +
      ∑ v ∈ dag.nodes.toFinset, F (.y v) := by
  have hx : Set.InjOn SplitNode.x (dag.nodes.toFinset : Set V) := by simp [Set.InjOn]
  have hy : Set.InjOn SplitNode.y (dag.nodes.toFinset : Set V) := by simp [Set.InjOn]
  have hsplit : ns = {.s, .t} ∪ (dag.nodes.toFinset.image .x ∪ dag.nodes.toFinset.image .y) := by
    ext n
    rw [hns]
    cases n <;> simp [SplitNode.Of, hne]
  rw [hsplit, sum_union, sum_union, sum_image hx, sum_image hy, sum_pair (by simp), add_assoc,
    add_assoc, add_assoc]
  · refine disjoint_left.mpr fun n h1 h2 => ?_
    obtain ⟨v, -, rfl⟩ := mem_image.mp h1
    simp at h2
  · refine disjoint_left.mpr fun n h1 h2 => ?_
    simp only [mem_insert, mem_singleton] at h1
    rcases h1 with rfl | rfl <;> simp at h2

/-- With every first copy the second copies of all nodes it leads to. -/
structure Closed (dag : Digraph V) (T : SplitNode V → Prop) : Prop where
  source : T .s
  sink : ¬ T .t
  step : ∀ u v, Relation.TransGen dag.Edge u v → T (.x u) → T (.y v)

open Classical in
/-- Such a cut lets through the weights of the first copies left out and of the second copies
taken in. -/
theorem across_closed {T : SplitNode V → Prop} (hne : dag.nodes ≠ [])
    (hns : ∀ n, n ∈ ns ↔ n.Of dag) (hT : Closed dag T) :
    Flow.across ns T (flowCapacity attr dag) =
      ∑ v ∈ dag.nodes.toFinset, (if T (.x v) then 0 else (weightOf attr v : Int)) +
      ∑ v ∈ dag.nodes.toFinset, (if T (.y v) then (weightOf attr v : Int) else 0) := by
  have hmid : ∀ u v, (if T (.x u) ∧ ¬ T (.y v) then flowCapacity attr dag (.x u) (.y v) else 0) =
      0 := by
    intro u v
    split_ifs with h
    · exact if_neg fun hl => h.2 (hT.step u v hl h.1)
    · rfl
  have hfirst : ∀ v ∈ dag.nodes.toFinset, (if T .s ∧ ¬ T (.x v) then
      flowCapacity attr dag .s (.x v) else 0) =
        if T (.x v) then 0 else (weightOf attr v : Int) := by
    intro v hv
    have hv := List.mem_toFinset.mp hv
    by_cases hx : T (.x v) <;> simp [flowCapacity, hT.source, hx, hv]
  have hlast : ∀ v ∈ dag.nodes.toFinset, (if T (.y v) ∧ ¬ T .t then
      flowCapacity attr dag (.y v) .t else 0) =
        if T (.y v) then (weightOf attr v : Int) else 0 := by
    intro v hv
    have hv := List.mem_toFinset.mp hv
    by_cases hy : T (.y v) <;> simp [flowCapacity, hT.sink, hy, hv]
  have hrow : ∀ u, (∑ n ∈ ns, if T u ∧ ¬ T n then flowCapacity attr dag u n else 0) =
      (if T u ∧ ¬ T .s then flowCapacity attr dag u .s else 0) +
      (if T u ∧ ¬ T .t then flowCapacity attr dag u .t else 0) +
      ∑ v ∈ dag.nodes.toFinset, (if T u ∧ ¬ T (.x v) then flowCapacity attr dag u (.x v) else 0) +
      ∑ v ∈ dag.nodes.toFinset, (if T u ∧ ¬ T (.y v) then flowCapacity attr dag u (.y v) else 0) :=
    fun u => sum_split hne hns _
  have hs : (∑ n ∈ ns, if T .s ∧ ¬ T n then flowCapacity attr dag .s n else 0) =
      ∑ v ∈ dag.nodes.toFinset, if T (.x v) then 0 else (weightOf attr v : Int) := by
    rw [hrow, sum_congr rfl hfirst]
    simp [flowCapacity]
  have ht : (∑ n ∈ ns, if T .t ∧ ¬ T n then flowCapacity attr dag .t n else 0) = 0 := by
    simp [hT.sink]
  have hx : ∀ u, (∑ n ∈ ns, if T (.x u) ∧ ¬ T n then flowCapacity attr dag (.x u) n else 0) =
      0 := by
    intro u
    rw [hrow, sum_congr rfl fun v _ => hmid u v]
    simp [flowCapacity]
  have hy : ∀ u ∈ dag.nodes.toFinset,
      (∑ n ∈ ns, if T (.y u) ∧ ¬ T n then flowCapacity attr dag (.y u) n else 0) =
        if T (.y u) then (weightOf attr u : Int) else 0 := by
    intro u hu
    rw [hrow, hlast u hu]
    simp [flowCapacity]
  rw [Flow.across, sum_split hne hns, hs, ht, sum_congr rfl fun u _ => hx u, sum_congr rfl hy]
  simp

end Cuts

/-! What is chosen. -/

section Chosen

open Finset

variable [DecidableEq V] (nx : Networkx V) (attr : V → Option Nat) (dag : Digraph V)

/-- The flow in H. -/
def splitFlow : SplitNode V → SplitNode V → Int :=
  nx.maximumFlow (createSplitGraph nx attr dag).admissible .s .t

def splitNodes : Finset (SplitNode V) := (createSplitGraph nx attr dag).graph.nodes.toFinset

/-- What the residual graph reaches. -/
def Reached : SplitNode V → Prop :=
  Relation.ReflTransGen (Flow.Residual (splitNodes nx attr dag) (flowCapacity attr dag)
    (splitFlow nx attr dag)) .s

variable {nx attr dag} {n : SplitNode V} (hnx : nx.Correct) (hG : dag.Dag)

include hnx hG

theorem mem_splitNodes : n ∈ splitNodes nx attr dag ↔ n.Of dag := by
  rw [splitNodes, List.mem_toFinset]
  exact mem_createSplitGraph hnx hG

variable (attr) in
theorem splitFlow_maximum (hne : dag.nodes ≠ []) : Flow.Maximum (splitNodes nx attr dag)
    (flowCapacity attr dag) .s .t (splitFlow nx attr dag) := by
  have h := hnx.maximumFlow (createSplitGraph nx attr dag).admissible .s .t
    ((mem_createSplitGraph hnx hG).mpr hne) ((mem_createSplitGraph hnx hG).mpr hne) (by simp)
  rw [cap_admissible _ hnx hG] at h
  exact h

open Classical in
theorem getPiSolution_eq (hne : dag.nodes ≠ []) :
    getPiSolution nx (createSplitGraph nx attr dag) n = if Reached nx attr dag n then 0 else 1 := by
  have hmax := splitFlow_maximum attr hnx hG hne
  have hcap := cap_admissible attr hnx hG
  have hends : ∀ u v, (createSplitGraph nx attr dag).admissible.graph.Edge u v →
      u ∈ (createSplitGraph nx attr dag).graph.nodes ∧
      v ∈ (createSplitGraph nx attr dag).graph.nodes := by
    intro u v he
    have he : (u, v) ∈ (createSplitGraph nx attr dag).graph.edges := (List.mem_filter.mp he).1
    have hadd := edge_foldl_addArc.mp he
    rcases hadd with h | ⟨a, ha, rfl, rfl⟩
    · exact absurd h (by simp [Digraph.Edge])
    · exact ⟨mem_foldl_addArc.mpr (Or.inr ⟨a, ha, Or.inl rfl⟩),
        mem_foldl_addArc.mpr (Or.inr ⟨a, ha, Or.inr rfl⟩)⟩
  have hedge : ((createSplitGraph nx attr dag).admissible.residual (splitFlow nx attr dag)).Edge =
      Flow.Residual (splitNodes nx attr dag) (flowCapacity attr dag) (splitFlow nx attr dag) := by
    funext a b
    refine propext ((edge_residual_iff hends hmax.nonneg fun u v => ?_).trans ?_)
    · rw [hcap]
      exact hmax.le u v
    · rw [hcap]
      rfl
  have hpath := hnx.hasPath
    ((createSplitGraph nx attr dag).admissible.residual (splitFlow nx attr dag)) .s n
  rw [hedge] at hpath
  exact if_congr hpath rfl rfl

/-- Between the copies there is always room left, so what is reached is closed. -/
theorem reached_closed (hne : dag.nodes ≠ [])
    (hsum : (dag.nodes.map (weightOf attr)).sum < maxsize) : Closed dag (Reached nx attr dag) := by
  have hmax := splitFlow_maximum attr hnx hG hne
  have hns : ∀ n, n ∈ splitNodes nx attr dag ↔ n.Of dag := fun n => mem_splitNodes hnx hG
  refine ⟨.refl, hmax.sink_not_reached (by simp), fun u v hlead hu => hu.tail ?_⟩
  obtain ⟨hun, hvn⟩ := leads_mem hG hlead
  refine ⟨(hns _).mpr hun, (hns _).mpr hvn, Or.inl ?_⟩
  have hout : splitFlow nx attr dag (.x u) (.y v) ≤
      ∑ n ∈ splitNodes nx attr dag, splitFlow nx attr dag (.x u) n :=
    single_le_sum (fun n _ => hmax.nonneg (.x u) n) ((hns _).mpr hvn)
  have hkeep := hmax.conserve (.x u) ((hns _).mpr hun) (by simp) (by simp)
  have hin : ∑ n ∈ splitNodes nx attr dag, splitFlow nx attr dag n (.x u) ≤
      ∑ n ∈ splitNodes nx attr dag, flowCapacity attr dag n (.x u) :=
    sum_le_sum fun n _ => hmax.le n (.x u)
  have hfull : ∑ n ∈ splitNodes nx attr dag, flowCapacity attr dag n (.x u) =
      weightOf attr u := by
    rw [sum_split hne hns]
    simp [flowCapacity, hun]
  have hw : weightOf attr u ≤ (dag.nodes.map (weightOf attr)).sum :=
    List.le_sum_of_mem (List.mem_map_of_mem hun)
  have hroom : flowCapacity attr dag (.x u) (.y v) = floatMaxsize := if_pos hlead
  rw [hroom]
  unfold Flow.net at hkeep
  unfold maxsize at hsum
  unfold floatMaxsize
  omega

open Classical in
variable (attr) in
/-- What is chosen: the first copies reached whose second copies are not. -/
theorem names_eq (hne : dag.nodes ≠ []) : (getMaxWeightedAntichain nx attr dag).2 =
    (createSplitGraph nx attr dag).graph.nodes.filter fun n =>
      ∃ v, n = .x v ∧ Reached nx attr dag (.x v) ∧ ¬ Reached nx attr dag (.y v) := by
  have hpi : ∀ n, getPiSolution nx (createSplitGraph nx attr dag) n =
      if Reached nx attr dag n then 0 else 1 := fun n => getPiSolution_eq hnx hG hne
  have hs : Reached nx attr dag .s := .refl
  have hzero : ∀ n, chosen (getPiSolution nx (createSplitGraph nx attr dag)) 0 n = false := by
    intro n
    cases n with
    | x v =>
      by_cases hx : Reached nx attr dag (.x v) <;> by_cases hy : Reached nx attr dag (.y v) <;>
        simp [chosen, hpi, hs, hx, hy]
    | _ => rfl
  have hone : ∀ n, chosen (getPiSolution nx (createSplitGraph nx attr dag)) 1 n =
      decide (∃ v, n = .x v ∧ Reached nx attr dag (.x v) ∧ ¬ Reached nx attr dag (.y v)) := by
    intro n
    cases n with
    | x v =>
      by_cases hx : Reached nx attr dag (.x v) <;> by_cases hy : Reached nx attr dag (.y v) <;>
        simp [chosen, hpi, hs, hx, hy]
    | _ => simp [chosen]
  simp only [getMaxWeightedAntichain, List.range_succ, List.range_zero, List.nil_append,
    List.flatMap_append, List.flatMap_cons, List.flatMap_nil, List.append_nil]
  rw [List.filter_congr fun n _ => hzero n, List.filter_congr fun n _ => hone n]
  simp

variable (attr) in
/-- The nodes whose names are returned. -/
theorem names_spec (hne : dag.nodes ≠ []) : ∃ ns : List V,
    (getMaxWeightedAntichain nx attr dag).2 = ns.map .x ∧ ns.Nodup ∧
    (∀ v, v ∈ ns ↔ v ∈ dag.nodes ∧ Reached nx attr dag (.x v) ∧ ¬ Reached nx attr dag (.y v)) ∧
    (getMaxWeightedAntichain nx attr dag).1 = (ns.map (weightOf attr)).sum := by
  classical
  have hnames := names_eq attr hnx hG hne
  have hform : ∀ n ∈ (getMaxWeightedAntichain nx attr dag).2, n ∈ Set.range SplitNode.x := by
    intro n hn
    rw [hnames, List.mem_filter, decide_eq_true_eq] at hn
    obtain ⟨-, v, rfl, -⟩ := hn
    exact ⟨v, rfl⟩
  obtain ⟨ns, hns⟩ : (getMaxWeightedAntichain nx attr dag).2 ∈
      Set.range (List.map SplitNode.x) := by
    rw [Set.range_list_map]
    exact hform
  have hmem : ∀ v, v ∈ ns ↔ v ∈ dag.nodes ∧ Reached nx attr dag (.x v) ∧
      ¬ Reached nx attr dag (.y v) := by
    intro v
    have hv : v ∈ ns ↔ SplitNode.x v ∈ (getMaxWeightedAntichain nx attr dag).2 := by
      simp [← hns]
    rw [hv, hnames, List.mem_filter, mem_createSplitGraph hnx hG]
    simp [SplitNode.Of]
  refine ⟨ns, hns.symm, ?_, hmem, ?_⟩
  · have hnd : (ns.map SplitNode.x).Nodup := by
      rw [hns, hnames]
      exact (nodup_foldl_addArc (by simp)).filter _
    exact hnd.of_map
  · have hcap : ∀ v ∈ ns, (createSplitGraph nx attr dag).capacity .s (.x v) = weightOf attr v := by
      intro v hv
      have hedge : SplitEdge dag .s (.x v) := ((hmem v).mp hv).1
      exact (attributes_createSplitGraph _ hnx hG hedge).1
    have hweight : (getMaxWeightedAntichain nx attr dag).1 =
        ((getMaxWeightedAntichain nx attr dag).2.map
          ((createSplitGraph nx attr dag).capacity .s)).sum := rfl
    rw [hweight, ← hns, List.map_map]
    exact congrArg List.sum (List.map_congr_left hcap)

end Chosen

/-! The weight. -/

section Weight

open Finset

variable [DecidableEq V] {nx : Networkx V} {attr : V → Option Nat} {dag : Digraph V}

theorem sum_nodes {ns : List V} (hnd : ns.Nodup) (hsub : ∀ v ∈ ns, v ∈ dag.nodes) :
    ((ns.map (weightOf attr)).sum : Int) =
      ∑ v ∈ dag.nodes.toFinset, if v ∈ ns then (weightOf attr v : Int) else 0 := by
  have hinter : dag.nodes.toFinset ∩ ns.toFinset = ns.toFinset := by
    refine inter_eq_right.mpr fun v hv => ?_
    exact List.mem_toFinset.mpr (hsub v (List.mem_toFinset.mp hv))
  have hmem : ∀ v, (if v ∈ ns then (weightOf attr v : Int) else 0) =
      if v ∈ ns.toFinset then (weightOf attr v : Int) else 0 := by
    intro v
    simp only [List.mem_toFinset]
  rw [sum_congr rfl fun v _ => hmem v, sum_ite_mem, hinter, ← List.sum_toFinset _ hnd]
  exact Nat.cast_sum _ _

/-- The cut an antichain makes: the first copies from it on, the second copies after it. -/
def From (dag : Digraph V) (ms : List V) : SplitNode V → Prop
  | .s => True
  | .t => False
  | .x v => ∃ u ∈ ms, Relation.ReflTransGen dag.Edge u v
  | .y v => ∃ u ∈ ms, Relation.TransGen dag.Edge u v

variable (attr) in
/-- No antichain is heavier than what the flow leaves of all nodes. -/
theorem antichain_le (hnx : nx.Correct) (hG : dag.Dag) (hne : dag.nodes ≠ []) {ms : List V}
    (hms : dag.Antichain ms) : ((ms.map (weightOf attr)).sum : Int) ≤
      ∑ v ∈ dag.nodes.toFinset, (weightOf attr v : Int) -
        Flow.net (splitNodes nx attr dag) (splitFlow nx attr dag) .s := by
  classical
  have hmax := splitFlow_maximum attr hnx hG hne
  have hns : ∀ n, n ∈ splitNodes nx attr dag ↔ n.Of dag := fun n => mem_splitNodes hnx hG
  have hclosed : Closed dag (From dag ms) := by
    refine ⟨trivial, id, ?_⟩
    rintro u v hlead ⟨w, hw, hwu⟩
    exact ⟨w, hw, Relation.TransGen.trans_right hwu hlead⟩
  have hcut := hmax.toFeasible.net_le_across ((hns .s).mpr hne) hclosed.source hclosed.sink
  rw [across_closed hne hns hclosed] at hcut
  -- every node is before the antichain, in it, or after it
  have hone : ∀ v ∈ dag.nodes.toFinset, (weightOf attr v : Int) =
      (if v ∈ ms then (weightOf attr v : Int) else 0) +
      ((if From dag ms (.x v) then 0 else (weightOf attr v : Int)) +
      if From dag ms (.y v) then (weightOf attr v : Int) else 0) := by
    intro v _
    by_cases hv : v ∈ ms
    · have hx : From dag ms (.x v) := ⟨v, hv, .refl⟩
      have hy : ¬ From dag ms (.y v) := fun ⟨u, hu, huv⟩ => hms.2.2 u hu v hv huv
      simp [hv, hx, hy]
    · by_cases hy : From dag ms (.y v)
      · obtain ⟨u, hu, huv⟩ := hy
        have hx : From dag ms (.x v) := ⟨u, hu, huv.to_reflTransGen⟩
        have hy : From dag ms (.y v) := ⟨u, hu, huv⟩
        simp [hv, hx, hy]
      · have hx : ¬ From dag ms (.x v) := by
          rintro ⟨u, hu, huv⟩
          rcases Relation.reflTransGen_iff_eq_or_transGen.mp huv with rfl | huv
          · exact hv hu
          · exact hy ⟨u, hu, huv⟩
        simp [hv, hx, hy]
  rw [sum_nodes hms.1 hms.2.1, sum_congr rfl hone, sum_add_distrib, sum_add_distrib]
  omega

/-- No antichain is heavier than the nodes that are chosen. -/
theorem chosen_heaviest (hnx : nx.Correct) (hG : dag.Dag) (hne : dag.nodes ≠ [])
    (hsum : (dag.nodes.map (weightOf attr)).sum < maxsize) {ns ms : List V} (hnd : ns.Nodup)
    (hmem : ∀ v, v ∈ ns ↔ v ∈ dag.nodes ∧ Reached nx attr dag (.x v) ∧
      ¬ Reached nx attr dag (.y v)) (hms : dag.Antichain ms) :
    (ms.map (weightOf attr)).sum ≤ (ns.map (weightOf attr)).sum := by
  classical
  have hmax := splitFlow_maximum attr hnx hG hne
  have hin : ∀ n, n ∈ splitNodes nx attr dag ↔ n.Of dag := fun n => mem_splitNodes hnx hG
  have hclosed := reached_closed hnx hG hne hsum
  have hle := antichain_le attr hnx hG hne hms
  -- what is not chosen is paid for by the cut, which is the flow
  have hcut : Flow.net (splitNodes nx attr dag) (splitFlow nx attr dag) .s =
      ∑ v ∈ dag.nodes.toFinset,
        (if Reached nx attr dag (.x v) then 0 else (weightOf attr v : Int)) +
      ∑ v ∈ dag.nodes.toFinset,
        (if Reached nx attr dag (.y v) then (weightOf attr v : Int) else 0) := by
    rw [hmax.net_eq_across_reached ((hin .s).mpr hne) (by simp)
      (flowCapacity_outside hG fun n => hin n)]
    exact across_closed hne hin hclosed
  have hpaid : ∑ v ∈ dag.nodes.toFinset, (weightOf attr v : Int) ≤
      ∑ v ∈ dag.nodes.toFinset, ((if v ∈ ns then (weightOf attr v : Int) else 0) +
        ((if Reached nx attr dag (.x v) then 0 else (weightOf attr v : Int)) +
        if Reached nx attr dag (.y v) then (weightOf attr v : Int) else 0)) := by
    refine sum_le_sum fun v hv => ?_
    have hv := List.mem_toFinset.mp hv
    by_cases hx : Reached nx attr dag (.x v) <;> by_cases hy : Reached nx attr dag (.y v) <;>
      simp [hmem v, hv, hx, hy]
  rw [sum_add_distrib, sum_add_distrib, ← sum_nodes hnd fun v hv => ((hmem v).mp hv).1,
    ← hcut] at hpaid
  omega

/-- The nodes that are chosen are an antichain. -/
theorem chosen_antichain (hnx : nx.Correct) (hG : dag.Dag) (hne : dag.nodes ≠ [])
    (hsum : (dag.nodes.map (weightOf attr)).sum < maxsize) {ns : List V} (hnd : ns.Nodup)
    (hmem : ∀ v, v ∈ ns ↔ v ∈ dag.nodes ∧ Reached nx attr dag (.x v) ∧
      ¬ Reached nx attr dag (.y v)) : dag.Antichain ns := by
  have hclosed := reached_closed hnx hG hne hsum
  refine ⟨hnd, fun v hv => ((hmem v).mp hv).1, fun u hu v hv hlead => ?_⟩
  exact ((hmem v).mp hv).2.2 (hclosed.step u v hlead ((hmem u).mp hu).2.1)

/-- `get_max_weighted_antichain` returns the greatest weight of an antichain, and the names of
the nodes of an antichain that has it. -/
theorem getMaxWeightedAntichain_correct (hnx : nx.Correct) (hG : dag.Dag) (hne : dag.nodes ≠ [])
    (hsum : (dag.nodes.map (weightOf attr)).sum < maxsize) :
    (∃ ns, (getMaxWeightedAntichain nx attr dag).2 = ns.map .x ∧ dag.Antichain ns ∧
      (ns.map (weightOf attr)).sum = (getMaxWeightedAntichain nx attr dag).1) ∧
    ∀ ms, dag.Antichain ms →
      (ms.map (weightOf attr)).sum ≤ (getMaxWeightedAntichain nx attr dag).1 := by
  obtain ⟨ns, hnames, hnd, hmem, hweight⟩ := names_spec attr hnx hG hne
  refine ⟨⟨ns, hnames, chosen_antichain hnx hG hne hsum hnd hmem, hweight.symm⟩, ?_⟩
  intro ms hms
  rw [hweight]
  exact chosen_heaviest hnx hG hne hsum hnd hmem hms

end Weight

/-! `networkx` as it is documented. -/

section Documented

open Classical in
/-- Nodes found by looking for paths, and a flow than which there is no greater one. -/
noncomputable def documented : Networkx Int where
  descendants G u := (G.edges.map Prod.snd).filter fun v => Relation.TransGen G.Edge u v
  ancestors G v := (G.edges.map Prod.fst).filter fun u => Relation.TransGen G.Edge u v
  hasPath R a b := decide (Relation.ReflTransGen R.Edge a b)
  maximumFlow H a b :=
    Classical.epsilon (Flow.Maximum H.graph.nodes.toFinset H.cap a b)

open Classical in
theorem documented_correct : documented.Correct := by
  constructor
  · intro G _ u v
    change v ∈ (G.edges.map Prod.snd).filter _ ↔ _
    simp only [List.mem_filter, List.mem_map, decide_eq_true_eq]
    refine ⟨And.right, fun h => ⟨?_, h⟩⟩
    obtain ⟨w, -, hw⟩ := Relation.TransGen.tail'_iff.mp h
    exact ⟨(w, v), hw, rfl⟩
  · intro G _ u v
    change u ∈ (G.edges.map Prod.fst).filter _ ↔ _
    simp only [List.mem_filter, List.mem_map, decide_eq_true_eq]
    refine ⟨And.right, fun h => ⟨?_, h⟩⟩
    obtain ⟨w, hw, -⟩ := Relation.TransGen.head'_iff.mp h
    exact ⟨(u, w), hw, rfl⟩
  · intro R a b
    change decide (Relation.ReflTransGen R.Edge a b) = true ↔ _
    exact decide_eq_true_iff
  · intro H a b _ _ _
    refine Classical.epsilon_spec (Flow.exists_maximum fun u v => ?_)
    unfold Network.cap
    split
    · exact Int.natCast_nonneg _
    · exact le_rfl

theorem sum_le_of_subset {ns ms : List V} {w : V → Nat} (hnd : ns.Nodup)
    (h : ∀ v ∈ ns, v ∈ ms) : (ns.map w).sum ≤ (ms.map w).sum := by
  obtain ⟨l, hp, hs⟩ := List.subperm_of_subset hnd h
  rw [← (hp.map w).sum_eq]
  exact (hs.map w).sum_le_sum fun _ _ => Nat.zero_le _

/-- `create_small_parral_graph`. -/
def smallParral : Digraph Int := { nodes := [1, 2, 3], edges := [(1, 2), (1, 3)] }

def smallParralWeight (v : Int) : Option Nat := [(1, 5), (2, 6), (3, 7)].lookup v

theorem smallParral_weight :
    (getMaxWeightedAntichain documented smallParralWeight smallParral).1 = 13 := by
  have hG : smallParral.Dag := Digraph.dag_of_lt (by decide) (by decide) (by decide)
  obtain ⟨⟨ns, -, hns, hw⟩, hbest⟩ := @getMaxWeightedAntichain_correct _ _ documented
    smallParralWeight smallParral documented_correct hG (by decide) (by decide)
  have hno : ∀ u v : Int, u ∈ ([2, 3] : List Int) → ¬ Relation.TransGen smallParral.Edge u v := by
    intro u v hu h
    obtain ⟨w, hw, -⟩ := Relation.TransGen.head'_iff.mp h
    have hone : u = 1 := by
      simp only [Digraph.Edge, smallParral, List.mem_cons, Prod.mk.injEq, List.not_mem_nil,
        or_false] at hw
      omega
    subst hone
    simp at hu
  have htwo : smallParral.Antichain [2, 3] :=
    ⟨by decide, by decide, fun u hu v _ => hno u v hu⟩
  have hge := hbest [2, 3] htwo
  have hge : 13 ≤ (getMaxWeightedAntichain documented smallParralWeight smallParral).1 := hge
  -- with the first node no other one is in the antichain
  have hle : (ns.map (weightOf smallParralWeight)).sum ≤ 13 := by
    have hall : ∀ v ∈ ns, v = 1 ∨ v = 2 ∨ v = 3 := fun v hv => by
      simpa [smallParral] using hns.2.1 v hv
    by_cases h1 : (1 : Int) ∈ ns
    · have hsub : ∀ v ∈ ns, v ∈ ([1] : List Int) := by
        intro v hv
        rcases hall v hv with rfl | rfl | rfl
        · simp
        · exact absurd (.single (by decide : (1, 2) ∈ smallParral.edges)) (hns.2.2 1 h1 2 hv)
        · exact absurd (.single (by decide : (1, 3) ∈ smallParral.edges)) (hns.2.2 1 h1 3 hv)
      exact le_trans (sum_le_of_subset hns.1 hsub) (by decide)
    · have hsub : ∀ v ∈ ns, v ∈ ([2, 3] : List Int) := by
        intro v hv
        rcases hall v hv with rfl | rfl | rfl
        · exact absurd hv h1
        · simp
        · simp
      exact le_trans (sum_le_of_subset hns.1 hsub) (by decide)
  omega

end Documented

end Daliuge.Partition
