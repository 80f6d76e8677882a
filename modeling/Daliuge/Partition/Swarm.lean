import Daliuge.Partition.Sarkar

/-!
# Partitions from a position vector

`PSOScheduler`: the optimiser chooses for every edge whether it is zeroed, with linearisation or
without, and `_partition_G` puts the ends of the zeroed edges into parts, edge by edge. Nodes that
are in no part afterwards are given parts of their own.
-/
namespace Daliuge.Partition

open Collect

variable {V : Type}

/-- `Partition`: what the parts of this scheduler keep. -/
structure Partition (V : Type) where
  partitionId : Nat
  dag : Digraph V := {}
  maxAntichains : Option (List (List V)) := none
  tmpNewAc : Option (List (List V) × Nat) := none
  maxDop : Option Nat := none

/-- What the parts use of `networkx`. -/
structure DagTools (V : Type) where
  antichains : Digraph V → List (List V)
  ancestors : Digraph V → V → List V
  descendants : Digraph V → V → List V
  isDirectedAcyclicGraph : Digraph V → Bool
  topologicalSort : Digraph V → List V

/-- Only nodes of the graph are found in it. -/
structure DagTools.Sound (nx : DagTools V) : Prop where
  ancestors : ∀ G v, ∀ u ∈ nx.ancestors G v, u ∈ G.nodes
  descendants : ∀ G v, ∀ u ∈ nx.descendants G v, u ∈ G.nodes

/-- The global graph while edges are zeroed. -/
structure Edges (V : Type) where
  graph : Digraph V
  weight : V → V → Nat

/-- The scheduler at work: the graph, the ids it writes into it, the parts by reference, `g_dict`
and the counter. -/
structure Swarm (V : Type) where
  edges : Edges V
  gid : V → Option Nat
  heap : Nat → Partition V
  parts : List Nat
  gDict : Nat → Option Nat
  partEdges : List (V × V)
  stGid : Nat

section Functions

variable [DecidableEq V] (nx : DagTools V) (P : Problem V)

def Edges.add (E : Edges V) (u v : V) (w : Nat) : Edges V where
  graph := E.graph.addEdge u v
  weight a b := if a = u ∧ b = v then w else E.weight a b

def Edges.remove (E : Edges V) (u v : V) : Edges V :=
  { E with graph := { E.graph with edges := E.graph.edges.filter (· ≠ (u, v)) } }

def getMaxAntichains (G : Digraph V) : List (List V) :=
  (nx.antichains G).insertionSort fun a b => b.length ≤ a.length

def getMaxDop (G : Digraph V) : Except Err Nat :=
  match nx.antichains G with
  | [] => .error .emptyMax
  | a :: l => .ok (l.foldl (fun m b => max m b.length) a.length)

/-- `self._ask_max_dop.get("num_cpus", 1)`, to be compared with a number. -/
def Problem.askNumCpus : Except Err Nat :=
  match P.maxDop with
  | .number _ => .error .attributeError
  | .dict capacities =>
    match capacities.lookup "num_cpus" with
    | none => .ok 1
    | some none => .error .typeError
    | some (some n) => .ok n

namespace Partition

def extend (ups : List V) (newNode : V) (c : List (List V) × Nat) (ma : List V) :
    List (List V) × Nat :=
  if ma.any (· ∈ ups) then (c.1 ++ [ma], max c.2 ma.length)
  else (c.1 ++ [ma ++ [newNode], ma], max c.2 (ma.length + 1))

/-- The new node, and the nodes it cannot be in an antichain with. -/
def related (p : Partition V) (u v : V) (unew vnew : Bool) : Except Err (List V × V) :=
  if unew then .ok (nx.descendants p.dag u, u)
  else if vnew then .ok (nx.ancestors p.dag v, v)
  else .error (.schedulerException "u v are both new/old")

def probeMaxDop (p : Partition V) (u v : V) (unew vnew update : Bool) :
    Except Err (Nat × Partition V) :=
  match p.maxAntichains, update, p.tmpNewAc with
  | none, _, _ =>
    match getMaxAntichains nx p.dag with
    | [] => .ok (0, p)
    | a :: l => .ok (a.length, if update then { p with maxAntichains := some (a :: l) } else p)
  | some _, true, some (newAc, md) =>
    .ok (md, { p with maxAntichains := some newAc, tmpNewAc := none })
  | some mas, _, _ => do
    let (ups, newNode) ← p.related nx u v unew vnew
    match mas.foldl (extend ups newNode) ([], 1) with
    | ([], _) => .error (.schedulerException "No antichains")
    | (newAc, md) =>
      return (md, { p with
        tmpNewAc := some (newAc, md)
        maxAntichains := if update then some newAc else some mas })

def removeIf (p : Partition V) (new : Bool) (n : V) : Partition V :=
  if new then { p with dag := p.dag.removeNode n } else p

/-- How many nodes are side by side once the two are in. -/
def dopWith (p : Partition V) (u v : V) (unew vnew : Bool) : Except Err (Nat × Partition V) :=
  if unew && vnew then do return (← getMaxDop nx p.dag, p)
  else p.probeMaxDop nx u v unew vnew false

/-- `can_add`, with the part it leaves. -/
def canAdd (p : Partition V) (u v : V) : Except Err (Bool × Partition V) := do
  let _ ← look "weight" (P.nodeWeight u)
  let _ ← look "weight" (P.nodeWeight v)
  if p.dag.nodes = [] then return (true, p)
  else
    let unew := decide (u ∉ p.dag.nodes)
    let vnew := decide (v ∉ p.dag.nodes)
    let (mydop, q) ← { p with dag := p.dag.addEdge u v }.dopWith nx u v unew vnew
    let ask ← P.askNumCpus
    return (decide (mydop ≤ ask), (q.removeIf unew u).removeIf vnew v)

def link (c : Digraph V × Edges V) (a b : V) : Digraph V × Edges V :=
  let E := c.2.add a b 0
  (c.1.addEdge a b, if nx.isDirectedAcyclicGraph E.graph then E else E.remove a b)

/-- The loops that break antichains into chains. -/
def linearise (unew : Bool) (u v : V) (dag : Digraph V) (E : Edges V) : Digraph V × Edges V :=
  if unew then (nx.ancestors dag v).foldl (fun c vup =>
    if u = vup then c else if c.1.predecessors vup = [] then link nx c u vup else c) (dag, E)
  else (nx.descendants dag u).foldl (fun c udo =>
    if udo = v then c else if c.1.successors udo = [] then link nx c udo v else c) (dag, E)

def add (p : Partition V) (u v : V) (sequential : Bool) (E : Edges V) :
    Except Err (Partition V × Edges V) := do
  let _ ← look "weight" (P.nodeWeight u)
  let _ ← look "weight" (P.nodeWeight v)
  let unew := decide (u ∉ p.dag.nodes)
  let vnew := decide (v ∉ p.dag.nodes)
  let _ ← look "num_cpus" (P.resource u "num_cpus")
  let _ ← look "num_cpus" (P.resource v "num_cpus")
  let q := { p with dag := p.dag.addEdge u v }
  if unew && vnew then
    return ({ q with maxAntichains := some (getMaxAntichains nx q.dag), maxDop := some 1 }, E)
  else
    let (dag, E) := if sequential then linearise nx unew u v q.dag E else (q.dag, E)
    let (md, q) ← { q with dag }.probeMaxDop nx u v unew vnew true
    return ({ q with maxDop := some md }, E)

end Partition

namespace Swarm

def recover (s : Swarm V) (e : V × V) (ow : Nat) : Swarm V :=
  { s with
    edges := { s.edges with
      weight := fun a b => if a = e.1 ∧ b = e.2 then ow else s.edges.weight a b }
    partEdges := s.partEdges ++ [e] }

def zero (s : Swarm V) (e : V × V) : Swarm V :=
  { s with edges := { s.edges with
      weight := fun a b => if a = e.1 ∧ b = e.2 then 0 else s.edges.weight a b } }

def newPart (s : Swarm V) : Swarm V :=
  { s with
    heap := Function.update s.heap s.parts.length { partitionId := s.stGid }
    gDict := Function.update s.gDict s.stGid (some s.parts.length)
    parts := s.parts ++ [s.parts.length]
    stGid := s.stGid + 1 }

def joined (s : Swarm V) (ref : Nat) (p : Partition V) (E : Edges V) (e : V × V) : Swarm V :=
  { s with
    edges := E
    heap := Function.update s.heap ref p
    gid := fun v => if v = e.1 ∨ v = e.2 then some p.partitionId else s.gid v }

/-- The edge meets a part: accepted, accepted with linearisation, or rejected. -/
def meet (s : Swarm V) (ref : Nat) (e : V × V) (ow : Nat) (linear : Bool) :
    Except Err (Swarm V) := do
  let (ca, p) ← (s.heap ref).canAdd nx P e.1 e.2
  if ca || linear then
    let (p, E) ← p.add nx P e.1 e.2 (!ca) s.edges
    return s.joined ref p E e
  else return { s with heap := Function.update s.heap ref p }.recover e ow

def zeroEdge (s : Swarm V) (e : V × V) (linear : Bool) : Except Err (Swarm V) :=
  let ow := s.edges.weight e.1 e.2
  let s := s.zero e
  match s.gid e.1, s.gid e.2 with
  | some ugid, none => do s.meet nx P (← look "g_dict" (s.gDict ugid)) e ow linear
  | none, some vgid => do s.meet nx P (← look "g_dict" (s.gDict vgid)) e ow linear
  | none, none => s.newPart.meet nx P s.parts.length e ow linear
  | some _, some _ => .ok (s.recover e ow)

/-- The body of the loop in `_partition_G`, with the component of the vector rounded. -/
def place (x : Nat → Int) (s : Swarm V) (e : (V × V) × Nat) : Except Err (Swarm V) :=
  match x e.2 with
  | 3 => .ok s
  | 2 => s.zeroEdge nx P e.1 true
  | 1 => s.zeroEdge nx P e.1 false
  | pos => .error (.schedulerException ("PSO position out of bound: " ++ toString pos))

def blank : Swarm V where
  edges := { graph := P.dag, weight := P.edgeWeight }
  gid _ := none
  heap _ := { partitionId := 0 }
  parts := []
  gDict _ := none
  partEdges := []
  stGid := P.dropCount + 1

def placeAll (x : Nat → Int) : Except Err (Swarm V) :=
  P.sortedEdges.zipIdx.foldlM (place nx P x) (blank P)

/-- A part for a node that is left over, at the end of `partition_dag`; the number of parts goes
up, the id does not. -/
def ownPart (stGid : Nat) (c : Swarm V × Nat) (n : V) : Swarm V × Nat :=
  let (s, numParts) := c
  if s.gid n = none then
    ({ s with
      gid := Function.update s.gid n (some stGid)
      heap := Function.update s.heap s.parts.length
        { partitionId := stGid, dag := Digraph.addNode {} n, maxDop := some 1 }
      gDict := Function.update s.gDict stGid (some s.parts.length)
      parts := s.parts ++ [s.parts.length] }, numParts + 1)
  else (s, numParts)

def ownParts (s : Swarm V) : Swarm V × Nat :=
  s.edges.graph.nodes.foldl (ownPart (P.dropCount + 1 + s.parts.length)) (s, s.parts.length)

end Swarm

end Functions

/-- `PSOScheduler.partition_dag` from the vector the optimiser returns, without the time it takes:
the number of parts, the length of the longest path, and the parts. -/
def Problem.partitionDagPso [LinearOrder V] (P : Problem V) (nx : DagTools V) (x : Nat → Int) :
    Except Err (Nat × Int × Swarm V) := do
  let s ← Swarm.placeAll nx P x
  let W : Weights V := { node := P.nodeWeight, edge := fun u v => some (s.edges.weight u v) }
  let lpl ← getLongestPath s.edges.graph W 1 (nx.topologicalSort s.edges.graph)
  let (t, numParts) := s.ownParts P
  return (numParts, lpl.2, t)

end Daliuge.Partition
