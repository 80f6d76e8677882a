import Mathlib.Data.List.Sort
import Daliuge.Partition.Longest

/-!
# Edge zeroing

`MySarkarScheduler`: every node starts as a part of its own. The parts at the two ends of an edge
are merged, heaviest edge first, when the merged part stays within its capacity, and afterwards
neighbours in the list of parts. Parts are objects that the list, the dictionary and the
scheduler refer to, so they are kept under references here.
-/
namespace Daliuge.Partition

open Collect

variable {V : Type}

/-- `max_dop`: a number of CPUs, or a capacity for each resource attribute. -/
inductive MaxDop
  | number (n : Nat)
  | dict (capacities : List (String × Option Nat))
  deriving DecidableEq, Repr

def MaxDop.capacities : MaxDop → List (String × Option Nat)
  | .number n => [("num_cpus", some n)]
  | .dict capacities => capacities

/-- What a scheduler is given. -/
structure Problem (V : Type) where
  dag : Digraph V
  nodeWeight : V → Option Nat := fun _ => none
  edgeWeight : V → V → Nat := fun _ _ => 0
  resource : V → String → Option Nat := fun _ _ => none
  dropCount : Nat
  maxDop : MaxDop

structure KFamilyPartition (V : Type) where
  partitionId : Nat
  dag : Digraph V := {}
  maxDop : String → Nat := fun _ => 0
  tmpMaxDop : String → Nat := fun _ => 0

/-- The scheduler at work: the parts by reference, `_part_dict`, the list of references, the
attributes it writes into the graph, and its counter. -/
structure State (V : Type) where
  heap : Nat → KFamilyPartition V
  partDict : Nat → Option Nat
  parts : List Nat
  gid : V → Option Nat
  edgeWeight : V → V → Nat
  partEdges : List (V × V)
  stGid : Nat

/-- A turn of the loop in `reduce_partitions`: it ends, or goes on at an index. -/
inductive Turn (V : Type)
  | done (s : State V)
  | next (i : Nat) (s : State V)

section Functions

variable [DecidableEq V] (P : Problem V) (width : Digraph V → (V → Nat) → Nat)

namespace Problem

/-- `_w_attr`. -/
def attrs : List String := P.maxDop.capacities.map Prod.fst

/-- `ask_max_dop` for an attribute. -/
def ask (attr : String) : Nat :=
  match P.maxDop.capacities.lookup attr with
  | some (some n) => n
  | _ => 1

/-- What a node asks of a resource. -/
def load (attr : String) (v : V) : Nat := (P.resource v attr).getD 1

/-- A new `KFamilyPartition` after `add_node(u)`. -/
def single (gid : Nat) (u : V) : KFamilyPartition V :=
  let dag := Digraph.addNode {} u
  let dop := fun attr => if attr ∈ P.attrs then width dag (P.load attr) else 0
  { partitionId := gid, dag, maxDop := dop, tmpMaxDop := dop }

end Problem

/-- The graph of two parts, with the edge between them when there is one. -/
def KFamilyPartition.joined (p that : KFamilyPartition V) (uv : Option (V × V)) : Digraph V :=
  match uv with
  | none => p.dag.compose that.dag
  | some (u, v) => (p.dag.compose that.dag).addEdge u v

namespace Problem

/-- The body of the loop in `can_merge`; `none` is its `return False`. -/
def probeAttr (that : KFamilyPartition V) (dag : Digraph V) (tmp : String → Nat)
    (attr : String) : Option (String → Nat) :=
  let mydop := width dag (P.load attr)
  let currMax := max (P.ask attr) (that.maxDop attr)
  if mydop ≤ currMax then some (Function.update tmp attr currMax)
  else if P.ask attr < mydop then none
  else some (Function.update tmp attr mydop)

/-- `can_merge`, with the `tmp_max_dop` it leaves when it returns True. -/
def canMerge (p that : KFamilyPartition V) (uv : Option (V × V)) : Option (String → Nat) :=
  P.attrs.foldlM (P.probeAttr width that (p.joined that uv)) p.tmpMaxDop

end Problem

/-- `merge` after `can_merge`. -/
def KFamilyPartition.merge (p that : KFamilyPartition V) (uv : Option (V × V))
    (tmp : String → Nat) : KFamilyPartition V :=
  { p with dag := p.joined that uv, maxDop := tmp, tmpMaxDop := tmp }

namespace State

variable (s : State V)

def idOf (ref : Nat) : Nat := (s.heap ref).partitionId

def nodesOf (ref : Nat) : List V := (s.heap ref).dag.nodes

/-- `G.nodes[n]["gid"] = gid` for some nodes. -/
def stamp (ns : List V) (gid : Nat) : State V :=
  { s with gid := fun v => if v ∈ ns then some gid else s.gid v }

/-- The merged part, and the nodes of the removed one. -/
def absorb (new removed : Nat) (uv : Option (V × V)) (tmp : String → Nat) (gid : Nat) :
    State V :=
  let s := { s with
    heap := Function.update s.heap new ((s.heap new).merge (s.heap removed) uv tmp) }
  s.stamp (s.nodesOf removed) gid

/-- A part above the removed one: its id goes down by one. -/
def lower (ref : Nat) : State V :=
  let gid := s.idOf ref - 1
  { s with
    partDict := Function.update s.partDict gid (some ref)
    heap := Function.update s.heap ref { s.heap ref with partitionId := gid } }.stamp
      (s.nodesOf ref) gid

/-- `del g_dict[gid]`. -/
def forget (gid : Nat) : State V := { s with partDict := Function.update s.partDict gid none }

/-- The body of the loop over the parts in `_merge_two_parts`. -/
def renumber (r : Nat) (c : State V × Option Nat) (x : Nat × Nat) :
    Except Err (State V × Option Nat) :=
  if r < c.1.idOf x.1 then .ok (c.1.lower x.1, c.2)
  else if c.1.idOf x.1 = r then do
    let _ ← look "g_dict" (c.1.partDict r)
    return (c.1.forget r, some x.2)
  else .ok c

/-- What `_merge_two_parts` does once the parts may be merged. -/
def mergeInto (new removed : Nat) (uv : Option (V × V)) (tmp : String → Nat) (l r : Nat) :
    Except Err (State V) := do
  let s := s.absorb new removed uv tmp l
  let (s, index) ← s.parts.zipIdx.foldlM (renumber r) (s, none)
  match index with
  | none => .error (.schedulerException "Failed to find r_gid")
  | some i => return { s with parts := s.parts.eraseIdx i }

def setEdge (e : V × V) (w : Nat) : State V :=
  { s with
    edgeWeight := Function.update s.edgeWeight e.1 (Function.update (s.edgeWeight e.1) e.2 w) }

end State

namespace Problem

def mergeTwoParts (ugid vgid : Nat) (uv : Option (V × V)) (s : State V) :
    Except Err (Option Nat × State V) := do
  let new ← look "g_dict" (s.partDict (min ugid vgid))
  let removed ← look "g_dict" (s.partDict (max ugid vgid))
  match P.canMerge width (s.heap new) (s.heap removed) uv with
  | none => return (none, s)
  | some tmp =>
    return (some new, ← s.mergeInto new removed uv tmp (min ugid vgid) (max ugid vgid))

/-! `partition_dag`. -/

/-- A part for one more node. -/
def place (s : State V) (n : V) : State V :=
  { s with
    heap := Function.update s.heap s.stGid (P.single width s.stGid n)
    partDict := Function.update s.partDict s.stGid (some s.stGid)
    parts := s.parts ++ [s.stGid]
    gid := Function.update s.gid n (some s.stGid)
    stGid := s.stGid + 1 }

/-- Before the first node. -/
def blank : State V where
  heap _ := { partitionId := 0 }
  partDict _ := none
  parts := []
  gid _ := none
  edgeWeight := P.edgeWeight
  partEdges := []
  stGid := P.dropCount + 1

/-- Every node in a part of its own. -/
def singles : State V := P.dag.nodes.foldl (P.place width) P.blank

/-- The edges, heaviest first. -/
def sortedEdges : List (V × V) :=
  P.dag.edges.insertionSort fun e f => P.edgeWeight f.1 f.2 ≤ P.edgeWeight e.1 e.2

/-- The body of the loop over the edges. -/
def zeroEdge (s : State V) (e : V × V) : Except Err (State V) :=
  let ow := s.edgeWeight e.1 e.2
  let s := s.setEdge e 0
  match s.gid e.1, s.gid e.2 with
  | some ugid, some vgid =>
    if ugid = vgid then .ok s
    else do
      let (part, s) ← P.mergeTwoParts width ugid vgid (some e) s
      match part with
      | some _ => return { s with stGid := s.stGid - 1 }
      | none => return { s.setEdge e ow with partEdges := s.partEdges ++ [e] }
  | none, none => .ok s
  | _, _ => .error .typeError

/-- The parts after all edges. -/
def zeroEdges : Except Err (State V) :=
  P.sortedEdges.foldlM (P.zeroEdge width) (P.singles width)

/-- `parts.sort(key=lambda x: x.max_dop["num_cpus"])`. -/
def sortParts (s : State V) : Except Err (State V) :=
  if s.parts = [] ∨ "num_cpus" ∈ P.attrs then
    .ok { s with parts := s.parts.insertionSort fun a b =>
            (s.heap a).maxDop "num_cpus" ≤ (s.heap b).maxDop "num_cpus" }
  else .error (.keyError "num_cpus")

/-- The `for` loop of `reduce_partitions` at an index; where there is nothing left it begins
anew, as nothing has set `done_reduction`. -/
def reduceStep (i : Nat) (s : State V) : Except Err (Turn V) :=
  match s.parts[i]? with
  | none => .ok (.next 0 s)
  | some a =>
    match s.parts[i + 1]? with
    | none => .ok (.done s)
    | some b => do
      let (part, s) ← P.mergeTwoParts width (s.idOf a) (s.idOf b) none s
      match part with
      | some _ => return .next 0 s
      | none => return .next (i + 1) s

/-- The `while` loop of `reduce_partitions`, for as many turns as there is fuel. -/
def reduceLoop : Nat → Nat → State V → Option (Except Err (State V))
  | 0, _, _ => none
  | fuel + 1, i, s =>
    match P.reduceStep width i s with
    | .error e => some (.error e)
    | .ok (.done s) => some (.ok s)
    | .ok (.next i s) => reduceLoop fuel i s

def reducePartitions (fuel : Nat) (s : State V) : Option (Except Err (State V)) :=
  match P.sortParts s with
  | .error e => some (.error e)
  | .ok s => P.reduceLoop width fuel 0 s

/-- The weights the graph ends with. -/
def weightsOf (s : State V) : Weights V where
  node := P.nodeWeight
  edge u v := some (s.edgeWeight u v)

end Problem

end Functions

/-- `partition_dag`, without the time it takes: the number it reports, the length of the longest
path, and the parts. -/
def Problem.partitionDag [LinearOrder V] (P : Problem V) (width : Digraph V → (V → Nat) → Nat)
    (topoSorted : List V) (fuel : Nat) : Option (Except Err (Nat × Int × State V)) :=
  match P.zeroEdges width with
  | .error e => some (.error e)
  | .ok s =>
    match P.reducePartitions width fuel s with
    | none => none
    | some (.error e) => some (.error e)
    | some (.ok t) => some do
      let lpl ← getLongestPath P.dag (P.weightsOf t) 1 topoSorted
      return (t.stGid - (P.dropCount + 1), lpl.2, t)

/-! The states a run goes through. -/

section Runs

variable [DecidableEq V] (P : Problem V) (width : Digraph V → (V → Nat) → Nat)

/-- The turns of the `while` loop from a state. -/
inductive Reducing (s₀ : State V) : Nat → State V → Prop
  | start : Reducing s₀ 0 s₀
  | turn {i i' : Nat} {s s' : State V} (h : Reducing s₀ i s)
      (ht : P.reduceStep width i s = .ok (.next i' s')) : Reducing s₀ i' s'

/-- The states between the merges of `partition_dag`, from the first part of every node on. -/
def Visited (s : State V) : Prop :=
  (∃ k, (P.sortedEdges.take k).foldlM (P.zeroEdge width) (P.singles width) = .ok s) ∨
  ∃ s₁ s₂ i, P.zeroEdges width = .ok s₁ ∧ P.sortParts s₁ = .ok s₂ ∧ Reducing P width s₂ i s

end Runs

end Daliuge.Partition
