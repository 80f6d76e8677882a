import Mathlib.Data.Rat.Defs
import Daliuge.Partition.Metis

/-!
# What METIS answers

`MetisPGTP` after METIS: `_parse_metis_output` and `merge_partitions`. The parts come in the order
of the nodes of the graph; the map from oids to parts is filled in that order, while the edges of
the DAG and the groups of the projection look a part up by the number of a drop.
-/
namespace Daliuge.Partition

open Collect FirstSeen

/-- A `MetisPGTP`. The workloads of the parts, which only METIS reads, are left out, not the parts
that have one. -/
structure MetisPGTP where
  drops : List DropSpec
  dropListLen : Nat
  numParts : Nat
  mergeParts : Bool
  graph : MetisGraph
  dag : Option DropGraph := none
  dagWeight : Int → Int → Option ℚ := fun _ _ => none
  oidGid : String → Option Nat := fun _ => none
  gidIsland : Nat → Option Nat := fun _ => none
  numPartsDone : Nat := 0
  partitionMerged : Nat := 0
  groupWorkloads : List Nat := []
  metisOut : Option (List Nat) := none
  nodeGroup : Int → Option Nat := fun _ => none

namespace MetisPGTP

/-- `MetisPGTP(drop_list, num_partitions, merge_parts=...)`. -/
def init (drops : List (Option DropSpec)) (numPartitions : Int) (mergeParts : Bool) :
    Except DropErr MetisPGTP := do
  if numPartitions ≤ 0 then
    throw (.gpgtException ("Invalid num_partitions " ++ toString numPartitions))
  let (rest, G) ← toPartitionInput drops
  return { drops := rest.reduceOption, dropListLen := drops.length,
           numParts := numPartitions.toNat, mergeParts, graph := G }

variable (P : MetisPGTP)

/-- The part of a drop in the map from oids. -/
def recorded (key : Int) : Option Nat := (P.drops[(key - 1).toNat]?).bind fun d => P.oidGid d.oid

/-- `metis_out[key - 1]`; keys start from 1. -/
def partAt (metisOut : List Nat) (key : Int) : Option Nat := metisOut[(key - 1).toNat]?

/-- The ends of the edges of the DAG. -/
def dagEnds : List Int := (P.dag.map fun G => G.graph.edges.flatMap fun e => [e.1, e.2]).getD []

/-- The keys of the nodes of the projection. -/
def projected : List Int := (List.range P.drops.length).map fun i : Nat => (i : Int) + 1

/-- A node and its part. -/
def record (P : MetisPGTP) (x : Int × Nat) : MetisPGTP :=
  { P with
    oidGid := match P.graph.oid x.1 with
      | some oid => Function.update P.oidGid oid (some x.2)
      | none => P.oidGid
    graph := { P.graph with gid := Function.update P.graph.gid x.1 (some x.2) } }

/-- The edges inside a part get weight 0. -/
def zeroEdges (part : Int → Option Nat) : MetisPGTP :=
  { P with dagWeight := fun a b =>
      if P.dag.any (fun G => G.graph.Edge a b) ∧ part a = part b then some 0
      else P.dagWeight a b }

/-- `_parse_metis_output`; `visual` when there is a projection. -/
def parseMetisOutput (metisOut : List Nat) (visual : Bool) : MetisPGTP :=
  let groups := ((P.graph.nodes.zip metisOut).map Prod.snd).eraseDups
  { ((P.graph.nodes.zip metisOut).foldl record P).zeroEdges (partAt metisOut) with
    numPartsDone := groups.length
    groupWorkloads :=
      if P.mergeParts then (P.groupWorkloads ++ groups).eraseDups else P.groupWorkloads
    nodeGroup := fun key =>
      if visual ∧ key ∈ P.projected then (partAt metisOut key).map (· + (P.dropListLen + 1))
      else P.nodeGroup key }

/-- The parts METIS is taken to answer: none is asked for one partition. -/
def metisParts (answer : List Nat) : List Nat :=
  if P.numParts = 1 then List.replicate P.graph.nodes.length 0 else answer

/-- The DAG that a projection needs. -/
def withDag (visual : Bool) : Except DropErr MetisPGTP :=
  if visual then
    match P.dag with
    | some _ => .ok P
    | none => do
      let G ← buildDagFromDrops P.drops
      return { P with
        dag := some G
        dagWeight := fun a b => (G.edgeWeight a b).map fun w : Int => (w : ℚ) }
  else .ok P

/-- `to_gojs_json`. -/
def toGojsJson (visual : Bool) (answer : List Nat) : Except DropErr MetisPGTP := do
  let parts := P.metisParts answer
  let P ← P.withDag visual
  return { P.parseMetisOutput parts visual with metisOut := some parts }

/-- `_can_merge`. -/
def canMerge (newNumParts : Int) : Except DropErr Bool :=
  if newNumParts ≤ 0 then
    .error (.gpgtException ("Invalid new_num_parts " ++ toString newNumParts))
  else if ¬ P.mergeParts then
    .error (.gpgtException "This MetisPGTP PGTP is not made for merging")
  else if (P.numPartsDone : Int) ≤ newNumParts then
    .error (.noNeedMerge ("No need to merge this MetisPGTP PGTP: Merged parts: " ++
      toString P.numPartsDone ++ " <=  New Parts: " ++ toString newNumParts))
  else .ok (decide ((P.partitionMerged : Int) ≠ newNumParts))

/-- The nodes of the graph of parts: those with a workload, then the ends of edges. -/
def partNodes : List Nat :=
  (P.groupWorkloads ++ P.graph.edges.flatMap fun e =>
    (P.graph.gid e.1).toList ++ (P.graph.gid e.2).toList).eraseDups

/-- `_gid_island_id_map` after METIS has put the parts together; it is not asked for one island. -/
def islands (newNumParts : Int) (answer : List Nat) : Nat → Option Nat :=
  let metisParts :=
    if newNumParts = 1 then List.replicate P.partNodes.length 0 else answer
  (P.partNodes.zip metisParts).foldl (fun m x => Function.update m x.1 (some x.2)) P.gidIsland

/-- A node goes to the new part of its old one. -/
def relabel (P : MetisPGTP) (k : Int) : MetisPGTP :=
  let newGid := (P.graph.gid k).bind P.gidIsland
  { P with
    oidGid := match P.graph.oid k with
      | some oid => Function.update P.oidGid oid newGid
      | none => P.oidGid
    graph := { P.graph with gid := Function.update P.graph.gid k newGid } }

/-- The edges inside an island get a tenth of their weight. -/
def scaleEdges (part : Int → Option Nat) : MetisPGTP :=
  { P with dagWeight := fun a b =>
      if P.dag.any (fun G => G.graph.Edge a b) ∧
          (part a).bind P.gidIsland = (part b).bind P.gidIsland then
        (P.dagWeight a b).map (· / 10)
      else P.dagWeight a b }

/-- `merge_partitions`. -/
def mergePartitions (newNumParts : Int) (formIsland : Bool) (islandType : Int)
    (answer : List Nat) : Except DropErr MetisPGTP := do
  if ← P.canMerge newNumParts then
    let P := { P with gidIsland := P.islands newNumParts answer }
    if ¬ formIsland then
      return { P.graph.nodes.foldl relabel P with numPartsDone := newNumParts.toNat }
    else
      let P := match P.metisOut with
        | some metisOut => if islandType = 1 then P.scaleEdges (partAt metisOut) else P
        | none => P
      return { P with partitionMerged := newNumParts.toNat }
  else return P

end MetisPGTP

/-- A call on a `MetisPGTP`, with what METIS answers. -/
inductive MetisCall
  | toGojsJson (visual : Bool) (answer : List Nat)
  | mergePartitions (newNumParts : Int) (formIsland : Bool) (islandType : Int)
      (answer : List Nat)

namespace MetisCall

variable (P Q : MetisPGTP)

def run : MetisCall → Except DropErr MetisPGTP
  | toGojsJson visual answer => P.toGojsJson visual answer
  | mergePartitions newNumParts formIsland islandType answer =>
    P.mergePartitions newNumParts formIsland islandType answer

/-- METIS answers with one part for every node. -/
def Answered : MetisCall → Prop
  | toGojsJson _ answer => answer.length = P.graph.nodes.length ∧ ∀ g ∈ answer, g < P.numParts
  | mergePartitions newNumParts _ _ answer =>
    answer.length = P.partNodes.length ∧ ∀ g ∈ answer, (g : Int) < newNumParts

/-- The parts that a call from `P` to `Q` looks up by the number of a drop: those of the ends of
edges that get a new weight and of the nodes that get a group. -/
def used : MetisCall → List (Int × Option Nat)
  | toGojsJson visual answer =>
    (Q.dagEnds ++ if visual then P.projected else []).map fun key =>
      (key, MetisPGTP.partAt (P.metisParts answer) key)
  | mergePartitions newNumParts formIsland islandType _ =>
    match P.canMerge newNumParts, P.metisOut with
    | .ok true, some metisOut =>
      if formIsland ∧ islandType = 1 then
        P.dagEnds.map fun key => (key, MetisPGTP.partAt metisOut key)
      else []
    | _, _ => []

end MetisCall

/-- One call that succeeds. -/
def MetisStep (P Q : MetisPGTP) : Prop := ∃ call : MetisCall, call.Answered P ∧ call.run P = .ok Q

/-- In every run the parts that a call looks up are those of the map. -/
def ReadAlike (P : MetisPGTP) : Prop := ∀ Q, Relation.ReflTransGen MetisStep P Q →
  ∀ (call : MetisCall) (R : MetisPGTP), call.Answered Q → call.run Q = .ok R →
    ∀ u ∈ call.used Q R, R.recorded u.1 = u.2

/-- The drops in the order in which nodes and edges of the METIS input mention them. -/
def mentions (ds : List DropSpec) : List Nat :=
  ds.zipIdx.flatMap fun p => p.2 :: (consulted ds p.2 p.1).flatMap fun o =>
    [p.2, ds.findIdx fun d => d.oid = o.oid]

/-- What is looked up by number is the part of the map: there is one part only; there is no DAG
and no projection; or oids are distinct, no drop is mentioned before all in front of it, and no
edge is scaled after parts have been merged. -/
def Alike (drops : List (Option DropSpec)) (numPartitions : Int) (mergeParts : Bool) : Prop :=
  numPartitions = 1 ∨ (∀ G, buildDagFromDrops drops.reduceOption ≠ .ok G) ∨
    (drops.reduceOption.map DropSpec.oid).Nodup ∧ InOrder (mentions drops.reduceOption) ∧
      (mergeParts = false ∨ numPartitions < 3 ∨ drops.reduceOption.length < 3 ∨
        ∀ G, buildDagFromDrops drops.reduceOption = .ok G → G.graph.edges = [])

/-! ### The order of the nodes -/

section Order

variable {drops rest : List (Option DropSpec)} {G : MetisGraph}

/-- The nodes are in the order of the mentions. -/
theorem nodes_of_ok (h : toPartitionInput drops = .ok (rest, G))
    (hn : (drops.reduceOption.map DropSpec.oid).Nodup) :
    G.nodes = (mentions drops.reduceOption).eraseDups.map fun i : Nat => (i : Int) + 1 := by
  obtain ⟨hapart, -⟩ := apart_of_ok h
  obtain ⟨r, hr, rfl⟩ := plan_of_ok h
  have hinj : Function.Injective fun i : Nat => (i : Int) + 1 := fun a b hab => by
    simp only at hab
    omega
  rw [MetisGraph.nodes_put, ← eraseDups_map hinj]
  congr 1
  obtain ⟨g, hg, rfl⟩ := exists_of_collect hr
  rw [carried_eq, List.flatMap_map, List.flatMap_assoc, mentions, List.map_flatMap]
  refine List.flatMap_congr fun p hp => ?_
  obtain ⟨d, i⟩ := p
  have hi := List.mem_zipIdx_iff_getElem?.mp hp
  have hx : ((drops.reduceOption.take (i - 0)).foldl Carry.next {}, some d, i) ∈
      carried {} (drops.reduceOption.map some).zipIdx := mem_carried.mpr ⟨i, d, hi, rfl⟩
  obtain ⟨r', hr', he⟩ := entryPlan_ok.mp (hg _ hx)
  obtain ⟨g', hg', rfl⟩ := exists_of_collect hr'
  rw [he, List.flatMap_cons, List.flatMap_assoc, List.map_cons, List.map_flatMap]
  refine congrArg _ (List.flatMap_congr fun o ho => ?_)
  obtain ⟨n, w, key, -, hk, he'⟩ := neighbourPlan_ok (hg' o ho)
  obtain ⟨j, t, hj, hto, rfl, -⟩ := (numberDrops_keys hapart hn).mp hk
  have hidx : drops.reduceOption.findIdx (fun d => d.oid = o.oid) = j := by
    obtain ⟨hlt, rfl⟩ := List.getElem?_eq_some_iff.mp hj
    refine (List.findIdx_eq hlt).mpr ⟨by simpa using hto, fun m hm => ?_⟩
    simp only [decide_eq_false_iff_not]
    intro hmo
    have := index_unique hn (List.getElem?_eq_getElem (by omega)) hj (hmo.trans hto.symm)
    omega
  simp [he', Entry.mentions, hidx]

end Order

namespace MetisPGTP

variable {P Q : MetisPGTP} {l : List (Int × Nat)} {ks : List Int} {out answer : List Nat}
  {visual : Bool} {k : Int} {oid : String} {g : Nat}

/-! ### What the loops leave alone -/

theorem foldl_record : l.foldl record P =
    { P with
      oidGid := (l.foldl record P).oidGid
      graph := { P.graph with gid := (l.foldl record P).graph.gid } } := by
  induction l generalizing P with
  | nil => rfl
  | cons x l ih => exact ih

theorem foldl_relabel : ks.foldl relabel P =
    { P with
      oidGid := (ks.foldl relabel P).oidGid
      graph := { P.graph with gid := (ks.foldl relabel P).graph.gid } } := by
  induction ks generalizing P with
  | nil => rfl
  | cons k ks ih => exact ih

/-- What stays as the constructor made it. -/
structure Based (P Q : MetisPGTP) : Prop where
  drops : Q.drops = P.drops
  numParts : Q.numParts = P.numParts
  mergeParts : Q.mergeParts = P.mergeParts
  nodes : Q.graph.nodes = P.graph.nodes
  oid : Q.graph.oid = P.graph.oid
  edges : Q.graph.edges = P.graph.edges

theorem Based.refl : Based P P := ⟨rfl, rfl, rfl, rfl, rfl, rfl⟩

theorem Based.trans {R : MetisPGTP} (h : Based P Q) (h' : Based Q R) : Based P R :=
  ⟨h'.1.trans h.1, h'.2.trans h.2, h'.3.trans h.3, h'.4.trans h.4, h'.5.trans h.5,
    h'.6.trans h.6⟩

/-- The state after an answer has been parsed. -/
theorem parse_eq : P.parseMetisOutput out visual =
    { P with
      oidGid := ((P.graph.nodes.zip out).foldl record P).oidGid
      graph := { P.graph with gid := ((P.graph.nodes.zip out).foldl record P).graph.gid }
      dagWeight := (P.zeroEdges (partAt out)).dagWeight
      numPartsDone := (P.parseMetisOutput out visual).numPartsDone
      groupWorkloads := (P.parseMetisOutput out visual).groupWorkloads
      nodeGroup := (P.parseMetisOutput out visual).nodeGroup } := by
  unfold parseMetisOutput
  rw [foldl_record]
  rfl

theorem parse_dag : (P.parseMetisOutput out visual).dag = P.dag := by
  rw [parse_eq]

/-- A node that is alone with its oid, or with nodes of the same part, is recorded with it. -/
theorem oidGid_foldl_record
    (hk : P.oidGid oid = some g ∨ ∃ k, (k, g) ∈ l ∧ P.graph.oid k = some oid)
    (honly : ∀ x ∈ l, P.graph.oid x.1 = some oid → x.2 = g) :
    (l.foldl record P).oidGid oid = some g := by
  induction l generalizing P with
  | nil => simpa using hk
  | cons x l ih =>
    rw [List.foldl_cons]
    refine ih ?_ fun y hy => honly y (List.mem_cons_of_mem x hy)
    by_cases hx : P.graph.oid x.1 = some oid
    · left
      simp only [record, hx, Function.update_self]
      rw [honly x List.mem_cons_self hx]
    · rcases hk with hk | ⟨k, hk, ho⟩
      · left
        simp only [record]
        cases he : P.graph.oid x.1 with
        | none => exact hk
        | some o =>
          have hne : oid ≠ o := fun h => hx (h ▸ he)
          simpa [Function.update_of_ne hne] using hk
      · rcases List.mem_cons.mp hk with rfl | hk
        · exact absurd ho hx
        · exact Or.inr ⟨k, hk, ho⟩

/-- Every node gets a part of the vector. -/
theorem gid_foldl_record (hk : k ∈ l.map Prod.fst) :
    ∃ g ∈ l.map Prod.snd, (l.foldl record P).graph.gid k = some g := by
  induction l using List.reverseRecOn with
  | nil => simp at hk
  | append_singleton l x ih =>
    rw [List.foldl_append, List.foldl_cons, List.foldl_nil]
    by_cases hx : k = x.1
    · exact ⟨x.2, by simp, by simp [record, hx]⟩
    · have hl : k ∈ l.map Prod.fst := by simpa [hx] using hk
      obtain ⟨g, hg, he⟩ := ih hl
      refine ⟨g, ?_, ?_⟩
      · rw [List.map_append]
        exact List.mem_append_left _ hg
      · simpa [record, Function.update_of_ne hx] using he

/-! ### The state between calls -/

/-- The nodes are the numbers of the drops, and each has the oid of its drop. -/
structure Laid (P : MetisPGTP) : Prop where
  nodes : ∀ k, k ∈ P.graph.nodes ↔ ∃ i : Nat, i < P.drops.length ∧ k = (i : Int) + 1
  oid : ∀ (i : Nat) (d : DropSpec), P.drops[i]? = some d →
    P.graph.oid ((i : Int) + 1) = some d.oid
  nodup : P.graph.nodes.Nodup

theorem Laid.of_based (h : Laid P) (hb : Based P Q) : Laid Q := by
  obtain ⟨hn, ho, hd⟩ := h
  refine ⟨?_, ?_, ?_⟩
  · rw [hb.nodes, hb.drops]
    exact hn
  · rw [hb.oid, hb.drops]
    exact ho
  · rw [hb.nodes]
    exact hd

theorem mem_projected : k ∈ P.projected ↔ ∃ i : Nat, i < P.drops.length ∧ k = (i : Int) + 1 := by
  simp [projected, eq_comm]

theorem Laid.length (h : Laid P) : P.graph.nodes.length = P.drops.length := by
  have hnd : P.projected.Nodup :=
    List.Nodup.map (fun a b hab => by have : (a : Int) + 1 = b + 1 := hab; omega)
      List.nodup_range
  have hp : P.graph.nodes.Perm P.projected :=
    (List.perm_ext_iff_of_nodup h.nodup hnd).mpr fun k => (h.nodes k).trans mem_projected.symm
  rw [hp.length_eq, projected, List.length_map, List.length_range]

theorem recorded_eq {i : Nat} {d : DropSpec} (hi : P.drops[i]? = some d) :
    P.recorded ((i : Int) + 1) = P.oidGid d.oid := by
  have hcast : ((i : Int) + 1 - 1).toNat = i := by omega
  rw [recorded, hcast, hi]
  rfl

theorem partAt_eq {i : Nat} : partAt out ((i : Int) + 1) = out[i]? := by
  have hcast : ((i : Int) + 1 - 1).toNat = i := by omega
  rw [partAt, hcast]

theorem mem_zip {x : Int × Nat} (h : x ∈ P.graph.nodes.zip out) :
    ∃ q : Nat, P.graph.nodes[q]? = some x.1 ∧ out[q]? = some x.2 := by
  obtain ⟨q, hq⟩ := List.mem_iff_getElem?.mp h
  exact ⟨q, List.getElem?_zip_eq_some.mp hq⟩

/-- Where oids are distinct, a drop is recorded with the part at the place of its node. -/
theorem Laid.recorded_parse (h : Laid P) (hn : (P.drops.map DropSpec.oid).Nodup)
    (hlen : out.length = P.graph.nodes.length) {i q : Nat} (hi : i < P.drops.length)
    (hq : P.graph.nodes[q]? = some ((i : Int) + 1)) :
    (P.parseMetisOutput out visual).recorded ((i : Int) + 1) = out[q]? := by
  obtain ⟨hlt, -⟩ := List.getElem?_eq_some_iff.mp hq
  obtain ⟨g, hg⟩ : ∃ g, out[q]? = some g := ⟨_, List.getElem?_eq_getElem (hlen ▸ hlt)⟩
  have hd := List.getElem?_eq_getElem hi
  have hdrops : (P.parseMetisOutput out visual).drops[i]? = some P.drops[i] := by
    rw [parse_eq]
    exact hd
  rw [recorded_eq hdrops, parse_eq, hg]
  refine oidGid_foldl_record (Or.inr ⟨(i : Int) + 1, ?_, h.oid i _ hd⟩) fun x hx hxo => ?_
  · exact List.mem_iff_getElem?.mpr ⟨q, List.getElem?_zip_eq_some.mpr ⟨hq, hg⟩⟩
  · obtain ⟨q', hq', hg'⟩ := mem_zip hx
    obtain ⟨j, hj, hxj⟩ := (h.nodes x.1).mp (List.mem_of_getElem? hq')
    have hjd := List.getElem?_eq_getElem hj
    rw [hxj, h.oid j _ hjd] at hxo
    obtain rfl := index_unique hn hjd hd (Option.some.inj hxo)
    have hqq : q' = q := by
      refine (List.getElem?_inj ?_ h.nodup).mp ((hq'.trans (congrArg some hxj)).trans hq.symm)
      exact (List.getElem?_eq_some_iff.mp hq').1
    rw [hqq, hg] at hg'
    exact (Option.some.inj hg').symm

/-- With one part all drops are recorded with it. -/
theorem Laid.recorded_one (h : Laid P) {i : Nat} (hi : i < P.drops.length) :
    (P.parseMetisOutput (List.replicate P.graph.nodes.length 0) visual).recorded ((i : Int) + 1) =
      some 0 := by
  have hd := List.getElem?_eq_getElem hi
  have hdrops : (P.parseMetisOutput (List.replicate P.graph.nodes.length 0) visual).drops[i]? =
      some P.drops[i] := by
    rw [parse_eq]
    exact hd
  rw [recorded_eq hdrops, parse_eq]
  obtain ⟨q, hq⟩ := List.mem_iff_getElem?.mp ((h.nodes _).mpr ⟨i, hi, rfl⟩)
  obtain ⟨hlt, -⟩ := List.getElem?_eq_some_iff.mp hq
  refine oidGid_foldl_record (Or.inr ⟨(i : Int) + 1, ?_, h.oid i _ hd⟩) fun x hx _ => ?_
  · exact List.mem_iff_getElem?.mpr ⟨q, List.getElem?_zip_eq_some.mpr ⟨hq, by simp [hlt]⟩⟩
  · obtain ⟨q', -, hg⟩ := mem_zip hx
    exact List.eq_of_mem_replicate (List.mem_of_getElem? hg)

/-- What is there between calls. -/
structure Reached (P Q : MetisPGTP) : Prop where
  based : Based P Q
  dag : Q.dag = none ∨ ∃ G, buildDagFromDrops P.drops = .ok G ∧ Q.dag = some G

theorem withDag_ok (h : P.withDag visual = .ok Q) : Based P Q ∧ Q.metisOut = P.metisOut ∧
    (Q.dag = P.dag ∨ ∃ G, buildDagFromDrops P.drops = .ok G ∧ Q.dag = some G) ∧
    (visual → Q.dag ≠ none) := by
  unfold withDag at h
  split at h
  · split at h
    · rename_i G hG
      obtain rfl := Except.ok.inj h
      exact ⟨Based.refl, rfl, Or.inl rfl, fun _ => by simp [hG]⟩
    · obtain ⟨G, hG, h⟩ := bind_ok.mp h
      obtain rfl := pure_ok.mp h
      exact ⟨⟨rfl, rfl, rfl, rfl, rfl, rfl⟩, rfl, Or.inr ⟨G, hG, rfl⟩, fun _ => by simp⟩
  · rename_i hv
    obtain rfl := Except.ok.inj h
    exact ⟨Based.refl, rfl, Or.inl rfl, fun hv' => absurd hv' hv⟩

theorem toGojsJson_ok {R : MetisPGTP} : P.toGojsJson visual answer = .ok R ↔
    ∃ Q, P.withDag visual = .ok Q ∧
      R = { Q.parseMetisOutput (P.metisParts answer) visual with
        metisOut := some (P.metisParts answer) } := by
  unfold toGojsJson
  constructor
  · intro h
    obtain ⟨Q, hQ, h⟩ := bind_ok.mp h
    exact ⟨Q, hQ, (pure_ok.mp h).symm⟩
  · rintro ⟨Q, hQ, rfl⟩
    rw [hQ]
    rfl

theorem canMerge_ok {n : Int} {b : Bool} (h : P.canMerge n = .ok b) :
    0 < n ∧ P.mergeParts = true ∧ n < P.numPartsDone := by
  unfold canMerge at h
  split at h
  · simp at h
  · split at h
    · simp at h
    · split at h
      · simp at h
      · rename_i h0 hm hn
        exact ⟨by omega, by simpa using hm, by omega⟩

/-- What a merge does: nothing, or parts become new ones, or islands are put over them. -/
theorem mergePartitions_ok {R : MetisPGTP} {n t : Int} {form : Bool}
    (h : P.mergePartitions n form t answer = .ok R) : 0 < n ∧ n < P.numPartsDone ∧
    P.mergeParts = true ∧
    ((P.canMerge n = .ok false ∧ R = P) ∨ (P.canMerge n = .ok true ∧
      ((form = false ∧ R = { P.graph.nodes.foldl relabel
          { P with gidIsland := P.islands n answer } with numPartsDone := n.toNat }) ∨
       (form = true ∧ Based P R ∧ R.dag = P.dag ∧ R.oidGid = P.oidGid ∧
          R.metisOut = P.metisOut ∧ R.numPartsDone = P.numPartsDone)))) := by
  unfold mergePartitions at h
  obtain ⟨b, hb, h⟩ := bind_ok.mp h
  obtain ⟨h0, hm, hn⟩ := canMerge_ok hb
  refine ⟨h0, hn, hm, ?_⟩
  cases b with
  | false => exact Or.inl ⟨hb, (pure_ok.mp h).symm⟩
  | true =>
    refine Or.inr ⟨hb, ?_⟩
    cases form with
    | false => exact Or.inl ⟨rfl, (pure_ok.mp h).symm⟩
    | true =>
      refine Or.inr ⟨rfl, ?_⟩
      simp only [if_true, not_true, if_false] at h
      obtain rfl := pure_ok.mp h
      split
      · split
        · exact ⟨⟨rfl, rfl, rfl, rfl, rfl, rfl⟩, rfl, rfl, rfl, rfl⟩
        · exact ⟨⟨rfl, rfl, rfl, rfl, rfl, rfl⟩, rfl, rfl, rfl, rfl⟩
      · exact ⟨⟨rfl, rfl, rfl, rfl, rfl, rfl⟩, rfl, rfl, rfl, rfl⟩

theorem reached_step {R : MetisPGTP} (h : Reached P Q) (hs : MetisStep Q R) : Reached P R := by
  obtain ⟨call, -, hrun⟩ := hs
  cases call with
  | toGojsJson visual answer =>
    obtain ⟨Q', hQ', rfl⟩ := toGojsJson_ok.mp hrun
    obtain ⟨hb, -, hdag, -⟩ := withDag_ok hQ'
    refine ⟨h.based.trans (hb.trans ?_), ?_⟩
    · rw [parse_eq]
      exact ⟨rfl, rfl, rfl, rfl, rfl, rfl⟩
    · show (Q'.parseMetisOutput (Q.metisParts answer) visual).dag = none ∨
        ∃ G, buildDagFromDrops P.drops = .ok G ∧
          (Q'.parseMetisOutput (Q.metisParts answer) visual).dag = some G
      rw [parse_dag]
      rcases hdag with hdag | ⟨G, hG, hdag⟩
      · rw [hdag]
        exact h.dag
      · exact Or.inr ⟨G, h.based.drops ▸ hG, hdag⟩
  | mergePartitions n form t answer =>
    obtain ⟨-, -, -, ⟨-, rfl⟩ | ⟨-, ⟨-, rfl⟩ | ⟨-, hb, hdag, -⟩⟩⟩ := mergePartitions_ok hrun
    · exact h
    · rw [foldl_relabel]
      obtain ⟨⟨h1, h2, h3, h4, h5, h6⟩, hdag⟩ := h
      exact ⟨⟨h1, h2, h3, h4, h5, h6⟩, hdag⟩
    · exact ⟨h.based.trans hb, hdag ▸ h.dag⟩

/-- The ends of the edges of the DAG are numbers of drops. -/
theorem Reached.dagEnds_range (h : Reached P Q) (hk : k ∈ Q.dagEnds) :
    ∃ i : Nat, i < P.drops.length ∧ k = (i : Int) + 1 := by
  rcases h.dag with hd | ⟨G, hG, hd⟩
  · simp [dagEnds, hd] at hk
  · simp only [dagEnds, hd, Option.map_some, Option.getD_some, List.mem_flatMap] at hk
    obtain ⟨⟨a, b⟩, he, hk⟩ := hk
    obtain ⟨i, s, hi, -, hai, o, -, hb⟩ := (edge_buildDag hG).mp he
    obtain ⟨j, t, hj, -, hbj, -⟩ := keyDict_eq_some.mp hb
    rcases List.mem_pair.mp hk with hk | hk
    · exact ⟨i, (List.getElem?_eq_some_iff.mp hi).1, hk.trans hai⟩
    · exact ⟨j, (List.getElem?_eq_some_iff.mp hj).1, hk.trans hbj⟩

/-- The parts that a partitioning looks up are of drops. -/
theorem used_toGojsJson {R : MetisPGTP} {u : Int × Option Nat} (hQ : Reached P Q)
    (hR : Reached P R) (hu : u ∈ (MetisCall.toGojsJson visual answer).used Q R) :
    ∃ i : Nat, i < P.drops.length ∧ u.1 = (i : Int) + 1 ∧
      u.2 = partAt (Q.metisParts answer) ((i : Int) + 1) := by
  obtain ⟨k, hk, rfl⟩ := List.mem_map.mp hu
  have hrange : ∃ i : Nat, i < P.drops.length ∧ k = (i : Int) + 1 := by
    rcases List.mem_append.mp hk with hk | hk
    · exact hR.dagEnds_range hk
    · cases visual with
      | false => simp at hk
      | true => exact hQ.based.drops ▸ mem_projected.mp hk
  obtain ⟨i, hi, rfl⟩ := hrange
  exact ⟨i, hi, rfl, rfl⟩

/-- A merge looks up parts only where it scales. -/
theorem used_mergePartitions {R : MetisPGTP} {n t : Int} {form : Bool} {u : Int × Option Nat}
    (hu : u ∈ (MetisCall.mergePartitions n form t answer).used Q R) :
    form = true ∧ Q.canMerge n = .ok true ∧ ∃ out, Q.metisOut = some out ∧ u.1 ∈ Q.dagEnds ∧
      u.2 = partAt out u.1 := by
  cases hm : Q.canMerge n with
  | error e => simp [MetisCall.used, hm] at hu
  | ok b =>
    cases b with
    | false => simp [MetisCall.used, hm] at hu
    | true =>
      cases hout : Q.metisOut with
      | none => simp [MetisCall.used, hm, hout] at hu
      | some metisOut =>
        simp only [MetisCall.used, hm, hout] at hu
        split at hu
        · rename_i hf
          obtain ⟨k, hk, rfl⟩ := List.mem_map.mp hu
          exact ⟨hf.1, rfl, metisOut, rfl, hk, rfl⟩
        · simp at hu

theorem eraseDups_length_le {n : Nat} (h : ∀ g ∈ out, g < n) : out.eraseDups.length ≤ n := by
  have hs : out.eraseDups ⊆ List.range n := fun g hg =>
    List.mem_range.mpr (h g (List.mem_eraseDups.mp hg))
  simpa using (List.subperm_of_subset nodup_eraseDups hs).length_le

theorem eraseDups_length_le_length : out.eraseDups.length ≤ out.length :=
  (List.subperm_of_subset nodup_eraseDups fun _ hg => List.mem_eraseDups.mp hg).length_le

/-! ### Runs in which the two agree -/

variable {call : MetisCall} {R : MetisPGTP}

/-- The vector that is looked up agrees with the map. -/
def Settled (Q : MetisPGTP) : Prop := ∀ metisOut, Q.metisOut = some metisOut →
  ∀ i : Nat, i < Q.drops.length → Q.recorded ((i : Int) + 1) = partAt metisOut ((i : Int) + 1)

/-- The graph of the drops has no edges. -/
def NoEdges (P : MetisPGTP) : Prop :=
  ∀ G, buildDagFromDrops P.drops = .ok G → G.graph.edges = []

theorem metisParts_length (hQ : Reached P Q)
    (ha : (MetisCall.toGojsJson visual answer).Answered Q) :
    (Q.metisParts answer).length = P.graph.nodes.length := by
  unfold metisParts
  split
  · rw [List.length_replicate, hQ.based.nodes]
  · rw [ha.1, hQ.based.nodes]

/-- The state after a partitioning: what is recorded is read off the vector. -/
theorem settled_toGojsJson (hl : Laid P) (hn : (P.drops.map DropSpec.oid).Nodup)
    (ho : P.graph.nodes = (List.range P.drops.length).map fun i : Nat => (i : Int) + 1)
    (hQ : Reached P Q) (ha : (MetisCall.toGojsJson visual answer).Answered Q)
    (hR : Q.toGojsJson visual answer = .ok R) {i : Nat} (hi : i < P.drops.length) :
    R.recorded ((i : Int) + 1) = partAt (Q.metisParts answer) ((i : Int) + 1) := by
  obtain ⟨Q', hQ', rfl⟩ := toGojsJson_ok.mp hR
  have hb := hQ.based.trans (withDag_ok hQ').1
  have hl' := hl.of_based hb
  have hq : Q'.graph.nodes[i]? = some ((i : Int) + 1) := by
    rw [hb.nodes, ho]
    simp [hi]
  have hrec : (Q'.parseMetisOutput (Q.metisParts answer) visual).recorded ((i : Int) + 1) =
      (Q.metisParts answer)[i]? :=
    hl'.recorded_parse (hb.drops ▸ hn) (by rw [metisParts_length hQ ha, hb.nodes])
      (hb.drops ▸ hi) hq
  rw [partAt_eq]
  exact hrec

theorem numPartsDone_toGojsJson (hR : Q.toGojsJson visual answer = .ok R)
    (hQ : Reached P Q) : R.numPartsDone =
      ((P.graph.nodes.zip (Q.metisParts answer)).map Prod.snd).eraseDups.length := by
  obtain ⟨Q', hQ', rfl⟩ := toGojsJson_ok.mp hR
  rw [← (hQ.based.trans (withDag_ok hQ').1).nodes]
  rfl

/-- With one partition nothing is ever merged, and part 0 is what is recorded and looked up. -/
theorem readAlike_one (hl : Laid P) (hdag : P.dag = none) (h0 : P.numPartsDone = 0)
    (h1 : P.numParts = 1) : ReadAlike P := by
  have hinv : ∀ Q, Relation.ReflTransGen MetisStep P Q → Reached P Q ∧ Q.numPartsDone ≤ 1 := by
    intro Q hQ
    induction hQ with
    | refl => exact ⟨⟨Based.refl, Or.inl hdag⟩, by omega⟩
    | tail _ hs ih =>
      refine ⟨reached_step ih.1 hs, ?_⟩
      obtain ⟨call, -, hrun⟩ := hs
      cases call with
      | toGojsJson visual answer =>
        rw [numPartsDone_toGojsJson hrun ih.1]
        refine eraseDups_length_le fun g hg => ?_
        obtain ⟨x, hx, rfl⟩ := List.mem_map.mp hg
        have hm := (List.of_mem_zip hx).2
        rw [metisParts, if_pos (ih.1.based.numParts.trans h1)] at hm
        rw [List.eq_of_mem_replicate hm]
        exact Nat.one_pos
      | mergePartitions n form t answer =>
        obtain ⟨hn0, hn, -⟩ := mergePartitions_ok hrun
        have := ih.2
        omega
  intro Q hQ call R ha hrun u hu
  obtain ⟨hr, hle⟩ := hinv Q hQ
  cases call with
  | toGojsJson visual answer =>
    have hR := reached_step hr ⟨_, ha, hrun⟩
    obtain ⟨i, hi, hu1, hu2⟩ := used_toGojsJson hr hR hu
    obtain ⟨Q', hQ', rfl⟩ := toGojsJson_ok.mp hrun
    have hb := hr.based.trans (withDag_ok hQ').1
    have hparts : Q.metisParts answer = List.replicate Q'.graph.nodes.length 0 := by
      rw [metisParts, if_pos (hr.based.numParts.trans h1), hb.nodes, hr.based.nodes]
    have hlen : i < Q'.graph.nodes.length := by
      rw [hb.nodes, hl.length]
      exact hi
    have hone : (Q'.parseMetisOutput (Q.metisParts answer) visual).recorded ((i : Int) + 1) =
        some 0 := by
      rw [hparts]
      exact (hl.of_based hb).recorded_one (hb.drops ▸ hi)
    rw [hu1, hu2]
    refine hone.trans ?_
    rw [partAt_eq, hparts, List.getElem?_replicate, if_pos hlen]
  | mergePartitions n form t answer =>
    obtain ⟨hn0, hn, -⟩ := mergePartitions_ok hrun
    omega

/-- Without a DAG nothing is looked up. -/
theorem readAlike_noDag (hdag : P.dag = none) (hno : ∀ G, buildDagFromDrops P.drops ≠ .ok G) :
    ReadAlike P := by
  have hinv : ∀ Q, Relation.ReflTransGen MetisStep P Q → Reached P Q := by
    intro Q hQ
    induction hQ with
    | refl => exact ⟨Based.refl, Or.inl hdag⟩
    | tail _ hs ih => exact reached_step ih hs
  have hends : ∀ Q, Reached P Q → Q.dag = none := by
    intro Q hQ
    rcases hQ.dag with h | ⟨G, hG, -⟩
    · exact h
    · exact absurd hG (hno G)
  intro Q hQ call R ha hrun u hu
  have hr := hinv Q hQ
  have hR := reached_step hr ⟨call, ha, hrun⟩
  cases call with
  | toGojsJson visual answer =>
    obtain ⟨Q', hQ', rfl⟩ := toGojsJson_ok.mp hrun
    obtain ⟨-, -, -, hv⟩ := withDag_ok hQ'
    have hnone := hends _ hR
    change (Q'.parseMetisOutput (Q.metisParts answer) visual).dag = none at hnone
    rw [parse_dag] at hnone
    cases visual with
    | true => exact absurd hnone (hv rfl)
    | false =>
      obtain ⟨k, hk, -⟩ := List.mem_map.mp hu
      have hd : MetisPGTP.dagEnds { Q'.parseMetisOutput (Q.metisParts answer) false with
          metisOut := some (Q.metisParts answer) } = [] := by
        simp [dagEnds, parse_dag, hnone]
      rw [hd] at hk
      simp at hk
  | mergePartitions n form t answer =>
    obtain ⟨-, -, out, -, hk, -⟩ := used_mergePartitions hu
    simp [dagEnds, hends Q hr] at hk

/-- With distinct oids and nodes in the order of the drops the two agree, as long as no edge is
scaled after parts have been merged. -/
theorem readAlike_inOrder (hl : Laid P) (hdag : P.dag = none) (h0 : P.numPartsDone = 0)
    (hout : P.metisOut = none) (hn : (P.drops.map DropSpec.oid).Nodup)
    (ho : P.graph.nodes = (List.range P.drops.length).map fun i : Nat => (i : Int) + 1)
    (hm : P.mergeParts = false ∨ P.numParts < 3 ∨ P.drops.length < 3 ∨ NoEdges P) :
    ReadAlike P := by
  -- three parts are needed for a merge before a merge
  have hinv : ∀ Q, Relation.ReflTransGen MetisStep P Q → Reached P Q ∧
      (Settled Q ∨ Q.numPartsDone ≤ 1 ∨ NoEdges P) ∧
      (P.mergeParts = false ∨ NoEdges P ∨ Q.numPartsDone ≤ 2) := by
    intro Q hQ
    induction hQ with
    | refl =>
      refine ⟨⟨Based.refl, Or.inl hdag⟩, Or.inl fun out h => ?_, Or.inr (Or.inr (by omega))⟩
      simp [hout] at h
    | tail _ hs ih =>
      rename_i Q R hQ
      obtain ⟨hr, hset, hdone⟩ := ih
      refine ⟨reached_step hr hs, ?_⟩
      obtain ⟨call, ha, hrun⟩ := hs
      cases call with
      | toGojsJson visual answer =>
        constructor
        · left
          intro out hout' i hi
          have hRd : R.drops = P.drops := (reached_step hr ⟨_, ha, hrun⟩).based.drops
          have hRo : R.metisOut = some (Q.metisParts answer) := by
            obtain ⟨Q', hQ', rfl⟩ := toGojsJson_ok.mp hrun
            rfl
          obtain rfl : Q.metisParts answer = out := Option.some.inj (hRo.symm.trans hout')
          exact settled_toGojsJson hl hn ho hr ha hrun (hRd ▸ hi)
        · rcases hm with hm | hm | hm | hm
          · exact Or.inl hm
          · refine Or.inr (Or.inr ?_)
            rw [numPartsDone_toGojsJson hrun hr]
            refine eraseDups_length_le fun g hg => ?_
            obtain ⟨x, hx, rfl⟩ := List.mem_map.mp hg
            have hmem := (List.of_mem_zip hx).2
            unfold metisParts at hmem
            split at hmem
            · rw [List.eq_of_mem_replicate hmem]
              exact Nat.two_pos
            · have := ha.2 _ hmem
              rw [hr.based.numParts] at this
              omega
          · refine Or.inr (Or.inr ?_)
            rw [numPartsDone_toGojsJson hrun hr]
            refine eraseDups_length_le_length.trans ?_
            rw [List.length_map, List.length_zip, hl.length]
            omega
          · exact Or.inr (Or.inl hm)
      | mergePartitions n form t answer =>
        obtain ⟨hn0, hlt, hmp, ⟨-, rfl⟩ | ⟨-, ⟨-, rfl⟩ | ⟨-, hb, -, hoid, hmo, hnd⟩⟩⟩ :=
          mergePartitions_ok hrun
        · exact ⟨hset, hdone⟩
        · rcases hdone with hf | he | hd
          · rw [hr.based.mergeParts, hf] at hmp
            simp at hmp
          · exact ⟨Or.inr (Or.inr he), Or.inr (Or.inl he)⟩
          · exact ⟨Or.inr (Or.inl (by simp only; omega)), Or.inr (Or.inr (by simp only; omega))⟩
        · rw [hnd]
          refine ⟨?_, hdone⟩
          rcases hset with hset | hset
          · left
            intro out hout' i hi
            have hrec : R.recorded ((i : Int) + 1) = Q.recorded ((i : Int) + 1) := by
              simp only [recorded, hb.drops, hoid]
            rw [hrec]
            exact hset out (hmo ▸ hout') i (hb.drops ▸ hi)
          · exact Or.inr hset
  intro Q hQ call R ha hrun u hu
  obtain ⟨hr, hset, -⟩ := hinv Q hQ
  have hR := reached_step hr ⟨call, ha, hrun⟩
  cases call with
  | toGojsJson visual answer =>
    obtain ⟨i, hi, hu1, hu2⟩ := used_toGojsJson hr hR hu
    rw [hu1, hu2]
    exact settled_toGojsJson hl hn ho hr ha hrun hi
  | mergePartitions n form t answer =>
    obtain ⟨rfl, hc, out, hout', hk, hu2⟩ := used_mergePartitions hu
    obtain ⟨hn0, hlt, -, ⟨hc', -⟩ | ⟨-, ⟨hf, -⟩ | ⟨-, hb, -, hoid, -, -⟩⟩⟩ :=
        mergePartitions_ok hrun
    · simp [hc] at hc'
    · simp at hf
    · rcases hset with hset | hset | hset
      · obtain ⟨i, hi, hki⟩ := hr.dagEnds_range hk
        have hrec : R.recorded u.1 = Q.recorded u.1 := by
          simp only [recorded, hb.drops, hoid]
        rw [hrec, hu2, hki]
        exact hset out hout' i (hr.based.drops ▸ hi)
      · omega
      · rcases hr.dag with hd | ⟨G, hG, hd⟩
        · simp [dagEnds, hd] at hk
        · simp [dagEnds, hd, hset G hG] at hk

/-! ### Runs in which the two differ -/

variable (answer) in
theorem exists_toGojsJson {G : DropGraph} (hdag : P.dag = none)
    (hG : buildDagFromDrops P.drops = .ok G) : ∃ R, P.toGojsJson true answer = .ok R ∧
      R.dag = some G ∧ R.metisOut = some (P.metisParts answer) ∧
      R.partitionMerged = P.partitionMerged := by
  have hQ : P.withDag true = .ok { P with
      dag := some G, dagWeight := fun a b => (G.edgeWeight a b).map fun w : Int => (w : ℚ) } := by
    simp [withDag, hdag, hG, bind, Except.bind, pure, Except.pure]
  refine ⟨_, toGojsJson_ok.mpr ⟨_, hQ, rfl⟩, ?_, rfl, ?_⟩
  · rw [parse_eq]
  · rw [parse_eq]

/-- The parts of the nodes all have workloads. -/
theorem workloads_toGojsJson (hm : P.mergeParts = true) (hR : P.toGojsJson visual answer = .ok R)
    (hlen : (P.metisParts answer).length = P.graph.nodes.length) :
    (∀ g ∈ P.metisParts answer, g ∈ R.groupWorkloads) ∧
      ∀ k ∈ P.graph.nodes, ∃ g ∈ P.metisParts answer, R.graph.gid k = some g := by
  obtain ⟨Q, hQ, rfl⟩ := toGojsJson_ok.mp hR
  have hb := (withDag_ok hQ).1
  have hsnd : (Q.graph.nodes.zip (P.metisParts answer)).map Prod.snd = P.metisParts answer :=
    List.map_snd_zip (by rw [hlen, hb.nodes])
  constructor
  · intro g hg
    show g ∈ (Q.parseMetisOutput (P.metisParts answer) visual).groupWorkloads
    unfold parseMetisOutput
    simp only [hsnd, hb.mergeParts, hm, if_true, List.mem_eraseDups, List.mem_append]
    exact Or.inr hg
  · intro k hk
    have hk' : k ∈ (Q.graph.nodes.zip (P.metisParts answer)).map Prod.fst := by
      rw [List.map_fst_zip (by rw [hlen, hb.nodes]), hb.nodes]
      exact hk
    obtain ⟨g, hg, hgid⟩ := gid_foldl_record (P := Q) hk'
    rw [hsnd] at hg
    refine ⟨g, hg, ?_⟩
    show (Q.parseMetisOutput (P.metisParts answer) visual).graph.gid k = some g
    rw [parse_eq]
    exact hgid

theorem mem_partNodes (h : g ∈ P.groupWorkloads) : g ∈ P.partNodes :=
  List.mem_eraseDups.mpr (List.mem_append_left _ h)

theorem foldl_update_zero {f : Nat → Option Nat} {l : List (Nat × Nat)} (hz : ∀ x ∈ l, x.2 = 0)
    (hg : g ∈ l.map Prod.fst) :
    (l.foldl (fun (m : Nat → Option Nat) x => Function.update m x.1 (some x.2)) f) g =
      some 0 := by
  induction l using List.reverseRecOn with
  | nil => simp at hg
  | append_singleton l x ih =>
    rw [List.foldl_append, List.foldl_cons, List.foldl_nil]
    by_cases hx : g = x.1
    · rw [hx, Function.update_self, hz x (by simp)]
    · rw [Function.update_of_ne hx]
      refine ih (fun y hy => hz y (by simp [hy])) ?_
      simpa [hx] using hg

/-- METIS may put all parts into one. -/
theorem islands_zero {n : Int} (hg : g ∈ P.partNodes) :
    P.islands n (List.replicate P.partNodes.length 0) g = some 0 := by
  unfold islands
  simp only [ite_self]
  refine foldl_update_zero (fun x hx => List.eq_of_mem_replicate (List.of_mem_zip hx).2) ?_
  rw [List.map_fst_zip (by simp)]
  exact hg

theorem oidGid_foldl_relabel (hz : P.gidIsland 0 = some 0)
    (hg : ∀ k ∈ ks, ∃ g, P.graph.gid k = some g ∧ P.gidIsland g = some 0)
    (hk : P.oidGid oid = some 0 ∨ ∃ k ∈ ks, P.graph.oid k = some oid) :
    (ks.foldl relabel P).oidGid oid = some 0 := by
  induction ks generalizing P with
  | nil => simpa using hk
  | cons k ks ih =>
    obtain ⟨g, hgk, hg0⟩ := hg k List.mem_cons_self
    have hnew : (P.graph.gid k).bind P.gidIsland = some 0 := by simp [hgk, hg0]
    rw [List.foldl_cons]
    refine ih (P := P.relabel k) hz (fun k' hk' => ?_) ?_
    · by_cases he : k' = k
      · exact ⟨0, by simp [relabel, he, hnew], hz⟩
      · obtain ⟨g', hg', hg0'⟩ := hg k' (List.mem_cons_of_mem k hk')
        exact ⟨g', by simpa [relabel, Function.update_of_ne he] using hg', hg0'⟩
    · by_cases ho : P.graph.oid k = some oid
      · exact Or.inl (by simp [relabel, ho, hnew])
      · rcases hk with hk | ⟨k', hk', ho'⟩
        · left
          simp only [relabel]
          cases he : P.graph.oid k with
          | none => exact hk
          | some o =>
            have hne : oid ≠ o := fun h => ho (h ▸ he)
            simpa [Function.update_of_ne hne] using hk
        · rcases List.mem_cons.mp hk' with rfl | hk'
          · exact absurd ho' ho
          · exact Or.inr ⟨k', hk', ho'⟩

theorem exists_mergePartitions {n : Int} (t : Int) (form : Bool) (answer : List Nat)
    (h : P.canMerge n = .ok true) : ∃ R, P.mergePartitions n form t answer = .ok R := by
  unfold mergePartitions
  rw [h]
  cases form <;> exact ⟨_, rfl⟩

theorem canMerge_true {n : Int} (h0 : 0 < n) (hm : P.mergeParts = true) (hn : n < P.numPartsDone)
    (hp : (P.partitionMerged : Int) ≠ n) : P.canMerge n = .ok true := by
  unfold canMerge
  rw [if_neg (by omega), if_neg (by simp [hm]), if_neg (by omega), decide_eq_true hp]

/-- A vector with one part for most drops and another one for drop `i`. -/
def oneAt (n i : Nat) : List Nat := (List.range n).map fun m => if m = i then 1 else 0

theorem getElem?_oneAt {n i m : Nat} (h : m < n) :
    (oneAt n i)[m]? = some (if m = i then 1 else 0) := by
  simp [oneAt, h]

variable (visual) in
theorem answered_oneAt (hl : Laid P) (h0 : 0 < P.numParts) (h1 : P.numParts ≠ 1) {i : Nat} :
    (MetisCall.toGojsJson visual (oneAt P.drops.length i)).Answered P := by
  refine ⟨by simp [oneAt, hl.length], fun g hg => ?_⟩
  obtain ⟨m, -, rfl⟩ := List.mem_map.mp hg
  split <;> omega

section Differ

variable {G : DropGraph}

theorem mem_used_visual {R : MetisPGTP} {i : Nat} (hi : i < P.drops.length) :
    (((i : Int) + 1, partAt (P.metisParts answer) ((i : Int) + 1)) : Int × Option Nat) ∈
      (MetisCall.toGojsJson true answer).used P R := by
  refine List.mem_map.mpr ⟨(i : Int) + 1, List.mem_append_right _ ?_, rfl⟩
  exact mem_projected.mpr ⟨i, hi, rfl⟩

/-- Two drops of one oid are recorded with one part, and can be looked up with two. -/
theorem nodup_of_readAlike (hl : Laid P) (hdag : P.dag = none) (h0 : 0 < P.numParts)
    (h1 : P.numParts ≠ 1) (hG : buildDagFromDrops P.drops = .ok G) (h : ReadAlike P) :
    (P.drops.map DropSpec.oid).Nodup := by
  rw [List.nodup_iff_getElem?_ne_getElem?]
  intro i j hij hj he
  rw [List.length_map] at hj
  have hi : i < P.drops.length := by omega
  obtain ⟨R, hR, -⟩ := exists_toGojsJson (oneAt P.drops.length i) hdag hG
  have hread := h P .refl _ R (answered_oneAt true hl h0 h1) hR
  have hparts : P.metisParts (oneAt P.drops.length i) = oneAt P.drops.length i := if_neg h1
  have hri := hread _ (mem_used_visual hi)
  have hrj := hread _ (mem_used_visual hj)
  simp only [hparts, partAt_eq, getElem?_oneAt hi, getElem?_oneAt hj, if_true] at hri hrj
  rw [if_neg (by omega)] at hrj
  obtain ⟨Q', hQ', rfl⟩ := toGojsJson_ok.mp hR
  have hd : (Q'.parseMetisOutput (P.metisParts (oneAt P.drops.length i)) true).drops = P.drops := by
    rw [parse_eq]
    exact (withDag_ok hQ').1.drops
  have hrec : ∀ (m : Nat) (hm : m < P.drops.length),
      (Q'.parseMetisOutput (P.metisParts (oneAt P.drops.length i)) true).recorded ((m : Int) + 1) =
        (Q'.parseMetisOutput (P.metisParts (oneAt P.drops.length i)) true).oidGid
          P.drops[m].oid := by
    intro m hm
    refine recorded_eq ?_
    rw [hd]
    exact List.getElem?_eq_getElem hm
  have hoid : P.drops[i].oid = P.drops[j].oid := by simpa [hi, hj] using he
  have heq := ((hrec i hi).symm.trans hri).symm.trans
    ((congrArg _ hoid).trans ((hrec j hj).symm.trans hrj))
  simp at heq

/-- A node that is not at the place of its drop is recorded with another part than it is looked
up with. -/
theorem nodes_of_readAlike (hl : Laid P) (hdag : P.dag = none) (h0 : 0 < P.numParts)
    (h1 : P.numParts ≠ 1) (hG : buildDagFromDrops P.drops = .ok G)
    (hn : (P.drops.map DropSpec.oid).Nodup) (h : ReadAlike P) :
    P.graph.nodes = (List.range P.drops.length).map fun i : Nat => (i : Int) + 1 := by
  refine List.ext_getElem? fun q => ?_
  rcases Nat.lt_or_ge q P.drops.length with hq | hq
  · have hq' : q < P.graph.nodes.length := hl.length ▸ hq
    obtain ⟨i, hi, hki⟩ := (hl.nodes _).mp (List.getElem_mem hq')
    have hnq : P.graph.nodes[q]? = some ((i : Int) + 1) := by
      rw [List.getElem?_eq_getElem hq', hki]
    have ha := answered_oneAt true hl h0 h1 (i := q)
    obtain ⟨R, hR, -⟩ := exists_toGojsJson (oneAt P.drops.length q) hdag hG
    have hparts : P.metisParts (oneAt P.drops.length q) = oneAt P.drops.length q := if_neg h1
    have hri := h P .refl _ R ha hR _ (mem_used_visual hi)
    obtain ⟨Q', hQ', rfl⟩ := toGojsJson_ok.mp hR
    have hb := (withDag_ok hQ').1
    have hrec : (Q'.parseMetisOutput (P.metisParts (oneAt P.drops.length q)) true).recorded
        ((i : Int) + 1) = (P.metisParts (oneAt P.drops.length q))[q]? :=
      (hl.of_based hb).recorded_parse (hb.drops ▸ hn)
        (by rw [hparts, ha.1, hb.nodes]) (hb.drops ▸ hi) (hb.nodes ▸ hnq)
    have heq := hrec.symm.trans hri
    rw [hparts, partAt_eq, getElem?_oneAt hq, getElem?_oneAt hi, if_pos rfl] at heq
    have hiq : i = q := by
      by_contra hne
      simp [hne] at heq
    rw [hnq, hiq]
    simp [hq]
  · rw [List.getElem?_eq_none (hl.length ▸ hq)]
    simp [hq]

/-- A vector with three parts, in which drop `i` alone has part 2 and drop `j` alone part 1. -/
def threeParts (n i j : Nat) : List Nat :=
  (List.range n).map fun m => if m = i then 2 else if m = j then 1 else 0

theorem getElem?_threeParts {n i j m : Nat} (h : m < n) :
    (threeParts n i j)[m]? = some (if m = i then 2 else if m = j then 1 else 0) := by
  simp [threeParts, h]

/-- METIS has answered with three parts, the last one for drop `i`. -/
structure InThree (P : MetisPGTP) (G : DropGraph) (i j : Nat) (R : MetisPGTP) : Prop where
  step : MetisStep P R
  reached : Reached P R
  dag : R.dag = some G
  metisOut : R.metisOut = some (threeParts P.drops.length i j)
  unmerged : R.partitionMerged = 0
  done : 3 ≤ R.numPartsDone
  zero : 0 ∈ threeParts P.drops.length i j
  workloads : ∀ g ∈ threeParts P.drops.length i j, g ∈ R.groupWorkloads
  gid : ∀ k ∈ P.graph.nodes, ∃ g ∈ threeParts P.drops.length i j, R.graph.gid k = some g

/-- These have been merged, and the first part has all drops. -/
structure InOne (P : MetisPGTP) (G : DropGraph) (i j : Nat) (R : MetisPGTP) : Prop where
  run : Relation.ReflTransGen MetisStep P R
  reached : Reached P R
  dag : R.dag = some G
  metisOut : R.metisOut = some (threeParts P.drops.length i j)
  canMerge : R.canMerge 1 = .ok true
  recorded : ∀ (m : Nat) (hm : m < P.drops.length), R.oidGid P.drops[m].oid = some 0

theorem exists_inThree (hl : Laid P) (hdag : P.dag = none) (hp : P.partitionMerged = 0)
    (h3 : 3 ≤ P.numParts) (hlen : 3 ≤ P.drops.length) (hm : P.mergeParts = true)
    (hG : buildDagFromDrops P.drops = .ok G) {i : Nat} (hi : i < P.drops.length) :
    ∃ j R, InThree P G i j R := by
  obtain ⟨j, m, hj, hmlt, hji, hmi, hmj⟩ : ∃ j m : Nat, j < 3 ∧ m < 3 ∧ j ≠ i ∧ m ≠ i ∧ m ≠ j := by
    rcases i with _ | _ | i
    · exact ⟨1, 2, by omega, by omega, by omega, by omega, by omega⟩
    · exact ⟨0, 2, by omega, by omega, by omega, by omega, by omega⟩
    · exact ⟨0, 1, by omega, by omega, by omega, by omega, by omega⟩
  have hbase : Reached P P := ⟨Based.refl, Or.inl hdag⟩
  obtain ⟨R, hR, hd, ho, hmerged⟩ := exists_toGojsJson (threeParts P.drops.length i j) hdag hG
  have hparts : P.metisParts (threeParts P.drops.length i j) = threeParts P.drops.length i j :=
    if_neg (by omega)
  rw [hparts] at ho
  have hlength : (threeParts P.drops.length i j).length = P.graph.nodes.length := by
    simp [threeParts, hl.length]
  have hanswered : (MetisCall.toGojsJson true (threeParts P.drops.length i j)).Answered P := by
    refine ⟨hlength, fun g hg => ?_⟩
    obtain ⟨x, -, rfl⟩ := List.mem_map.mp hg
    split
    · omega
    · split <;> omega
  have hmem : ∀ g, g = 0 ∨ g = 1 ∨ g = 2 → g ∈ threeParts P.drops.length i j := by
    rintro g (rfl | rfl | rfl)
    · refine List.mem_of_getElem? (i := m) ?_
      rw [getElem?_threeParts (by omega), if_neg hmi, if_neg hmj]
    · refine List.mem_of_getElem? (i := j) ?_
      rw [getElem?_threeParts (by omega), if_neg hji, if_pos rfl]
    · refine List.mem_of_getElem? (i := i) ?_
      rw [getElem?_threeParts hi, if_pos rfl]
  have hdone : 3 ≤ R.numPartsDone := by
    rw [numPartsDone_toGojsJson hR hbase, hparts, List.map_snd_zip (by rw [hlength])]
    have hsub : [0, 1, 2] ⊆ (threeParts P.drops.length i j).eraseDups := by
      intro g hg
      exact List.mem_eraseDups.mpr (hmem g (by simpa using hg))
    exact (List.subperm_of_subset (by decide) hsub).length_le
  obtain ⟨hworkloads, hgid⟩ := workloads_toGojsJson hm hR (by rw [hparts, hlength])
  rw [hparts] at hworkloads hgid
  have hstep : MetisStep P R := ⟨_, hanswered, hR⟩
  exact ⟨j, R, {
    step := hstep
    reached := reached_step hbase hstep
    dag := hd
    metisOut := ho
    unmerged := hmerged.trans hp
    done := hdone
    zero := hmem 0 (Or.inl rfl)
    workloads := hworkloads
    gid := hgid }⟩

/-- An answer that puts all parts into the first one. -/
theorem answered_zero {n t : Int} {form : Bool} (hn : 0 < n) :
    (MetisCall.mergePartitions n form t (List.replicate P.partNodes.length 0)).Answered P := by
  refine ⟨List.length_replicate, fun g hg => ?_⟩
  rw [List.eq_of_mem_replicate hg]
  exact_mod_cast hn

theorem InThree.exists_inOne {i j : Nat} (h : InThree P G i j Q) (hl : Laid P)
    (hm : P.mergeParts = true) : ∃ R, InOne P G i j R := by
  have hcan : Q.canMerge 2 = .ok true := by
    have hdone := h.done
    refine canMerge_true (by omega) (h.reached.based.mergeParts.trans hm) (by omega) ?_
    rw [h.unmerged]
    decide
  obtain ⟨R, hR⟩ := exists_mergePartitions 0 false (List.replicate Q.partNodes.length 0) hcan
  have hstep : MetisStep Q R := ⟨_, answered_zero (by decide), hR⟩
  have hreached := reached_step h.reached hstep
  obtain ⟨-, -, -, ⟨hc, -⟩ | ⟨-, ⟨-, he⟩ | ⟨hf, -⟩⟩⟩ := mergePartitions_ok hR
  · simp [hcan] at hc
  · have hzero : ∀ g ∈ threeParts P.drops.length i j,
        Q.islands 2 (List.replicate Q.partNodes.length 0) g = some 0 :=
      fun g hg => islands_zero (mem_partNodes (h.workloads g hg))
    refine ⟨R, (Relation.ReflTransGen.single h.step).tail hstep, hreached, ?_, ?_, ?_, ?_⟩
    · rw [he, foldl_relabel]
      exact h.dag
    · rw [he, foldl_relabel]
      exact h.metisOut
    · refine canMerge_true (by omega) (hreached.based.mergeParts.trans hm) ?_ ?_
      · rw [he]
        show (1 : Int) < ((2 : Int).toNat : Int)
        decide
      · rw [he, foldl_relabel]
        show (Q.partitionMerged : Int) ≠ 1
        rw [h.unmerged]
        decide
    · intro m hmlt
      rw [he]
      refine oidGid_foldl_relabel (hzero 0 h.zero) (fun k hk => ?_)
        (Or.inr ⟨(m : Int) + 1, ?_, ?_⟩)
      · obtain ⟨g, hg, hgk⟩ := h.gid k (h.reached.based.nodes ▸ hk)
        exact ⟨g, hgk, hzero g hg⟩
      · exact h.reached.based.nodes ▸ (hl.nodes _).mpr ⟨m, hmlt, rfl⟩
      · exact h.reached.based.oid ▸ hl.oid m _ (List.getElem?_eq_getElem hmlt)
  · simp at hf

/-- One island over both: an edge of drop `i` is scaled by a part it no longer has. -/
theorem InOne.not_readAlike {i j : Nat} (h : InOne P G i j Q) (hi : i < P.drops.length)
    (he : ∃ e ∈ G.graph.edges, e.1 = (i : Int) + 1) : ¬ ReadAlike P := by
  intro hread
  obtain ⟨R, hR⟩ := exists_mergePartitions 1 true (List.replicate Q.partNodes.length 0) h.canMerge
  have hused := hread Q h.run _ R (answered_zero (by decide)) hR
    ((i : Int) + 1, partAt (threeParts P.drops.length i j) ((i : Int) + 1)) (by
      obtain ⟨e, hedge, hei⟩ := he
      simp only [MetisCall.used, h.canMerge, h.metisOut]
      rw [if_pos (by simp)]
      refine List.mem_map.mpr ⟨(i : Int) + 1, ?_, rfl⟩
      simp only [dagEnds, h.dag]
      exact List.mem_flatMap.mpr ⟨e, hedge, by simp [hei]⟩)
  rw [partAt_eq, getElem?_threeParts hi, if_pos rfl] at hused
  obtain ⟨-, -, -, ⟨hc, -⟩ | ⟨-, ⟨hf, -⟩ | ⟨-, hb, -, hoid, -⟩⟩⟩ := mergePartitions_ok hR
  · simp [h.canMerge] at hc
  · simp at hf
  · have hdrop : R.drops[i]? = some P.drops[i] := by
      rw [hb.drops, h.reached.based.drops]
      exact List.getElem?_eq_getElem hi
    rw [recorded_eq hdrop, hoid, h.recorded i hi] at hused
    simp at hused

/-- Three parts merged into two, and islands put over these: an edge is scaled by parts that are
no longer recorded. -/
theorem not_readAlike_merged (hl : Laid P) (hdag : P.dag = none) (hp : P.partitionMerged = 0)
    (h3 : 3 ≤ P.numParts) (hlen : 3 ≤ P.drops.length) (hm : P.mergeParts = true)
    (hG : buildDagFromDrops P.drops = .ok G) (he : G.graph.edges ≠ []) : ¬ ReadAlike P := by
  obtain ⟨⟨a, b⟩, hedge⟩ := List.exists_mem_of_ne_nil _ he
  obtain ⟨i, d, hd, -, rfl, -⟩ := (edge_buildDag hG (a := a) (b := b)).mp hedge
  have hi : i < P.drops.length := (List.getElem?_eq_some_iff.mp hd).1
  obtain ⟨j, R₁, hthree⟩ := exists_inThree hl hdag hp h3 hlen hm hG hi
  obtain ⟨R₂, hone⟩ := hthree.exists_inOne hl hm
  exact hone.not_readAlike hi ⟨_, hedge, rfl⟩

end Differ

/-! ### Every run -/

section Init

variable {drops : List (Option DropSpec)} {n : Int} {m : Bool}

theorem init_ok (h : init drops n m = .ok P) : 0 < n ∧ ∃ rest G,
    toPartitionInput drops = .ok (rest, G) ∧ P =
      { drops := drops.reduceOption
        dropListLen := drops.length
        numParts := n.toNat
        mergeParts := m
        graph := G } := by
  unfold init at h
  split at h
  · obtain ⟨_, hthrow, -⟩ := bind_ok.mp h
    simp [throw, throwThe, MonadExceptOf.throw] at hthrow
  · rename_i hn
    obtain ⟨⟨rest, G⟩, hG, h⟩ := bind_ok.mp h
    obtain rfl := pure_ok.mp h
    obtain ⟨-, rfl⟩ := apart_of_ok hG
    refine ⟨by omega, _, G, hG, ?_⟩
    have hr : (drops.reduceOption.map some).reduceOption = drops.reduceOption := by
      induction drops.reduceOption with
      | nil => rfl
      | cons d l ih => rw [List.map_cons, List.reduceOption_cons_of_some, ih]
    rw [hr]

theorem laid_of_init (h : init drops n m = .ok P) : Laid P := by
  obtain ⟨-, rest, G, hG, rfl⟩ := init_ok h
  refine ⟨fun k => mem_nodes_of_ok hG, fun i d hi => oid_of_ok hG hi, ?_⟩
  obtain ⟨r, -, rfl⟩ := plan_of_ok hG
  rw [MetisGraph.nodes_put]
  exact nodup_eraseDups

/-- The nodes have the order of the drops when no drop is mentioned early. -/
theorem nodes_of_init (h : init drops n m = .ok P)
    (hn : (drops.reduceOption.map DropSpec.oid).Nodup) :
    P.graph.nodes = (List.range P.drops.length).map (fun i : Nat => (i : Int) + 1) ↔
      InOrder (mentions drops.reduceOption) := by
  have hl := laid_of_init h
  obtain ⟨-, rest, G, hG, rfl⟩ := init_ok h
  have hnodes := nodes_of_ok hG hn
  have hinj : Function.Injective fun i : Nat => (i : Int) + 1 := fun a b hab => by
    have : (a : Int) + 1 = b + 1 := hab
    omega
  have hlen : (mentions drops.reduceOption).eraseDups.length = drops.reduceOption.length := by
    rw [← hl.length]
    simp only [hnodes, List.length_map]
  rw [inOrder_iff, hlen]
  simp only [hnodes]
  constructor
  · exact fun he => (List.map_injective_iff.mpr hinj) he
  · exact fun he => by rw [he]

end Init

end MetisPGTP

open MetisPGTP in
/-- The parts are looked up as they are recorded, in every run, exactly when the order of the
drops cannot tell them apart. -/
theorem readAlike_iff {drops : List (Option DropSpec)} {numPartitions : Int} {mergeParts : Bool}
    {P : MetisPGTP} (h : MetisPGTP.init drops numPartitions mergeParts = .ok P) :
    ReadAlike P ↔ Alike drops numPartitions mergeParts := by
  have hl := laid_of_init h
  have hnodes := nodes_of_init h
  obtain ⟨h0, rest, G, hG, rfl⟩ := init_ok h
  unfold Alike
  constructor
  · intro hread
    rcases Classical.em (numPartitions = 1) with h1 | h1
    · exact Or.inl h1
    rcases Classical.em (∀ G, buildDagFromDrops drops.reduceOption ≠ .ok G) with hno | hdag
    · exact Or.inr (Or.inl hno)
    obtain ⟨D, hD⟩ : ∃ D, buildDagFromDrops drops.reduceOption = .ok D := by
      simpa using hdag
    have h0' : 0 < numPartitions.toNat := by omega
    have h1' : numPartitions.toNat ≠ 1 := by omega
    have hn := nodup_of_readAlike hl rfl h0' h1' hD hread
    refine Or.inr (Or.inr ⟨hn, (hnodes hn).mp (nodes_of_readAlike hl rfl h0' h1' hD hn hread), ?_⟩)
    by_contra hc
    rw [not_or, not_or, not_or] at hc
    obtain ⟨hm, h3, hlen, hedge⟩ := hc
    refine not_readAlike_merged hl rfl rfl (by show 3 ≤ numPartitions.toNat; omega)
      (Nat.le_of_not_lt hlen) (by simpa using hm) hD (fun he => hedge fun D' hD' => ?_) hread
    obtain rfl := Except.ok.inj (hD.symm.trans hD')
    exact he
  · rintro (h1 | hno | ⟨hn, ho, hm⟩)
    · exact readAlike_one hl rfl rfl (by show numPartitions.toNat = 1; omega)
    · exact readAlike_noDag rfl hno
    · refine readAlike_inOrder hl rfl rfl rfl hn ((hnodes hn).mpr ho) ?_
      rcases hm with hm | hm | hm | hm
      · exact Or.inl hm
      · exact Or.inr (Or.inl (by show numPartitions.toNat < 3; omega))
      · exact Or.inr (Or.inr (Or.inl hm))
      · exact Or.inr (Or.inr (Or.inr hm))

/-- A file and its writer, in two parts. -/
theorem writer_readAlike : ∃ P,
    MetisPGTP.init [some writer, some written, none] 2 true = .ok P ∧ ReadAlike P := by
  obtain ⟨P, hP⟩ : ∃ P, MetisPGTP.init [some writer, some written, none] 2 true = .ok P := ⟨_, rfl⟩
  refine ⟨P, hP, (readAlike_iff hP).mpr (Or.inr (Or.inr ⟨by decide, ?_, ?_⟩))⟩
  · exact inOrder_iff.mpr (by decide)
  · exact Or.inr (Or.inl (by decide))

/-- A file with two writers; the first one mentions it before the second has its turn. -/
def joint : List (Option DropSpec) := List.map some
  [{ oid := "a", categoryType := .application, outputs := [.plain "f"] },
    { oid := "b", categoryType := .application, outputs := [.plain "f"] },
    { oid := "f", categoryType := .data, weight := some (.num 1),
      producers := [.plain "a", .plain "b"] }]

open MetisPGTP in
/-- The file and the second writer are looked up in each other's place. -/
theorem joint_differs : ∃ P, MetisPGTP.init joint 2 false = .ok P ∧ ¬ ReadAlike P := by
  obtain ⟨P, hP⟩ : ∃ P, MetisPGTP.init joint 2 false = .ok P := ⟨_, rfl⟩
  refine ⟨P, hP, fun h => ?_⟩
  have hl := laid_of_init hP
  have horder := nodes_of_init hP (by decide)
  obtain ⟨-, rest, G, -, rfl⟩ := init_ok hP
  obtain ⟨D, hD⟩ : ∃ D, buildDagFromDrops joint.reduceOption = .ok D := ⟨_, rfl⟩
  have hn : (joint.reduceOption.map DropSpec.oid).Nodup := by decide
  have hin := horder.mp (nodes_of_readAlike hl rfl Nat.two_pos (Nat.succ_ne_self 1) hD hn h)
  rw [inOrder_iff] at hin
  revert hin
  decide

end Daliuge.Partition
