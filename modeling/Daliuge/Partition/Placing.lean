import Daliuge.Partition.Linearise
import Daliuge.Partition.Swarm

/-!
# Viewing and placing

The partitioned templates of `MinNumPartsPGTP` and `PSOPGTP`: `to_gojs_json` has the scheduler
partition the DAG, fills the map from oids to partitions and, for a view, linearises drops and DAG;
`to_pg_template` and `to_pg_spec` stamp a node and an island on every drop by that map.
-/
namespace Daliuge.Partition

open Collect

/-- What is stamped on a drop: a placeholder `#<index>`, or the name of a node. -/
inductive Host
  | placeholder (index : Nat)
  | name (text : String)
  deriving DecidableEq

/-- A drop with the keys that come up here. -/
structure Record where
  spec : DropSpec
  iid : Option String := none
  node : Option Host := none
  island : Option Host := none
  humanReadableKey : Option String := none
  deriving DecidableEq

/-- What `partition_dag` returns: the number of parts and their ids, with the graph it leaves. -/
structure Scheduled where
  numParts : Nat
  partitions : List Int
  dag : DropGraph

/-- A `MinNumPartsPGTP` or `PSOPGTP`. The links, which only the projection has, are left out. -/
structure PGTP where
  className : String
  drops : List Record
  dag : DropGraph
  mergeParts : Bool
  extraDrops : Option (List Record) := none
  partitions : Option (List Int) := none
  numPartsDone : Nat := 0
  partitionMerged : Nat := 0
  oidGidMap : String → Option Int := fun _ => none
  gidIslandIdMap : Int → Option Int := fun _ => none
  gojsKeyDict : List (String × Int) := []
  groups : List Int := []

structure Notes where
  rootGid : Option Int := none
  oidGidMap : String → Option Int
  groups : List Int := []

/-- `l[i]`, where a negative index counts from the end. -/
def pyIndex {α : Type} (l : List α) (i : Int) : Except DropErr α :=
  match l[(if 0 ≤ i then i else l.length + i).toNat]? with
  | some a => if -(l.length : Int) ≤ i then .ok a else .error .indexError
  | none => .error .indexError

namespace PGTP

def init (className : String) (drops : List Record) (mergeParts : Bool) : Except DropErr PGTP := do
  let dag ← buildDagFromDrops (drops.map Record.spec)
  return { className, drops, dag, mergeParts }

variable (p : PGTP)

def allDrops : List Record := p.drops ++ p.extraDrops.getD []

def startK : Int := (p.drops.length : Int) + 1

def dropSpec (key : Int) : Option Record :=
  if 0 < key then p.drops[(key - 1).toNat]? else (p.extraDrops.getD [])[(-key - 1).toNat]?

/-! `to_gojs_json`. -/

/-- The first time, the scheduler is asked. -/
def schedule (partitionDag : Except DropErr Scheduled) : Except DropErr PGTP :=
  if p.numPartsDone = 0 ∧ p.partitions = none then do
    let r ← partitionDag
    return { p with numPartsDone := r.numParts, partitions := some r.partitions, dag := r.dag }
  else .ok p

/-- The body of the loop over the nodes of the DAG. -/
def noteNode (c : Notes) (key : Int) : Except DropErr Notes := do
  let r ← fetch "drop_spec" (p.dropSpec key)
  let gid ← fetch "gid" (p.dag.gid key)
  if r.spec.oid = "-92" then return { c with rootGid := some gid }
  else return { c with
    oidGidMap := Function.update c.oidGidMap r.spec.oid (some (gid - p.startK))
    groups := if gid ∈ c.groups then c.groups else c.groups ++ [gid] }

/-- The map from oids to partitions; the partition of the fake super root is given up when there is
nothing else in it. -/
def noteParts : Except DropErr PGTP := do
  let c ← p.dag.graph.nodes.foldlM p.noteNode { oidGidMap := p.oidGidMap }
  let p := { p with oidGidMap := c.oidGidMap, groups := c.groups }
  if c.rootGid.any (· ∈ c.groups) then return p
  else
    match p.partitions with
    | none => throw .typeError
    | some ids =>
      let ids := ids.filter fun id => some id ≠ c.rootGid
      return { p with partitions := some ids, numPartsDone := ids.length }

def prepareGojsProjection : Except DropErr PGTP :=
  match p.extraDrops with
  | some _ => .ok p
  | none => do
    let specs := p.drops.map Record.spec
    let (s, dag) ← linearise p.dag specs (keyDict specs)
    return { p with
      drops := p.drops.zipWith (fun r d => { r with spec := d }) s.drops
      extraDrops := some (s.extraDrops.map fun d => { spec := d })
      dag }

/-- What `PGT.to_gojs_json` leaves: a key for every oid, the newest first, and an `iid`. -/
def numberDrops : PGTP :=
  { p with
    gojsKeyDict := (p.drops.zipIdx.map fun x => (x.1.spec.oid, (x.2 : Int) + 1)).reverse
      ++ p.gojsKeyDict
    drops := p.drops.map fun r => { r with iid := some (r.iid.getD "0") } }

def projectedKeys : List Int :=
  (List.range p.drops.length).map (fun i : Nat => (i : Int) + 1) ++
    (List.range (p.extraDrops.getD []).length).map fun j : Nat => -((j : Int) + 1)

def groupOf (key : Int) : Except DropErr (Int × Int) := do
  let gid ← fetch "gid" (p.dag.gid key)
  return (key, gid)

/-- `to_gojs_json`, with the groups of the nodes when it is for a view. -/
def toGojsJson (partitionDag : Except DropErr Scheduled) (visual : Bool) :
    Except DropErr (PGTP × List (Int × Int)) := do
  let p ← p.schedule partitionDag
  let p ← p.noteParts
  if visual then
    let p ← p.prepareGojsProjection
    let p := p.numberDrops
    return (p, ← p.projectedKeys.mapM p.groupOf)
  else return (p, [])

/-! `merge_partitions`. -/

def canMerge (newNumParts : Int) : Except DropErr Bool :=
  if newNumParts ≤ 0 then
    .error (.gpgtException ("Invalid new_num_parts " ++ toString newNumParts))
  else if ¬ p.mergeParts then
    .error (.gpgtException ("This " ++ p.className ++ " PGTP is not made for merging"))
  else if (p.numPartsDone : Int) ≤ newNumParts then
    .error (.noNeedMerge ("No need to merge this " ++ p.className ++ " PGTP: Merged parts: " ++
      toString p.numPartsDone ++ " <=  New Parts: " ++ toString newNumParts))
  else .ok (decide ((p.partitionMerged : Int) ≠ newNumParts))

/-- The id of the island of a partition, by the id of the partition. -/
def islandOf (startI : Int) (x : Int × Option Int) : Except DropErr (Int × Int) :=
  match x.2 with
  | none => .error .typeError
  | some parent => .ok (x.1 - p.startK, parent - startI)

/-- A node goes to the new part of its old one. -/
def relabel (p : PGTP) (key : Int) : Except DropErr PGTP := do
  let r ← fetch "drop_spec" (p.dropSpec key)
  let gid ← fetch "gid" (p.dag.gid key)
  let newGid ← fetch (toString (gid - p.startK)) (p.gidIslandIdMap (gid - p.startK))
  return { p with oidGidMap := Function.update p.oidGidMap r.spec.oid (some newGid) }

/-- The parents of the partitions; `cluster` is `merge_partitions` of the scheduler, which has METIS
give them. -/
def parents (cluster : DropGraph → Int → Except DropErr (List (Option Int))) (newNumParts : Int)
    (ids : List Int) : Except DropErr (List (Option Int)) :=
  if 1 < newNumParts then cluster p.dag newNumParts
  else .ok (ids.map fun _ => some ((p.drops.length : Int) + p.groups.length + 1))

def mergePartitions (cluster : DropGraph → Int → Except DropErr (List (Option Int)))
    (newNumParts : Int) (formIsland : Bool) : Except DropErr PGTP := do
  if ← p.canMerge newNumParts then
    match p.partitions with
    | none => throw .typeError
    | some ids =>
      let parents ← p.parents cluster newNumParts ids
      let islands ← (ids.zip parents).mapM (p.islandOf (p.startK + p.numPartsDone))
      let p := { p with gidIslandIdMap := fun gid => islands.reverse.lookup gid }
      if formIsland then return { p with partitionMerged := newNumParts.toNat }
      else
        let p ← p.dag.graph.nodes.foldlM relabel p
        return { p with numPartsDone := newNumParts.toNat }
  else return p

end PGTP

def islandCount (numIslands : Int) : Nat := if numIslands < 1 then 1 else numIslands.toNat

def prepareNodeList (nodeList : List String) (tplNodesLen : Int) (numIslands : Nat) :
    List String :=
  if nodeList = [] ∧ 0 < tplNodesLen then
    (List.range (tplNodesLen + numIslands).toNat).map toString
  else nodeList

def splitIslandResources (nodeList : List String) (numIslands : Nat) :
    List String × List String :=
  (nodeList.take numIslands, nodeList.drop numIslands)

def placeholderList (length : Nat) : List Host := (List.range length).map .placeholder

def mergeForIslands (numIslands : Nat) (formIsland : Bool) (numPartsDone nodeManagers : Nat)
    (mergePartitions : Int → Bool → Except DropErr PGTP) (p : PGTP) : Except DropErr PGTP :=
  if formIsland then mergePartitions numIslands true
  else if nodeManagers < numPartsDone then mergePartitions nodeManagers false
  else .ok p

def islandIndex (gidIslandIdMap : Int → Option Int) (numIslands : Nat) (formIsland : Bool)
    (gid : Int) : Except DropErr Int :=
  if formIsland then do
    let id ← fetch (toString gid) (gidIslandIdMap gid)
    return id % (numIslands : Int)
  else .ok 0

/-- The body of the loop in `stamp_placeholders`. -/
def stampPlaceholder (numNodeManagers numIslandManagers : Nat) (oidGidMap : String → Option Int)
    (gidIslandIdMap : Int → Option Int) (numIslands : Nat) (formIsland : Bool) (r : Record) :
    Except DropErr Record := do
  let gid ← fetch r.spec.oid (oidGidMap r.spec.oid)
  let node ← pyIndex (placeholderList numNodeManagers) gid
  let index ← islandIndex gidIslandIdMap numIslands formIsland gid
  let island ← pyIndex (placeholderList numIslandManagers) index
  return { r with node := some node, island := some island }

def nameKey (gojsKeyDict : List (String × Int)) (r : Record) : Except DropErr Record := do
  let key ← fetch r.spec.oid (gojsKeyDict.lookup r.spec.oid)
  let iid ← fetch "iid" r.iid
  return { r with humanReadableKey := some (toString key ++ "_" ++ iid) }

namespace PGTP

variable (p : PGTP) (cluster : DropGraph → Int → Except DropErr (List (Option Int)))

/-- The end of `_form_islands_and_stamp`, after the resources have been checked. -/
def stamp (nodeList : List String) (numIslands : Nat) : Except DropErr (List Record) := do
  let formIsland := decide (1 < numIslands)
  let (isList, nmList) := splitIslandResources nodeList numIslands
  let p ← mergeForIslands numIslands formIsland p.numPartsDone nmList.length
    (p.mergePartitions cluster) p
  let drops ← p.allDrops.mapM (stampPlaceholder nmList.length isList.length p.oidGidMap
    p.gidIslandIdMap numIslands formIsland)
  if p.gojsKeyDict = [] then return drops
  else drops.mapM (nameKey p.gojsKeyDict)

def formIslandsAndStamp (nodeList : List String) (numIslands tplNodesLen : Int)
    (coHostDim : Bool) : Except DropErr (List Record × Nat) :=
  let numIslands := islandCount numIslands
  let nodeList := prepareNodeList nodeList tplNodesLen numIslands
  let nodesLen := nodeList.length
  let needed := if coHostDim then numIslands + p.numPartsDone else p.numPartsDone
  if nodesLen < numIslands then
    .error (.gpgtException "Number of islands must be <= number of specified nodes!")
  else if p.numPartsDone = 0 then
    .error (.gpgtException "The graph has not been partitioned yet")
  else if nodeList = [] then .error (.gpgtException "Node list is empty!")
  else if 1 < numIslands ∧ nodesLen < needed then
    .error (.gpgtException ("Insufficient number of nodes: " ++ toString nodesLen))
  else do return (← p.stamp cluster nodeList numIslands, numIslands)

def toPgTemplate (tplNodesLen numIslands : Int) (coHostDim : Bool) :
    Except DropErr (List Record) := do
  let (drops, _) ← p.formIslandsAndStamp cluster [] numIslands tplNodesLen coHostDim
  return drops

end PGTP

def mapDrop (nmList dimList : List String) (r : Record) : Except DropErr Record :=
  match r.node, r.island with
  | some (.placeholder nidx), some (.placeholder iidx) => do
    let node ← pyIndex nmList nidx
    let island ← pyIndex dimList iidx
    return { r with node := some (.name node), island := some (.name island) }
  | some _, some _ => .error .valueError
  | _, _ => .ok r

def resourceMap (pgt : List Record) (nodes : List String) (numIslands : Nat) :
    Except DropErr (List Record) :=
  if nodes = [] then .error .valueError
  else pgt.mapM (mapDrop (nodes.drop numIslands) (nodes.take numIslands))

def PGTP.toPgSpec (p : PGTP) (cluster : DropGraph → Int → Except DropErr (List (Option Int)))
    (nodeList : List String) (numIslands tplNodesLen : Int) (coHostDim : Bool) :
    Except DropErr (List Record) := do
  let (drops, numIslands) ← p.formIslandsAndStamp cluster nodeList numIslands tplNodesLen coHostDim
  if drops ≠ [] ∧ nodeList ≠ [] then resourceMap drops nodeList numIslands else return drops

/-- A call that places the drops. -/
inductive Placing
  | toPgTemplate (tplNodesLen numIslands : Int) (coHostDim : Bool)
  | toPgSpec (nodeList : List String) (numIslands tplNodesLen : Int) (coHostDim : Bool)

namespace Placing

def run (p : PGTP) (cluster : DropGraph → Int → Except DropErr (List (Option Int))) :
    Placing → Except DropErr (List Record)
  | toPgTemplate tplNodesLen numIslands coHostDim =>
    p.toPgTemplate cluster tplNodesLen numIslands coHostDim
  | toPgSpec nodeList numIslands tplNodesLen coHostDim =>
    p.toPgSpec cluster nodeList numIslands tplNodesLen coHostDim

def islands : Placing → Nat
  | toPgTemplate _ numIslands _ => islandCount numIslands
  | toPgSpec _ numIslands _ _ => islandCount numIslands

def nodes : Placing → List String
  | toPgTemplate tplNodesLen numIslands _ =>
    prepareNodeList [] tplNodesLen (islandCount numIslands)
  | toPgSpec nodeList numIslands tplNodesLen _ =>
    prepareNodeList nodeList tplNodesLen (islandCount numIslands)

end Placing

end Daliuge.Partition
