import Mathlib.Data.List.Dedup
import Daliuge.Lib.Association
import Daliuge.Manager.Specs

/-!
# Composite managers

A composite manager splits a graph over its nodes and keeps the relations between them. The
drops it has seen, the reproducibility data and the relation tables are kept for the manager
as a whole.
-/
namespace Daliuge.Manager

open Collect

/-- An element of a graph specification; the last one may be the reproducibility data, or
empty. -/
inductive Item (R : Type)
  | drop (d : DropSpec)
  | reprodata (r : R)
  | empty

/-- One entry of `drop_rels`: a relation in the row of one node and the column of the other. -/
structure TableEntry where
  row : String
  column : String
  rel : DROPRel String
  deriving DecidableEq, Repr

structure Sent (R : Type) where
  partition : String
  drops : List DropSpec
  reprodata : Option R

/-- What a node keeps of a session: its specifications by their oid. -/
abbrev NodeGraph := List (String × DropSpec)

def loadDropSpecs (ds : List DropSpec) : NodeGraph :=
  Association.merge [] (ds.map fun d => (d.oid, d))

/-- `Session.addGraphSpec` on a node: a drop that is there already is refused. -/
def NodeGraph.addGraphSpec (g : NodeGraph) (ds : List DropSpec) : Option NodeGraph :=
  if ds.any fun d => (g.map Prod.fst).contains d.oid then none
  else some (Association.merge g (loadDropSpecs ds))

/-- The state of a `CompositeManager`, with what its nodes hold, by session and node, and what
has been sent to them. -/
structure Composite (R : Type) where
  dmHosts : List String
  graph : String → Option DropSpec := fun _ => none
  reprodata : Option R := none
  dropRels : String → Option (List TableEntry) := fun _ => none
  nodes : String → String → NodeGraph := fun _ _ => []
  sent : List (String × Sent R) := []

namespace Composite

variable {R : Type}

def register (m : Composite R) (d : DropSpec) : Composite R :=
  { m with graph := Function.update m.graph d.uidForDrop (some d) }

def registerAll (m : Composite R) : List (Item R) → Composite R × Except Err (List DropSpec)
  | [] => (m, .ok [])
  | .drop d :: items =>
    match d.partition with
    | none => (m, .error (.invalidGraph (some d.oid)))
    | some p =>
      if m.dmHosts.contains p then
        match registerAll (m.register d) items with
        | (m, .ok ds) => (m, .ok (d :: ds))
        | (m, .error e) => (m, .error e)
      else (m, .error (.invalidGraph (some d.oid)))
  | .reprodata _ :: _ | .empty :: _ => (m, .error (.invalidGraph none))

def partitions (ds : List DropSpec) : List String :=
  (ds.filterMap (·.partition)).reverse.dedup.reverse

def perPartition (ds : List DropSpec) (p : String) : List DropSpec :=
  ds.filter fun d => d.partition == some p

def look (m : Composite R) (key : String) : Except Err DropSpec :=
  match m.graph key with
  | some d => .ok d
  | none => .error (.keyError key)

/-- `sanitize_relations`, for one relation. -/
def sanitize (m : Composite R) (rel : DROPRel String) : Except Err (DROPRel String) := do
  let l ← m.look rel.lhs
  let r ← m.look rel.rhs
  return ⟨l.uidForDrop, rel.rel, r.uidForDrop⟩

def nodeOf (m : Composite R) (uid : String) : Except Err String := do
  match (← m.look uid).node with
  | some n => return n
  | none => .error (.keyError "node")

def tabulate (m : Composite R) (rel : DROPRel String) : Except Err (List TableEntry) := do
  let rhn ← m.nodeOf rel.rhs
  let lhn ← m.nodeOf rel.lhs
  return [⟨lhn, rhn, rel⟩, ⟨rhn, lhn, rel⟩]

def interPartitionRels (ds : List DropSpec) : Except Err (List (DROPRel String)) :=
  collect (fun p => do return (← removeUnmetRelationships (perPartition ds p)).1) (partitions ds)

def dropRelsOf (m : Composite R) (ds : List DropSpec) : Except Err (List TableEntry) := do
  let rels ← interPartitionRels ds
  let rels ← rels.mapM m.sanitize
  collect m.tabulate rels

def sentOf (m : Composite R) (ds : List DropSpec) : List (Sent R) :=
  (partitions ds).map fun p =>
    { partition := p
      drops := (perPartition ds p).map (DropSpec.cut ((perPartition ds p).map (·.oid)))
      reprodata := m.reprodata }

/-- The graph of one node after what it is sent, and whether it refuses that. -/
def receive (m : Composite R) (session : String) (sent : List (Sent R)) (p : String) :
    NodeGraph × Bool :=
  match sent.find? (·.partition == p) with
  | none => (m.nodes session p, false)
  | some x =>
    match (m.nodes session p).addGraphSpec x.drops with
    | none => (m.nodes session p, true)
    | some g => (g, false)

/-- `replicate(_addGraphSpec)`. Without any partition it goes to the hosts, which do not
understand it. -/
def deliver (m : Composite R) (session : String) (sent : List (Sent R)) :
    Composite R × Except Err Unit :=
  let refused := if sent.isEmpty then !m.dmHosts.isEmpty
    else sent.any fun x => (m.receive session sent x.partition).2
  ({ m with
      nodes := fun s p => if s = session then (m.receive session sent p).1 else m.nodes s p
      sent := m.sent ++ sent.map fun x => (session, x) },
    if refused then .error .subManager else .ok ())

def takeReprodata (initPgReproData : List (Item R) → R → Except Err R) (m : Composite R)
    (items : List (Item R)) : Composite R × Except Err (List (Item R)) :=
  match items.getLast? with
  | none => (m, .error .indexError)
  | some (.reprodata r) =>
    match initPgReproData items.dropLast r with
    | .error e => (m, .error e)
    | .ok r => ({ m with reprodata := some r }, .ok items.dropLast)
  | some _ => (m, .ok items)

def split (m : Composite R) (session : String) (items : List (Item R)) :
    Composite R × Except Err Unit :=
  match m.registerAll items with
  | (m, .error e) => (m, .error e)
  | (m, .ok ds) =>
    match m.dropRelsOf ds with
    | .error e => (m, .error e)
    | .ok table =>
      let m := { m with dropRels := Function.update m.dropRels session (some table) }
      m.deliver session (m.sentOf ds)

/-- `addGraphSpec`. What `init_pg_repro_data` makes of the reproducibility data of a graph is a
parameter. -/
def addGraphSpec (initPgReproData : List (Item R) → R → Except Err R) (m : Composite R)
    (session : String) (items : List (Item R)) : Composite R × Except Err Unit :=
  match m.takeReprodata initPgReproData items with
  | (m, .error e) => (m, .error e)
  | (m, .ok items) =>
    match items.getLast? with
    | none => (m, .error .indexError)
    | some .empty => m.split session items.dropLast
    | some _ => m.split session items

def allGraphs (m : Composite R) (session : String) : NodeGraph :=
  m.dmHosts.foldl (fun g p => Association.merge g (m.nodes session p)) []

def relink (g : NodeGraph) (rel : DROPRel String) : Except Err NodeGraph :=
  match g.lookup rel.rhs with
  | none => .error (.keyError rel.rhs)
  | some d => do
    let d ← addLink rel.rel d rel.lhs
    return Association.set g rel.rhs d

def getGraph (m : Composite R) (session : String) : Except Err NodeGraph :=
  match m.dropRels session with
  | none => .error (.keyError session)
  | some table => (table.map (·.rel)).dedup.foldlM relink (m.allGraphs session)

end Composite

end Daliuge.Manager
