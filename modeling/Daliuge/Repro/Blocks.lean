import Daliuge.Lib.Cascade
import Daliuge.Repro.Fields

/-!
# Block hashes of a graph

Every drop carries an entry for every reproducibility mode, which the passes write into in
place. An entry is reached through a reference, since drops may share one. `build_blockdag`
and `lg_build_blockdag` walk the graph from its roots, hash the entry of each drop with the
hashes handed on to it, and hand hashes on.
-/
namespace Daliuge.Repro

open Kahn Cascade

/-- The levels of a graph that are hashed. -/
inductive Layer
  | lg | pgt | pg | rg
  deriving DecidableEq, Repr

def Layer.blockhashKey : Layer → String
  | .lg => "lg_blockhash"
  | .pgt => "pgt_blockhash"
  | .pg => "pg_blockhash"
  | .rg => "rg_blockhash"

def Layer.parenthashesKey : Layer → String
  | .lg => "lg_parenthashes"
  | .pgt => "pgt_parenthashes"
  | .pg => "pg_parenthashes"
  | .rg => "rg_parenthashes"

/-- The data of a drop at one level: the fields it was taken from, the category among them, and
their root. -/
structure Data (H : Type) where
  merkleroot : Option H := none
  categoryType : Option String := none
  fields : List (String × Value) := []
  deriving Repr

/-- `reprodata[rmode.name]` of a drop. -/
structure Entry (O H : Type) where
  lgtData : Option (Data H) := none
  lgData : Option (Data H) := none
  pgtData : Option (Data H) := none
  pgData : Option (Data H) := none
  rgData : Option (Data H) := none
  blockhash : Layer → Option H := fun _ => none
  parenthashes : Layer → Option (List (O × H)) := fun _ => none

/-- The entries there are, by reference and mode. -/
abbrev Store (C O H : Type) := C → Mode → Option (Entry O H)

/-- A key that is not there, or a drop that is not. -/
inductive Err (O : Type)
  | keyError (key : String)
  | noDrop (oid : O)
  deriving DecidableEq, Repr

/-- `d[key]`. -/
def key {O α : Type} (k : String) : Option α → Except (Err O) α
  | some a => .ok a
  | none => .error (.keyError k)

/-- The Merkle trees: `MerkleTree(leaves, common_hash)` and `MerkleTree(leaves)` by their
roots, and the root that stands for nothing recorded. -/
structure Merkle (H : Type) where
  tree : List H → H
  plain : List H → H
  empty : H

variable {C O H : Type}

/-! The block of an entry, level by level. -/

/-- What an entry contributes to its block at the logical level. -/
def lgOwn (e : Entry O H) : Except (Err O) (List H) := do
  let lgt ← key "merkleroot" (← key "lgt_data" e.lgtData).merkleroot
  let lg ← key "lg_data" e.lgData
  return lgt :: lg.merkleroot.toList

def pgtOwn (e : Entry O H) : Except (Err O) (List H) :=
  .ok ((e.pgtData.bind (·.merkleroot)).toList ++ (e.blockhash .lg).toList)

def pgOwn (e : Entry O H) : Except (Err O) (List H) := do
  let pg ← key "merkleroot" (← key "pg_data" e.pgData).merkleroot
  let pgt ← key Layer.pgt.blockhashKey (e.blockhash .pgt)
  let lg ← key Layer.lg.blockhashKey (e.blockhash .lg)
  return [pg, pgt, lg]

def rgOwn (M : Merkle H) (e : Entry O H) : Except (Err O) (List H) := do
  let rg ← match e.rgData with
    | none => .ok M.empty
    | some data => key "merkleroot" data.merkleroot
  let pg ← key Layer.pg.blockhashKey (e.blockhash .pg)
  let pgt ← key Layer.pgt.blockhashKey (e.blockhash .pgt)
  let lg ← key Layer.lg.blockhashKey (e.blockhash .lg)
  return [rg, pg, pgt, lg]

section Build

variable [LinearOrder H]

/-- The hashes of an entry, then those handed on to it in ascending order. -/
def buildBlockData (M : Merkle H) (layer : Layer) (own : Entry O H → Except (Err O) (List H))
    (e : Entry O H) : Except (Err O) (Entry O H) := do
  let hashes ← own e
  let parents ← key layer.parenthashesKey (e.parenthashes layer)
  let root := M.tree (hashes ++ sorted (parents.map Prod.snd))
  return { e with blockhash := Function.update e.blockhash layer (some root) }

def buildLgBlockData (M : Merkle H) : Entry O H → Except (Err O) (Entry O H) :=
  buildBlockData M .lg lgOwn

def buildPgtBlockData (M : Merkle H) : Entry O H → Except (Err O) (Entry O H) :=
  buildBlockData M .pgt pgtOwn

def buildPgBlockData (M : Merkle H) : Entry O H → Except (Err O) (Entry O H) :=
  buildBlockData M .pg pgOwn

def buildRgBlockData (M : Merkle H) : Entry O H → Except (Err O) (Entry O H) :=
  buildBlockData M .rg (rgOwn M)

/-- `agglomerate_leaves`. -/
def agglomerateLeaves (M : Merkle H) (leaves : List H) : H := M.plain (sorted leaves)

end Build

/-! Entries in the store. -/

section Store

variable [DecidableEq C]

/-- `reprodata[rmode.name]`. -/
def Store.entry (st : Store C O H) (c : C) (m : Mode) : Except (Err O) (Entry O H) :=
  key m.name (st c m)

def Store.put (st : Store C O H) (c : C) (m : Mode) (e : Entry O H) : Store C O H :=
  Function.update st c (Function.update (st c) m (some e))

/-- An entry changed in its place. -/
def Store.modify (st : Store C O H) (c : C) (m : Mode)
    (f : Entry O H → Except (Err O) (Entry O H)) : Except (Err O) (Store C O H) := do
  let e ← st.entry c m
  return st.put c m (← f e)

/-- `parenthashes.update(parenthash)`. -/
def takeParenthash [DecidableEq O] (layer : Layer) (parenthash : List (O × H))
    (e : Entry O H) : Except (Err O) (Entry O H) := do
  let parents ← key layer.parenthashesKey (e.parenthashes layer)
  let parents := Association.merge parents parenthash
  return { e with parenthashes := Function.update e.parenthashes layer (some parents) }

end Store

/-- The mode a drop is handled in while one mode is being hashed. -/
def effective (rmode level : Mode) : Mode := if rmode = .all then level else rmode

/-- What a drop hands on: its own hash, but in a compressing mode its parent hashes when it is
not one of the terminal data drops. -/
def parenthash (layer : Layer) (rmode : Mode) (terminal : Bool) (did : O) (e : Entry O H) :
    Except (Err O) (List (O × H)) :=
  if rmode = .reproduce ∧ terminal = false then
    key layer.parenthashesKey (e.parenthashes layer)
  else do
    return [(did, ← key layer.blockhashKey (e.blockhash layer))]

/-! Physical graphs. -/

/-- An entry of `outputs` or `consumers`: an oid, or `{oid: name}`. -/
inductive Dest (O : Type)
  | plain (oid : O)
  | named (oid : O) (name : String)
  deriving DecidableEq, Repr

def Dest.oid : Dest O → O
  | .plain o | .named o _ => o

/-- The part of a drop the walk reads; `cell` is the reference to its reprodata. -/
structure Drop (C O : Type) where
  oid : O
  rmode : Mode
  iid : Option String := none
  outputs : List (Dest O) := []
  consumers : List (Dest O) := []
  cell : C
  deriving DecidableEq, Repr

/-- `neighbourset[did]`. -/
def Drop.neighbours (d : Drop C O) : List O := (d.outputs ++ d.consumers).map Dest.oid

/-- In RERUN mode only these hand on their hash. -/
def Drop.onCriticalPath (d : Drop C O) : Bool :=
  match d.iid with
  | some iid => iid == "0/0"
  | none => true

/-- A list of drops, each under an oid of its own. -/
structure DropList (C O : Type) where
  drops : List (Drop C O)
  distinct : (drops.map (·.oid)).Nodup

namespace DropList

variable [DecidableEq O] (G : DropList C O)

def oids : List O := G.drops.map (·.oid)

/-- `dropset[did][0]`. -/
def drop (did : O) : Option (Drop C O) := G.drops.find? (·.oid = did)

def neighbours (did : O) : List O := ((G.drop did).map (·.neighbours)).getD []

/-- `dropset[did][1]` before the walk. -/
def indegree (did : O) : Nat := (G.oids.flatMap G.neighbours).count did

/-- A destination that is no drop of the list ends it all. -/
def checkDests : Except (Err O) Unit :=
  match (G.drops.flatMap (·.neighbours)).find? (· ∉ G.oids) with
  | some o => .error (.noDrop o)
  | none => .ok ()

def isRoot (did : O) : Bool := G.indegree did == 0

def isLeaf (did : O) : Bool := (G.neighbours did).isEmpty

end DropList

/-- The category of a drop as recorded for a mode. -/
def Store.ctype (st : Store C O H) (c : C) (rmode : Mode) : Except (Err O) String := do
  let e ← st.entry c rmode
  match (← key "pgt_data" e.pgtData).categoryType with
  | some t => .ok t
  | none => key "categoryType" (← key "lgt_data" e.lgtData).categoryType

/-- `abstraction`: the level of a physical graph that is hashed. -/
inductive Abstraction
  | pgt | pg | rg
  deriving DecidableEq, Repr

def Abstraction.layer : Abstraction → Layer
  | .pgt => .pgt
  | .pg => .pg
  | .rg => .rg

def Abstraction.own (M : Merkle H) : Abstraction → Entry O H → Except (Err O) (List H)
  | .pgt => pgtOwn
  | .pg => pgOwn
  | .rg => rgOwn M

/-- `block_builder`. -/
def Abstraction.blockBuilder [LinearOrder H] (M : Merkle H) :
    Abstraction → Entry O H → Except (Err O) (Entry O H)
  | .pgt => buildPgtBlockData M
  | .pg => buildPgBlockData M
  | .rg => buildRgBlockData M

/-- What `build_blockdag` returns, and the entries it leaves. -/
structure Blockdag (C O H : Type) where
  leaves : List H
  visited : List O
  store : Store C O H

section Physical

variable [DecidableEq O] [DecidableEq C]

/-- The hash handed on along one edge; `indeg` is what is left of `dropset[did][1]`. -/
def passHash (G : DropList C O) (a : Abstraction) (level : Mode) (d n : Drop C O)
    (indeg : Nat) (st : Store C O H) : Except (Err O) (Store C O H) := do
  let rmode := effective d.rmode level
  if rmode = .nothing then
    return st
  let terminal ← if rmode = .reproduce then do
      let ctype ← st.ctype d.cell rmode
      pure (isData ctype && (indeg == 0 || d.neighbours.isEmpty)
        && (G.isRoot d.oid || G.isLeaf d.oid))
    else pure false
  let hash ← parenthash a.layer rmode terminal d.oid (← st.entry d.cell level)
  if rmode = .rerun ∧ d.onCriticalPath = false then
    return st
  st.modify n.cell level (takeParenthash a.layer hash)

variable [LinearOrder H]

/-- The body of the loop in `build_blockdag`. -/
def DropList.visitor (M : Merkle H) (G : DropList C O) (a : Abstraction) (level : Mode) :
    Visitor O (Store C O H) (Err O) where
  enter did st :=
    match G.drop did with
    | none => .error (.noDrop did)
    | some d => st.modify d.cell level (a.blockBuilder M)
  cross did neighbour indeg st :=
    match G.drop did, G.drop neighbour with
    | some d, some n => passHash G a level d n indeg st
    | _, _ => .error (.noDrop neighbour)

/-- `build_blockdag`. -/
def buildBlockdag (M : Merkle H) (G : DropList C O) (a : Abstraction) (level : Mode)
    (st : Store C O H) : Except (Err O) (Blockdag C O H) := do
  G.checkDests
  let (w, st) ← walk (G.visitor M a level) G.neighbours G.oids.length
    (.start G.oids G.indegree) st
  let leaves ← (G.drops.filter (G.isLeaf ·.oid)).mapM fun d => do
    key a.layer.blockhashKey ((← st.entry d.cell level).blockhash a.layer)
  return ⟨leaves, w.visited, st⟩

end Physical

/-! Logical graphs. -/

/-- The part of a logical node the walk reads; without reprodata it has no reference. -/
structure LgNode (C O : Type) where
  id : O
  categoryType : Option String := none
  rmode : Mode
  cell : Option C
  deriving DecidableEq, Repr

/-- `nodeDataArray` and `linkDataArray`, each node under an id of its own. -/
structure LogicalGraph (C O : Type) where
  nodeDataArray : List (LgNode C O)
  linkDataArray : List (O × O)
  distinct : (nodeDataArray.map (·.id)).Nodup

namespace LogicalGraph

variable [DecidableEq O] (G : LogicalGraph C O)

def ids : List O := G.nodeDataArray.map (·.id)

def node (did : O) : Option (LgNode C O) := G.nodeDataArray.find? (·.id = did)

/-- `neighbourset[did]`. -/
def neighbours (did : O) : List O :=
  (G.linkDataArray.filter fun e => e.1 = did).map Prod.snd

def indegree (did : O) : Nat := (G.linkDataArray.map Prod.snd).count did

/-- A link from or to something that is no node ends it all. -/
def checkLinks : Except (Err O) Unit :=
  match (G.linkDataArray.flatMap fun e => [e.2, e.1]).find? (· ∉ G.ids) with
  | some o => .error (.noDrop o)
  | none => .ok ()

def isRoot (did : O) : Bool := G.indegree did == 0

def isLeaf (did : O) : Bool := (G.neighbours did).isEmpty

def hasReprodata (did : O) : Bool := ((G.node did).bind (·.cell)).isSome

/-- A node without reprodata is popped and left at that: nothing is reached through it. -/
def reached (did : O) : List O := if G.hasReprodata did then G.neighbours did else []

end LogicalGraph

section Logical

variable [DecidableEq O] [DecidableEq C]

/-- The category a logical node is taken to have. -/
def LgNode.isDataNode (d : LgNode C O) : Bool :=
  match d.categoryType with
  | some t => isData t
  | none => true

/-- The hash handed on along one link. -/
def passLgHash (G : LogicalGraph C O) (level : Mode) (d : LgNode C O) (cd : C)
    (cn : Option C) (indeg : Nat) (st : Store C O H) : Except (Err O) (Store C O H) := do
  let rmode := effective d.rmode level
  if rmode = .nothing then
    return st
  let terminal := d.isDataNode && (indeg == 0 || (G.neighbours d.id).isEmpty)
    && (G.isRoot d.id || G.isLeaf d.id)
  let hash ← parenthash .lg rmode terminal d.id (← st.entry cd level)
  st.modify (← key "reprodata" cn) level (takeParenthash .lg hash)

variable [LinearOrder H]

/-- The body of the loop in `lg_build_blockdag`. -/
def LogicalGraph.visitor (M : Merkle H) (G : LogicalGraph C O) (level : Mode) :
    Visitor O (Store C O H) (Err O) where
  enter did st :=
    match (G.node did).bind (·.cell) with
    | none => .ok st
    | some c => st.modify c level (buildLgBlockData M)
  cross did neighbour indeg st :=
    match G.node did with
    | none => .error (.noDrop did)
    | some d => do
      let cd ← key "reprodata" d.cell
      passLgHash G level d cd ((G.node neighbour).bind (·.cell)) indeg st

/-- What a leaf is listed as: without reprodata its id, without a hash the empty text. -/
def LgNode.leaf (idText : O → H) (emptyText : H) (level : Mode) (st : Store C O H)
    (d : LgNode C O) : Except (Err O) H :=
  match d.cell with
  | none => .ok (idText d.id)
  | some c => do return ((← st.entry c level).blockhash .lg).getD emptyText

/-- `lg_build_blockdag`. -/
def lgBuildBlockdag (M : Merkle H) (idText : O → H) (emptyText : H) (G : LogicalGraph C O)
    (level : Mode) (st : Store C O H) : Except (Err O) (Blockdag C O H) := do
  G.checkLinks
  let (w, st) ← walk (G.visitor M level) G.reached G.ids.length (.start G.ids G.indegree) st
  let leaves ← (G.nodeDataArray.filter (G.isLeaf ·.id)).mapM
    (LgNode.leaf idText emptyText level st)
  return ⟨leaves, w.visited.filter G.hasReprodata, st⟩

end Logical

end Daliuge.Repro
