import Mathlib.Algebra.Group.Nat.Defs
import Mathlib.Algebra.Ring.Int.Defs
import Daliuge.Lib.Collect
import Daliuge.Unroll.Drop
import Daliuge.Unroll.Graph

/-!
# Instantiation

The artificial links of the constructs, and the drops of every node. Both walks follow the
group forest from the start list and visit a group once for each instance around it.
-/
namespace Daliuge.Unroll

open Collect

def Forest.roots (groups : List Node) : Forest → List LGNode
  | .nil => []
  | .cons n _ rest => ⟨n, groups⟩ :: rest.roots groups

/-- `_start_list`: the top level without comments, descriptions and variables. -/
def Forest.startList : Forest → Forest
  | .nil => .nil
  | .cons n children rest =>
    if n.category = .comment ∨ n.category = .description ∨ n.category = .variables then
      rest.startList
    else .cons n children rest.startList

/-- What `_synthesise` changes. -/
structure Synthesis where
  inputs : Inputs
  links : List Link
  deriving DecidableEq, Repr

def Synthesis.addCircle (s : Synthesis) (ge gs : NodeId) : Synthesis :=
  { inputs := s.inputs.add gs ge, links := s.links ++ [{ source := ge, target := gs }] }

def Synthesis.addFirst (s : Synthesis) (lgn gs : NodeId) : Synthesis :=
  { inputs := s.inputs.add lgn gs, links := s.links ++ [{ source := lgn, target := gs }] }

/-- The links a group that is not a Scatter gets to or between its children. -/
def groupLinks (lgn : LGNode) (children : List LGNode) (s : Synthesis) :
    Except Err Synthesis :=
  let nonInputs := children.filter fun c => (s.inputs.of c.id).isEmpty
  let grpStarts := children.filter fun c => c.isGroupStart
  let grpEnds := children.filter fun c => !c.isGroupStart && c.isGroupEnd
  if lgn.isConstruct .loop then
    if grpStarts.isEmpty || grpEnds.isEmpty then .error (.loopStartEndMissing lgn.id)
    else .ok (grpEnds.foldl (fun s ge =>
      grpStarts.foldl (fun s gs => s.addCircle ge.id gs.id) s) s)
  else
    let gsList := if grpStarts.isEmpty then nonInputs else grpStarts
    .ok (gsList.foldl (fun s gs => s.addFirst lgn.id gs.id) s)

/-- `_synthesise` along a level of the forest. -/
def synthesise (lg : LogicalGraph) (groups : List Node) :
    Forest → Synthesis → Except Err Synthesis
  | .nil, s => .ok s
  | .cons n children rest, s => do
    let s ← (if n.isGroup then do
        let s ← (if n.isConstruct .scatter then .ok s
          else groupLinks ⟨n, groups⟩ (children.roots (n :: groups)) s)
        let d ← lg.dop s.inputs ⟨n, groups⟩
        (List.range d.toNat).foldlM (fun s _ => synthesise lg (n :: groups) children s) s
      else .ok s)
    synthesise lg groups rest s

def synthesiseLinks (lg : LG) : Except Err LG := do
  let s ← synthesise lg.graph [] lg.graph.forest.startList ⟨lg.inputs, lg.links⟩
  return { lg with inputs := s.inputs, links := s.links }

/-! The drops of one node. -/

def LogicalGraph.makeOid (lg : LogicalGraph) (id : NodeId) (iid : InstanceId) : String :=
  lg.sessionId ++ "_" ++ id.text ++ "_" ++ iid.wire

/-- A drop with those generated beside it and the relations they start with. -/
structure Made where
  drop : Drop
  grpData : Option Drop := none
  listener : Option Drop := none
  relations : Relations := []
  deriving DecidableEq, Repr

section Making

variable (lg : LG) (n : LGNode) (iid : InstanceId)

def isStartListener : Bool :=
  (lg.inputs.of n.id).length == 1 && n.node.category == .start && n.node.isData

def mainDrop (loopCtx : Option (List Nat)) (weight : Option Int) : Drop :=
  { ident := .made n.id iid .main, oid := lg.graph.makeOid n.id iid, loopCtx, weight }

/-- A drop generated beside the main one, which it names its own after. -/
def besideDrop (part : Part) (ending : String) (weight : Option Int) : Drop :=
  { ident := .made n.id iid part, oid := lg.graph.makeOid n.id iid ++ ending, weight }

/-- Whether a Data node that names no class gets one by its category. -/
def hasDataClass : Category → Bool
  | .file | .memory | .shmem | .s3 | .ngas => true
  | _ => false

/-- `_create_data_drop` with `_create_listener_drops`: the listener knows the drop, the drop
does not know the listener. -/
def createDataDrop (loopCtx : Option (List Nat)) : Except Err Made :=
  if !(n.node.get? "dataclass").all Value.isClass then .error .typeError
  else if n.node.dropclass = .text "dlg.apps.simple.SleepApp" ∧ !hasDataClass n.node.category then
    .error .typeError
  else
    let drop := mainDrop lg n iid loopCtx (some n.node.weight)
    if isStartListener lg n then
      -- its weight is given under a misspelled key
      let socket := besideDrop lg n iid .listener "-s" none
      .ok { drop, listener := some socket
            relations := Relations.addOutput [] socket drop (n.node.portName .outputPort none) }
    else .ok { drop }

/-- The class an application drop is made of, if the node can have it: a class that only sleeps
gives way to that of a Docker or a Bash component. -/
def checkAppClass : Except Err Unit :=
  -- the node keeps the class its first drop was made of
  let dropclass := if iid.isLater then n.node.appClass else n.node.dropclass
  if dropclass = .text "dlg.apps.simple.SleepApp" ∧ n.node.category = .bashShellApp then .ok ()
  else if dropclass = .text "dlg.apps.simple.SleepApp" ∧ n.node.category = .docker then
    if (n.node.get? "command").isSome then .ok () else .error (.keyError "command")
  else if n.node.appClass.isClass then .ok ()
  else .error .typeError

def numCpus : Except Err Int :=
  match (n.rewrittenIf iid.isLater).node.get? "num_cpus" with
  | some v => v.toInt
  | none => .ok 1

def createAppDrop (loopCtx : Option (List Nat)) : Except Err Made := do
  checkAppClass n iid
  if n.node.weight < 0 then .error (.negativeWeight n.id)
  else do
    let _ ← numCpus n iid
    return { drop := mainDrop lg n iid loopCtx (some n.node.weight) }

def barrierDrops (loopCtx : Option (List Nat)) (data : Drop) (name : String) : Made :=
  let drop := mainDrop lg n iid loopCtx (some 1)
  { drop
    relations := (Relations.addOutput [] drop data (some name)).addProducer data drop (some name) }

def createGroupByDrops (loopCtx : Option (List Nat)) : Except Err Made := do
  let sij ← lg.graph.firstInput lg.inputs n.id
  if !sij.node.isData then .error (.groupByInputNotData n.id)
  else do
    let width ← lg.graph.groupByWidth lg.inputs n
    let data := besideDrop lg n iid .grpData "-grp-data" (some (sij.node.weight * width))
    return { barrierDrops lg n iid loopCtx data "grpdata" with grpData := some data }

/-- Whether each group of a chain has an instance, from the inside. -/
def entered : List Node → Bool
  | [] => true
  | g :: gs => match lg.graph.dop lg.inputs ⟨g, gs⟩ with
    | .ok d => decide (0 < d) && entered gs
    | .error _ => false

/-- Whether the walk has made a drop of `m` when it comes to an instance of `n`: it has passed the
node, or the first instance of some group around both. -/
def isMadeBefore (m : LGNode) : Bool :=
  let passed := (lg.graph.forest.startList.nodes []).takeWhile fun k => k.id != n.id
  let shared := (m.groups.reverse.zip (n.node :: n.groups).reverse).takeWhile fun p =>
    p.1.id == p.2.id
  entered lg m.groups && ((passed.any fun k => k.id == m.id) ||
    ((iid.path.drop 1).take shared.length).any (· != 0))

def gatherWeight : Except Err Int := do
  let gi ← lg.graph.firstInput lg.inputs n.id
  if gi.isConstruct .groupBy then do
    let gii ← lg.graph.firstInput lg.inputs gi.id
    match (gii.rewrittenIf (isMadeBefore lg n iid gii)).node.get? "data_volume" with
    | none => .error (.keyError "data_volume")
    | some v =>
      return (← v.toInt) * (← lg.graph.groupByWidth lg.inputs gi) * (← n.node.gatherWidth)
  else return gi.node.weight * (← n.node.gatherWidth)

def createGatherDrops (loopCtx : Option (List Nat)) : Except Err Made := do
  let dw ← gatherWeight lg n iid
  return barrierDrops lg n iid loopCtx
    (besideDrop lg n iid .gatherData "-gather-data" (some dw)) "gthrdata"

/-- `make_single_drop`, of a node that is not a Loop. -/
def makeSingleDrop (loopCtx : Option (List Nat)) : Except Err Made :=
  if n.node.isData then createDataDrop lg n iid loopCtx
  else if n.node.isApp then createAppDrop lg n iid loopCtx
  else if n.node.category = .groupBy then createGroupByDrops lg n iid loopCtx
  else if n.node.category = .gather then createGatherDrops lg n iid loopCtx
  else if n.isConstruct .branch then createAppDrop lg n iid loopCtx
  else .ok { drop := mainDrop lg n iid loopCtx none }

end Making

/-- One entry of `_drop_dict`, with the "grp-data_drop" the drop may hold and the relations
it starts with. -/
structure Placed where
  key : NodeId
  drop : Drop
  grpData : Option Drop := none
  relations : Relations := []
  deriving DecidableEq, Repr

/-- The main drop goes to its node, a generated one to "new_added". -/
def Made.place (m : Made) (id : NodeId) (generated : Option Drop) : List Placed :=
  { key := id, drop := m.drop, grpData := m.grpData, relations := m.relations } ::
    match generated with
    | some d => [{ key := newAdded, drop := d }]
    | none => []

/-- `np.unravel_index(i, shape)`, the last index running fastest. -/
def unravelIndex (i : Nat) : List Nat → List Nat
  | [] => []
  | _ :: ds => i / ds.prod :: unravelIndex (i % ds.prod) ds

/-- The shape of a GroupBy with several keys, the innermost Scatter first, as its keys are read at
one place. -/
def groupShape (lg : LG) (n : LGNode) (iid : InstanceId) : Except Err (Option (List Nat)) :=
  if n.isConstruct .groupBy then do
    match ← n.groupKeys iid.isLater with
    | some (_ :: _ :: _) =>
      let layers ← scatterLayers lg.graph lg.inputs n iid.isLater
      let dops ← layers.mapM fun layer => lg.graph.dop lg.inputs layer.2
      -- no index is unravelled unless there is an instance
      if 0 < dops.prod ∧ dops.any (· < 0) then .error .valueError
      else return some (dops.map Int.toNat)
    | _ => return none
  else .ok none

def instanceOf (iid : InstanceId) (shape : Option (List Nat)) (i : Nat) : InstanceId :=
  match shape with
  | none => iid.child i
  | some shape => (iid.child i).withGroupKey (unravelIndex i shape)

/-- `get_child_lp_ctx`: the context of a group that is not a Loop is lost. -/
def getChildLpCtx (n : Node) (lpcxt : Option (List Nat)) (idx : Nat) : Option (List Nat) :=
  if n.isConstruct .loop then some (lpcxt.getD [] ++ [idx]) else none

/-- The drops a group makes for itself at one of its instances. -/
def groupDrops (lg : LG) (n : LGNode) (miid : InstanceId) : Except Err (List Placed) :=
  if n.isConstruct .service then do
    let m ← createAppDrop lg n miid none
    return m.place n.id none
  else if n.isConstruct .scatter || n.isConstruct .loop then .ok []
  else do
    let m ← makeSingleDrop lg n miid none
    if n.isConstruct .groupBy then
      match m.grpData with
      | some d => return m.place n.id (some d)
      | none => .error (.keyError "grp-data_drop")
    else return m.place n.id none

def leafDrops (lg : LG) (n : LGNode) (iid : InstanceId) (lpcxt : Option (List Nat)) :
    Except Err (List Placed) :=
  if n.isConstruct .mpi then do
    let d ← lg.graph.dop lg.inputs n
    collect (fun i => do return (← makeSingleDrop lg n (iid.child i) lpcxt).place n.id none)
      (List.range d.toNat)
  else if n.isConstruct .service then .ok []
  else do
    let m ← makeSingleDrop lg n iid lpcxt
    if n.node.isSubGraphApp = some true then return m.place n.id none
    else return m.place n.id m.listener

/-- `lgn_to_pgn` along a level of the forest. -/
def lgnToPgn (lg : LG) (groups : List Node) :
    Forest → InstanceId → Option (List Nat) → Except Err (List Placed)
  | .nil, _, _ => .ok []
  | .cons n children rest, iid, lpcxt => do
    let here ← (if n.isGroup then do
        let shape ← groupShape lg ⟨n, groups⟩ iid
        let d ← lg.graph.dop lg.inputs ⟨n, groups⟩
        collect (fun i => do
          let own ← groupDrops lg ⟨n, groups⟩ (instanceOf iid shape i)
          let below ← lgnToPgn lg (n :: groups) children (instanceOf iid shape i)
            (getChildLpCtx n lpcxt i)
          return own ++ below) (List.range d.toNat)
      else leafDrops lg ⟨n, groups⟩ iid lpcxt)
    let others ← lgnToPgn lg groups rest iid lpcxt
    return here ++ others

def instantiate (lg : LG) : Except Err (List Placed) :=
  lgnToPgn lg [] lg.graph.forest.startList .root none

def dropsOf (placed : List Placed) (key : NodeId) : List Drop :=
  (placed.filter fun p => p.key == key).map (·.drop)

end Daliuge.Unroll
