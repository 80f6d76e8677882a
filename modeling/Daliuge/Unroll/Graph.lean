import Daliuge.Unroll.Node

/-!
# Logical graphs

The group forest with its links, the degrees of parallelism the construct handlers give to
its nodes, and the checks of the `LG` constructor. The only state the constructor builds up
is who is an input of whom: Gathers and GroupBys ask for the first one.
-/
namespace Daliuge.Unroll

/-- The nodes of a graph under their groups, siblings in the order of `nodeDataArray`. -/
inductive Forest
  | nil
  | cons (node : Node) (children rest : Forest)
  deriving DecidableEq, Repr

def Forest.nodes (groups : List Node) : Forest → List LGNode
  | .nil => []
  | .cons n children rest => ⟨n, groups⟩ :: (children.nodes (n :: groups) ++ rest.nodes groups)

structure Link where
  source : NodeId
  target : NodeId
  fromPort : Option String := none
  toPort : Option String := none
  loopAware : Bool := false
  isStream : Bool := false
  deriving DecidableEq, Repr

/-- The key of `_drop_dict` for the drops no node has. -/
def newAdded : NodeId := .str "new_added"

/-- A logical graph, whose node ids are distinct and none of them the key the translator keeps for
itself. The ids `1` and `"1"` are distinct, if not as texts. -/
structure LogicalGraph where
  sessionId : String
  forest : Forest
  links : List Link
  ids_nodup : ((forest.nodes []).map fun n => n.id).Nodup
  ids_ne_newAdded : ∀ n ∈ forest.nodes [], n.id ≠ newAdded

/-- Who is an input of whom, in the order the links were seen. -/
abbrev Inputs := List (NodeId × NodeId)

/-- `add_input`. -/
def Inputs.add (inputs : Inputs) (n m : NodeId) : Inputs :=
  if (n, m) ∈ inputs then inputs else inputs ++ [(n, m)]

def Inputs.of (inputs : Inputs) (n : NodeId) : List NodeId :=
  (inputs.filter fun p => p.1 == n).map (·.2)

inductive Handler
  | scatter | gather | groupBy | loop | mpi | branch | service | subGraph | leaf
  deriving DecidableEq, Repr

/-- `get_handler_for_node`. -/
def Node.handler (n : Node) : Except Err Handler :=
  if n.isGroup then
    let other : Except Err Handler :=
      if n.isSubGraphApp == some true then .ok .subGraph else .error (.unrecognisedGroup n.id)
    match n.category with
    | .scatter => .ok .scatter
    | .gather => .ok .gather
    | .groupBy => .ok .groupBy
    | .loop => .ok .loop
    | .service => .ok .service
    | .subGraph => if n.isSubGraphApp == none then .ok .subGraph else other
    | _ => other
  else
    match n.category with
    | .mpi => .ok .mpi
    | .branch => .ok .branch
    | _ => .ok .leaf

/-- `val.split(",")`. -/
def splitComma : List Char → List (List Char)
  | [] => [[]]
  | c :: cs =>
    if c == ',' then [] :: splitComma cs
    else match splitComma cs with
      | [] => [[c]]
      | t :: ts => (c :: t) :: ts

def Node.groupKeys (n : Node) : Except Err (Option (List Int)) :=
  let val := ((n.get? "group_key").map Value.str).getD "None"
  if val == "None" || val == "-1" || val == "" then .ok none
  else
    match (splitComma val.toList).mapM fun cs => intOfText (String.ofList cs) with
    | .ok keys => .ok (some keys)
    | .error _ => .error .groupKeyNotInteger

/-- The keys as they are read before drops of the GroupBy have been made, or after that. -/
def LGNode.groupKeys (n : LGNode) (made : Bool) : Except Err (Option (List Int)) :=
  (n.rewrittenIf made).node.groupKeys

def Node.gatherWidth (n : Node) : Except Err Int :=
  match n.get? "num_of_inputs" with
  | some v => v.toInt
  | none => .ok 1

namespace LogicalGraph

def nodes (lg : LogicalGraph) : List LGNode := lg.forest.nodes []

/-- The ids differ as texts as well, which drop ids and group hierarchies are made of. -/
def TextsApart (lg : LogicalGraph) : Prop := (lg.nodes.map fun n => n.id.text).Nodup

instance (lg : LogicalGraph) : Decidable lg.TextsApart :=
  inferInstanceAs (Decidable (lg.nodes.map fun n => n.id.text).Nodup)

/-- `_done_dict[id]`. -/
def node (lg : LogicalGraph) (id : NodeId) : Except Err LGNode :=
  match lg.nodes.find? (·.id == id) with
  | some n => .ok n
  | none => .error (.keyError id.text)

def firstInput (lg : LogicalGraph) (inputs : Inputs) (id : NodeId) : Except Err LGNode :=
  match inputs.of id with
  | [] => .error .indexError
  | m :: _ => lg.node m

end LogicalGraph

/-- `dop_diff` from the inner node outwards, up to the group of the outer one. -/
def dopLoop (dop : LGNode → Except Err Int) (outer : NodeId) (cg : Node) :
    List Node → Except Err Int
  | [] => if cg.isConstruct .mpi then dop ⟨cg, []⟩ else .ok 1
  | g :: gs =>
    if g.id != outer || cg.isConstruct .mpi then do
      let own ← (if cg.isConstruct .mpi then dop ⟨cg, g :: gs⟩ else .ok 1)
      let around ← (if g.id != outer then dop ⟨g, gs⟩ else .ok 1)
      let rest ← dopLoop dop outer g gs
      return own * around * rest
    else .ok 1

def dopDiff (dop : LGNode → Except Err Int) (this that : LGNode) : Except Err Int :=
  if this.hLevel = that.hLevel then .ok 1
  else if this.hLevel > that.hLevel then dopLoop dop that.gid this.node this.groups
  else dopLoop dop this.gid that.node that.groups

def dopProduct (dop : LGNode → Except Err Int) : List Node → Except Err Int
  | [] => .ok 1
  | g :: gs => do
    let d ← dop ⟨g, gs⟩
    let rest ← dopProduct dop gs
    return d * rest

/-- The Scatters from here outwards whose ids are keys, with their layer numbers. -/
def keyLayers (keys : List Int) (c : Nat) : List Node → List (Nat × LGNode)
  | [] => []
  | g :: gs =>
    if g.isConstruct .scatter then
      if keys.any fun k => g.id == .int k then (c, ⟨g, gs⟩) :: keyLayers keys (c + 1) gs
      else keyLayers keys (c + 1) gs
    else []

/-- Whether the node's first input sits in a GroupBy, and in which. -/
def inputGroup (lg : LogicalGraph) (inputs : Inputs) (n : LGNode) : Except Err LGNode := do
  let tlgn ← lg.firstInput inputs n.id
  match tlgn.group with
  | some g => return g
  | none => .error .attributeError

/-- The GroupBy that follows the Scatters of a chain of GroupBys. The loop of the source has
no bound; a chain that comes back to itself never ends. -/
def rootGroupBy (lg : LogicalGraph) (inputs : Inputs) : Nat → LGNode → Except Err LGNode
  | 0, _ => .error .nonTermination
  | fuel + 1, n => do
    let g ← inputGroup lg inputs n
    if g.isConstruct .groupBy then rootGroupBy lg inputs fuel g else return n

/-- `group_by_scatter_layers`: the layer numbers and the layers, from the inside. -/
def scatterLayers (lg : LogicalGraph) (inputs : Inputs) (n : LGNode) (made : Bool) :
    Except Err (List (Nat × LGNode)) := do
  let keys ← n.groupKeys made
  let g ← inputGroup lg inputs n
  if g.isConstruct .groupBy then
    match keys with
    | none => .error (.groupKeyMissing n.id)
    | some keys =>
      let root ← rootGroupBy lg inputs (lg.nodes.length + 1) n
      let inner ← inputGroup lg inputs root
      return keyLayers keys 0 (inner.node :: inner.groups)
  else
    match keys with
    | none => return [(0, g)]
    | some [key] =>
      if g.id == .int key then return [(0, g)] else .error (.wrongSingleGroupKey n.id)
    | some keys => return keyLayers keys 0 (g.node :: g.groups)

/-- The degree of parallelism, handler by handler. Fuel stands for the recursion limit: no
chain of calls without a repetition is longer than the graph has nodes. -/
def dopAt (lg : LogicalGraph) (inputs : Inputs) : Nat → LGNode → Except Err Int
  | 0, _ => .error .recursionError
  | fuel + 1, n => do
    match ← n.node.handler with
    | .scatter =>
      n.node.firstInt (.noDegreeOfParallelism n.id)
        ["num_of_copies", "num_of_splits", "Number of copies"]
    | .loop =>
      n.node.firstInt (.noIterationCount n.id)
        ["num_of_iter", "Number of Iterations", "Number of loops"]
    | .mpi =>
      match n.node.get? "num_of_procs" with
      | some v => v.toInt
      | none => .error (.keyError "num_of_procs")
    | .gather =>
      match inputs.of n.id with
      | [] => .error (.gatherWithoutInput n.id)
      | m :: _ =>
        let input ← lg.node m
        let inputDop ← (if input.isConstruct .groupBy then dopAt lg inputs fuel input
          else dopDiff (dopAt lg inputs fuel) n input)
        let width ← n.node.gatherWidth
        if width = 0 then .error .zeroDivision else return -((-inputDop).fdiv width)
    | .groupBy =>
      let layers ← scatterLayers lg inputs n false
      layers.foldlM (fun d layer => do return d * (← dopAt lg inputs fuel layer.2)) 1
    | .branch | .service | .subGraph | .leaf => return 1

def LogicalGraph.dop (lg : LogicalGraph) (inputs : Inputs) (n : LGNode) : Except Err Int :=
  dopAt lg inputs (lg.nodes.length + 1) n

/-- `groupby_width`: all the groups around the input but the innermost. -/
def LogicalGraph.groupByWidth (lg : LogicalGraph) (inputs : Inputs) (n : LGNode) :
    Except Err Int := do
  let g ← inputGroup lg inputs n
  dopProduct (lg.dop inputs) g.groups

/-! The checks of a link. -/

section Validation

variable (lg : LogicalGraph) (inputs : Inputs) (source target : LGNode)

/-- `GatherHandler.validate_link`. -/
def validateGather : Except Err Unit := do
  if source.isConstruct .gather then
    let isApplication := target.node.categoryType == .application ||
      target.node.categoryType == .text "app" || target.node.categoryType == .text "application"
    if isApplication && target.isGroupStart then
      let input ← lg.firstInput inputs source.id
      if input.hLevel ≠ target.hLevel then .error (.gatherOutput source.id target.id)
    else .error (.gatherOutput source.id target.id)
  if target.isConstruct .gather then
    let isData := match source.node.categoryType with
      | .data => true
      | .text s => lower s == "data"
      | _ => false
    if !isData && !source.isConstruct .groupBy then .error (.gatherInput source.id target.id)

/-- `GroupByHandler.validate_link`. -/
def validateGroupBy : Except Err Unit := do
  if target.isConstruct .groupBy then
    if source.isGroup then .error (.groupByInputIsGroup source.id target.id)
    if (inputs.of target.id).length > 0 then .error (.groupByHasInput source.id target.id)
    if source.gid = .int 0 then .error (.groupByNoScatter source.id target.id)
  if source.isConstruct .groupBy && !target.isConstruct .gather then
    .error (.groupByOutput source.id target.id)

/-- `validate_link` of a handler. -/
def Handler.validateLink : Handler → Except Err Unit
  | .scatter =>
    if source.isConstruct .scatter || target.isConstruct .scatter then
      .error (.scatterLinked source.id target.id)
    else .ok ()
  | .loop =>
    if source.isConstruct .loop || target.isConstruct .loop then
      .error (.loopLinked source.id target.id)
    else .ok ()
  | .gather => validateGather lg inputs source target
  | .groupBy => validateGroupBy inputs source target
  | .mpi | .branch | .service | .subGraph | .leaf => .ok ()

/-- The Loops around two nodes count alike, as far as both sides have Loops. -/
def loopsSynchronised : List Node → List Node → Except Err Unit
  | s :: ss, t :: ts =>
    if s.isConstruct .loop && t.isConstruct .loop then do
      let ds ← lg.dop inputs ⟨s, ss⟩
      let dt ← lg.dop inputs ⟨t, ts⟩
      if ds ≠ dt then .error (.notLoopSynchronised s.id t.id ds dt)
      else loopsSynchronised ss ts
    else .ok ()
  | _, _ => .ok ()

def LGNode.inLoop (n : LGNode) : Bool :=
  match n.groups with
  | [] => false
  | g :: _ => g.isConstruct .loop

def validateHierarchy : Except Err Unit :=
  if source.hRelated target then .ok ()
  else if source.inLoop && target.inLoop then
    loopsSynchronised lg inputs source.groups target.groups
  else .error (.notHierarchicallyRelated source.id target.id)

def validateLink : Except Err Unit := do
  (← source.node.handler).validateLink lg inputs source target
  (← target.node.handler).validateLink lg inputs source target
  validateHierarchy lg inputs source target

end Validation

/-- `add_child`: of the groups only Scatters, Loops and GroupBys can be nested. -/
def LGNode.checkNested (n : LGNode) : Except Err Unit :=
  if n.isGroup && !n.groups.isEmpty then do
    match ← n.node.handler with
    | .scatter | .loop | .groupBy => return ()
    | _ => .error (.notNestable n.id)
  else .ok ()

/-- The ports whose name ends in "stream", with the node they were last seen on. -/
def streamOutputPorts (ns : List LGNode) : List (String × NodeId) :=
  (ns.flatMap fun n => (n.node.outputPorts.filter fun p =>
    decide ("stream".toList <:+ (lower p.1).toList)).map fun p => (p.2, n.id)).reverse

def Link.stamped (streams : List (String × NodeId)) (lk : Link) : Link :=
  { lk with isStream := streams.lookup (lk.fromPort.getD "__None__") == some lk.source }

def Link.pair (lk : Link) : String := lk.source.text ++ "-" ++ lk.target.text

/-- What the constructor keeps beside the graph itself. -/
structure LG where
  graph : LogicalGraph
  inputs : Inputs
  links : List Link
  loopAwareSet : List String

def LogicalGraph.addLink (lg : LogicalGraph) (inputs : Inputs) (lk : Link) :
    Except Err Inputs := do
  let src ← lg.node lk.source
  let tgt ← lg.node lk.target
  validateLink lg inputs src tgt
  return inputs.add tgt.id src.id

def LogicalGraph.init (lg : LogicalGraph) : Except Err LG := do
  lg.nodes.forM LGNode.checkNested
  let inputs ← lg.links.foldlM lg.addLink []
  return {
    graph := lg
    inputs := inputs
    links := lg.links.map (Link.stamped (streamOutputPorts lg.nodes))
    loopAwareSet := (lg.links.filter (·.loopAware)).map Link.pair }

end Daliuge.Unroll
