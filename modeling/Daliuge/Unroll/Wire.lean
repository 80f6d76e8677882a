import Mathlib.Data.List.Lex
import Mathlib.Data.List.Sort
import Daliuge.Lib.Enumeration
import Daliuge.Unroll.Instantiate

/-!
# Wiring

The edges each construct handler resolves a link into, the relations and bridges the edges
leave on the drops, and the unroll pass as a whole.
-/
namespace Daliuge.Unroll

open Collect Enumeration

/-! Chunks of drop lists. -/

section Chunks

variable {α β : Type}

/-- `_split_list`; a step of 0 is refused and a negative one gives nothing. -/
def splitList (ls : List α) (n : Int) : Except Err (List (List α)) :=
  if n = 0 then .error .valueError
  else if n < 0 then .ok []
  else .ok (chunks n.toNat ls.length ls)

def item (ls : List α) (i : Nat) : Except Err α :=
  match ls[i]? with
  | some a => .ok a
  | none => .error .indexError

/-- Every element of the i-th chunk with the i-th of the others. -/
def pairChunks : List (List α) → List β → Except Err (List (α × β))
  | [], _ => .ok []
  | [] :: cs, [] => pairChunks cs []
  | (_ :: _) :: _, [] => .error .indexError
  | c :: cs, b :: bs => do return c.map (·, b) ++ (← pairChunks cs bs)

end Chunks

/-! The edges of a link, handler by handler. -/

section Edges

variable (lg : LG) (source target : LGNode) (sources targets : List Drop)

/-- `_get_chunk_size`. -/
def chunkSize : Except Err Int :=
  if target.isConstruct .gather then target.node.gatherWidth
  else if target.isConstruct .groupBy then lg.graph.groupByWidth lg.inputs target
  else dopDiff (lg.graph.dop lg.inputs) source target

/-- `LeafHandler.resolve_edges`. -/
def leafEdges : Except Err (List (Drop × Drop)) :=
  if source.node.isStartNode then .ok []
  else do
    let size ← chunkSize lg source target
    if target.hLevel ≤ source.hLevel then pairChunks (← splitList sources size) targets
    else return (← pairChunks (← splitList targets size) sources).map Prod.swap

/-- `ScatterHandler.resolve_edges`: the links from a group to its own children. -/
def scatterEdges : Except Err (List (Drop × Drop)) :=
  if sources.length ≠ targets.length then
    .error (.withinGroupCounts source.id target.id sources.length targets.length)
  else .ok (sources.zip targets)

/-- `GatherHandler.resolve_edges`. -/
def gatherEdges : Except Err (List (Drop × Drop)) :=
  if source.hLevel < target.hLevel then .error (.gatherAboveInput target.id source.id)
  else do pairChunks (← splitList sources (← chunkSize lg source target)) targets

/-- The group end of one iteration with the group start of the next. -/
def circleEdges (loopSize : Int) : Except Err (List (Drop × Drop)) := do
  let pieces ← splitList sources loopSize
  collect (fun (chunk, index) =>
    collect (fun (drop, iteration) =>
      if (iteration : Int) < loopSize - 1 then do
        return [(drop, ← item targets (index * loopSize.toNat + iteration + 1))]
      else .ok []) chunk.zipIdx) pieces.zipIdx

/-- The elements of every chunk whose position modulo the Loop's size is the given one. -/
def everyIteration (loopSize position : Int) (drops others : List Drop) (size : Int) :
    Except Err (List (Drop × Drop)) := do
  let pieces ← splitList drops size
  collect (fun (chunk, index) =>
    collect (fun (drop, iteration) =>
      if loopSize = 0 then .error .zeroDivision
      else if (iteration : Int) % loopSize = position then do
        return [(drop, ← item others index)]
      else .ok []) chunk.zipIdx) pieces.zipIdx

/-- Whether a link is the circle of a Loop, by what the flags are once the drops have been made. -/
def isCircle : Bool :=
  source.inLoop && source.gid == target.gid && (source.rewrittenIf (!sources.isEmpty)).isGroupEnd &&
    (target.rewrittenIf (!targets.isEmpty)).isGroupStart

def isLocking : Bool := source.inLoop && target.inLoop && !source.hRelated target

/-- Whether a loop-aware link leaves a Loop. -/
def leavesLoop (loopAware : Bool) : Bool :=
  source.inLoop && loopAware && decide (target.hLevel < source.hLevel)

/-- Whether a loop-aware link enters a Loop. -/
def entersLoop (loopAware : Bool) : Bool :=
  target.inLoop && loopAware && decide (source.hLevel < target.hLevel)

def loopOwned (loopAware : Bool) : Bool :=
  isCircle source target sources targets || isLocking source target ||
    leavesLoop source target loopAware || entersLoop source target loopAware

def groupDop (n : LGNode) : Except Err Int :=
  match n.group with
  | some g => lg.graph.dop lg.inputs g
  | none => .error .attributeError

/-- `LoopHandler.resolve_edges`. -/
def loopEdges (loopAware : Bool) : Except Err (List (Drop × Drop)) :=
  if isCircle source target sources targets then
    if sources.length ≠ targets.length then .error (.loopCounts source.id target.id)
    else do circleEdges sources targets (← groupDop lg source)
  else if isLocking source target then
    .ok (sources.flatMap fun s => (targets.filter fun t => s.loopCtx == t.loopCtx).map (s, ·))
  else if leavesLoop source target loopAware then do
    let loopSize ← groupDop lg source
    everyIteration loopSize (loopSize - 1) sources targets (← chunkSize lg source target)
  else if entersLoop source target loopAware then do
    let loopSize ← groupDop lg target
    return (← everyIteration loopSize 0 targets sources (← chunkSize lg source target)).map
      Prod.swap
  else .ok []

/-- The group key of a source drop, as its components. -/
def groupKeyOf (made : Bool) (layerIndex : List Nat) (drop : Drop) : Except Err (List Nat) := do
  match ← target.groupKeys made with
  | none =>
    let last ← item drop.coord.path.reverse 0
    if source.hLevel = target.hLevel + 2 ∧ 0 < target.hLevel then
      return drop.coord.path.dropLast.dropLast ++ [last]
    else return [last]
  | some _ =>
    match source.group with
    | none => .error .attributeError
    | some g =>
      if g.isConstruct .groupBy then
        if drop.coord.groupKey.isEmpty then .error (.groupHierarchyMissing source.id)
        else layerIndex.mapM (item drop.coord.groupKey)
      else layerIndex.mapM (item drop.coord.path.reverse)

/-- `GroupByHandler.resolve_edges`. -/
def groupByEdges : Except Err (List (Drop × Drop)) := do
  -- the keys are read again, after the target's drops have been made
  let layers ← scatterLayers lg.graph lg.inputs target (!targets.isEmpty)
  let keyed ← sources.mapM fun d => do
    return (← groupKeyOf source target (!targets.isEmpty) (layers.map (·.1)) d, d)
  let keys := (keyed.map (·.1)).dedup
  if keys.length ≠ targets.length then
    .error (.groupCounts target.id keys.length targets.length)
  else if [] ∈ keys then .error .valueError
  else
    return ((keys.insertionSort (· ≤ ·)).zip targets).flatMap fun (key, t) =>
      (keyed.filter fun p => p.1 == key).map fun p => (p.2, t)

end Edges

/-! What an edge leaves on its drops. -/

structure GatherSource where
  node : LGNode
  drop : Drop
  link : Link

/-- The inputs and outputs held back for one Gather drop, with the link that came first. -/
structure Gathered where
  inputs : List (Option Drop)
  outputs : List Drop
  link : Link

/-- What the links have left on the drops, and the drops made between them. -/
structure Ledger where
  relations : Relations
  portMaps : List (Ident × String × String) := []
  bridges : List Drop := []

/-- What wiring has done so far, and what it holds back. -/
structure Wiring where
  ledger : Ledger
  gathers : List (String × Gathered) := []
  sources : List (String × GatherSource) := []
  sequentialised : List Link := []

def isStreamLink (source target : CategoryType) : Bool :=
  let types := [.component, .dynlibApp, .dynlibProcApp, .pythonApp, .daliugeApp]
  types.contains source && types.contains target

/-- `s.replace(old, "")`; `skip` counts what is left of an occurrence being cut out. -/
def removeAll (old : List Char) : Nat → List Char → List Char
  | _, [] => []
  | skip + 1, _ :: cs => removeAll old skip cs
  | 0, c :: cs =>
    if !old.isEmpty && old.isPrefixOf (c :: cs) then removeAll old (old.length - 1) cs
    else c :: removeAll old 0 cs

def bridgeOid (sessionId sourceOid targetOid : String) : String :=
  sourceOid ++ "-" ++ String.ofList (removeAll sessionId.toList 0 targetOid.toList) ++ "-stream"

def grpDataDrop (placed : List Placed) (d : Drop) : Except Err Drop :=
  match (placed.find? fun p => p.drop.ident == d.ident).bind (·.grpData) with
  | some g => .ok g
  | none => .error (.keyError "grp-data_drop")

/-- The drop that stands for a source: a GroupBy is read through its data drop, a Gather has
none. -/
def sourceDrop (placed : List Placed) (slgn : LGNode) (d : Drop) : Except Err (Option Drop) :=
  if slgn.isConstruct .gather then .ok none
  else if slgn.isConstruct .groupBy then (grpDataDrop placed d).map some
  else .ok (some d)

def Ledger.setPort (w : Ledger) (d : Drop) (input output : String) : Ledger :=
  { w with portMaps := (w.portMaps.filter fun p => !(p.1 == d.ident && p.2.1 == input)) ++
      [(d.ident, input, output)] }

def namedPort (names : List (String × String)) (port : Option String) : Except Err String :=
  match port.bind fun p => names.lookup p with
  | some name => .ok name
  | none => .error (.keyError (port.getD "None"))

def Ledger.relate (w : Ledger) (f : Relations → Relations) : Ledger :=
  { w with relations := f w.relations }

section LinkDrops

variable (sessionId : String) (placed : List Placed)

def bridgeDrop (sdrop tdrop : Drop) (number : Nat) : Drop :=
  { ident := .bridge sdrop.oid tdrop.oid number
    oid := bridgeOid sessionId sdrop.oid tdrop.oid
    weight := some 0 }

def bridgesBetween (bridges : List Drop) (sdrop tdrop : Drop) : Nat :=
  bridges.countP fun b => match b.ident with
    | .bridge s t _ => s == sdrop.oid && t == tdrop.oid
    | .made _ _ _ => false

def linkBridge (w : Ledger) (sdrop tdrop : Drop) : Ledger :=
  let bridge := bridgeDrop sessionId sdrop tdrop (bridgesBetween w.bridges sdrop tdrop)
  { w.relate fun r => (((r.addOutput sdrop bridge (some "stream")).addProducer bridge sdrop
      (some "stream")).addStreamingConsumer bridge tdrop (some "stream")).addStreamingInput tdrop
        bridge (some "stream") with
    bridges := w.bridges ++ [bridge] }

def linkOutput (w : Ledger) (slgn tlgn : LGNode) (sdrop tdrop : Drop) (lk : Link) :
    Except Err Ledger := do
  let output ← namedPort (slgn.node.portNames .outputPort) lk.fromPort
  let input ← namedPort (tlgn.node.portNames .inputPort) lk.toPort
  let w := w.relate fun r => (r.addOutput sdrop tdrop (some output)).addProducer tdrop sdrop
    (some input)
  return w.setPort tdrop input output

/-- A data drop is read by an application, at once or as a stream. -/
def linkInput (w : Ledger) (slgn tlgn : LGNode) (sdrop tdrop : Drop) (lk : Link) :
    Except Err Ledger :=
  let sourceName := slgn.node.portName .outputPort lk.fromPort
  let targetName := tlgn.node.portName .inputPort lk.toPort
  let w := w.relate fun r =>
    if lk.isStream then
      (r.addStreamingConsumer sdrop tdrop sourceName).addStreamingInput tdrop sdrop targetName
    else (r.addConsumer sdrop tdrop sourceName).addInput tdrop sdrop targetName
  if tlgn.node.wiredType = .bashShellApp then .error .attributeError else .ok w

def linkDrops (w : Ledger) (slgn tlgn : LGNode) (src tgt : Drop) (lk : Link) :
    Except Err Ledger := do
  match ← sourceDrop placed slgn src with
  | none => .error .noneDrop
  | some sdrop =>
    let sourceType := slgn.node.wiredType
    if isStreamLink sourceType tlgn.node.wiredType then return linkBridge sessionId w sdrop tgt
    else if sourceType = .application ∨ sourceType = .control then
      linkOutput w slgn tlgn sdrop tgt lk
    else linkInput w slgn tlgn sdrop tgt lk

/-- Change the entry of a Gather drop, made with this link when it is not there yet. -/
def onGather (gathers : List (String × Gathered)) (oid : String) (lk : Link)
    (f : Gathered → Gathered) : List (String × Gathered) :=
  if gathers.any (·.1 == oid) then gathers.map fun g => if g.1 = oid then (g.1, f g.2) else g
  else gathers ++ [(oid, f ⟨[], [], lk⟩)]

def linkOrDefer (w : Wiring) (slgn tlgn : LGNode) (lk : Link) (e : Drop × Drop) :
    Except Err Wiring := do
  let (src, tgt) := e
  if tlgn.isConstruct .gather then do
    let sdrop ← sourceDrop placed slgn src
    return { w with
      sources := w.sources ++ [(tgt.oid, GatherSource.mk slgn src lk)]
      gathers := onGather w.gathers tgt.oid lk fun g => { g with inputs := g.inputs ++ [sdrop] } }
  else
    let sourceType := slgn.node.wiredType
    let targetType := tlgn.node.wiredType
    if slgn.isConstruct .gather && !isStreamLink sourceType targetType &&
        sourceType != .application && sourceType != .control then
      if targetType = .bashShellApp then .error .attributeError
      else return { w with
        gathers := onGather w.gathers src.oid lk fun g => { g with outputs := g.outputs ++ [tgt] } }
    else return { w with ledger := ← linkDrops sessionId placed w.ledger slgn tlgn src tgt lk }

end LinkDrops

/-! The pass over the links. -/

section Wire

variable (lg : LG) (placed : List Placed)

/-- The edges of a link that is not held back for sequentialisation. -/
def resolveEdges (slgn tlgn : LGNode) (lk : Link) : Except Err (List (Drop × Drop)) :=
  let sdrops := dropsOf placed slgn.id
  let tdrops := dropsOf placed tlgn.id
  if slgn.isGroup then
    if tlgn.isGroup then gatherEdges lg slgn tlgn sdrops tdrops
    else if slgn.isConstruct .subGraph || tlgn.isConstruct .subGraph then .ok []
    else scatterEdges slgn tlgn sdrops tdrops
  else if tlgn.isGroup then
    if tlgn.isConstruct .groupBy then groupByEdges lg slgn tlgn sdrops tdrops
    else if tlgn.isConstruct .gather then gatherEdges lg slgn tlgn sdrops tdrops
    else if tlgn.isConstruct .subGraph then .ok []
    else .error (.unsupportedTargetGroup tlgn.id)
  else
    let loopAware := lg.loopAwareSet.contains lk.pair
    if !slgn.node.isStartNode && loopOwned slgn tlgn sdrops tdrops loopAware then
      loopEdges lg slgn tlgn sdrops tdrops loopAware
    else leafEdges lg slgn tlgn sdrops tdrops

/-- Whether the link goes from a Gather to a node outside it. -/
def isSequential (slgn tlgn : LGNode) : Bool :=
  slgn.isGroup && !tlgn.isGroup && slgn.isConstruct .gather && tlgn.gid != slgn.id

def wireLink (w : Wiring) (lk : Link) : Except Err Wiring := do
  let slgn ← lg.graph.node lk.source
  let tlgn ← lg.graph.node lk.target
  if isSequential slgn tlgn then
    return { w with sequentialised := w.sequentialised ++ [lk] }
  else
    let edges ← resolveEdges lg placed slgn tlgn lk
    edges.foldlM (fun w e => linkOrDefer lg.graph.sessionId placed w slgn tlgn lk e) w

/-- The targets of one Gather drop's window, each with one of its inputs in turn. -/
def window (chainable targets : List Drop) (first last : Nat) : List (Drop × Drop) :=
  ((targets.take last).drop first).zipIdx.filterMap fun (t, k) =>
    (chainable[k % chainable.length]?).map fun d => (d, t)

/-- `resolve_sequential_edges`, for one Gather drop. -/
def sequentialEdges (gather target : LGNode) (targets : List Drop) (index : Nat)
    (gatherInputs : List (Option Drop)) : Except Err (List (Drop × Drop)) := do
  let chainable := gatherInputs.filterMap id
  if chainable.isEmpty then return []
  else
    let width ← gather.node.gatherWidth
    let dop ← groupDop lg target
    let start := ((index : Int) + 1) * width
    if start ≥ targets.length then return []
    else if start ≥ dop ∧ dop = 0 then .error .zeroDivision
    else if start ≥ dop ∧ start % dop = 0 then return []
    else
      let stop := min (min (((index : Int) + 2) * width) (dop * ((index : Int) + 1))) targets.length
      return window chainable targets start.toNat stop.toNat

/-- The edges that chain the inputs of the Gather's drops to the next windows; an input that
comes from another Gather has no drop to chain. -/
def chainedEdges (gather target : LGNode) (targets : List Drop)
    (sources : List (List GatherSource)) : Except Err (List (Drop × Drop)) :=
  collect (fun (ss, index) => sequentialEdges lg gather target targets index
    (ss.map fun s => if s.node.isConstruct .gather then none else some s.drop)) sources.zipIdx

def sourcesByDrop (gathered : List (String × GatherSource)) (gatherDrops : List Drop) :
    List (List GatherSource) :=
  gatherDrops.map fun ga => (gathered.filter fun s => s.1 == ga.oid).map (·.2)

/-- The link a chained edge is wired as: from the input's own node and port. -/
def chainedLink (s : GatherSource) (lk : Link) : Link :=
  { source := s.link.source, target := lk.target, fromPort := s.link.fromPort
    toPort := lk.toPort, isStream := lk.isStream }

def sequentialiseGather (gathered : List (String × GatherSource)) (w : Ledger) (lk : Link) :
    Except Err Ledger := do
  let slgn ← lg.graph.node lk.source
  let tlgn ← lg.graph.node lk.target
  let sources := sourcesByDrop gathered (dropsOf placed slgn.id)
  let edges ← chainedEdges lg slgn tlgn (dropsOf placed tlgn.id) sources
  edges.foldlM (fun w e => do
    match sources.flatten.reverse.find? fun s => s.drop.ident == e.1.ident with
    | none => .error (.keyError e.1.oid)
    | some s =>
      linkDrops lg.graph.sessionId placed w s.node tlgn e.1 e.2 (chainedLink s lk)) w

/-- The splice of one Gather: its inputs go to its first output, under the port name of the
source that `slgn` was bound to last. -/
def spliceGather (last : Option LGNode) (w : Ledger) (g : Gathered) : Except Err Ledger :=
  match g.outputs with
  | [] => .ok w
  | output :: _ =>
    let name := last.bind fun slgn => slgn.node.portName .outputPort none
    g.inputs.foldlM (fun w input =>
      match input with
      | none => .error .noneDrop
      | some data => .ok (w.relate fun r =>
        if g.link.isStream then
          (r.addStreamingConsumer data output name).addStreamingInput output data name
        else (r.addConsumer data output name).addInput output data name)) w

/-- What `slgn` is bound to at the splice: the loop over the links held back comes after the one
over all links, and binds it again. -/
def lastSource (held : List Link) : Option LGNode :=
  (held.getLast?.or lg.links.getLast?).bind fun lk => (lg.graph.node lk.source).toOption

def wire : Except Err Ledger := do
  let start : Ledger := { relations := placed.flatMap (·.relations) }
  let w ← lg.links.foldlM (wireLink lg placed) { ledger := start }
  let l ← w.sequentialised.foldlM (sequentialiseGather lg placed w.sources) w.ledger
  w.gathers.foldlM (fun l g => spliceGather (lastSource lg w.sequentialised) l g.2) l

/-- Whether `_drop_dict` has the key of a node: it got a drop, or some link has asked. -/
def hasKey (n : LGNode) : Bool :=
  !(dropsOf placed n.id).isEmpty ||
    lg.links.any fun lk => lk.source == n.id || lk.target == n.id

/-- The clean-up rule of a node: whether its drops are deleted. -/
def cleanUp (n : LGNode) : Except Err Bool :=
  let delete : Except Err Bool :=
    if hasKey lg placed n then .ok true else .error (.keyError n.id.text)
  if n.node.isStartNode && hasKey lg placed n then .ok true
  else if isStartListener lg n || n.isConstruct .groupBy then .ok false
  else if n.isConstruct .gather then delete
  else if n.isConstruct .subGraph then
    match n.node.isSubGraphConstruct with
    | none => .error (.keyError "isSubGraphConstruct")
    | some true => delete
    | some false => .ok false
  else .ok false

def deletedKeys : Except Err (List NodeId) :=
  collect (fun n => do return if ← cleanUp lg placed n then [n.id] else []) lg.graph.nodes

end Wire

/-- A physical graph template: its drops and their relation lists. -/
structure Template where
  drops : List Drop
  relations : Relations
  portMaps : List (Ident × String × String)
  deriving DecidableEq, Repr

def LG.unrollToTpl (lg : LG) : Except Err Template := do
  let lg ← synthesiseLinks lg
  let placed ← instantiate lg
  let w ← wire lg placed
  let deleted ← deletedKeys lg placed
  return {
    drops := (placed.filter fun p => !deleted.contains p.key).map (·.drop) ++ w.bridges
    relations := w.relations
    portMaps := w.portMaps }

def LogicalGraph.unroll (lg : LogicalGraph) : Except Err Template := do (← lg.init).unrollToTpl

end Daliuge.Unroll
