import Daliuge.Unroll.Wire

/-!
# The plan of the wiring

What a link comes to does not depend on what has been written before it. So the wiring is a
plan, made from the graph and the drops alone, that is then written down from first to last.
-/
namespace Daliuge.Unroll

open Collect

/-- The three relations two drops can have. -/
inductive Kind
  | output
  | consumer
  | streaming
  deriving DecidableEq, Repr

/-- The list on the side of the source. -/
def Kind.forward : Kind → RelationKey
  | .output => .outputs
  | .consumer => .consumers
  | .streaming => .streamingConsumers

/-- The list on the side of the target. -/
def Kind.backward : Kind → RelationKey
  | .output => .producers
  | .consumer => .inputs
  | .streaming => .streamingInputs

/-- A relation of two drops, with the names of the ports it runs between. -/
structure Relation where
  kind : Kind
  source : Drop
  target : Drop
  sourceName : Option String
  targetName : Option String
  deriving DecidableEq, Repr

/-- What a link writes between two drops: a relation, or a bridge with its relations. -/
inductive Write
  | relate (e : Relation)
  | bridge (source target : Drop)
  deriving DecidableEq, Repr

/-- The two drops a write is about. -/
def Write.ends : Write → Drop × Drop
  | .relate e => (e.source, e.target)
  | .bridge s t => (s, t)

/-- Both ends of a relation are told. -/
def Relations.relate (r : Relations) (e : Relation) : Relations :=
  (r.add e.source e.target e.sourceName e.kind.forward false).add e.target e.source e.targetName
    e.kind.backward true

def Ledger.write (sessionId : String) (w : Ledger) : Write → Ledger
  | .relate e =>
    let w := w.relate fun r => r.relate e
    match e.kind with
    | .output => w.setPort e.target (e.targetName.getD "") (e.sourceName.getD "")
    | .consumer | .streaming => w
  | .bridge s t => linkBridge sessionId w s t

/-! What one edge comes to. -/

section Planning

variable (lg : LG) (placed : List Placed)

/-- What `link_drops` writes. -/
def linkWrite (slgn tlgn : LGNode) (src tgt : Drop) (lk : Link) : Except Err Write := do
  match ← sourceDrop placed slgn src with
  | none => .error .noneDrop
  | some sdrop =>
    let sourceType := slgn.node.wiredType
    if isStreamLink sourceType tlgn.node.wiredType then return .bridge sdrop tgt
    else if sourceType = .application ∨ sourceType = .control then do
      let output ← namedPort (slgn.node.portNames .outputPort) lk.fromPort
      let input ← namedPort (tlgn.node.portNames .inputPort) lk.toPort
      return .relate ⟨.output, sdrop, tgt, some output, some input⟩
    else if tlgn.node.wiredType = .bashShellApp then .error .attributeError
    else
      let kind := if lk.isStream then Kind.streaming else .consumer
      return .relate ⟨kind, sdrop, tgt, slgn.node.portName .outputPort lk.fromPort,
        tlgn.node.portName .inputPort lk.toPort⟩

theorem linkDrops_eq (sessionId : String) (w : Ledger) (slgn tlgn : LGNode) (src tgt : Drop)
    (lk : Link) : linkDrops sessionId placed w slgn tlgn src tgt lk =
      (linkWrite placed slgn tlgn src tgt lk).map (w.write sessionId) := by
  unfold linkDrops linkWrite
  cases sourceDrop placed slgn src with
  | error e => rfl
  | ok sdrop =>
    cases sdrop with
    | none => rfl
    | some sdrop =>
      simp only [bind, Except.bind]
      split
      · rfl
      split
      · unfold linkOutput
        cases namedPort (slgn.node.portNames .outputPort) lk.fromPort with
        | error e => rfl
        | ok output =>
          cases namedPort (tlgn.node.portNames .inputPort) lk.toPort with
          | error e => rfl
          | ok input => rfl
      · unfold linkInput
        simp only
        split
        · rfl
        · cases lk.isStream <;> rfl

/-- What an edge of a link comes to: something written, or something held back. -/
inductive Action
  | write (x : Write)
  | gatherInput (oid : String) (source : GatherSource) (data : Option Drop)
  | gatherOutput (oid : String) (target : Drop) (lk : Link)
  | hold (lk : Link)

/-- What `_link_or_defer` does. -/
def edgeAction (slgn tlgn : LGNode) (lk : Link) (e : Drop × Drop) : Except Err Action :=
  if tlgn.isConstruct .gather then
    (sourceDrop placed slgn e.1).map fun sdrop => .gatherInput e.2.oid ⟨slgn, e.1, lk⟩ sdrop
  else if slgn.isConstruct .gather && !isStreamLink slgn.node.wiredType tlgn.node.wiredType &&
      slgn.node.wiredType != .application && slgn.node.wiredType != .control then
    if tlgn.node.wiredType = .bashShellApp then .error .attributeError
    else .ok (.gatherOutput e.1.oid e.2 lk)
  else (linkWrite placed slgn tlgn e.1 e.2 lk).map .write

def Wiring.act (sessionId : String) (w : Wiring) : Action → Wiring
  | .write x => { w with ledger := w.ledger.write sessionId x }
  | .gatherInput oid source data =>
    { w with
      sources := w.sources ++ [(oid, source)]
      gathers := onGather w.gathers oid source.link fun g =>
        { g with inputs := g.inputs ++ [data] } }
  | .gatherOutput oid target lk =>
    { w with gathers := onGather w.gathers oid lk fun g =>
        { g with outputs := g.outputs ++ [target] } }
  | .hold lk => { w with sequentialised := w.sequentialised ++ [lk] }

theorem linkOrDefer_eq (sessionId : String) (w : Wiring) (slgn tlgn : LGNode) (lk : Link)
    (e : Drop × Drop) : linkOrDefer sessionId placed w slgn tlgn lk e =
      (edgeAction placed slgn tlgn lk e).map (w.act sessionId) := by
  unfold linkOrDefer edgeAction
  simp only
  split
  · cases sourceDrop placed slgn e.1 <;> rfl
  split
  · split <;> rfl
  · rw [linkDrops_eq]
    cases linkWrite placed slgn tlgn e.1 e.2 lk <;> rfl

/-- What one turn of the loop over the links does. -/
def linkActions (lk : Link) : Except Err (List Action) := do
  let slgn ← lg.graph.node lk.source
  let tlgn ← lg.graph.node lk.target
  if isSequential slgn tlgn then return [.hold lk]
  else
    let edges ← resolveEdges lg placed slgn tlgn lk
    collect (fun e => do return [← edgeAction placed slgn tlgn lk e]) edges

theorem wireLink_eq (w : Wiring) (lk : Link) : wireLink lg placed w lk =
    (linkActions lg placed lk).map fun as => as.foldl (Wiring.act lg.graph.sessionId) w := by
  unfold wireLink linkActions
  cases lg.graph.node lk.source with
  | error e => rfl
  | ok slgn =>
    cases lg.graph.node lk.target with
    | error e => rfl
    | ok tlgn =>
      simp only [bind, Except.bind]
      split
      · rfl
      cases resolveEdges lg placed slgn tlgn lk with
      | error e => rfl
      | ok edges =>
        refine foldlM_eq_map_collect (fun w e => ?_) w
        rw [linkOrDefer_eq]
        cases edgeAction placed slgn tlgn lk e <;> rfl

/-! What the actions of all links come to. -/

/-- What is written at once. -/
def writesOf (as : List Action) : List Write :=
  as.filterMap fun
    | .write x => some x
    | _ => none

/-- The sources of the Gather drops. -/
def sourcesOf (as : List Action) : List (String × GatherSource) :=
  as.filterMap fun
    | .gatherInput oid source _ => some (oid, source)
    | _ => none

/-- The links held back. -/
def heldOf (as : List Action) : List Link :=
  as.filterMap fun
    | .hold lk => some lk
    | _ => none

/-- How an action changes what is held back for the Gather drops. -/
def gatherStep (gathers : List (String × Gathered)) : Action → List (String × Gathered)
  | .gatherInput oid source data =>
    onGather gathers oid source.link fun g => { g with inputs := g.inputs ++ [data] }
  | .gatherOutput oid target lk =>
    onGather gathers oid lk fun g => { g with outputs := g.outputs ++ [target] }
  | .write _ | .hold _ => gathers

theorem foldl_act (sessionId : String) (as : List Action) (w : Wiring) :
    as.foldl (Wiring.act sessionId) w =
      { ledger := (writesOf as).foldl (Ledger.write sessionId) w.ledger
        gathers := as.foldl gatherStep w.gathers
        sources := w.sources ++ sourcesOf as
        sequentialised := w.sequentialised ++ heldOf as } := by
  induction as generalizing w with
  | nil => simp [writesOf, sourcesOf, heldOf]
  | cons a as ih =>
    rw [List.foldl_cons, ih]
    cases a <;> simp [writesOf, sourcesOf, heldOf, gatherStep, Wiring.act]

/-- What `_sequentialise_gather` writes. -/
def chainedWrites (gathered : List (String × GatherSource)) (lk : Link) :
    Except Err (List Write) := do
  let slgn ← lg.graph.node lk.source
  let tlgn ← lg.graph.node lk.target
  let sources := sourcesByDrop gathered (dropsOf placed slgn.id)
  let edges ← chainedEdges lg slgn tlgn (dropsOf placed tlgn.id) sources
  collect (fun e =>
    match sources.flatten.reverse.find? fun s => s.drop.ident == e.1.ident with
    | none => .error (.keyError e.1.oid)
    | some s => do return [← linkWrite placed s.node tlgn e.1 e.2 (chainedLink s lk)]) edges

theorem sequentialiseGather_eq (gathered : List (String × GatherSource)) (w : Ledger) (lk : Link) :
    sequentialiseGather lg placed gathered w lk =
      (chainedWrites lg placed gathered lk).map fun xs =>
        xs.foldl (Ledger.write lg.graph.sessionId) w := by
  unfold sequentialiseGather chainedWrites
  cases lg.graph.node lk.source with
  | error e => rfl
  | ok slgn =>
    cases lg.graph.node lk.target with
    | error e => rfl
    | ok tlgn =>
      simp only [bind, Except.bind]
      split
      · rfl
      · refine foldlM_eq_map_collect (fun w e => ?_) w
        cases List.find? (fun s : GatherSource => s.drop.ident == e.1.ident)
            (sourcesByDrop gathered (dropsOf placed slgn.id)).flatten.reverse with
        | none => rfl
        | some s =>
          simp only [linkDrops_eq]
          cases linkWrite placed s.node tlgn e.1 e.2 (chainedLink s lk) <;> rfl

/-- What the splice of one Gather drop writes. -/
def splicedWrites (last : Option LGNode) (g : Gathered) : Except Err (List Write) :=
  match g.outputs with
  | [] => .ok []
  | output :: _ =>
    let name := last.bind fun slgn => slgn.node.portName .outputPort none
    collect (fun input =>
      match input with
      | none => .error .noneDrop
      | some data =>
        .ok [.relate ⟨if g.link.isStream then .streaming else .consumer, data, output, name, name⟩])
      g.inputs

theorem spliceGather_eq (sessionId : String) (last : Option LGNode) (w : Ledger) (g : Gathered) :
    spliceGather last w g =
      (splicedWrites last g).map fun xs => xs.foldl (Ledger.write sessionId) w := by
  unfold spliceGather splicedWrites
  cases g.outputs with
  | nil => rfl
  | cons output _ =>
    refine foldlM_eq_map_collect (fun w input => ?_) w
    cases input with
    | none => rfl
    | some data => cases g.link.isStream <;> rfl

/-- Everything that gets written, in order. -/
def plan : Except Err (List Write) := do
  let as ← collect (linkActions lg placed) lg.links
  let chained ← collect (chainedWrites lg placed (sourcesOf as)) (heldOf as)
  let spliced ← collect (fun g => splicedWrites (lastSource lg (heldOf as)) g.2)
    (as.foldl gatherStep [])
  return writesOf as ++ chained ++ spliced

/-- The relations the drops are made with. -/
def startLedger : Ledger := { relations := placed.flatMap (·.relations) }

/-- The wiring writes down its plan. -/
theorem wire_eq_plan : wire lg placed =
    (plan lg placed).map fun xs =>
      xs.foldl (Ledger.write lg.graph.sessionId) (startLedger placed) := by
  unfold wire plan
  simp only
  rw [foldlM_eq_map_collect (wireLink_eq lg placed)]
  cases collect (linkActions lg placed) lg.links with
  | error e => rfl
  | ok as =>
    simp only [Except.map, bind, Except.bind, foldl_act, List.nil_append]
    rw [foldlM_eq_map_collect (sequentialiseGather_eq lg placed _)]
    cases collect (chainedWrites lg placed (sourcesOf as)) (heldOf as) with
    | error e => rfl
    | ok chained =>
      have hs : ∀ w (g : String × Gathered), spliceGather (lastSource lg (heldOf as)) w g.2 =
          (splicedWrites (lastSource lg (heldOf as)) g.2).map fun xs =>
            xs.foldl (Ledger.write lg.graph.sessionId) w :=
        fun w g => spliceGather_eq lg.graph.sessionId _ w g.2
      simp only [Except.map]
      rw [foldlM_eq_map_collect hs]
      cases collect (fun g : String × Gathered => splicedWrites (lastSource lg (heldOf as)) g.2)
          (as.foldl gatherStep []) with
      | error e => rfl
      | ok spliced => simp [Except.map, pure, Except.pure, startLedger]

end Planning

/-! The unroll pass as a whole. -/

/-- The graph with its artificial links, and its drops. -/
def LogicalGraph.built (g : LogicalGraph) : Except Err (LG × List Placed) := do
  let lg ← synthesiseLinks (← g.init)
  return (lg, ← instantiate lg)

/-- What is left on the drops in the end. -/
def finalLedger (lg : LG) (placed : List Placed) (xs : List Write) : Ledger :=
  xs.foldl (Ledger.write lg.graph.sessionId) (startLedger placed)

/-- An unroll that succeeds, stage by stage. -/
structure Unrolled (g : LogicalGraph) (tpl : Template) (lg : LG) (placed : List Placed)
    (xs : List Write) (deleted : List NodeId) : Prop where
  graph : lg.graph = g
  instantiated : instantiate lg = .ok placed
  planned : plan lg placed = .ok xs
  cleaned : deletedKeys lg placed = .ok deleted
  drops : tpl.drops = (placed.filter fun p => !deleted.contains p.key).map (·.drop) ++
    (finalLedger lg placed xs).bridges
  relations : tpl.relations = (finalLedger lg placed xs).relations
  portMaps : tpl.portMaps = (finalLedger lg placed xs).portMaps

theorem built_ok {g : LogicalGraph} {lg : LG} {placed : List Placed}
    (h : g.built = .ok (lg, placed)) : ∃ lg₀, g.init = .ok lg₀ ∧ synthesiseLinks lg₀ = .ok lg ∧
      instantiate lg = .ok placed ∧ lg.graph = g := by
  obtain ⟨lg₀, hinit, h⟩ := bind_ok.mp h
  obtain ⟨lg', hsyn, h⟩ := bind_ok.mp h
  obtain ⟨placed', hinst, h⟩ := bind_ok.mp h
  obtain ⟨rfl, rfl⟩ := Prod.mk.inj (pure_ok.mp h)
  refine ⟨lg₀, hinit, hsyn, hinst, ?_⟩
  obtain ⟨s, -, hs⟩ := bind_ok.mp hsyn
  obtain ⟨-, -, hinit⟩ := bind_ok.mp hinit
  obtain ⟨inputs, -, hinit⟩ := bind_ok.mp hinit
  rw [← pure_ok.mp hs, ← pure_ok.mp hinit]

theorem unroll_ok {g : LogicalGraph} {tpl : Template} (h : g.unroll = .ok tpl) :
    ∃ lg placed xs deleted, g.built = .ok (lg, placed) ∧ Unrolled g tpl lg placed xs deleted := by
  obtain ⟨lg₀, hinit, h⟩ := bind_ok.mp h
  obtain ⟨lg, hsyn, h⟩ := bind_ok.mp h
  obtain ⟨placed, hinst, h⟩ := bind_ok.mp h
  obtain ⟨w, hwire, h⟩ := bind_ok.mp h
  obtain ⟨deleted, hdel, h⟩ := bind_ok.mp h
  rw [wire_eq_plan] at hwire
  have hb : g.built = .ok (lg, placed) :=
    bind_ok.mpr ⟨lg₀, hinit, bind_ok.mpr ⟨lg, hsyn, bind_ok.mpr ⟨placed, hinst, rfl⟩⟩⟩
  cases hplan : plan lg placed with
  | error e => simp [hplan, Except.map] at hwire
  | ok xs =>
    obtain rfl : finalLedger lg placed xs = w := by
      simpa [hplan, Except.map, finalLedger] using hwire
    obtain rfl := pure_ok.mp h
    obtain ⟨-, -, -, -, hg⟩ := built_ok hb
    exact ⟨lg, placed, xs, deleted, hb, hg, hinst, hplan, hdel, rfl, rfl, rfl⟩

end Daliuge.Unroll
