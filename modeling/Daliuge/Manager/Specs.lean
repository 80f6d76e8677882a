import Daliuge.Lib.Collect
import Daliuge.Manager.Links

/-!
# Drop specifications

The relations of a drop specification as the graph loader reads them. A relation list holds
oids, or dictionaries of one oid and a port name, or both.
-/
namespace Daliuge.Manager

open Collect

/-- The keys of the relations with many drops. -/
inductive ToMany
  | consumers | streamingConsumers | inputs | streamingInputs | outputs | children | producers
  deriving DecidableEq, Repr

/-- `__TOMANY`, from the key to the kind. -/
def ToMany.link : ToMany → LinkType
  | .consumers => .consumer
  | .streamingConsumers => .streamingConsumer
  | .inputs => .input
  | .streamingInputs => .streamingInput
  | .outputs => .output
  | .children => .child
  | .producers => .producer

/-- `__TOMANY`, from the kind to the key. -/
def LinkType.toMany : LinkType → Option ToMany
  | .consumer => some .consumers
  | .streamingConsumer => some .streamingConsumers
  | .input => some .inputs
  | .streamingInput => some .streamingInputs
  | .output => some .outputs
  | .child => some .children
  | .producer => some .producers
  | .parent => none

def ToMany.all : List ToMany :=
  [.consumers, .streamingConsumers, .inputs, .streamingInputs, .outputs, .children, .producers]

/-- An entry of a relation: an oid, or `{oid: name}`. -/
inductive Ref
  | plain (oid : String)
  | named (oid name : String)
  deriving DecidableEq, Repr

/-- `normalise_oid`. -/
def Ref.oid : Ref → String
  | .plain o | .named o _ => o

def Ref.isNamed : Ref → Bool
  | .plain _ => false
  | .named _ _ => true

/-- What the managers raise. -/
inductive Err
  | indexError
  | keyError (key : String)
  | typeError
  | stopIteration
  | runtimeError
  | invalidGraph (oid : Option String)
  | subManager
  deriving DecidableEq, Repr

/-- The part of a drop specification a composite manager reads: `partition` is the node its
partition attribute stands for. -/
structure DropSpec where
  oid : String
  uid : Option String := none
  partition : Option String
  node : Option String
  relations : ToMany → Option (List Ref) := fun _ => none
  parent : Option Ref := none

def DropSpec.uidForDrop (d : DropSpec) : String := d.uid.getD d.oid

/-! Cutting the relations that leave a list of specifications. -/

/-- `next(iter(d))`: the oid of a dictionary, but the first letter of a text. -/
def Ref.firstKey : Ref → Except Err String
  | .named o _ => .ok o
  | .plain o =>
    match o.toList with
    | [] => .error .stopIteration
    | c :: _ => .ok (String.singleton c)

/-- An oid that is looked up in a set; a dictionary cannot be hashed. -/
def Ref.hashable : Ref → Except Err String
  | .plain o => .ok o
  | .named _ _ => .error .typeError

/-- What leaves a relation list, and what stays under its key. A list that starts with a
dictionary is copied before the oids are taken out, so all of it stays, or nothing. -/
def cutRelation (oids : List String) (refs : List Ref) :
    Except Err (List String × Option (List Ref)) :=
  match refs with
  | [] => .error .indexError
  | .named _ _ :: _ => do
    let ds ← refs.mapM Ref.firstKey
    let missing := ds.filter fun o => !oids.contains o
    return (missing, if missing.length = ds.length then none else some refs)
  | .plain _ :: _ => do
    let ds ← refs.mapM Ref.hashable
    let kept := ds.filter fun o => oids.contains o
    return (ds.filter fun o => !oids.contains o,
      if kept.isEmpty then none else some (kept.map .plain))

/-- The relation under one key. -/
def cutKey (oids : List String) (d : DropSpec) (k : ToMany) :
    Except Err (List (DROPRel String) × Option (List Ref)) :=
  match d.relations k with
  | none => .ok ([], none)
  | some refs => do
    let (missing, kept) ← cutRelation oids refs
    return (missing.map fun o => ⟨o, k.link, d.oid⟩, kept)

/-- The relation to a parent. -/
def cutParent (oids : List String) (d : DropSpec) : List (DROPRel String) × Option Ref :=
  match d.parent with
  | none => ([], none)
  | some ref =>
    if oids.contains ref.oid then ([], some ref) else ([⟨ref.oid, .parent, d.oid⟩], none)

/-- The specification without the relations that leave it. -/
def DropSpec.cut (oids : List String) (d : DropSpec) : DropSpec :=
  { d with
    relations := fun k => match cutKey oids d k with
      | .ok (_, kept) => kept
      | .error _ => d.relations k
    parent := (cutParent oids d).2 }

/-- The relations that leave a specification. -/
def DropSpec.unmet (oids : List String) (d : DropSpec) : Except Err (List (DROPRel String)) := do
  let rels ← collect (fun k => do return (← cutKey oids d k).1) ToMany.all
  return rels ++ (cutParent oids d).1

/-- `removeUnmetRelationships`: the relations, and the specifications without them. -/
def removeUnmetRelationships (ds : List DropSpec) :
    Except Err (List (DROPRel String) × List DropSpec) := do
  let oids := ds.map (·.oid)
  let rels ← collect (DropSpec.unmet oids) ds
  return (rels, ds.map (DropSpec.cut oids))

/-- `addLink`, never forced: a relation with one drop is refused. -/
def addLink (kind : LinkType) (d : DropSpec) (oid : String) : Except Err DropSpec :=
  match kind.toMany with
  | none => .error .runtimeError
  | some k =>
    let refs := (d.relations k).getD []
    if refs.contains (.plain oid) then .error .runtimeError
    else .ok { d with relations := Function.update d.relations k (some (refs ++ [.plain oid])) }

end Daliuge.Manager
