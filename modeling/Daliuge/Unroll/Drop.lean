import Daliuge.Unroll.Node

/-!
# Drops of the physical graph template

Coordinates of drop instances, the drops themselves and the relation lists `dropdict` keeps
for them. A drop is told apart by what it was made from; its oid is only a text.
-/
namespace Daliuge.Unroll

/-- `InstanceId`. -/
structure InstanceId where
  path : List Nat
  groupKey : List Nat := []
  wire : String
  deriving DecidableEq, Repr

namespace InstanceId

/-- `InstanceId((0,))`. -/
def root : InstanceId := { path := [0], wire := "0" }

def child (c : InstanceId) (index : Nat) : InstanceId :=
  { path := c.path ++ [index]
    groupKey := c.groupKey
    wire := c.wire ++ "-" ++ toString index }

/-- Past a node's first instance, which the walk gets to before all its others. -/
def isLater (c : InstanceId) : Bool := c.path.any (· != 0)

def withGroupKey (c : InstanceId) (key : List Nat) : InstanceId :=
  { path := c.path
    groupKey := key
    wire := c.wire ++ "$" ++ "-".intercalate (key.map toString) }

end InstanceId

/-- The drop of a node instance, and the ones generated beside it. -/
inductive Part
  | main
  | grpData
  | gatherData
  | listener
  deriving DecidableEq, Repr

/-- Which drop it is: the stream bridges between the same two drops are numbered. -/
inductive Ident
  | made (id : NodeId) (coord : InstanceId) (part : Part)
  | bridge (source target : String) (number : Nat)
  deriving DecidableEq, Repr

instance : Inhabited Ident := ⟨.bridge "" "" 0⟩

/-- Whether it is a stream bridge. -/
def Ident.isBridge : Ident → Bool
  | .made _ _ _ => false
  | .bridge _ _ _ => true

/-- The part of a drop specification the unroll stage itself reads. -/
structure Drop where
  ident : Ident
  oid : String
  loopCtx : Option (List Nat) := none
  weight : Option Int := none
  deriving DecidableEq, Repr, Inhabited

/-- `coord`; bridges have none and are never asked. -/
def Drop.coord (d : Drop) : InstanceId :=
  match d.ident with
  | .made _ c _ => c
  | .bridge _ _ _ => .root

inductive RelationKey
  | consumers | inputs | outputs | producers | streamingConsumers | streamingInputs | ports
  deriving DecidableEq, Repr

/-- An entry of a relation list: an oid, an oid with a port name, or a port. -/
inductive Entry
  | plain (oid : String)
  | named (oid name : String)
  | port (oid : String) (name : Option String) (isInput : Bool)
  deriving DecidableEq, Repr

def Entry.oid : Entry → String
  | .plain oid | .named oid _ | .port oid _ _ => oid

/-- Every relation list of every drop, as one log of additions. -/
abbrev Relations := List (Ident × RelationKey × Entry)

namespace Relations

variable (r : Relations) (d other : Drop) (name : Option String)

/-- A relation list of one drop. -/
def of (key : RelationKey) : List Entry :=
  (r.filter fun e => e.1 == d.ident && e.2.1 == key).map fun e => e.2.2

/-- What is appended: a name that is missing or empty leaves the plain oid. -/
def entry (oid : String) : Option String → Entry
  | none => .plain oid
  | some name => if name = "" then .plain oid else .named oid name

/-- `_addSomething`: only a plain entry is recognised as being there already. -/
def addSomething (key : RelationKey) : Relations :=
  if (d.ident, key, Entry.plain other.oid) ∈ r then r
  else r ++ [(d.ident, key, entry other.oid name)]

/-- The reversed entry of "ports", a list without plain oids. -/
def addPort (isInput : Bool) : Relations :=
  r ++ [(d.ident, .ports, .port other.oid name isInput)]

/-- The shape of the six add methods. -/
def add (key : RelationKey) (isInput : Bool) : Relations :=
  (r.addSomething d other name key).addPort d other name isInput

def addProducer : Relations := r.add d other name .producers true

def addConsumer : Relations := r.add d other name .consumers false

def addStreamingConsumer : Relations := r.add d other name .streamingConsumers false

def addInput : Relations := r.add d other name .inputs true

def addStreamingInput : Relations := r.add d other name .streamingInputs true

def addOutput : Relations := r.add d other name .outputs false

end Relations

end Daliuge.Unroll
