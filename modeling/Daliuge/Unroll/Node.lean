import Mathlib.Data.List.Infix

/-!
# Logical graph nodes

A node of the logical graph as the unroll stage reads it: its JSON object after the fields
have been copied to keys of the node, and the groups around it.
-/
namespace Daliuge.Unroll

/-- A node id as it stands in the JSON. -/
inductive NodeId
  | int (value : Int)
  | str (value : String)
  deriving DecidableEq, Repr

/-- `str(id)`. -/
def NodeId.text : NodeId → String
  | .int i => toString i
  | .str s => s

/-- `Categories`. -/
inductive Category
  | start | «end»
  | memory | shmem | file | ngas | null | json | s3 | plasma | plasmaFlight | parset
  | scatter | gather | groupBy | loop | variables | subGraph
  | branch | data | component | pythonApp | daliugeApp | bashShellApp | mpi | dynlibApp
  | docker | dynlibProcApp | service
  | comment | description
  | other (name : String)
  deriving DecidableEq, Repr

/-- `CategoryType`; graphs also hold the name of an application category, or any other
text, in its place. -/
inductive CategoryType
  | data | application | construct | group | unknown | service | container | socket | control
  | other
  | component | dynlibApp | dynlibProcApp | pythonApp | daliugeApp | bashShellApp
  | text (s : String)
  deriving DecidableEq, Repr

/-- The values of JSON scalars. -/
inductive Value
  | null
  | bool (b : Bool)
  | int (i : Int)
  | text (s : String)
  deriving DecidableEq, Repr

/-- What the unroll stage raises, by the place that raises it. -/
inductive Err
  | keyError (key : String)
  | indexError
  | typeError
  | valueError
  | attributeError
  | recursionError
  | nonTermination
  | zeroDivision
  | noneDrop
  | unrecognisedGroup (id : NodeId)
  | notNestable (id : NodeId)
  | noDegreeOfParallelism (id : NodeId)
  | noIterationCount (id : NodeId)
  | gatherWithoutInput (id : NodeId)
  | negativeWeight (id : NodeId)
  | loopStartEndMissing (id : NodeId)
  | groupKeyNotInteger
  | groupKeyMissing (id : NodeId)
  | wrongSingleGroupKey (id : NodeId)
  | groupByInputNotData (id : NodeId)
  | scatterLinked (source target : NodeId)
  | loopLinked (source target : NodeId)
  | gatherOutput (source target : NodeId)
  | gatherInput (source target : NodeId)
  | groupByInputIsGroup (source target : NodeId)
  | groupByHasInput (source target : NodeId)
  | groupByNoScatter (source target : NodeId)
  | groupByOutput (source target : NodeId)
  | notLoopSynchronised (source target : NodeId) (sourceDop targetDop : Int)
  | notHierarchicallyRelated (source target : NodeId)
  | gatherAboveInput (source target : NodeId)
  | withinGroupCounts (source target : NodeId) (sources targets : Nat)
  | loopCounts (source target : NodeId)
  | groupCounts (target : NodeId) (groups targets : Nat)
  | groupHierarchyMissing (source : NodeId)
  | unsupportedTargetGroup (target : NodeId)
  deriving DecidableEq, Repr

def lower (s : String) : String := String.ofList (s.toList.map Char.toLower)

/-- Python truth. -/
def Value.truthy : Value → Bool
  | .null => false
  | .bool b => b
  | .int i => i != 0
  | .text s => s != ""

/-- Where the decimal digits of each script begin. -/
def zeros : List Nat :=
  [0x30, 0x660, 0x6F0, 0x7C0, 0x966, 0x9E6, 0xA66, 0xAE6, 0xB66, 0xBE6, 0xC66, 0xCE6, 0xD66, 0xDE6,
    0xE50, 0xED0, 0xF20, 0x1040, 0x1090, 0x17E0, 0x1810, 0x1946, 0x19D0, 0x1A80, 0x1A90, 0x1B50,
    0x1BB0, 0x1C40, 0x1C50, 0xA620, 0xA8D0, 0xA900, 0xA9D0, 0xA9F0, 0xAA50, 0xABF0, 0xFF10, 0x104A0,
    0x10D30, 0x11066, 0x110F0, 0x11136, 0x111D0, 0x112F0, 0x11450, 0x114D0, 0x11650, 0x116C0,
    0x11730, 0x118E0, 0x11950, 0x11C50, 0x11D50, 0x11DA0, 0x11F50, 0x16A60, 0x16AC0, 0x16B50,
    0x1D7CE, 0x1D7D8, 0x1D7E2, 0x1D7EC, 0x1D7F6, 0x1E140, 0x1E2F0, 0x1E4F0, 0x1E950, 0x1FBF0]

def digitValue (c : Char) : Option Nat :=
  (zeros.find? fun z => z ≤ c.toNat && c.toNat < z + 10).map fun z => c.toNat - z

/-- The digits after a first one; an underscore may stand between two. -/
def moreDigits (n : Nat) : List Char → Option Nat
  | [] => some n
  | '_' :: c :: cs => (digitValue c).bind fun d => moreDigits (10 * n + d) cs
  | c :: cs => (digitValue c).bind fun d => moreDigits (10 * n + d) cs

def digitsValue : List Char → Option Nat
  | [] => none
  | c :: cs => (digitValue c).bind fun d => moreDigits d cs

/-- The blanks that `int` skips. -/
def isBlank (c : Char) : Bool :=
  let n := c.toNat
  (9 ≤ n && n ≤ 13) || n == 0x20 || (0x2000 ≤ n && n ≤ 0x200A) ||
    [0x85, 0xA0, 0x1680, 0x2028, 0x2029, 0x202F, 0x205F, 0x3000].contains n

/-- `int(s)` of a text: blanks around a numeral with an optional sign. -/
def intOfText (s : String) : Except Err Int :=
  let cs := ((s.toList.dropWhile isBlank).reverse.dropWhile isBlank).reverse
  let value := match cs with
    | '-' :: cs => (digitsValue cs).map fun n => -(n : Int)
    | '+' :: cs => (digitsValue cs).map fun n => (n : Int)
    | cs => (digitsValue cs).map fun n => (n : Int)
  match value with
  | some i => .ok i
  | none => .error .valueError

example : [" 1_000\t", "-４２", "1__0", "_1", "+ 5"].map (fun s => (intOfText s).toOption) =
    [some 1000, some (-42), none, none, none] := by decide

/-- `int(v)`. -/
def Value.toInt : Value → Except Err Int
  | .null => .error .typeError
  | .bool b => .ok (if b then 1 else 0)
  | .int i => .ok i
  | .text s => intOfText s

/-- Whether the setter of `dropclass` can take a value: `None`, or one that has a length. -/
def Value.isClass : Value → Bool
  | .null | .text _ => true
  | .bool _ | .int _ => false

/-- `str(v)`. -/
def Value.str : Value → String
  | .null => "None"
  | .bool b => if b then "True" else "False"
  | .int i => toString i
  | .text s => s

inductive Usage
  | inputPort
  | outputPort
  | inputOutput
  | other
  deriving DecidableEq, Repr

/-- A component field with its port usage. -/
structure Field where
  id : String
  name : String
  value : Value := .null
  defaultValue : Value := .text ""
  usage : Usage := .other
  deriving DecidableEq, Repr

/-- What `convert_fields` copies to the node: the default stands in for an empty value. -/
def Field.converted (f : Field) : Value :=
  if f.value = .text "" then f.defaultValue else f.value

/-- A node of `nodeDataArray`. `keys` are those of its JSON object that no field supplies. -/
structure Node where
  id : NodeId
  name : String := ""
  category : Category
  categoryType : CategoryType
  isGroup : Bool := false
  isSubGraphApp : Option Bool := none
  isSubGraphConstruct : Option Bool := none
  fields : List Field := []
  keys : List (String × Value) := []
  outputPorts : List (String × String) := []
  weight : Int := 1
  deriving DecidableEq, Repr

namespace Node

/-- `jd.get(key)`: the last field of that name, else the node's own key. -/
def get? (n : Node) (key : String) : Option Value :=
  match n.fields.reverse.find? (·.name == key) with
  | some f => some f.converted
  | none => n.keys.lookup key

/-- The node as `make_single_drop` leaves it: a field's own value is copied over its key, be it
empty or not. -/
def rewritten (n : Node) : Node :=
  { n with fields := n.fields.map fun f => { f with defaultValue := .text "" } }

def isData (n : Node) : Bool := n.categoryType == .data

def isApp (n : Node) : Bool := n.categoryType == .application

/-- `is_construct`: only Scatters and Loops have to be groups. -/
def isConstruct (n : Node) : Category → Bool
  | .scatter => n.isGroup && n.category == .scatter
  | .loop => n.isGroup && n.category == .loop
  | .subGraph => n.isSubGraphApp.getD (n.category == .subGraph)
  | .gather => n.category == .gather
  | .groupBy => n.category == .groupBy
  | .mpi => n.category == .mpi
  | .branch => n.category == .branch
  | .service => n.category == .service
  | _ => false

def isStartNode (n : Node) : Bool := n.category == .start

/-- The first of the keys that is there names the class; a component that has none is to sleep. -/
def classUnder (n : Node) (keys : List String) : Value :=
  (keys.findSome? n.get?).getD (.text "dlg.apps.simple.SleepApp")

/-- `dropclass`, as the constructor leaves it. -/
def dropclass (n : Node) : Value :=
  match n.categoryType with
  | .data => n.classUnder ["dropclass", "Data class", "dataclass"]
  | .application =>
    n.classUnder ["dropclass", "Application Class", "Application class", "appclass"]
  | .construct | .control => n.classUnder ["inputApplicationName"]
  | .other => .text "Other"
  | _ => .null

/-- `app_class`, before the category has its say. -/
def appClass (n : Node) : Value :=
  match n.get? "appclass" with
  | some c => c
  | none =>
    if n.dropclass = .null ∨ n.dropclass = .text "" then .text "dlg.apps.simple.SleepApp"
    else n.dropclass

/-- `is_group_start` and `is_group_end` read their key under three spellings; the third one
only counts as present. -/
def flag (n : Node) (key spelled alsoSpelled : String) : Bool :=
  if (n.get? key).isSome || (n.get? spelled).isSome || (n.get? alsoSpelled).isSome then
    let value := if (n.get? key).isSome then n.get? key else n.get? spelled
    match value with
    | some (.bool b) => b
    | some (.int i) => i == 1
    | some (.text s) => lower s == "true" || lower s == "1"
    | _ => false
  else false

/-- The first of the keys that holds something, as an integer. -/
def firstInt (n : Node) (missing : Err) : List String → Except Err Int
  | [] => .error missing
  | key :: keys =>
    match n.get? key with
    | some v => if v.truthy then v.toInt else n.firstInt missing keys
    | none => n.firstInt missing keys

/-- The fields that are ports of one direction. -/
def ports (n : Node) (direction : Usage) : List Field :=
  n.fields.filter fun f => f.usage == direction || f.usage == .inputOutput

/-- `getPortName(ports, index=-1)`: the names by port id, the first field of an id winning. -/
def portNames (n : Node) (direction : Usage) : List (String × String) :=
  (n.ports direction).map fun f => (f.id, f.name)

/-- `getPortName(ports, portId=…)`: the last port that has the id, or the last of all. -/
def portName (n : Node) (direction : Usage) (portId : Option String) : Option String :=
  ((n.ports direction).filter fun f => portId.all (f.id == ·)).getLast?.map (·.name)

/-- The categoryType the links see: Services and Branches are applications once they have
been instantiated. -/
def wiredType (n : Node) : CategoryType :=
  if n.isGroup && n.category == .service then .application
  else if n.category == .branch && !n.isData then .application
  else n.categoryType

end Node

/-- A node in its place: `groups` are the groups around it, the innermost first. -/
structure LGNode where
  node : Node
  groups : List Node := []
  deriving DecidableEq, Repr

namespace LGNode

def id (n : LGNode) : NodeId := n.node.id

@[simp] theorem id_mk (n : Node) (groups : List Node) : (⟨n, groups⟩ : LGNode).id = n.id := rfl

def isGroup (n : LGNode) : Bool := n.node.isGroup

/-- The node once drops of it have been made. -/
def rewrittenIf (n : LGNode) (made : Bool) : LGNode :=
  { n with node := if made then n.node.rewritten else n.node }

@[simp] theorem id_rewrittenIf (n : LGNode) (made : Bool) : (n.rewrittenIf made).id = n.id := by
  cases made <;> rfl

/-- Without fields there is nothing to rewrite. -/
theorem rewrittenIf_of_fields {n : LGNode} (made : Bool) (h : n.node.fields = []) :
    n.rewrittenIf made = n := by
  obtain ⟨node, groups⟩ := n
  cases made
  · rfl
  · have hr : node.rewritten = node := by
      rw [Node.rewritten, h, List.map_nil, ← h]
    simp [rewrittenIf, hr]

@[simp] theorem isGroup_mk (n : Node) (groups : List Node) :
    (⟨n, groups⟩ : LGNode).isGroup = n.isGroup := rfl

def isConstruct (n : LGNode) (c : Category) : Bool := n.node.isConstruct c

/-- `group`, in its own place. -/
def group (n : LGNode) : Option LGNode :=
  match n.groups with
  | [] => none
  | g :: gs => some ⟨g, gs⟩

/-- `gid`: 0 stands for no group. -/
def gid (n : LGNode) : NodeId :=
  match n.groups with
  | [] => .int 0
  | g :: _ => g.id

def hLevel (n : LGNode) : Nat := n.groups.length + if n.isConstruct .mpi then 1 else 0

/-- `group_hierarchy`: the ids of the groups from the outside, after a "0". -/
def groupHierarchy (n : LGNode) : String :=
  "-".intercalate ("0" :: (n.groups.map fun g => g.id.text).reverse)

/-- `s.find(t) > -1`. -/
def finds (s t : String) : Bool := decide (t.toList <:+: s.toList)

def hRelated (n that : LGNode) : Bool :=
  decide (that.groupHierarchy.length + n.groupHierarchy.length ≤ 1) ||
    finds that.groupHierarchy n.groupHierarchy || finds n.groupHierarchy that.groupHierarchy

/-- A group start or end has to have a group. -/
def isGroupStart (n : LGNode) : Bool :=
  !n.groups.isEmpty && n.node.flag "group_start" "Group start" "Group Start"

def isGroupEnd (n : LGNode) : Bool :=
  !n.groups.isEmpty && n.node.flag "group_end" "Group end" "Group End"

end LGNode

end Daliuge.Unroll
