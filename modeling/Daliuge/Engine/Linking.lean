import Daliuge.Engine.Relationships

/-!
# Linking

The `add` methods of any two drops, data or applications, with the state an exception leaves
behind. Applications are drops too, so they have consumers and producers of their own.
-/
namespace Daliuge.Engine.Linking

/-- The classes that differ in the methods they have and in what these accept. -/
inductive DropClass
  | data
  | app (c : AppClass)
  deriving DecidableEq, Repr

/-- `isinstance(drop, AppDROP)`; only applications have `addInput`, `addOutput` and
`addStreamingInput`. -/
def DropClass.isApp : DropClass → Bool
  | .data => false
  | .app _ => true

/-- What a drop keeps of its relationships. -/
structure Links (U : Type) where
  dropClass : DropClass := .data
  executionMode : ExecutionMode := .drop
  consumers : List U := []
  producers : List U := []
  streamingConsumers : List U := []
  inputs : List U := []
  outputs : List U := []
  streamingInputs : List U := []
  listeners : EventType → List U := fun _ => []

/-- What a call raises. -/
inductive Raised
  /-- `InvalidRelationshipException`. -/
  | invalid (reason : InvalidRelationship)
  /-- `InvalidRelationshipException`, for an application that is to be its own output. -/
  | ownOutput
  /-- The receiver has no such method. -/
  | attributeError
  deriving DecidableEq, Repr

def Raised.isInvalidRelationship : Raised → Bool
  | .attributeError => false
  | _ => true

inductive Method
  | addConsumer | addInput | addProducer | addOutput | addStreamingConsumer | addStreamingInput
  deriving DecidableEq, Repr

/-- A call `receiver.method(argument, back)`. -/
structure Call (U : Type) where
  method : Method
  receiver : U
  argument : U
  back : Bool := true
  deriving DecidableEq, Repr

/-- `subscribe`. -/
def Links.subscribe {U : Type} (x : Links U) (listener : U) (e : EventType) : Links U :=
  { x with listeners := Function.update x.listeners e (x.listeners e ++ [listener]) }

/-- The drops a call leaves, and what it raises. -/
abbrev Outcome (U : Type) := (U → Links U) × Option Raised

/-- What follows, unless something was raised. -/
def Outcome.andThen {U : Type} (r : Outcome U) (f : (U → Links U) → Outcome U) : Outcome U :=
  match r.2 with
  | none => f r.1
  | some e => (r.1, some e)

section Definitions

variable {U : Type} [DecidableEq U]

def onDrop (w : U → Links U) (x : U) (f : Links U → Links U) : U → Links U :=
  Function.update w x (f (w x))

def done (w : U → Links U) : Outcome U := (w, none)

/-- The subscription to `dropCompleted`, in the execution mode DROP only. -/
def subscribeCompleted (w : U → Links U) (x y : U) : U → Links U :=
  if (w x).executionMode = .drop then onDrop w x (·.subscribe y .dropCompleted) else w

/-- `AbstractDROP.addConsumer`, given its back-reference. -/
def addConsumer (back : (U → Links U) → Outcome U) (w : U → Links U) (x y : U) : Outcome U :=
  if y ∈ (w x).streamingConsumers then (w, some (.invalid .alreadyStreamingConsumer))
  else if y ∈ (w x).consumers then done w
  else
    let w := onDrop w x fun l => { l with consumers := l.consumers ++ [y] }
    let w := subscribeCompleted w x y
    (back w).andThen fun w => done (onDrop w x (·.subscribe y .reproducibility))

/-- `AppDROP.addInput`, and that of `SocketListenerApp`. -/
def addInput (back : (U → Links U) → Outcome U) (w : U → Links U) (x y : U) : Outcome U :=
  match (w x).dropClass with
  | .data => (w, some .attributeError)
  | .app .socketListener => (w, some (.invalid .noInputs))
  | .app _ =>
    if y ∈ (w x).inputs then done w
    else
      let w := onDrop w x fun l => { l with inputs := l.inputs ++ [y] }
      (back w).andThen fun w => done (onDrop w x (·.subscribe y .dropFailed))

/-- `AbstractDROP.addProducer`. -/
def addProducer (back : (U → Links U) → Outcome U) (w : U → Links U) (x y : U) : Outcome U :=
  if y ∈ (w x).producers then done w
  else back (onDrop w x fun l => { l with producers := l.producers ++ [y] })

/-- `AppDROP.addOutput`. -/
def addOutput (back : (U → Links U) → Outcome U) (w : U → Links U) (x y : U) : Outcome U :=
  match (w x).dropClass with
  | .data => (w, some .attributeError)
  | .app _ =>
    if y = x then (w, some .ownOutput)
    else if y ∈ (w x).outputs then done w
    else
      let w := onDrop w x fun l => { l with outputs := l.outputs ++ [y] }
      (back w).andThen fun w => done (onDrop w x (·.subscribe y .producerFinished))

/-- `AbstractDROP.addStreamingConsumer`. -/
def addStreamingConsumer (back : (U → Links U) → Outcome U) (w : U → Links U) (x y : U) :
    Outcome U :=
  if y ∈ (w x).consumers then (w, some (.invalid .alreadyNormalConsumer))
  else if y ∈ (w x).streamingConsumers then done w
  else
    let w := onDrop w x fun l => { l with streamingConsumers := l.streamingConsumers ++ [y] }
    (back w).andThen fun w =>
      let w := subscribeCompleted w x y
      done (onDrop w x (·.subscribe y .reproducibility))

/-- `addStreamingInput` of the three classes. -/
def addStreamingInput (back : (U → Links U) → Outcome U) (w : U → Links U) (x y : U) :
    Outcome U :=
  match (w x).dropClass with
  | .data => (w, some .attributeError)
  | .app .inputFired => (w, some (.invalid .noStreamingInputs))
  | .app .socketListener => (w, some (.invalid .noInputs))
  | .app .appDROP =>
    if y ∈ (w x).streamingInputs then done w
    else back (onDrop w x fun l => { l with streamingInputs := l.streamingInputs ++ [y] })

/-- A back-reference: made if it is asked for and, from a data drop's methods, only if the other
drop has the method. -/
def backIf (wanted : Bool) (f : (U → Links U) → Outcome U) : (U → Links U) → Outcome U :=
  if wanted then f else done

/-- A call; the call it makes in turn has `back=False`. -/
def call (w : U → Links U) (c : Call U) : Outcome U :=
  let x := c.receiver
  let y := c.argument
  match c.method with
  | .addConsumer =>
    addConsumer (backIf (c.back && (w y).dropClass.isApp) (addInput done · y x)) w x y
  | .addInput => addInput (backIf c.back (addConsumer done · y x)) w x y
  | .addProducer =>
    addProducer (backIf (c.back && (w y).dropClass.isApp) (addOutput done · y x)) w x y
  | .addOutput => addOutput (backIf c.back (addProducer done · y x)) w x y
  | .addStreamingConsumer =>
    addStreamingConsumer
      (backIf (c.back && (w y).dropClass.isApp) (addStreamingInput done · y x)) w x y
  | .addStreamingInput => addStreamingInput (backIf c.back (addStreamingConsumer done · y x)) w x y

/-- Calls made one after the other, until one raises. -/
def calls (w : U → Links U) : List (Call U) → Outcome U
  | [] => done w
  | c :: cs => (call w c).andThen (calls · cs)

end Definitions

variable {U : Type} [DecidableEq U] {w : U → Links U} {x y z : U} {f : Links U → Links U}
  {r : Outcome U}

/-! Updates of a drop. -/

@[simp] theorem onDrop_self : onDrop w x f x = f (w x) := by simp [onDrop]

theorem onDrop_of_ne (h : y ≠ x) : onDrop w x f y = w y := by simp [onDrop, h]

/-- A field that a change keeps, of any drop. -/
theorem field_onDrop {β : Type} {p : Links U → β} (h : p (f (w x)) = p (w x)) :
    p (onDrop w x f y) = p (w y) := by
  by_cases hy : y = x
  · subst hy
    rw [onDrop_self, h]
  · rw [onDrop_of_ne hy]

/-- A field that subscriptions keep. -/
theorem field_subscribeCompleted {β : Type} {p : Links U → β}
    (h : ∀ l e, p (Links.subscribe l y e) = p l) : p (subscribeCompleted w x y z) = p (w z) := by
  unfold subscribeCompleted
  split
  · exact field_onDrop (h _ _)
  · rfl

omit [DecidableEq U] in
@[simp] theorem andThen_done : r.andThen done = r := by
  obtain ⟨w, e⟩ := r
  cases e <;> rfl

omit [DecidableEq U] in
theorem andThen_ok {g : (U → Links U) → Outcome U} (h : r.2 = none) : r.andThen g = g r.1 := by
  simp [Outcome.andThen, h]

omit [DecidableEq U] in
theorem andThen_raised {e : Raised} {g : (U → Links U) → Outcome U} (h : r.2 = some e) :
    r.andThen g = (r.1, some e) := by
  simp [Outcome.andThen, h]

end Daliuge.Engine.Linking
