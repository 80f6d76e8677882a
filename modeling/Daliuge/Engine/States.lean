import Mathlib.Data.List.Basic

/-! The state enumerations of the engine's protocol and the events its drops fire. -/
namespace Daliuge.Engine

/-- `DROPStates`. -/
inductive DROPStates
  | initialized | writing | completed | error | expired | deleted | cancelled | skipped
  deriving DecidableEq, Repr

/-- `AppDROPStates`. -/
inductive AppDROPStates
  | notRun | running | finished | error | cancelled | skipped
  deriving DecidableEq, Repr

/-- The events a drop fires, with the attributes their listeners read. -/
inductive Event
  | status (value : DROPStates)
  | dropCompleted (status : DROPStates)
  | producerFinished (status : DROPStates) (execStatus : AppDROPStates)
  | execStatus (value : AppDROPStates)
  | reproducibility
  deriving DecidableEq, Repr

/-- What the modelled methods raise. -/
inductive Exn
  /-- `setCompleted` outside INITIALIZED and WRITING. -/
  | cannotSetComplete (status : DROPStates)
  /-- More producers finished than registered. -/
  | tooManyProducers (finished producers : Nat)
  /-- More effective inputs than inputs. -/
  | tooManyEffectiveInputs (effective : Int) (inputs : Nat)
  /-- `InvalidDROPState` in `dropCompleted`. -/
  | invalidDROPState (status : DROPStates)
  /-- `FileNotFoundError` of an `NgasDROP`, or what its server's answer raises. -/
  | fileNotFound
  deriving DecidableEq, Repr

/-- Still open for writing: the states every guarded operation starts from. -/
def DROPStates.isOpen : DROPStates → Bool
  | .initialized | .writing => true
  | _ => false

/-- The states a drop settles in by itself once its producers are done. -/
def DROPStates.isSettled : DROPStates → Bool
  | .completed | .error | .skipped => true
  | _ => false

def Event.isDropCompleted : Event → Bool
  | .dropCompleted _ => true
  | _ => false

/-- How many `dropCompleted` events a log holds. -/
def completions (log : List Event) : Nat := log.countP Event.isDropCompleted

@[simp] theorem completions_nil : completions [] = 0 := rfl

@[simp] theorem completions_append (xs ys : List Event) :
    completions (xs ++ ys) = completions xs + completions ys := List.countP_append

@[simp] theorem completions_cons (e : Event) (log : List Event) :
    completions (e :: log) = completions log + if e.isDropCompleted then 1 else 0 := by
  simp [completions, List.countP_cons]

@[simp] theorem isDropCompleted_dropCompleted (s : DROPStates) :
    (Event.dropCompleted s).isDropCompleted = true := rfl

@[simp] theorem isDropCompleted_status (s : DROPStates) :
    (Event.status s).isDropCompleted = false := rfl

@[simp] theorem isDropCompleted_execStatus (e : AppDROPStates) :
    (Event.execStatus e).isDropCompleted = false := rfl

@[simp] theorem isDropCompleted_producerFinished (s : DROPStates) (e : AppDROPStates) :
    (Event.producerFinished s e).isDropCompleted = false := rfl

@[simp] theorem isDropCompleted_reproducibility :
    Event.reproducibility.isDropCompleted = false := rfl

end Daliuge.Engine
