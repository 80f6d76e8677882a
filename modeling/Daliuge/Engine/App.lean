import Mathlib.Algebra.Group.Nat.Defs
import Daliuge.Engine.Drop

/-!
# Application drops

`AppDROP` and `InputFiredAppDROP` over the uids `U` of their inputs. The daemon thread of
`async_execute` is part of the state, cut at the points where another call can arrive:
before `execute` starts, between two tries, before the status is set and before the
notification.
-/
namespace Daliuge.Engine

/-- Where the thread started by `async_execute` stands inside `execute`. -/
inductive Thread
  | idle
  | started
  | running (tries : Nat)
  | ending (failed : Bool)
  | notifying
  deriving DecidableEq, Repr

/-- How one call of `run_drop` ends. -/
inductive RunResult
  | returns
  | errorManagerCaught
  | raises
  deriving DecidableEq, Repr

/-- An `InputFiredAppDROP`. -/
structure AppDROP (U : Type) extends AbstractDROP where
  inputs : List U := []
  execStatus : AppDROPStates := .notRun
  nEffectiveInputs : Int := -1
  inputErrorThreshold : Int := 0
  nTries : Nat := 1
  completedInputs : List U := []
  errorInputs : List U := []
  skippedInputs : List U := []
  thread : Thread := .idle
  deriving DecidableEq, Repr

/-- What `dropCompleted` decides after recording an input. -/
inductive Verdict
  | wait
  | error
  | notify
  | skip
  | execute
  deriving DecidableEq, Repr

/-- `num / den` to the nearest integer, ties to even. -/
def roundHalfEven (num den : Nat) : Nat :=
  let q := num / den
  let r := num % den
  if den < 2 * r ∨ (2 * r = den ∧ q % 2 = 1) then q + 1 else q

/-- `num / den` as a float: `m / 2 ^ k` with an `m` of 53 bits, for a quotient of at most that. -/
def floatQuotient (num den : Nat) : Nat × Nat :=
  let k := 52 + den.log2 - num.log2
  let k := if num * 2 ^ k / den < 2 ^ 52 then k + 1 else k
  (roundHalfEven (num * 2 ^ k) den, k)

/-- `math.floor((error_len / float(n_eff_inputs)) * 100)`, with both roundings. -/
def percentOf (failed effective : Nat) : Nat :=
  let quotient := floatQuotient failed effective
  let percent := floatQuotient (100 * quotient.1) (2 ^ quotient.2)
  percent.1 / 2 ^ percent.2

example : percentOf 0 3 = 0 ∧ percentOf 7 7 = 100 ∧ percentOf 29 50 = 57 := by decide

namespace AppDROP

variable {U : Type}

def lift (a : AppDROP U) (f : AbstractDROP → AbstractDROP) : AppDROP U :=
  { a with toAbstractDROP := f a.toAbstractDROP }

def setStatus (a : AppDROP U) (value : DROPStates) : AppDROP U := a.lift (·.setStatus value)

def fire (a : AppDROP U) (e : Event) : AppDROP U := a.lift (·.fire e)

/-- The `execStatus` setter. -/
def setExecStatus (a : AppDROP U) (value : AppDROPStates) : AppDROP U :=
  if a.execStatus = value then a
  else { a with execStatus := value }.fire (.execStatus value)

/-- The status `_notifyAppIsFinished` leaves behind. -/
def finalStatus (a : AppDROP U) : DROPStates :=
  if a.execStatus = .error then .error else .completed

/-- `_notifyAppIsFinished`: it reads the execution status only, never the status. -/
def notifyAppIsFinished (a : AppDROP U) : AppDROP U :=
  ((a.setStatus a.finalStatus).fire (.producerFinished a.finalStatus a.execStatus)).lift
    (·.completedrop)

/-- `AppDROP.cancel`. -/
def cancel (a : AppDROP U) : AppDROP U := (a.lift (·.cancel)).setExecStatus .cancelled

/-- `AppDROP.skip`, without the `skip` calls it makes on its outputs. -/
def skip (a : AppDROP U) : AppDROP U :=
  let b := (a.lift (·.skip)).setExecStatus .skipped
  if a.execStatus = .notRun then b.fire (.producerFinished b.status b.execStatus) else b

/-- The number of effective inputs; -1 stands for all of them. -/
def effectiveInputs (a : AppDROP U) : Int :=
  if a.nEffectiveInputs = -1 then a.inputs.length else a.nEffectiveInputs

/-- The inputs recorded so far, counted as the source counts them: event by event. -/
def inputsSeen (a : AppDROP U) : Nat :=
  a.skippedInputs.length + a.errorInputs.length + a.completedInputs.length

/-- The list of `dropCompleted` that takes an input in the given state. -/
def recordInput (a : AppDROP U) (uid : U) : DROPStates → Except Exn (AppDROP U)
  | .error => .ok { a with errorInputs := a.errorInputs ++ [uid] }
  | .completed => .ok { a with completedInputs := a.completedInputs ++ [uid] }
  | .skipped => .ok { a with skippedInputs := a.skippedInputs ++ [uid] }
  | s => .error (.invalidDROPState s)

/-- The percentage of failed effective inputs, rounded down. -/
def percentFailed (a : AppDROP U) : Nat :=
  percentOf a.errorInputs.length a.effectiveInputs.toNat

/-- The branches of `dropCompleted` once the input is recorded; the last two of the
source both execute. -/
def verdict (a : AppDROP U) : Verdict :=
  if (a.inputsSeen : Int) = a.effectiveInputs then
    if (a.percentFailed : Int) > a.inputErrorThreshold then .error
    else if a.execStatus = .error then .notify
    else if (!a.blockSkip && decide (0 < a.skippedInputs.length)) ||
        (a.blockSkip && decide ((a.skippedInputs.length : Int) = a.effectiveInputs)) then .skip
    else .execute
  else .wait

/-- What `dropCompleted` does to the application itself for each verdict. -/
def obey (a : AppDROP U) : Verdict → AppDROP U
  | .wait => a
  | .error => ((a.setExecStatus .error).setStatus .error).notifyAppIsFinished
  | .notify => a.notifyAppIsFinished
  | .skip => a.skip
  | .execute => { a with thread := .started }

/-- `InputFiredAppDROP.dropCompleted`, with the verdict it acts on. -/
def dropCompleted (a : AppDROP U) (uid : U) (dropState : DROPStates) :
    AppDROP U × Except Exn Verdict :=
  if a.effectiveInputs > a.inputs.length then
    (a, .error (.tooManyEffectiveInputs a.nEffectiveInputs a.inputs.length))
  else
    match a.recordInput uid dropState with
    | .error e => (a, .error e)
    | .ok a => (a.obey a.verdict, .ok a.verdict)

/-- `execute` up to its first try. -/
def executeStart (a : AppDROP U) : AppDROP U :=
  match a.thread with
  | .started => { a.setExecStatus .running with thread := .running 0 }
  | _ => a

/-- One turn of the loop of `execute`. A cancelled application returns without a word. -/
def executeTry (a : AppDROP U) (r : RunResult) : AppDROP U :=
  match a.thread with
  | .running tries =>
    match r with
    | .returns =>
      if a.execStatus = .cancelled then { a with thread := .idle }
      else { a.setExecStatus .finished with thread := .ending false }
    | .errorManagerCaught => { a.setExecStatus .error with thread := .ending true }
    | .raises =>
      if a.execStatus = .cancelled then { a with thread := .idle }
      else if tries + 1 < a.nTries then { a with thread := .running (tries + 1) }
      else { a.setExecStatus .error with thread := .ending true }
  | _ => a

/-- `drop_state` of `execute`. -/
def dropState (failed : Bool) : DROPStates := if failed then .error else .completed

/-- `self.status = drop_state` at the end of `execute`. -/
def executeEnd (a : AppDROP U) : AppDROP U :=
  match a.thread with
  | .ending failed => { a.setStatus (dropState failed) with thread := .notifying }
  | _ => a

/-- The notification that ends `execute`. -/
def executeNotify (a : AppDROP U) : AppDROP U :=
  match a.thread with
  | .notifying => { a.notifyAppIsFinished with thread := .idle }
  | _ => a

/-! Field lemmas. -/

variable {a : AppDROP U}

@[simp] theorem setStatus_status (v : DROPStates) : (a.setStatus v).status = v :=
  AbstractDROP.setStatus_status v

@[simp] theorem fire_status (e : Event) : (a.fire e).status = a.status := rfl

@[simp] theorem fire_execStatus (e : Event) : (a.fire e).execStatus = a.execStatus := rfl

@[simp] theorem setStatus_execStatus (v : DROPStates) :
    (a.setStatus v).execStatus = a.execStatus := rfl

@[simp] theorem setExecStatus_status (v : AppDROPStates) :
    (a.setExecStatus v).status = a.status := by
  unfold setExecStatus
  split <;> rfl

@[simp] theorem setExecStatus_execStatus (v : AppDROPStates) :
    (a.setExecStatus v).execStatus = v := by
  unfold setExecStatus
  split <;> simp_all

@[simp] theorem notifyAppIsFinished_status : a.notifyAppIsFinished.status = a.finalStatus :=
  AbstractDROP.setStatus_status _

end AppDROP

end Daliuge.Engine
