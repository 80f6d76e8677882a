import Daliuge.Engine.States

/-!
# Drops

The state a drop keeps about its own life cycle, and the methods of
`AbstractDROP` and `DataDROP` that move it. A method that can raise returns the
state it leaves behind together with what it raised.
-/
namespace Daliuge.Engine

/-- The classes of data drops by their `setCompleted`: `FileDROP` and `NgasDROP` override it. -/
inductive Storage
  | file | ngas | other
  deriving DecidableEq, Repr

/-- The life-cycle part of an `AbstractDROP`. `fired` is the log of every event handed
to `_fire`; `producers` is `len(self._producers)`. -/
structure AbstractDROP where
  status : DROPStates := .initialized
  producers : Nat := 0
  finishedProducers : List DROPStates := []
  refCount : Int := 0
  blockSkip : Bool := false
  expectedSize : Int := -1
  size : Option Nat := none
  storage : Storage := .other
  fired : List Event := []
  deriving DecidableEq, Repr

namespace AbstractDROP

variable {d : AbstractDROP}

/-- `_fire`. -/
def fire (d : AbstractDROP) (e : Event) : AbstractDROP := { d with fired := d.fired ++ [e] }

/-- The `status` setter: requesting the present state does nothing. -/
def setStatus (d : AbstractDROP) (value : DROPStates) : AbstractDROP :=
  if value = d.status then d else { d with status := value }.fire (.status value)

/-- `completedrop`. -/
def completedrop (d : AbstractDROP) : AbstractDROP := d.fire .reproducibility

/-- `setError`. -/
def setError (d : AbstractDROP) : AbstractDROP :=
  if d.status = .cancelled ∨ d.status = .skipped then d
  else ((d.setStatus .error).fire (.dropCompleted .error)).completedrop

/-- `_setCompletedStateCheck`: whether to go on, after what it fires or raises itself. -/
def setCompletedStateCheck (d : AbstractDROP) : AbstractDROP × Except Exn Bool :=
  match d.status with
  | .cancelled => (d, .ok false)
  | .skipped => (d.fire (.dropCompleted .skipped), .ok false)
  | .completed => (d, .ok false)
  | .initialized | .writing => (d, .ok true)
  | s => (d, .error (.cannotSetComplete s))

/-- What every `setCompleted` does to an open drop whose storage answers. -/
def complete (d : AbstractDROP) : AbstractDROP :=
  ((d.setStatus .completed).fire (.dropCompleted .completed)).completedrop

/-- `setCompleted` as `AbstractDROP` has it. -/
def setCompletedBase (d : AbstractDROP) : AbstractDROP × Option Exn :=
  match d.setCompletedStateCheck with
  | (d, .error e) => (d, some e)
  | (d, .ok false) => (d, none)
  | (d, .ok true) => (d.complete, none)

/-- `FileDROP.setCompleted`. It has no early return for a COMPLETED drop, which fires once more.
`accessible`: the path can be read or created. The size found there is not asked for again. -/
def setCompletedFile (d : AbstractDROP) (accessible : Bool) : AbstractDROP × Option Exn :=
  match d.status with
  | .cancelled => (d, none)
  | .skipped => (d.fire (.dropCompleted .skipped), none)
  | .completed | .initialized | .writing =>
    let d := d.setStatus .completed
    -- the status is ERROR and what is fired is COMPLETED all the same
    let d := if accessible then d else d.setStatus .error
    ((d.fire (.dropCompleted .completed)).completedrop, none)
  | s => (d, some (.cannotSetComplete s))

/-- `NgasDROP.setCompleted`. `accessible`: the server has the file and tells its size. -/
def setCompletedNgas (d : AbstractDROP) (accessible : Bool) : AbstractDROP × Option Exn :=
  match d.setCompletedStateCheck with
  | (d, .error e) => (d, some e)
  | (d, .ok false) => (d, none)
  | (d, .ok true) => if accessible then (d.complete, none) else (d.setError, some .fileNotFound)

/-- `setCompleted`, by the class of the drop. Runs of whole graphs have storage that answers. -/
def setCompleted (d : AbstractDROP) (accessible : Bool := true) : AbstractDROP × Option Exn :=
  match d.storage with
  | .file => d.setCompletedFile accessible
  | .ngas => d.setCompletedNgas accessible
  | .other => d.setCompletedBase

/-- `cancel`. -/
def cancel (d : AbstractDROP) : AbstractDROP :=
  (if d.status.isOpen then d.setStatus .cancelled else d).completedrop

/-- `skip`. -/
def skip (d : AbstractDROP) : AbstractDROP :=
  if d.status.isOpen then
    if !d.blockSkip || (d.producers == 1 || (decide (1 < d.producers) && d.refCount == 1)) then
      (d.setStatus .skipped).completedrop
    else { d with refCount := d.refCount - 1 }
  else d

/-- The bookkeeping of `producerFinished` under its lock. -/
def recordReport (d : AbstractDROP) (dropState : DROPStates) : AbstractDROP :=
  { d with
    finishedProducers := d.finishedProducers ++ [dropState], refCount := d.refCount - 1 }

/-- `producerFinished`. -/
def producerFinished (d : AbstractDROP) (dropState : DROPStates) (accessible : Bool := true) :
    AbstractDROP × Option Exn :=
  let d := d.recordReport dropState
  let nFinished := d.finishedProducers.length
  if d.producers < nFinished then (d, some (.tooManyProducers nFinished d.producers))
  else if nFinished = d.producers then
    if .error ∈ d.finishedProducers then (d.setError, none) else d.setCompleted accessible
  else (d, none)

/-- Whether this report is the last one and some producer failed, so that `setError` runs. -/
def failsOn (d : AbstractDROP) (s : DROPStates) : Prop :=
  d.finishedProducers.length + 1 = d.producers ∧ .error ∈ d.finishedProducers ++ [s]

/-- The last report finds the drop COMPLETED and announces it once more: `setError` and the
`setCompleted` of a file do not look. -/
def announcesAgain (d : AbstractDROP) (s : DROPStates) : Prop :=
  d.status = .completed ∧ d.finishedProducers.length + 1 = d.producers ∧
    (.error ∈ d.finishedProducers ++ [s] ∨ d.storage = .file)

/-- `DataDROP.write` of data whose storage took `nbytes` bytes, with its return code. -/
def write (d : AbstractDROP) (nbytes : Nat) : AbstractDROP × Int :=
  if d.status = .cancelled then (d, -1)
  else if !d.status.isOpen then (d, -2)
  else
    let size := d.size.getD 0 + nbytes
    let d := { d with size := some size }
    if d.expectedSize > 0 then
      if d.expectedSize - (size : Int) > 0 then (d.setStatus .writing, nbytes)
      else (d.setCompleted.1, nbytes)
    else (d.setStatus .writing, nbytes)

/-! Field lemmas: what each method leaves in the fields other proofs read. -/

@[simp] theorem fire_status (e : Event) : (d.fire e).status = d.status := rfl

@[simp] theorem fire_producers (e : Event) : (d.fire e).producers = d.producers := rfl

@[simp] theorem fire_blockSkip (e : Event) : (d.fire e).blockSkip = d.blockSkip := rfl

@[simp] theorem fire_refCount (e : Event) : (d.fire e).refCount = d.refCount := rfl

@[simp] theorem fire_expectedSize (e : Event) : (d.fire e).expectedSize = d.expectedSize := rfl

@[simp] theorem fire_finishedProducers (e : Event) :
    (d.fire e).finishedProducers = d.finishedProducers := rfl

@[simp] theorem fire_fired (e : Event) : (d.fire e).fired = d.fired ++ [e] := rfl

@[simp] theorem setStatus_status (v : DROPStates) : (d.setStatus v).status = v := by
  unfold setStatus
  split <;> simp_all

@[simp] theorem setStatus_producers (v : DROPStates) :
    (d.setStatus v).producers = d.producers := by
  unfold setStatus
  split <;> rfl

@[simp] theorem setStatus_blockSkip (v : DROPStates) :
    (d.setStatus v).blockSkip = d.blockSkip := by
  unfold setStatus
  split <;> rfl

@[simp] theorem setStatus_refCount (v : DROPStates) :
    (d.setStatus v).refCount = d.refCount := by
  unfold setStatus
  split <;> rfl

@[simp] theorem setStatus_expectedSize (v : DROPStates) :
    (d.setStatus v).expectedSize = d.expectedSize := by
  unfold setStatus
  split <;> rfl

@[simp] theorem setStatus_finishedProducers (v : DROPStates) :
    (d.setStatus v).finishedProducers = d.finishedProducers := by
  unfold setStatus
  split <;> rfl

@[simp] theorem completions_setStatus (v : DROPStates) :
    completions (d.setStatus v).fired = completions d.fired := by
  unfold setStatus
  split <;> simp

@[simp] theorem setStatus_storage (v : DROPStates) : (d.setStatus v).storage = d.storage := by
  unfold setStatus
  split <;> rfl

@[simp] theorem setStatus_same : d.setStatus d.status = d := by
  simp [setStatus]

/-- Everything a report can do: only the last one reaches `setError` or `setCompleted`. -/
theorem producerFinished_cases (s : DROPStates) (accessible : Bool := true) :
    (d.failsOn s ∧ (d.producerFinished s accessible).1 = (d.recordReport s).setError) ∨
    (d.finishedProducers.length + 1 = d.producers ∧ .error ∉ d.finishedProducers ++ [s] ∧
      (d.producerFinished s accessible).1 = ((d.recordReport s).setCompleted accessible).1) ∨
    (d.finishedProducers.length + 1 ≠ d.producers ∧
      (d.producerFinished s accessible).1 = d.recordReport s) := by
  have hl : (d.finishedProducers ++ [s]).length = d.finishedProducers.length + 1 := by simp
  have hp : (d.recordReport s).producers = d.producers := rfl
  have hm : (d.recordReport s).finishedProducers = d.finishedProducers ++ [s] := rfl
  by_cases hn : d.finishedProducers.length + 1 = d.producers
  · by_cases he : .error ∈ d.finishedProducers ++ [s]
    · refine Or.inl ⟨⟨hn, he⟩, ?_⟩
      simp only [producerFinished, hp, hm, hl, hn, he, Nat.lt_irrefl, if_true, if_false]
    · refine Or.inr (Or.inl ⟨hn, he, ?_⟩)
      simp only [producerFinished, hp, hm, hl, hn, he, Nat.lt_irrefl, if_true, if_false]
  · refine Or.inr (Or.inr ⟨hn, ?_⟩)
    simp only [producerFinished, hp, hm, hl, hn, if_false]
    split <;> rfl

/-- Where `setCompleted` fires: an open drop completes, a skipped one repeats its state, and so
does a COMPLETED file. -/
theorem setCompleted_cases :
    (d.status.isOpen = true ∧ d.setCompleted.1 =
      ((d.setStatus .completed).fire (.dropCompleted .completed)).completedrop) ∨
    (d.status = .skipped ∧ d.setCompleted.1 = d.fire (.dropCompleted .skipped)) ∨
    (d.status.isOpen = false ∧ d.status ≠ .skipped ∧ d.setCompleted.1 = d) ∨
    (d.status = .completed ∧ d.storage = .file ∧
      d.setCompleted.1 = (d.fire (.dropCompleted .completed)).completedrop) := by
  have he : d.status = .completed → d.setStatus .completed = d := fun h => by simp [setStatus, h]
  unfold setCompleted setCompletedBase setCompletedFile setCompletedNgas setCompletedStateCheck
    complete
  cases hs : d.storage <;> cases h : d.status <;> simp_all [DROPStates.isOpen]

/-- The three ends of `write`. -/
theorem write_cases (nbytes : Nat) :
    (d.status.isOpen = false ∧ (d.write nbytes).1 = d) ∨
    (d.status.isOpen = true ∧ (d.write nbytes).1 =
      { d with size := some (d.size.getD 0 + nbytes) }.setStatus .writing) ∨
    (d.status.isOpen = true ∧ 0 < d.expectedSize ∧ (d.write nbytes).1 =
      { d with size := some (d.size.getD 0 + nbytes) }.setCompleted.1) := by
  cases ho : d.status.isOpen with
  | false =>
    refine Or.inl ⟨rfl, ?_⟩
    unfold write
    split
    · rfl
    · simp [ho]
  | true =>
    have hc : d.status ≠ .cancelled := by intro h; simp [h, DROPStates.isOpen] at ho
    unfold write
    simp only [hc, ho, if_false]
    split
    · rename_i hb
      simp at hb
    · split
      · rename_i he
        split
        · exact Or.inr (Or.inl ⟨trivial, rfl⟩)
        · exact Or.inr (Or.inr ⟨trivial, he, rfl⟩)
      · exact Or.inr (Or.inl ⟨trivial, rfl⟩)

end AbstractDROP

end Daliuge.Engine
