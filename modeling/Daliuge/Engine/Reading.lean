import Daliuge.Lib.Run
import Daliuge.Engine.Drop
import Mathlib.Data.List.Infix
import Mathlib.Data.Rat.Defs

/-!
# Reading

A data drop that is opened and closed by its readers while it hears from its producers, and the
sweep of the lifecycle manager that expires it. Readers and producers share one reference count.
-/
namespace Daliuge.Engine

open Run

/-- A `DataDROP`; `rios` are the descriptors of `_rios`. The `open` event is not logged. -/
structure DataDROP extends AbstractDROP where
  rios : List Int := []
  persist : Bool := false
  expireAfterUse : Bool := false
  expirationDate : ℚ := -1
  deriving DecidableEq

/-- What `open` and `close` raise. -/
inductive ReadError
  | notCompleted (status : DROPStates)
  /-- The number drawn is in use, so the loop of `open` draws again. -/
  | descriptorInUse (descriptor : Int)
  | illegalDescriptor (descriptor : Int)
  deriving DecidableEq, Repr

/-- Whether `skip` would be held back: the branch that only takes one off the count. -/
def AbstractDROP.heldBack (d : AbstractDROP) : Bool :=
  d.status.isOpen &&
    !(!d.blockSkip || (d.producers == 1 || (decide (1 < d.producers) && d.refCount == 1)))

namespace DataDROP

def lift (d : DataDROP) (f : AbstractDROP → AbstractDROP) : DataDROP :=
  { d with toAbstractDROP := f d.toAbstractDROP }

/-- `incrRefCount`. -/
def incrRefCount (d : DataDROP) : DataDROP := { d with refCount := d.refCount + 1 }

/-- `decrRefCount`. -/
def decrRefCount (d : DataDROP) : DataDROP := { d with refCount := d.refCount - 1 }

/-- `open`, with the random number it draws. -/
def openDescriptor (d : DataDROP) (descriptor : Int) : Except ReadError DataDROP :=
  if d.status ≠ .completed then .error (.notCompleted d.status)
  else if descriptor ∈ d.rios then .error (.descriptorInUse descriptor)
  else .ok { d with rios := d.rios ++ [descriptor] }.incrRefCount

/-- `_checkStateAndDescriptor`. -/
def checkStateAndDescriptor (d : DataDROP) (descriptor : Int) : Except ReadError Unit :=
  if d.status ≠ .completed then .error (.notCompleted d.status)
  else if descriptor ∉ d.rios then .error (.illegalDescriptor descriptor)
  else .ok ()

/-- `close`. -/
def close (d : DataDROP) (descriptor : Int) : Except ReadError DataDROP := do
  d.checkStateAndDescriptor descriptor
  let d := d.decrRefCount
  .ok { d with rios := d.rios.erase descriptor }

/-- `isBeingRead`. -/
def isBeingRead (d : DataDROP) : Bool := decide (0 < d.refCount)

/-- Whether the drop's time has come at `now`, its consumers being in the given states. -/
def isDue (d : DataDROP) (now : ℚ) (consumers : List AppDROPStates) : Bool :=
  if !d.persist && d.expireAfterUse then
    consumers.all fun s => s ∈ [AppDROPStates.finished, AppDROPStates.error]
  else !(d.expirationDate == -1 || decide (now ≤ d.expirationDate))

/-- What `expireCompletedDrops` does to one drop. -/
def expireCompleted (d : DataDROP) (now : ℚ) (consumers : List AppDROPStates) : DataDROP :=
  if d.status ≠ .completed then d
  else if !d.isDue now consumers then d
  else if d.isBeingRead then d
  else d.lift (·.setStatus .expired)

end DataDROP

/-- What happens to a data drop: calls by its producers, its readers and the manager. -/
inductive Use
  | finished (status : DROPStates)
  | skip
  | setCompleted
  | opened (descriptor : Int)
  | closed (descriptor : Int)
  | swept (now : ℚ) (consumers : List AppDROPStates)

/-- One call; a refused `open` or `close` leaves the drop as it was. -/
def use (d : DataDROP) : Use → DataDROP
  | .finished s => d.lift fun x => (x.producerFinished s).1
  | .skip => d.lift (·.skip)
  | .setCompleted => d.lift fun x => x.setCompleted.1
  | .opened descriptor => (d.openDescriptor descriptor).toOption.getD d
  | .closed descriptor => (d.close descriptor).toOption.getD d
  | .swept now consumers => d.expireCompleted now consumers

/-- The calls that take one off the count although no reader has gone. -/
def takesOff (d : DataDROP) : Use → Bool
  | .finished _ => true
  | .skip => d.heldBack
  | _ => false

/-- How many calls of a run take one off the count although no reader has gone. -/
def takenOff : DataDROP → List Use → Nat
  | _, [] => 0
  | d, u :: us => (takesOff d u).toNat + takenOff (use d u) us

/-- A newly created data drop, with any number of producers. -/
structure Unread (d : DataDROP) : Prop where
  status : d.status = .initialized
  refCount : d.refCount = 0
  rios : d.rios = []

/-- A drop in use is known to be in use, and no sweep expires it. -/
structure InUseKnown (d : DataDROP) : Prop where
  isBeingRead : d.isBeingRead = true ↔ ∃ descriptor, descriptor ∈ d.rios
  kept : (∃ descriptor, descriptor ∈ d.rios) → d.status ≠ .expired →
    ∀ now consumers, (d.expireCompleted now consumers).status ≠ .expired

namespace AbstractDROP

variable {d : AbstractDROP}

theorem completedrop_refCount : d.completedrop.refCount = d.refCount := rfl

@[simp] theorem setCompleted_refCount : d.setCompleted.1.refCount = d.refCount := by
  rcases setCompleted_cases (d := d) with ⟨_, h⟩ | ⟨_, h⟩ | ⟨_, _, h⟩ | ⟨_, _, h⟩ <;>
    simp [h, completedrop_refCount]

@[simp] theorem setError_refCount : d.setError.refCount = d.refCount := by
  unfold setError
  split
  · rfl
  · simp [completedrop_refCount]

/-- Every report takes one off the count, the refused ones included. -/
theorem producerFinished_refCount (s : DROPStates) :
    (d.producerFinished s).1.refCount = d.refCount - 1 := by
  have hr : (d.recordReport s).refCount = d.refCount - 1 := rfl
  rcases producerFinished_cases (d := d) s with ⟨_, h⟩ | ⟨_, _, h⟩ | ⟨_, h⟩ <;> simp [h, hr]

theorem skip_refCount : d.skip.refCount = d.refCount - d.heldBack.toNat := by
  unfold skip heldBack
  cases hs : d.status.isOpen with
  | false => simp
  | true =>
    simp only [if_true, Bool.true_and]
    split
    · rename_i hb
      rw [hb]
      simp [completedrop_refCount]
    · rename_i hb
      rw [Bool.not_eq_true] at hb
      rw [hb]
      simp

end AbstractDROP

variable {d : DataDROP} {us : List Use} {descriptor : Int}

theorem openDescriptor_cases (d : DataDROP) (descriptor : Int) :
    (d.status = .completed ∧ descriptor ∉ d.rios ∧ d.openDescriptor descriptor =
      .ok { d with rios := d.rios ++ [descriptor], refCount := d.refCount + 1 }) ∨
    (d.openDescriptor descriptor).toOption = none := by
  unfold DataDROP.openDescriptor
  by_cases hs : d.status = .completed
  · by_cases hm : descriptor ∈ d.rios
    · simp [hs, hm, Except.toOption]
    · simp [hs, hm, DataDROP.incrRefCount]
  · simp [hs, Except.toOption]

theorem close_cases (d : DataDROP) (descriptor : Int) :
    (d.status = .completed ∧ descriptor ∈ d.rios ∧ d.close descriptor =
      .ok { d with rios := d.rios.erase descriptor, refCount := d.refCount - 1 }) ∨
    (d.close descriptor).toOption = none := by
  unfold DataDROP.close DataDROP.checkStateAndDescriptor
  by_cases hs : d.status = .completed
  · by_cases hm : descriptor ∈ d.rios
    · simp [hs, hm, DataDROP.decrRefCount, bind, Except.bind]
    · simp [hs, hm, Except.toOption, bind, Except.bind]
  · simp [hs, Except.toOption, bind, Except.bind]

theorem expireCompleted_cases (d : DataDROP) (now : ℚ) (consumers : List AppDROPStates) :
    d.expireCompleted now consumers = d ∨
    (d.isBeingRead = false ∧
      d.expireCompleted now consumers = d.lift (·.setStatus .expired)) := by
  unfold DataDROP.expireCompleted
  split
  · exact Or.inl rfl
  · split
    · exact Or.inl rfl
    · split
      · exact Or.inl rfl
      · rename_i hr
        exact Or.inr ⟨by simpa using hr, rfl⟩

/-- One call moves the count with the readers, but for what it takes off besides. -/
theorem refCount_use (d : DataDROP) (u : Use) :
    (use d u).refCount - (use d u).rios.length =
      d.refCount - d.rios.length - (takesOff d u).toNat := by
  cases u with
  | finished s =>
    have hc : (use d (.finished s)).refCount = d.refCount - 1 :=
      AbstractDROP.producerFinished_refCount s
    have hr : (use d (.finished s)).rios = d.rios := rfl
    have ht : (takesOff d (.finished s)).toNat = 1 := rfl
    rw [hc, hr, ht]
    omega
  | skip =>
    have hc : (use d .skip).refCount = d.refCount - d.heldBack.toNat := AbstractDROP.skip_refCount
    have hr : (use d .skip).rios = d.rios := rfl
    have ht : (takesOff d .skip).toNat = d.heldBack.toNat := rfl
    rw [hc, hr, ht]
    omega
  | setCompleted =>
    have hc : (use d .setCompleted).refCount = d.refCount := AbstractDROP.setCompleted_refCount
    have hr : (use d .setCompleted).rios = d.rios := rfl
    have ht : (takesOff d .setCompleted).toNat = 0 := rfl
    rw [hc, hr, ht]
    omega
  | opened descriptor =>
    have ht : (takesOff d (.opened descriptor)).toNat = 0 := rfl
    rcases openDescriptor_cases d descriptor with ⟨_, _, he⟩ | he
    · simp only [use, he, Except.toOption, Option.getD_some, ht, List.length_append,
        List.length_singleton]
      omega
    · simp only [use, he, Option.getD_none, ht]
      omega
  | closed descriptor =>
    have ht : (takesOff d (.closed descriptor)).toNat = 0 := rfl
    rcases close_cases d descriptor with ⟨_, hm, he⟩ | he
    · have hl := List.length_erase_of_mem hm
      have hp := List.length_pos_of_mem hm
      simp only [use, he, Except.toOption, Option.getD_some, ht, hl]
      omega
    · simp only [use, he, Option.getD_none, ht]
      omega
  | swept now consumers =>
    have ht : (takesOff d (.swept now consumers)).toNat = 0 := rfl
    rcases expireCompleted_cases d now consumers with he | ⟨_, he⟩
    · simp only [use, he, ht]
      omega
    · simp only [use, he, ht, DataDROP.lift, AbstractDROP.setStatus_refCount]
      omega

theorem refCount_run (d : DataDROP) (us : List Use) :
    (run use d us).refCount - (run use d us).rios.length =
      d.refCount - d.rios.length - takenOff d us := by
  induction us generalizing d with
  | nil => simp [takenOff]
  | cons u us ih =>
    have hu := refCount_use d u
    have hr := ih (use d u)
    rw [run_cons, hr, hu, takenOff]
    push_cast
    omega

/-- A sweep spares every drop that is known to be read. -/
theorem expireCompleted_of_isBeingRead (h : d.isBeingRead = true) (hs : d.status ≠ .expired)
    (now : ℚ) (consumers : List AppDROPStates) :
    (d.expireCompleted now consumers).status ≠ .expired := by
  rcases expireCompleted_cases d now consumers with he | ⟨hr, _⟩
  · rw [he]
    exact hs
  · simp [h] at hr

theorem hasReader_iff : d.rios ≠ [] ↔ ∃ descriptor, descriptor ∈ d.rios := by
  constructor
  · exact fun h => List.exists_mem_of_ne_nil d.rios h
  · rintro ⟨descriptor, hm⟩
    exact List.ne_nil_of_mem hm

theorem inUseKnown_iff_isBeingRead : InUseKnown d ↔ (d.isBeingRead = true ↔ d.rios ≠ []) := by
  rw [hasReader_iff]
  constructor
  · exact fun h => h.isBeingRead
  · exact fun h => ⟨h, fun hr hs => expireCompleted_of_isBeingRead (h.mpr hr) hs⟩

/-- The state a run reaches: in use and known to be so, or not in use at all. -/
theorem inUseKnown_run (h : Unread d) : InUseKnown (run use d us) ↔
    (run use d us).rios = [] ∨ takenOff d us < (run use d us).rios.length := by
  have hr := refCount_run d us
  rw [h.refCount, h.rios, List.length_nil] at hr
  rw [inUseKnown_iff_isBeingRead, DataDROP.isBeingRead, decide_eq_true_eq]
  cases hl : (run use d us).rios with
  | nil =>
    rw [hl, List.length_nil] at hr
    simp only [ne_eq, not_true_eq_false, iff_false, true_or, iff_true]
    omega
  | cons x xs =>
    rw [hl] at hr
    simp only [ne_eq, reduceCtorEq, not_false_eq_true, iff_true, false_or]
    omega

/-- All along a run a drop in use is known to be in use exactly when at every moment either no
descriptor is open or more descriptors are open than the producers have taken off the count. -/
theorem inUseKnown_iff (h : Unread d) (us : List Use) :
    (∀ pre, pre <+: us → InUseKnown (run use d pre)) ↔
    ∀ pre, pre <+: us →
      (run use d pre).rios = [] ∨ takenOff d pre < (run use d pre).rios.length :=
  forall_congr' fun _ => forall_congr' fun _ => inUseKnown_run h

/-- A drop completed from outside, with two readers, is known to be read as long as it is. -/
theorem inUseKnown_twoReaders :
    (run use {} [.setCompleted, .opened 3, .opened 5, .closed 3]).rios = [5] ∧
      ∀ pre, pre <+: [.setCompleted, .opened 3, .opened 5, .closed 3] →
        InUseKnown (run use {} pre) := by
  refine ⟨by decide, (inUseKnown_iff ⟨rfl, rfl, rfl⟩ _).mpr ?_⟩
  simp only [← List.mem_inits]
  decide

/-- Once its only producer has finished, a drop that is open is not known to be read and expires. -/
theorem expired_while_read :
    ¬ ∀ (d : DataDROP) (us : List Use), Unread d → InUseKnown (run use d us) := by
  intro h
  have hk := h { producers := 1, expireAfterUse := true } [.finished .completed, .opened 3]
    ⟨rfl, rfl, rfl⟩
  have hrios : (run use { producers := 1, expireAfterUse := true }
      [.finished .completed, .opened 3]).rios = [3] := by decide
  exact absurd (hk.kept ⟨3, by rw [hrios]; simp⟩ (by decide) 0 []) (by decide)

end Daliuge.Engine
