import Daliuge.Lib.Run
import Daliuge.Engine.App

/-! Which life-cycle calls can move a drop out of a terminal state. -/
namespace Daliuge.Engine

open Run

/-- COMPLETED, ERROR, SKIPPED, CANCELLED and DELETED. -/
def DROPStates.isTerminal : DROPStates → Bool
  | .completed | .error | .skipped | .cancelled | .deleted => true
  | _ => false

/-- The states the life-cycle calls assign: all but INITIALIZED, EXPIRED and DELETED. -/
def DROPStates.isAssigned : DROPStates → Bool
  | .writing | .completed | .error | .skipped | .cancelled => true
  | _ => false

/-- A terminal state is not left for a different one of the assigned states. -/
def Absorbs (before after : DROPStates) : Prop :=
  before.isTerminal = true → after.isAssigned = true → after = before

/-- The life-cycle calls every drop answers; `accessible` is what its storage says to the call. -/
inductive DropCall
  | setCompleted (accessible : Bool)
  | setError
  | skip
  | cancel
  | producerFinished (dropState : DROPStates) (accessible : Bool)
  deriving DecidableEq, Repr

/-- The calls and the thread steps of an application. -/
inductive AppCall (U : Type)
  | drop (call : DropCall)
  | dropCompleted (uid : U) (dropState : DROPStates)
  | notifyAppIsFinished
  | executeStart
  | executeTry (result : RunResult)
  | executeEnd
  | executeNotify
  deriving DecidableEq, Repr

def AbstractDROP.call (d : AbstractDROP) : DropCall → AbstractDROP
  | .setCompleted accessible => (d.setCompleted accessible).1
  | .setError => d.setError
  | .skip => d.skip
  | .cancel => d.cancel
  | .producerFinished s accessible => (d.producerFinished s accessible).1

def AppDROP.call {U : Type} (a : AppDROP U) : AppCall U → AppDROP U
  | .drop .skip => a.skip
  | .drop .cancel => a.cancel
  | .drop c => a.lift (·.call c)
  | .dropCompleted uid s => (a.dropCompleted uid s).1
  | .notifyAppIsFinished => a.notifyAppIsFinished
  | .executeStart => a.executeStart
  | .executeTry r => a.executeTry r
  | .executeEnd => a.executeEnd
  | .executeNotify => a.executeNotify

/-- The statuses over which an outcome may be assigned: those that are not terminal, and the
outcome's own. -/
def DROPStates.admits (failed : Bool) : DROPStates → Bool
  | .initialized | .writing | .expired => true
  | .completed => !failed
  | .error => failed
  | .skipped | .cancelled | .deleted => false

/-- A file that is COMPLETED and cannot be read any more. -/
def AbstractDROP.Lost (d : AbstractDROP) (accessible : Bool) : Prop :=
  d.status = .completed ∧ d.storage = .file ∧ accessible = false

/-- `setError` guards against CANCELLED and SKIPPED only, the `setCompleted` of a file not against
COMPLETED. -/
def DropKeeps (d : AbstractDROP) : DropCall → Prop
  | .setCompleted accessible => ¬ d.Lost accessible
  | .setError => d.status ≠ .completed ∧ d.status ≠ .deleted
  | .producerFinished s accessible =>
    (d.failsOn s → d.status ≠ .completed ∧ d.status ≠ .deleted) ∧
      (d.finishedProducers.length + 1 = d.producers → ¬ d.Lost accessible)
  | .skip | .cancel => True

/-- The input is the last effective one, and with it the application is to end in ERROR: too many
inputs have failed, or it has failed itself. -/
def AppDROP.ErrsOn {U : Type} (a : AppDROP U) (s : DROPStates) : Prop :=
  s.isSettled = true ∧ a.effectiveInputs ≤ a.inputs.length ∧
    (a.inputsSeen : Int) + 1 = a.effectiveInputs ∧
    (a.execStatus = .error ∨
      (percentOf (a.errorInputs.length + if s = .error then 1 else 0)
        a.effectiveInputs.toNat : Int) > a.inputErrorThreshold)

/-- The calls of an application assign its status without looking at it, except `skip`,
`cancel` and `setCompleted`. -/
def AppKeeps {U : Type} (a : AppDROP U) : AppCall U → Prop
  | .drop c => DropKeeps a.toAbstractDROP c
  | .dropCompleted _ s => a.ErrsOn s → a.status.admits true = true
  | .notifyAppIsFinished => a.status.admits (a.execStatus == .error) = true
  | .executeEnd => ∀ failed, a.thread = .ending failed → a.status.admits failed = true
  | .executeNotify => a.thread = .notifying → a.status.admits (a.execStatus == .error) = true
  | .executeStart | .executeTry _ => True

section Drops

variable {d : AbstractDROP}

theorem absorbs_refl (s : DROPStates) : Absorbs s s := fun _ _ => rfl

theorem absorbs_outcome_iff {s : DROPStates} {failed : Bool} :
    Absorbs s (AppDROP.dropState failed) ↔ s.admits failed = true := by
  cases s <;> cases failed <;> simp [Absorbs, AppDROP.dropState, DROPStates.admits,
    DROPStates.isTerminal, DROPStates.isAssigned]

theorem absorbs_of_open {s t : DROPStates} (h : s.isOpen = true) : Absorbs s t := by
  intro hs
  cases s <;> simp [DROPStates.isOpen, DROPStates.isTerminal] at h hs

theorem setError_absorbs_iff :
    Absorbs d.status d.setError.status ↔ d.status ≠ .completed ∧ d.status ≠ .deleted := by
  unfold AbstractDROP.setError
  cases h : d.status <;>
    simp [Absorbs, AbstractDROP.completedrop, DROPStates.isTerminal, DROPStates.isAssigned, h]

theorem setCompletedBase_absorbs : Absorbs d.status d.setCompletedBase.1.status := by
  unfold AbstractDROP.setCompletedBase AbstractDROP.setCompletedStateCheck
  cases h : d.status <;> simp [Absorbs, DROPStates.isTerminal, h]

theorem setCompletedNgas_absorbs (accessible : Bool) :
    Absorbs d.status (d.setCompletedNgas accessible).1.status := by
  unfold AbstractDROP.setCompletedNgas AbstractDROP.setCompletedStateCheck
  cases h : d.status <;> simp [Absorbs, DROPStates.isTerminal, h]

/-- Only a file moves on from COMPLETED, when it is no longer found. -/
theorem setCompletedFile_absorbs_iff (accessible : Bool) :
    Absorbs d.status (d.setCompletedFile accessible).1.status ↔
      ¬ (d.status = .completed ∧ accessible = false) := by
  unfold AbstractDROP.setCompletedFile
  cases h : d.status <;> cases accessible <;>
    simp [Absorbs, AbstractDROP.completedrop, DROPStates.isTerminal, DROPStates.isAssigned, h]

theorem setCompleted_absorbs_iff (accessible : Bool) :
    Absorbs d.status (d.setCompleted accessible).1.status ↔ ¬ d.Lost accessible := by
  unfold AbstractDROP.setCompleted AbstractDROP.Lost
  cases h : d.storage with
  | file => simpa using setCompletedFile_absorbs_iff accessible
  | ngas => simpa using setCompletedNgas_absorbs accessible
  | other => simpa using setCompletedBase_absorbs

theorem skip_absorbs : Absorbs d.status d.skip.status := by
  by_cases h : d.status.isOpen = true
  · exact absorbs_of_open h
  · simpa [AbstractDROP.skip, h] using absorbs_refl _

theorem cancel_absorbs : Absorbs d.status d.cancel.status := by
  by_cases h : d.status.isOpen = true
  · exact absorbs_of_open h
  · simpa [AbstractDROP.cancel, h, AbstractDROP.completedrop] using absorbs_refl _

theorem producerFinished_absorbs_iff (s : DROPStates) (accessible : Bool) :
    Absorbs d.status (d.producerFinished s accessible).1.status ↔
      DropKeeps d (.producerFinished s accessible) := by
  simp only [DropKeeps]
  rcases AbstractDROP.producerFinished_cases (d := d) s accessible with
    ⟨hf, he⟩ | ⟨hn, hf, he⟩ | ⟨hn, he⟩
  · rw [he]
    have h := setError_absorbs_iff (d := d.recordReport s)
    refine h.trans ⟨fun h => ⟨fun _ => h, fun _ hl => h.1 hl.1⟩, fun h => h.1 hf⟩
  · rw [he]
    have h := setCompleted_absorbs_iff (d := d.recordReport s) accessible
    exact h.trans ⟨fun h => ⟨fun hf' => (hf hf'.2).elim, fun _ => h⟩, fun h => h.2 hn⟩
  · rw [he]
    exact iff_of_true (absorbs_refl _) ⟨fun h => (hn h.1).elim, fun h => (hn h).elim⟩

theorem drop_absorbs_iff (c : DropCall) :
    Absorbs d.status (d.call c).status ↔ DropKeeps d c := by
  cases c with
  | setCompleted accessible => exact setCompleted_absorbs_iff accessible
  | setError => exact setError_absorbs_iff
  | skip => exact iff_of_true skip_absorbs trivial
  | cancel => exact iff_of_true cancel_absorbs trivial
  | producerFinished s accessible => exact producerFinished_absorbs_iff s accessible

end Drops

section Applications

variable {U : Type} {a : AppDROP U}

theorem finalStatus_eq : a.finalStatus = AppDROP.dropState (a.execStatus == .error) := by
  unfold AppDROP.finalStatus AppDROP.dropState
  cases a.execStatus <;> rfl

theorem app_skip_absorbs : Absorbs a.status a.skip.status := by
  have h : a.skip.status = a.toAbstractDROP.skip.status := by
    simp only [AppDROP.skip]
    split <;> simp [AppDROP.lift]
  rw [h]
  exact skip_absorbs

theorem app_cancel_absorbs : Absorbs a.status a.cancel.status := by
  have h : a.cancel.status = a.toAbstractDROP.cancel.status := by
    simp [AppDROP.cancel, AppDROP.lift]
  rw [h]
  exact cancel_absorbs

theorem notify_absorbs_iff : Absorbs a.status a.notifyAppIsFinished.status ↔
    a.status.admits (a.execStatus == .error) = true := by
  rw [AppDROP.notifyAppIsFinished_status, finalStatus_eq]
  exact absorbs_outcome_iff

/-- What an application is asked about after it recorded its input. -/
theorem recordInput_fields {uid : U} {s : DROPStates} {b : AppDROP U}
    (h : a.recordInput uid s = .ok b) : s.isSettled = true ∧ b.status = a.status ∧
      b.execStatus = a.execStatus ∧ b.effectiveInputs = a.effectiveInputs ∧
      b.inputErrorThreshold = a.inputErrorThreshold ∧ b.inputsSeen = a.inputsSeen + 1 ∧
      b.errorInputs.length = a.errorInputs.length + if s = .error then 1 else 0 := by
  cases s <;> simp [AppDROP.recordInput] at h <;> subst h <;>
    refine ⟨rfl, rfl, rfl, rfl, rfl, ?_, ?_⟩ <;> simp [AppDROP.inputsSeen] <;> omega

theorem verdict_errs_iff : a.verdict = .error ∨ a.verdict = .notify ↔
    (a.inputsSeen : Int) = a.effectiveInputs ∧
      (a.execStatus = .error ∨ (a.percentFailed : Int) > a.inputErrorThreshold) := by
  unfold AppDROP.verdict
  split
  · split
    · simp_all
    · split
      · simp_all
      · split <;> simp_all
  · simp_all

theorem verdict_notify (h : a.verdict = .notify) : a.execStatus = .error := by
  unfold AppDROP.verdict at h
  split at h <;> [split at h <;> [skip; split at h <;> [assumption; split at h]]; skip] <;>
    simp at h

theorem obey_absorbs_iff (v : Verdict) (hv : v = .notify → a.execStatus = .error) :
    Absorbs a.status (a.obey v).status ↔
      ((v = .error ∨ v = .notify) → a.status.admits true = true) := by
  cases v with
  | wait => exact iff_of_true (absorbs_refl _) (by simp)
  | error =>
    have h : (a.obey .error).status = AppDROP.dropState true := by
      simp [AppDROP.obey, AppDROP.finalStatus, AppDROP.dropState]
    rw [h, absorbs_outcome_iff]
    simp
  | notify =>
    have hn : Absorbs a.status (a.obey .notify).status ↔ _ := notify_absorbs_iff
    rw [hn, hv rfl]
    simp
  | skip => exact iff_of_true app_skip_absorbs (by simp)
  | execute => exact iff_of_true (absorbs_refl _) (by simp)

theorem dropCompleted_absorbs_iff (uid : U) (s : DROPStates) :
    Absorbs a.status (a.dropCompleted uid s).1.status ↔ AppKeeps a (.dropCompleted uid s) := by
  simp only [AppKeeps, AppDROP.ErrsOn, AppDROP.dropCompleted]
  split
  · rename_i hn
    exact iff_of_true (absorbs_refl _) fun h => by omega
  · rename_i hn
    cases hr : a.recordInput uid s with
    | error e =>
      refine iff_of_true (absorbs_refl _) fun h => ?_
      cases s <;> simp_all [AppDROP.recordInput, DROPStates.isSettled]
    | ok b =>
      obtain ⟨hs, hst, hex, heff, hthr, hseen, herr⟩ := recordInput_fields hr
      have ho := obey_absorbs_iff (a := b) b.verdict verdict_notify
      rw [verdict_errs_iff, AppDROP.percentFailed, hst, hex, heff, hthr, hseen, herr] at ho
      rw [ho]
      push_cast
      have hle : a.effectiveInputs ≤ a.inputs.length := by omega
      simp only [hs, hle, true_and]

theorem executeStart_status : a.executeStart.status = a.status := by
  unfold AppDROP.executeStart
  split
  · exact AppDROP.setExecStatus_status _
  · rfl

theorem executeTry_status (r : RunResult) : (a.executeTry r).status = a.status := by
  unfold AppDROP.executeTry
  split
  · cases r with
    | returns =>
      simp only
      split
      · rfl
      · exact AppDROP.setExecStatus_status _
    | errorManagerCaught => exact AppDROP.setExecStatus_status _
    | raises =>
      simp only
      split
      · rfl
      · split
        · rfl
        · exact AppDROP.setExecStatus_status _
  · rfl

theorem executeEnd_absorbs_iff : Absorbs a.status a.executeEnd.status ↔
    ∀ failed, a.thread = .ending failed → a.status.admits failed = true := by
  unfold AppDROP.executeEnd
  cases h : a.thread with
  | ending failed =>
    have hs : Absorbs a.status (a.setStatus (AppDROP.dropState failed)).status ↔
        a.status.admits failed = true := by
      rw [AppDROP.setStatus_status]
      exact absorbs_outcome_iff
    simpa using hs
  | _ => exact iff_of_true (absorbs_refl _) (by simp)

theorem executeNotify_absorbs_iff : Absorbs a.status a.executeNotify.status ↔
    (a.thread = .notifying → a.status.admits (a.execStatus == .error) = true) := by
  unfold AppDROP.executeNotify
  cases h : a.thread with
  | notifying => simpa using notify_absorbs_iff
  | _ => exact iff_of_true (absorbs_refl _) (by simp)

theorem app_absorbs_iff (c : AppCall U) :
    Absorbs a.status (a.call c).status ↔ AppKeeps a c := by
  cases c with
  | drop c =>
    cases c with
    | skip => exact iff_of_true app_skip_absorbs trivial
    | cancel => exact iff_of_true app_cancel_absorbs trivial
    | _ => exact drop_absorbs_iff _
  | dropCompleted uid s => exact dropCompleted_absorbs_iff uid s
  | notifyAppIsFinished => exact notify_absorbs_iff
  | executeStart =>
    rw [AppDROP.call, executeStart_status]
    exact iff_of_true (absorbs_refl _) trivial
  | executeTry r =>
    rw [AppDROP.call, executeTry_status]
    exact iff_of_true (absorbs_refl _) trivial
  | executeEnd => exact executeEnd_absorbs_iff
  | executeNotify => exact executeNotify_absorbs_iff

end Applications

/-- Every call of the run leaves a terminal status alone. -/
def RunAbsorbs {σ α : Type} (step : σ → α → σ) (status : σ → DROPStates) (s : σ) (cs : List α) :
    Prop :=
  ∀ pre c post, cs = pre ++ c :: post →
    Absorbs (status (run step s pre)) (status (step (run step s pre) c))

theorem runAbsorbs_iff_along {σ α : Type} {step : σ → α → σ} {status : σ → DROPStates} {s : σ}
    {cs : List α} {ok : σ → α → Prop}
    (h : ∀ s c, Absorbs (status s) (status (step s c)) ↔ ok s c) :
    RunAbsorbs step status s cs ↔ Along step ok s cs := by
  rw [← along_congr h, along_iff_forall]
  exact Iff.rfl

/-- Terminal states are absorbing in exactly those runs, of a data drop and of an application,
in which each call finds a status that it looks at or may assign over. -/
theorem terminal_absorbing_iff (d : AbstractDROP) (ds : List DropCall) {U : Type} (a : AppDROP U)
    (as : List (AppCall U)) :
    (RunAbsorbs AbstractDROP.call AbstractDROP.status d ds ↔
      Along AbstractDROP.call DropKeeps d ds) ∧
    (RunAbsorbs AppDROP.call (fun a => a.status) a as ↔ Along AppDROP.call AppKeeps a as) := by
  constructor
  · exact runAbsorbs_iff_along fun d c => drop_absorbs_iff c
  · exact runAbsorbs_iff_along fun a c => app_absorbs_iff c

/-- A completed data drop moves to ERROR; an application cancelled between its trigger and the
start of its thread moves to COMPLETED. -/
theorem completed_fails_cancelled_completes :
    (¬ ∀ cs : List DropCall, RunAbsorbs AbstractDROP.call AbstractDROP.status {} cs) ∧
    (¬ ∀ cs : List (AppCall Nat),
      RunAbsorbs AppDROP.call (fun a => a.status) { inputs := [7] } cs) := by
  constructor
  · intro h
    have hc := h [.setCompleted true, .setError] [.setCompleted true] .setError [] rfl (by decide)
      (by decide)
    exact absurd hc (by decide)
  · intro h
    have hc := h [.dropCompleted 7 .completed, .drop .cancel, .executeStart, .executeTry .returns,
      .executeEnd] [.dropCompleted 7 .completed, .drop .cancel, .executeStart, .executeTry .returns]
      .executeEnd [] rfl (by decide) (by decide)
    exact absurd hc (by decide)

end Daliuge.Engine
