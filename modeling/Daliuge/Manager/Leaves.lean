import Daliuge.Engine.Firing
import Daliuge.Manager.Building
import Mathlib.Logic.Function.Iterate
import Mathlib.Data.Sum.Basic
import Mathlib.Algebra.Order.BigOperators.Group.List
import Mathlib.Algebra.Group.Action.Defs
import Mathlib.Algebra.Order.Ring.Nat

/-!
# The leaves of a session

`Session.deploy` subscribes one `LeavesCompletionListener` to the leaves of the graph. It counts
their events and calls `Session.finish` when the count is the number of leaves. A leaf that is an
`EndDROP` calls `Session.end` as well.
-/
namespace Daliuge.Manager

open Run Engine

section Definitions

variable {D A : Type} [DecidableEq D] [DecidableEq A] {g : Engine.Graph D A}

def isProducerFinished : Event → Bool
  | .producerFinished .. => true
  | _ => false

/-- How many `producerFinished` events a log holds. -/
def notifications (log : List Event) : Nat := log.countP isProducerFinished

/-- The status of a data drop or an application. -/
def statusOf (s : System D A) : D ⊕ A → DROPStates
  | .inl d => (s.data d).status
  | .inr a => (s.app a).status

/-- How often a drop has fired what the listener is subscribed to: `producerFinished` of an
application, `dropCompleted` of any other drop. -/
def heardOf (s : System D A) : D ⊕ A → Nat
  | .inl d => completions (s.data d).fired
  | .inr a => notifications (s.app a).fired

/-- `not getDownstreamObjects(drop)`. -/
def isLeaf (g : Engine.Graph D A) : D ⊕ A → Bool
  | .inl d => (g.consumers d).isEmpty
  | .inr a => (g.outputs a).isEmpty

/-- The drops of a session, each once, as `breadFirstTraverse` goes through them, and which of
them are of class `EndDROP`. -/
structure Drops (g : Engine.Graph D A) where
  drops : List (D ⊕ A)
  nodup : drops.Nodup
  complete : ∀ x, x ∈ drops
  isEnd : D → Bool

namespace Drops

/-- `getLeafNodes`. -/
def leaves (t : Drops g) : List (D ⊕ A) := t.drops.filter (isLeaf g)

/-- The leaves an `EndListener` is subscribed to. -/
def endLeaves (t : Drops g) : List (D ⊕ A) :=
  t.leaves.filter fun x => x.elim t.isEnd fun _ => false

/-- How many events of these drops there are between two states. -/
def newlyHeard (xs : List (D ⊕ A)) (before after : System D A) : Nat :=
  (xs.map fun x => heardOf after x - heardOf before x).sum

end Drops

/-- A deployed session with the counter of its listener. `finishedIn` is the log of the states in
which `finish` was called. -/
structure DeployedSession (D A : Type) where
  system : System D A
  status : SessionStates := .running
  completed : Nat := 0
  finishedIn : List (System D A) := []

namespace DeployedSession

/-- `drop.skip()`, with the outputs of an application. -/
def skipDrop (g : Engine.Graph D A) (s : System D A) : D ⊕ A → System D A
  | .inl d => s.setData g d (s.data d).skip
  | .inr a => (s.setApp g a (s.app a).skip).skipOutputs g (g.outputs a)

/-- One turn of the loop of `end`, `hear` being what the other listener does with an event. -/
def endTurn (t : Drops g) (hear : DeployedSession D A → DeployedSession D A)
    (σ : DeployedSession D A) (x : D ⊕ A) : DeployedSession D A :=
  if (statusOf σ.system x).isOpen then
    let s := skipDrop g σ.system x
    hear^[Drops.newlyHeard t.leaves σ.system s] { σ with system := s }
  else σ

/-- `Session.end`. -/
def endSession (t : Drops g) (hear : DeployedSession D A → DeployedSession D A)
    (σ : DeployedSession D A) : DeployedSession D A :=
  t.drops.foldl (endTurn t hear) { σ with status := .finished }

/-- The drops have moved on; the listeners hear of it in the order of their subscription. -/
def advance (t : Drops g) (hear : DeployedSession D A → DeployedSession D A)
    (σ : DeployedSession D A) (s : System D A) : DeployedSession D A :=
  (endSession t hear)^[Drops.newlyHeard t.endLeaves σ.system s]
    (hear^[Drops.newlyHeard t.leaves σ.system s] { σ with system := s })

/-- `handleEvent` once the count is past the number of leaves. -/
def count (σ : DeployedSession D A) : DeployedSession D A := { σ with completed := σ.completed + 1 }

/-- `drop.setCompleted()`. -/
def completeDrop (g : Engine.Graph D A) (s : System D A) : D ⊕ A → System D A
  | .inl d => s.setData g d (s.data d).setCompleted.1
  | .inr a => s.setApp g a ((s.app a).lift (·.setCompleted.1))

/-- One turn of the loop of `finish`. -/
def finishTurn (t : Drops g) (σ : DeployedSession D A) (x : D ⊕ A) : DeployedSession D A :=
  let σ :=
    if (statusOf σ.system x).isOpen then advance t count σ (completeDrop g σ.system x) else σ
  if statusOf σ.system x = .error then { σ with status := .failed } else σ

/-- `Session.finish`. What it completes is heard by the listeners as well; the count has reached
the number it is compared with already. -/
def finish (t : Drops g) (σ : DeployedSession D A) : DeployedSession D A :=
  t.drops.foldl (finishTurn t)
    { σ with status := .finished, finishedIn := σ.finishedIn ++ [σ.system] }

/-- `LeavesCompletionListener.handleEvent`. -/
def handleEvent (t : Drops g) (σ : DeployedSession D A) : DeployedSession D A :=
  let σ := σ.count
  if σ.completed = t.leaves.length then σ.finish t else σ

/-- What can happen next: a step of the drops, or a running `Branch` that skips an output. -/
inductive SessionLabel (D A : Type)
  | drops (l : Label D A)
  | skipOutput (a : A) (d : D)
  deriving DecidableEq, Repr

def Thread.isRunning : Thread → Bool
  | .running _ => true
  | _ => false

/-- The drops after a label, before any listener of the session has heard of it. -/
def moved (g : Engine.Graph D A) (s : System D A) : SessionLabel D A → System D A
  | .drops l => s.step g l
  | .skipOutput a d =>
    if d ∈ g.outputs a ∧ Thread.isRunning (s.app a).thread then skipDrop g s (.inl d) else s

def step (t : Drops g) (σ : DeployedSession D A) (l : SessionLabel D A) : DeployedSession D A :=
  advance t (handleEvent t) σ (moved g σ.system l)

/-- A session that has just been deployed. -/
structure Deployed (g : Engine.Graph D A) (σ : DeployedSession D A) : Prop where
  system : System.Initial g σ.system
  apps : ∀ a, (σ.system.app a).status = .initialized
  execStatus : ∀ a, (σ.system.app a).execStatus = .notRun
  thread : ∀ a, (σ.system.app a).thread = .idle
  quiet : ∀ a, notifications (σ.system.app a).fired = 0
  completed : σ.completed = 0
  finishedIn : σ.finishedIn = []

/-- Nothing has set off the application yet. -/
def Unstarted (a : AppDROP D) : Prop :=
  a.status = .initialized ∧ a.execStatus = .notRun ∧ a.thread = .idle

/-- The last input of a leaf makes it skip only without `block_skip`, and only skip once the end of
the session has skipped it. -/
def OrderlyVerdict (a : AppDROP D) (v : Verdict) : Prop :=
  (v = .skip → a.blockSkip = false) ∧ (a.execStatus = .skipped → v = .wait ∨ v = .skip)

/-- What `end` needs of the leaves: those that wait for input have no `block_skip` and are not
about to start, and those nothing produces are not open. -/
structure OrderlyEnd (g : Engine.Graph D A) (s : System D A) : Prop where
  apps : ∀ a, g.outputs a = [] → (s.app a).status.isOpen = true →
    (s.app a).execStatus = .notRun → (s.app a).thread = .idle ∧ (s.app a).blockSkip = false
  data : ∀ d, g.consumers d = [] → g.producers d = [] → (s.data d).status.isOpen = false

/-- No leaf that is COMPLETED already is announced again by its last report or as a root, made to
skip against its `block_skip`, or set off again. -/
def OrderlyDrops (g : Engine.Graph D A) (s : System D A) : Label D A → Prop
  | .deliver (.producerFinished _ d st) => g.consumers d = [] → ¬ (s.data d).announcesAgain st
  | .completeRoot d => g.consumers d = [] → g.producers d = [] →
    (s.data d).status = .completed → (s.data d).storage ≠ .file
  | .deliver (.dropCompleted d a st) => g.outputs a = [] →
    ∀ v, ((s.app a).dropCompleted d st).2 = .ok v → OrderlyVerdict (s.app a) v
  | .startRoot a => g.outputs a = [] → Unstarted (s.app a)
  | _ => True

/-- The same of a session, whose leaves are ready when an `EndDROP` completes. -/
def Orderly (t : Drops g) (σ : DeployedSession D A) (l : SessionLabel D A) : Prop :=
  (∀ k, l = .drops k → OrderlyDrops g σ.system k) ∧
    (Drops.newlyHeard t.endLeaves σ.system (moved g σ.system l) ≠ 0 →
      OrderlyEnd g (moved g σ.system l))

end DeployedSession

end Definitions

/-! What the calls on an application add to its log. -/

@[simp] theorem notifications_nil : notifications [] = 0 := rfl

@[simp] theorem notifications_append (xs ys : List Event) :
    notifications (xs ++ ys) = notifications xs + notifications ys := List.countP_append

@[simp] theorem notifications_cons (e : Event) (log : List Event) :
    notifications (e :: log) = notifications log + if isProducerFinished e then 1 else 0 := by
  simp [notifications, List.countP_cons]

@[simp] theorem notifications_setStatus (d : AbstractDROP) (v : DROPStates) :
    notifications (d.setStatus v).fired = notifications d.fired := by
  unfold AbstractDROP.setStatus
  split <;> simp [isProducerFinished]

@[simp] theorem notifications_skip (d : AbstractDROP) :
    notifications d.skip.fired = notifications d.fired := by
  unfold AbstractDROP.skip
  split
  · split
    · simp [AbstractDROP.completedrop, isProducerFinished]
    · rfl
  · rfl

section App

variable {U : Type} {a b : AppDROP U}

@[simp] theorem notifications_setExecStatus (v : AppDROPStates) :
    notifications (a.setExecStatus v).fired = notifications a.fired := by
  unfold AppDROP.setExecStatus
  split
  · rfl
  · simp [AppDROP.fire, AppDROP.lift, isProducerFinished]

@[simp] theorem notifications_notifyAppIsFinished :
    notifications a.notifyAppIsFinished.fired = notifications a.fired + 1 := by
  have hs : notifications (a.setStatus a.finalStatus).fired = notifications a.fired :=
    notifications_setStatus _ _
  simp [AppDROP.notifyAppIsFinished, AppDROP.lift, AppDROP.fire, AbstractDROP.completedrop,
    isProducerFinished, hs]

theorem thread_setExecStatus (v : AppDROPStates) : (a.setExecStatus v).thread = a.thread := by
  unfold AppDROP.setExecStatus
  split <;> rfl

/-- What holds of an application that is a leaf: it announces itself once, when it is done. -/
structure Tame (a : AppDROP U) : Prop where
  status : a.status.isOpen = true ∨ a.status.isSettled = true
  once : notifications a.fired ≤ 1
  done : notifications a.fired ≠ 0 → a.thread = .idle ∧ a.status.isSettled = true
  running : a.thread ≠ .idle → a.inputs = [] ∨ a.effectiveInputs ≤ (a.inputsSeen : Int)
  begun : notifications a.fired ≠ 0 ∨ a.execStatus ≠ .notRun →
    a.inputs = [] ∨ a.effectiveInputs ≤ (a.inputsSeen : Int) ∨ a.execStatus = .skipped

theorem Tame.quiet (h : Tame a) (hrun : a.thread ≠ .idle) : notifications a.fired = 0 := by
  by_contra hc
  exact hrun (h.done hc).1

theorem Tame.quiet_of_open (h : Tame a) (ho : a.status.isOpen = true) :
    notifications a.fired = 0 := by
  by_contra hc
  have hs := (h.done hc).2
  cases hst : a.status <;> simp [hst, DROPStates.isOpen, DROPStates.isSettled] at ho hs

theorem settled_finalStatus : a.finalStatus.isSettled = true := by
  unfold AppDROP.finalStatus
  split <;> rfl

/-- Whatever a running application does, short of its notification. -/
theorem Tame.proceed (h : Tame a) (hrun : a.thread ≠ .idle) (hs : a.SameInputs b)
    (hn : notifications b.fired = notifications a.fired)
    (hst : b.status.isOpen = true ∨ b.status.isSettled = true) : Tame b := by
  have hzero := h.quiet hrun
  have hseen : b.inputs = [] ∨ b.effectiveInputs ≤ (b.inputsSeen : Int) := by
    rw [hs.inputs, hs.effectiveInputs, hs.inputsSeen]
    exact h.running hrun
  exact ⟨hst, by omega, fun hc => by omega, fun _ => hseen, fun _ => hseen.imp_right Or.inl⟩

theorem tame_executeStart (h : Tame a) : Tame a.executeStart := by
  unfold AppDROP.executeStart
  split
  · rename_i ht
    refine h.proceed (by simp [ht])
      ((AppDROP.sameInputs_setExecStatus _).trans (AppDROP.sameInputs_thread _)) ?_ ?_
    · exact notifications_setExecStatus _
    · simpa using h.status
  · exact h

theorem tame_executeTry (h : Tame a) (r : RunResult) : Tame (a.executeTry r) := by
  have hs := AppDROP.sameInputs_executeTry (a := a) r
  unfold AppDROP.executeTry at *
  split
  · rename_i ht
    have hrun : a.thread ≠ .idle := by simp [ht]
    have hn : ∀ v, notifications (a.setExecStatus v).fired = notifications a.fired :=
      notifications_setExecStatus
    have hst : ∀ v, (a.setExecStatus v).status = a.status := AppDROP.setExecStatus_status
    simp only [ht] at hs
    refine h.proceed hrun hs ?_ ?_
    · split
      · split
        · rfl
        · exact hn _
      · exact hn _
      · split
        · rfl
        · split
          · rfl
          · exact hn _
    · have hstatus := h.status
      split
      · split
        · exact hstatus
        · simpa only [hst] using hstatus
      · simpa only [hst] using hstatus
      · split
        · exact hstatus
        · split
          · exact hstatus
          · simpa only [hst] using hstatus
  · exact h

theorem tame_executeEnd (h : Tame a) : Tame a.executeEnd := by
  unfold AppDROP.executeEnd
  split
  · rename_i failed ht
    refine h.proceed (by simp [ht])
      ((AppDROP.sameInputs_lift _).trans (AppDROP.sameInputs_thread _)) ?_ ?_
    · exact notifications_setStatus _ _
    · have hd : (AppDROP.dropState failed).isSettled = true := by cases failed <;> rfl
      exact Or.inr (by simpa using hd)
  · exact h

theorem tame_executeNotify (h : Tame a) : Tame a.executeNotify := by
  unfold AppDROP.executeNotify
  split
  · rename_i ht
    have hrun : a.thread ≠ .idle := by simp [ht]
    have hs := (AppDROP.sameInputs_notifyAppIsFinished (a := a)).trans
      (AppDROP.sameInputs_thread .idle)
    have hfinal : a.notifyAppIsFinished.status.isSettled = true := by
      simpa using settled_finalStatus
    refine ⟨Or.inr hfinal, by simp [h.quiet hrun], fun _ => ⟨rfl, hfinal⟩, fun hc => absurd rfl hc,
      fun _ => ?_⟩
    rw [hs.inputs, hs.effectiveInputs, hs.inputsSeen]
    exact (h.running hrun).imp_right Or.inl
  · exact h

/-- Recording an input touches the three lists only. -/
theorem recordInput_untouched [DecidableEq U] {uid : U} {st : DROPStates}
    (h : a.recordInput uid st = .ok b) :
    b.toAbstractDROP = a.toAbstractDROP ∧ b.execStatus = a.execStatus ∧ b.thread = a.thread := by
  unfold AppDROP.recordInput at h
  split at h <;> cases h <;> exact ⟨rfl, rfl, rfl⟩

theorem settled_skip {d : AbstractDROP} (hb : d.blockSkip = false)
    (hst : d.status.isOpen = true ∨ d.status.isSettled = true) :
    d.skip.status.isSettled = true := by
  unfold AbstractDROP.skip
  split
  · simp [hb, AbstractDROP.completedrop, DROPStates.isSettled]
  · rename_i ho
    exact hst.resolve_left ho

theorem skip_of_notRun (hx : a.execStatus = .notRun) :
    notifications a.skip.fired = notifications a.fired + 1 ∧ a.skip.thread = a.thread ∧
      a.skip.status = a.toAbstractDROP.skip.status := by
  have hn : notifications ((a.lift (·.skip)).setExecStatus .skipped).fired =
      notifications a.fired :=
    (notifications_setExecStatus _).trans (notifications_skip _)
  simp only [AppDROP.skip, hx, if_true]
  refine ⟨?_, thread_setExecStatus _, AppDROP.setExecStatus_status _⟩
  simp [AppDROP.fire, AppDROP.lift, isProducerFinished]

theorem skip_of_ne_notRun (hx : a.execStatus ≠ .notRun) :
    notifications a.skip.fired = notifications a.fired ∧ a.skip.thread = a.thread ∧
      a.skip.status = a.toAbstractDROP.skip.status := by
  simp only [AppDROP.skip, hx, if_false]
  exact ⟨(notifications_setExecStatus _).trans (notifications_skip _), thread_setExecStatus _,
    AppDROP.setExecStatus_status _⟩

theorem execStatus_skip : a.skip.execStatus = .skipped := by
  unfold AppDROP.skip
  split
  · exact AppDROP.setExecStatus_execStatus _
  · exact AppDROP.setExecStatus_execStatus _

theorem status_skip {d : AbstractDROP} (hst : d.status.isOpen = true ∨ d.status.isSettled = true) :
    d.skip.status.isOpen = true ∨ d.skip.status.isSettled = true := by
  unfold AbstractDROP.skip
  split
  · split
    · exact Or.inr (by simp [AbstractDROP.completedrop, DROPStates.isSettled])
    · exact hst
  · exact hst

theorem skip_of_settled {d : AbstractDROP} (hst : d.status.isSettled = true) : d.skip = d := by
  unfold AbstractDROP.skip
  split
  · rename_i ho
    cases hs : d.status <;> simp [hs, DROPStates.isOpen, DROPStates.isSettled] at ho hst
  · rfl

/-- A leaf that is skipped while it waits, or while it runs, or once more. -/
theorem tame_skip (h : Tame a) (hx : a.execStatus = .notRun →
    notifications a.fired = 0 ∧ a.thread = .idle ∧ a.blockSkip = false) : Tame a.skip := by
  have hs := AppDROP.sameInputs_skip (a := a)
  by_cases hn : a.execStatus = .notRun
  · obtain ⟨hq, hi, hb⟩ := hx hn
    obtain ⟨hlog, hthread, hstatus⟩ := skip_of_notRun hn
    have hset : a.skip.status.isSettled = true := hstatus.symm ▸ settled_skip hb h.status
    have hidle : a.skip.thread = .idle := hthread.trans hi
    exact ⟨Or.inr hset, by omega, fun _ => ⟨hidle, hset⟩, fun hc => absurd hidle hc,
      fun _ => Or.inr (Or.inr execStatus_skip)⟩
  · obtain ⟨hlog, hthread, hstatus⟩ := skip_of_ne_notRun hn
    refine ⟨hstatus.symm ▸ status_skip h.status, hlog ▸ h.once, fun hc => ?_, fun hc => ?_,
      fun _ => Or.inr (Or.inr execStatus_skip)⟩
    · obtain ⟨hidle, hset⟩ := h.done (hlog ▸ hc)
      refine ⟨hthread.trans hidle, ?_⟩
      rw [hstatus, skip_of_settled hset]
      exact hset
    · rw [hs.inputs, hs.effectiveInputs, hs.inputsSeen]
      exact h.running (hthread ▸ hc)

/-- What an application that nothing has set off yet does when its last input arrives. -/
theorem tame_obey {v : Verdict} (h : Tame a) (hn : notifications a.fired = 0)
    (hi : a.thread = .idle)
    (hseen : (a.inputsSeen : Int) = a.effectiveInputs) (hw : v ≠ .wait)
    (hb : v = .skip → a.blockSkip = false) : Tame (a.obey v) := by
  have hs := AppDROP.sameInputs_obey (a := a) v
  have hle : (a.obey v).effectiveInputs ≤ ((a.obey v).inputsSeen : Int) := by
    rw [hs.effectiveInputs, hs.inputsSeen, hseen]
  have hdone : ∀ b : AppDROP U, notifications b.fired = 0 → b.thread = .idle →
      b.notifyAppIsFinished.effectiveInputs ≤ (b.notifyAppIsFinished.inputsSeen : Int) →
      Tame b.notifyAppIsFinished := by
    intro b hq hidle hle
    have hfinal : b.notifyAppIsFinished.status.isSettled = true := by
      simpa using settled_finalStatus
    exact ⟨Or.inr hfinal, by simp [hq], fun _ => ⟨hidle, hfinal⟩, fun _ => Or.inr hle,
      fun _ => Or.inr (Or.inl hle)⟩
  cases v with
  | wait => exact absurd rfl hw
  | error =>
    refine hdone _ ?_ ((thread_setExecStatus _).trans hi) hle
    exact ((notifications_setStatus _ _).trans (notifications_setExecStatus _)).trans hn
  | notify => exact hdone a hn hi hle
  | skip => exact tame_skip h fun _ => ⟨hn, hi, hb rfl⟩
  | execute =>
    exact ⟨h.status, h.once, fun hc => absurd hn hc, fun _ => Or.inr hle,
      fun _ => Or.inr (Or.inl hle)⟩

/-- Recording one more input. -/
theorem tame_recordInput [DecidableEq U] {uid : U} {st : DROPStates} (h : Tame a)
    (hr : a.recordInput uid st = .ok b) : Tame b := by
  obtain ⟨hin, heff, hone, -⟩ := AppDROP.recordInput_spec hr
  obtain ⟨hbase, hexec, hthread⟩ := recordInput_untouched hr
  have hgrow : a.inputs = [] ∨ a.effectiveInputs ≤ (a.inputsSeen : Int) →
      b.inputs = [] ∨ b.effectiveInputs ≤ (b.inputsSeen : Int) := by
    rw [hin, heff, hone]
    rintro (hnil | hle)
    · exact Or.inl hnil
    · right
      omega
  refine ⟨hbase ▸ h.status, hbase ▸ h.once, hthread ▸ hbase ▸ h.done,
    fun hc => hgrow (h.running (hthread ▸ hc)), fun hc => ?_⟩
  rcases h.begun (hbase ▸ hexec ▸ hc) with hnil | hle | hsk
  · exact (hgrow (Or.inl hnil)).imp_right Or.inl
  · exact (hgrow (Or.inr hle)).imp_right Or.inl
  · exact Or.inr (Or.inr (hexec.trans hsk))

/-- An input that arrives at a leaf. -/
theorem tame_dropCompleted [DecidableEq U] (h : Tame a) (hne : a.inputs ≠ []) (uid : U)
    (st : DROPStates)
    (hb : ∀ v, (a.dropCompleted uid st).2 = .ok v → DeployedSession.OrderlyVerdict a v) :
    Tame (a.dropCompleted uid st).1 := by
  rcases AppDROP.dropCompleted_cases (a := a) uid st with ⟨-, hd⟩ | ⟨b, hr, hd⟩
  · rwa [hd]
  have htame := tame_recordInput h hr
  obtain ⟨hin, heff, hone, -⟩ := AppDROP.recordInput_spec hr
  obtain ⟨hbase, hexec, hthread⟩ := recordInput_untouched hr
  obtain ⟨hblock, hskipped⟩ := hb b.verdict (by rw [hd])
  rw [hd]
  by_cases hw : b.verdict = .wait
  · rw [hw]
    exact htame
  have hseen := AppDROP.inputsSeen_eq_of_verdict hw
  have hfew : ¬ a.effectiveInputs ≤ (a.inputsSeen : Int) := by omega
  have hi : a.thread = .idle := by
    by_contra hc
    exact hfew ((h.running hc).resolve_left hne)
  by_cases hx : a.execStatus = .notRun
  · have hn : notifications a.fired = 0 := by
      by_contra hc
      rcases (h.begun (Or.inl hc)).resolve_left hne with hle | hsk
      · exact hfew hle
      · simp [hx] at hsk
    refine tame_obey htame (hbase ▸ hn) (hthread.trans hi) hseen hw fun hv => ?_
    exact hbase ▸ hblock hv
  · -- The end of the session has skipped it, and now its inputs do.
    have hsk := ((h.begun (Or.inr hx)).resolve_left hne).resolve_left hfew
    have hv := (hskipped hsk).resolve_left hw
    rw [hv]
    exact tame_skip htame fun hc => absurd (hexec.symm.trans hc) hx

end App

/-! Nothing is ever taken out of a log. -/

section Logs

variable {U : Type} {a b : AppDROP U}

theorem notifications_executeStart :
    notifications a.executeStart.fired = notifications a.fired := by
  unfold AppDROP.executeStart
  split
  · exact notifications_setExecStatus _
  · rfl

theorem notifications_executeTry (r : RunResult) :
    notifications (a.executeTry r).fired = notifications a.fired := by
  have hn : ∀ v, notifications (a.setExecStatus v).fired = notifications a.fired :=
    notifications_setExecStatus
  unfold AppDROP.executeTry
  split
  · split
    · split
      · rfl
      · exact hn _
    · exact hn _
    · split
      · rfl
      · split
        · rfl
        · exact hn _
  · rfl

theorem notifications_executeEnd : notifications a.executeEnd.fired = notifications a.fired := by
  unfold AppDROP.executeEnd
  split
  · exact notifications_setStatus _ _
  · rfl

theorem notifications_le_executeNotify :
    notifications a.fired ≤ notifications a.executeNotify.fired := by
  unfold AppDROP.executeNotify
  split
  · simp
  · exact Nat.le_refl _

theorem notifications_le_skip : notifications a.fired ≤ notifications a.skip.fired := by
  have hn : notifications ((a.lift (·.skip)).setExecStatus .skipped).fired =
      notifications a.fired :=
    (notifications_setExecStatus _).trans (notifications_skip _)
  unfold AppDROP.skip
  split
  · simp [AppDROP.fire, AppDROP.lift, isProducerFinished]
  · exact Nat.le_of_eq hn.symm

theorem notifications_le_obey (v : Verdict) :
    notifications a.fired ≤ notifications (a.obey v).fired := by
  cases v with
  | wait => exact Nat.le_refl _
  | error =>
    have herr : notifications ((a.setExecStatus .error).setStatus .error).fired =
        notifications a.fired :=
      (notifications_setStatus _ _).trans (notifications_setExecStatus _)
    simp [AppDROP.obey, herr]
  | notify => simp [AppDROP.obey]
  | skip => exact notifications_le_skip
  | execute => exact Nat.le_refl _

theorem notifications_le_dropCompleted [DecidableEq U] (uid : U) (st : DROPStates) :
    notifications a.fired ≤ notifications (a.dropCompleted uid st).1.fired := by
  rcases AppDROP.dropCompleted_cases (a := a) uid st with ⟨-, hd⟩ | ⟨b, hr, hd⟩
  · rw [hd]
  · rw [hd, ← (recordInput_untouched hr).1]
    exact notifications_le_obey _

variable {D A : Type} [DecidableEq D] [DecidableEq A] {g : Engine.Graph D A} {s s' s'' : System D A}

/-- No drop has fired less in the second state. -/
def NoLess (s s' : System D A) : Prop := ∀ x, heardOf s x ≤ heardOf s' x

omit [DecidableEq D] [DecidableEq A] in
theorem NoLess.refl : NoLess s s := fun _ => Nat.le_refl _

omit [DecidableEq D] [DecidableEq A] in
theorem NoLess.trans (h : NoLess s s') (h' : NoLess s' s'') : NoLess s s'' :=
  fun x => Nat.le_trans (h x) (h' x)

omit [DecidableEq A] in
theorem noLess_setData {d : D} {y : AbstractDROP} (h : (s.data d).fired <+: y.fired) :
    NoLess s (s.setData g d y) := by
  intro x
  cases x with
  | inr a => exact Nat.le_refl _
  | inl e =>
    by_cases he : e = d
    · subst he
      simpa [heardOf, System.setData, completions] using h.sublist.countP_le
    · simp [heardOf, System.setData, he]

omit [DecidableEq D] in
theorem noLess_setApp {a : A} {y : AppDROP D}
    (h : notifications (s.app a).fired ≤ notifications y.fired) : NoLess s (s.setApp g a y) := by
  intro x
  cases x with
  | inl d => exact Nat.le_refl _
  | inr b =>
    by_cases hb : b = a
    · subst hb
      simpa [heardOf, System.setApp] using h
    · simp [heardOf, System.setApp, hb]

omit [DecidableEq A] in
theorem noLess_skipOutputs (ds : List D) : NoLess s (s.skipOutputs g ds) := by
  induction ds generalizing s with
  | nil => exact .refl
  | cons d ds ih => exact (noLess_setData AbstractDROP.fired_prefix_skip).trans ih

theorem noLess_handle (m : Message D A) :
    NoLess s ({ s with inflight := s.inflight.erase m }.handle g m) := by
  cases m with
  | producerFinished a d st =>
    have h := noLess_setData (g := g)
      (s := { s with inflight := s.inflight.erase (.producerFinished a d st) })
      (AbstractDROP.fired_prefix_producerFinished (d := s.data d) st)
    exact h
  | dropCompleted d a st =>
    have h := noLess_setApp (g := g)
      (s := { s with inflight := s.inflight.erase (.dropCompleted d a st) })
      (notifications_le_dropCompleted (a := s.app a) d st)
    simp only [System.handle]
    split
    · exact h.trans (noLess_skipOutputs _)
    · exact h

theorem noLess_step (l : Label D A) : NoLess s (s.step g l) := by
  cases l with
  | write d nbytes => exact noLess_setData (AbstractDROP.fired_prefix_write nbytes)
  | completeRoot d =>
    simp only [System.step]
    split
    · exact noLess_setData AbstractDROP.fired_prefix_setCompleted
    · exact .refl
  | startRoot a =>
    simp only [System.step]
    split
    · exact noLess_setApp (Nat.le_refl _)
    · exact .refl
  | deliver m =>
    simp only [System.step]
    split
    · exact noLess_handle m
    · exact .refl
  | executeStart a => exact noLess_setApp (Nat.le_of_eq notifications_executeStart.symm)
  | executeTry a r => exact noLess_setApp (Nat.le_of_eq (notifications_executeTry r).symm)
  | executeEnd a => exact noLess_setApp (Nat.le_of_eq notifications_executeEnd.symm)
  | executeNotify a => exact noLess_setApp notifications_le_executeNotify

end Logs

/-! Each leaf announces itself once. -/

section Leaves

variable {D A : Type} [DecidableEq D] [DecidableEq A] {g : Engine.Graph D A} {s : System D A}
  {a : A} {d : D}

/-- What holds of the leaves of a session as long as every step is orderly. -/
structure LeafInv (g : Engine.Graph D A) (s : System D A) : Prop where
  data : ∀ d, g.consumers d = [] → (s.data d).Sound (g.producers d).length
  apps : ∀ a, g.outputs a = [] → Tame (s.app a)
  inputs : ∀ a, (s.app a).inputs = g.inputs a
  wired : ∀ d a st, .dropCompleted d a st ∈ s.inflight → d ∈ g.inputs a

omit [DecidableEq A] in
theorem leafInv_setData {y : AbstractDROP} (h : LeafInv g s)
    (hy : g.consumers d = [] → y.Sound (g.producers d).length) : LeafInv g (s.setData g d y) := by
  refine ⟨fun e he => ?_, h.apps, h.inputs, ?_⟩
  · by_cases hd : e = d
    · subst hd
      simpa [System.setData] using hy he
    · simpa [System.setData, hd] using h.data e he
  · intro e a st hm
    rcases List.mem_append.mp hm with hm | hm
    · exact h.wired e a st hm
    · simp only [dataMessages, List.mem_flatMap] at hm
      obtain ⟨ev, -, hm⟩ := hm
      cases ev <;> simp at hm
      obtain ⟨ha, rfl, -⟩ := hm
      exact g.mem_consumers.mp ha

omit [DecidableEq D] in
theorem leafInv_setApp {y : AppDROP D} (h : LeafInv g s) (hi : y.inputs = g.inputs a)
    (hy : g.outputs a = [] → Tame y) : LeafInv g (s.setApp g a y) := by
  refine ⟨h.data, fun b hb => ?_, fun b => ?_, ?_⟩
  · by_cases ha : b = a
    · subst ha
      simpa [System.setApp] using hy hb
    · simpa [System.setApp, ha] using h.apps b hb
  · by_cases ha : b = a
    · subst ha
      simpa [System.setApp] using hi
    · simpa [System.setApp, ha] using h.inputs b
  · intro e b st hm
    rcases List.mem_append.mp hm with hm | hm
    · exact h.wired e b st hm
    · simp only [appMessages, List.mem_flatMap] at hm
      obtain ⟨ev, -, hm⟩ := hm
      cases ev <;> simp at hm

omit [DecidableEq A] in
theorem leafInv_skipOutputs {ds : List D} (h : LeafInv g s)
    (hd : ∀ d ∈ ds, g.producers d ≠ []) : LeafInv g (s.skipOutputs g ds) := by
  induction ds generalizing s with
  | nil => exact h
  | cons d ds ih =>
    have hp := List.length_pos_of_ne_nil (hd d (by simp))
    refine ih (leafInv_setData h fun hc => ?_) fun e he => hd e (by simp [he])
    exact AbstractDROP.sound_skip (h.data d hc) hp

theorem leafInv_erase (m : Message D A) (h : LeafInv g s) :
    LeafInv g { s with inflight := s.inflight.erase m } :=
  ⟨h.data, h.apps, h.inputs, fun d a st hm => h.wired d a st (List.mem_of_mem_erase hm)⟩

namespace DeployedSession

variable {σ τ : DeployedSession D A} {t : Drops g} {k : Nat} {x : D ⊕ A}

theorem leafInv_handle {m : Message D A} (h : LeafInv g s) (hm : m ∈ s.inflight)
    (hg : OrderlyDrops g s (.deliver m)) :
    LeafInv g ({ s with inflight := s.inflight.erase m }.handle g m) := by
  have he := leafInv_erase m h
  cases m with
  | producerFinished a d st =>
    exact leafInv_setData he fun hc =>
      AbstractDROP.sound_producerFinished (h.data d hc) (hg hc)
  | dropCompleted d a st =>
    have hne : (s.app a).inputs ≠ [] := by
      rw [h.inputs]
      exact List.ne_nil_of_mem (h.wired d a st hm)
    have hin : ((s.app a).dropCompleted d st).1.inputs = g.inputs a := by
      rcases AppDROP.dropCompleted_cases (a := s.app a) d st with ⟨-, hd⟩ | ⟨b, hr, hd⟩
      · rw [hd, h.inputs]
      · rw [hd, (AppDROP.sameInputs_obey _).inputs, (AppDROP.recordInput_spec hr).1, h.inputs]
    have hset := leafInv_setApp he hin fun ho =>
      tame_dropCompleted (h.apps a ho) hne d st (hg ho)
    simp only [System.handle]
    split
    · exact leafInv_skipOutputs hset fun e hm => List.ne_nil_of_mem (g.mem_producers.mpr hm)
    · exact hset

theorem leafInv_step {l : Label D A} (h : LeafInv g s) (hg : OrderlyDrops g s l) :
    LeafInv g (s.step g l) := by
  cases l with
  | write d nbytes =>
    exact leafInv_setData h fun hc => AbstractDROP.sound_write (h.data d hc) nbytes
  | completeRoot d =>
    simp only [System.step]
    split
    · rename_i hd
      refine leafInv_setData h fun hc =>
        AbstractDROP.sound_setCompleted (h.data d hc) (fun hk => ?_) (hg hc hd)
      have := (h.data d hc).skipped hk
      simp [hd] at this
    · exact h
  | startRoot a =>
    simp only [System.step]
    split
    · rename_i ha
      refine leafInv_setApp h (h.inputs a) fun ho => ?_
      have hnil : (s.app a).inputs = [] := (h.inputs a).trans ha
      have hquiet := (h.apps a ho).quiet_of_open (by simp [(hg ho).1, DROPStates.isOpen])
      exact ⟨(h.apps a ho).status, (h.apps a ho).once, fun hc => absurd hquiet hc,
        fun _ => Or.inl hnil, fun _ => Or.inl hnil⟩
    · exact h
  | deliver m =>
    simp only [System.step]
    split
    · rename_i hm
      exact leafInv_handle h hm hg
    · exact h
  | executeStart a =>
    exact leafInv_setApp h (AppDROP.sameInputs_executeStart.inputs.trans (h.inputs a)) fun ho =>
      tame_executeStart (h.apps a ho)
  | executeTry a r =>
    exact leafInv_setApp h ((AppDROP.sameInputs_executeTry r).inputs.trans (h.inputs a)) fun ho =>
      tame_executeTry (h.apps a ho) r
  | executeEnd a =>
    exact leafInv_setApp h (AppDROP.sameInputs_executeEnd.inputs.trans (h.inputs a)) fun ho =>
      tame_executeEnd (h.apps a ho)
  | executeNotify a =>
    exact leafInv_setApp h (AppDROP.sameInputs_executeNotify.inputs.trans (h.inputs a)) fun ho =>
      tame_executeNotify (h.apps a ho)

theorem leafInv_moved {l : SessionLabel D A} (h : LeafInv g s)
    (hg : ∀ k, l = .drops k → OrderlyDrops g s k) : LeafInv g (moved g s l) := by
  cases l with
  | drops l => exact leafInv_step h (hg l rfl)
  | skipOutput a d =>
    simp only [moved]
    split
    · rename_i hd
      have hp := List.length_pos_of_mem (g.mem_producers.mpr hd.1)
      exact leafInv_setData h fun hc => AbstractDROP.sound_skip (h.data d hc) hp
    · exact h

theorem noLess_skipDrop (x : D ⊕ A) : NoLess s (skipDrop g s x) := by
  cases x with
  | inl d => exact noLess_setData AbstractDROP.fired_prefix_skip
  | inr a => exact (noLess_setApp notifications_le_skip).trans (noLess_skipOutputs _)

theorem noLess_moved (l : SessionLabel D A) : NoLess s (moved g s l) := by
  cases l with
  | drops l => exact noLess_step l
  | skipOutput a d =>
    simp only [moved]
    split
    · exact noLess_skipDrop (.inl d)
    · exact .refl

/-! Skipping a drop when the session ends. -/

theorem leafInv_skipDrop (h : LeafInv g s) (he : OrderlyEnd g s)
    (ho : (statusOf s x).isOpen = true) : LeafInv g (skipDrop g s x) := by
  cases x with
  | inl d =>
    refine leafInv_setData h fun hc => AbstractDROP.sound_skip (h.data d hc) ?_
    refine List.length_pos_of_ne_nil fun hp => ?_
    have := he.data d hc hp
    simp [statusOf, this] at ho
  | inr a =>
    refine leafInv_skipOutputs (leafInv_setApp h ?_ fun hc => ?_)
      fun e hm => List.ne_nil_of_mem (g.mem_producers.mpr hm)
    · exact AppDROP.sameInputs_skip.inputs.trans (h.inputs a)
    · refine tame_skip (h.apps a hc) fun hn => ?_
      exact ⟨(h.apps a hc).quiet_of_open ho, he.apps a hc ho hn⟩

theorem isOpen_of_skip {d : AbstractDROP} (h : d.skip.status.isOpen = true) :
    d.status.isOpen = true := by
  unfold AbstractDROP.skip at h
  split at h
  · assumption
  · exact h

omit [DecidableEq A] in
theorem isOpen_of_setData_skip {d e : D}
    (h : ((s.setData g d (s.data d).skip).data e).status.isOpen = true) :
    (s.data e).status.isOpen = true := by
  by_cases he : e = d
  · subst he
    exact isOpen_of_skip (by simpa [System.setData] using h)
  · simpa [System.setData, he] using h

omit [DecidableEq A] in
theorem isOpen_of_skipOutputs {ds : List D} {e : D}
    (h : ((s.skipOutputs g ds).data e).status.isOpen = true) :
    (s.data e).status.isOpen = true := by
  induction ds generalizing s with
  | nil => exact h
  | cons d ds ih => exact isOpen_of_setData_skip (ih h)

theorem orderlyEnd_skipDrop (he : OrderlyEnd g s) (x : D ⊕ A) :
    OrderlyEnd g (skipDrop g s x) := by
  have hdata : ∀ e, ((skipDrop g s x).data e).status.isOpen = true →
      (s.data e).status.isOpen = true := by
    intro e ho
    cases x with
    | inl d => exact isOpen_of_setData_skip ho
    | inr a => exact isOpen_of_skipOutputs (s := s.setApp g a (s.app a).skip) ho
  refine ⟨fun b hb ho hn => ?_, fun e hc hp => ?_⟩
  · cases x with
    | inl d => exact he.apps b hb ho hn
    | inr a =>
      have happ : (skipDrop g s (.inr a)).app = (s.setApp g a (s.app a).skip).app :=
        System.app_skipOutputs _
      rw [happ] at ho hn ⊢
      by_cases hba : b = a
      · subst hba
        rw [System.app_setApp_self, execStatus_skip] at hn
        cases hn
      · rw [System.app_setApp_of_ne hba] at ho hn ⊢
        exact he.apps b hb ho hn
  · by_contra ho
    have := hdata e (by simpa using ho)
    simp [he.data e hc hp] at this

/-- The states agree on the leaves. -/
structure SameLeaves (g : Engine.Graph D A) (s s' : System D A) : Prop where
  data : ∀ d, g.consumers d = [] → s'.data d = s.data d
  apps : ∀ a, g.outputs a = [] → s'.app a = s.app a

omit [DecidableEq D] [DecidableEq A] in
theorem SameLeaves.refl : SameLeaves g s s := ⟨fun _ _ => rfl, fun _ _ => rfl⟩

omit [DecidableEq D] [DecidableEq A] in
theorem SameLeaves.trans {s' s'' : System D A} (h : SameLeaves g s s')
    (h' : SameLeaves g s' s'') : SameLeaves g s s'' :=
  ⟨fun d hd => (h'.data d hd).trans (h.data d hd), fun a ha => (h'.apps a ha).trans (h.apps a ha)⟩

omit [DecidableEq D] [DecidableEq A] in
theorem SameLeaves.of_leaf {s' : System D A} (h : SameLeaves g s s') (hx : isLeaf g x = true) :
    statusOf s' x = statusOf s x ∧ heardOf s' x = heardOf s x := by
  cases x with
  | inl d =>
    have hd := h.data d (List.isEmpty_iff.mp hx)
    simp [statusOf, heardOf, hd]
  | inr a =>
    have ha := h.apps a (List.isEmpty_iff.mp hx)
    simp [statusOf, heardOf, ha]

omit [DecidableEq D] [DecidableEq A] in
theorem OrderlyEnd.of_same {s' : System D A} (he : OrderlyEnd g s) (h : SameLeaves g s s') :
    OrderlyEnd g s' := by
  refine ⟨fun a ha => ?_, fun d hd hp => ?_⟩
  · rw [h.apps a ha]
    exact he.apps a ha
  · rw [h.data d hd]
    exact he.data d hd hp

omit [DecidableEq D] [DecidableEq A] in
theorem mem_leaves : x ∈ t.leaves ↔ isLeaf g x = true := by
  simp [Drops.leaves, t.complete]

omit [DecidableEq D] [DecidableEq A] in
theorem newlyHeard_of_same {s' : System D A} {xs : List (D ⊕ A)} (h : SameLeaves g s s')
    (hxs : ∀ x ∈ xs, x ∈ t.leaves) : Drops.newlyHeard xs s s' = 0 := by
  refine List.sum_eq_zero fun n hn => ?_
  obtain ⟨x, hx, rfl⟩ := List.mem_map.mp hn
  have := (h.of_leaf (mem_leaves.mp (hxs x hx))).2
  omega

omit [DecidableEq D] [DecidableEq A] in
theorem heardOf_le_one (h : LeafInv g s) (hx : x ∈ t.leaves) : heardOf s x ≤ 1 := by
  rw [mem_leaves] at hx
  cases x with
  | inl d => exact (h.data d (List.isEmpty_iff.mp hx)).once
  | inr a => exact (h.apps a (List.isEmpty_iff.mp hx)).once

omit [DecidableEq D] [DecidableEq A] in
theorem settled_of_heard (h : LeafInv g s) (hx : x ∈ t.leaves) (hn : heardOf s x ≠ 0) :
    (statusOf s x).isSettled = true := by
  rw [mem_leaves] at hx
  cases x with
  | inl d => exact (h.data d (List.isEmpty_iff.mp hx)).settled hn
  | inr a => exact ((h.apps a (List.isEmpty_iff.mp hx)).done hn).2

/-! Completing by force what is left, when the leaves have settled. -/

theorem completeDrop_of_not_leaf (h : LeafInv g s) (hx : isLeaf g x = false) :
    LeafInv g (completeDrop g s x) ∧ SameLeaves g s (completeDrop g s x) := by
  cases x with
  | inl d =>
    have hd : g.consumers d ≠ [] := fun hc => by simp [isLeaf, hc] at hx
    refine ⟨leafInv_setData h fun hc => absurd hc hd, fun e he => ?_, fun _ _ => rfl⟩
    have hne : e ≠ d := fun hed => hd (hed ▸ he)
    simp [completeDrop, System.setData, hne]
  | inr a =>
    have ha : g.outputs a ≠ [] := fun hc => by simp [isLeaf, hc] at hx
    refine ⟨leafInv_setApp h (h.inputs a) fun hc => absurd hc ha, fun _ _ => rfl, fun b hb => ?_⟩
    have hne : b ≠ a := fun hba => ha (hba ▸ hb)
    simp [completeDrop, System.setApp, hne]

/-- What a part of `finish` leaves as it is. -/
structure Kept (g : Engine.Graph D A) (σ τ : DeployedSession D A) : Prop where
  leaves : LeafInv g τ.system
  same : SameLeaves g σ.system τ.system
  completed : τ.completed = σ.completed
  finishedIn : τ.finishedIn = σ.finishedIn

omit [DecidableEq D] [DecidableEq A] in
theorem Kept.failed {P : Prop} [Decidable P] (h : Kept g σ τ) :
    Kept g σ (if P then { τ with status := .failed } else τ) := by
  split
  · exact ⟨h.leaves, h.same, h.completed, h.finishedIn⟩
  · exact h

theorem finishTurn_kept (h : LeafInv g σ.system)
    (hset : ∀ x ∈ t.leaves, (statusOf σ.system x).isSettled = true) (x : D ⊕ A) :
    Kept g σ (finishTurn t σ x) := by
  have hkept : Kept g σ (if (statusOf σ.system x).isOpen then
      advance t count σ (completeDrop g σ.system x) else σ) := by
    split
    · rename_i ho
      have hleaf : isLeaf g x = false := by
        by_contra hl
        have hs := hset x (mem_leaves.mpr (by simpa using hl))
        cases hst : statusOf σ.system x <;>
          simp [hst, DROPStates.isOpen, DROPStates.isSettled] at ho hs
      obtain ⟨hinv, hsame⟩ := completeDrop_of_not_leaf h hleaf
      have hnone : Drops.newlyHeard t.leaves σ.system (completeDrop g σ.system x) = 0 :=
        newlyHeard_of_same hsame fun y hy => hy
      have hend : Drops.newlyHeard t.endLeaves σ.system (completeDrop g σ.system x) = 0 :=
        newlyHeard_of_same hsame fun y hy => (List.mem_filter.mp hy).1
      rw [advance, hnone, hend]
      exact ⟨hinv, hsame, rfl, rfl⟩
    · exact ⟨h, .refl, rfl, rfl⟩
  exact hkept.failed

theorem foldl_finishTurn (xs : List (D ⊕ A)) (h : LeafInv g σ.system)
    (hset : ∀ x ∈ t.leaves, (statusOf σ.system x).isSettled = true) :
    Kept g σ (xs.foldl (finishTurn t) σ) := by
  induction xs generalizing σ with
  | nil => exact ⟨h, .refl, rfl, rfl⟩
  | cons x xs ih =>
    have hx := finishTurn_kept h hset x
    have hxs := ih hx.leaves fun y hy => (hx.same.of_leaf (mem_leaves.mp hy)).1.symm ▸ hset y hy
    exact ⟨hxs.leaves, hx.same.trans hxs.same, hxs.completed.trans hx.completed,
      hxs.finishedIn.trans hx.finishedIn⟩

/-! The count of the listener. -/

/-- Numbers of at most one that add up to how many there are. -/
theorem ne_zero_of_sum {α : Type} {f : α → Nat} {xs : List α} (h : ∀ x ∈ xs, f x ≤ 1)
    (hs : xs.length ≤ (xs.map f).sum) : ∀ x ∈ xs, f x ≠ 0 := by
  induction xs with
  | nil => simp
  | cons x xs ih =>
    have hx := h x (by simp)
    have hrest : ∀ y ∈ xs, f y ≤ 1 := fun y hy => h y (by simp [hy])
    have hle := List.sum_le_card_nsmul (xs.map f) 1 (by simpa using hrest)
    simp only [List.map_cons, List.sum_cons, List.length_cons] at hs
    simp only [List.length_map, smul_eq_mul, Nat.mul_one] at hle
    intro y hy
    rcases List.mem_cons.mp hy with rfl | hy
    · omega
    · exact ih hrest (by omega) y hy

/-- The session while its listener has `k` events of the leaves still to handle. -/
structure SessionInv (t : Drops g) (k : Nat) (σ : DeployedSession D A) : Prop where
  leaves : LeafInv g σ.system
  counted : σ.completed + k = (t.leaves.map (heardOf σ.system)).sum
  settled : ∀ s ∈ σ.finishedIn, ∀ x ∈ t.leaves, (statusOf s x).isSettled = true
  called : t.leaves ≠ [] → t.leaves.length ≤ σ.completed → σ.finishedIn ≠ []

theorem sessionInv_handleEvent (h : SessionInv t (k + 1) σ) :
    SessionInv t k (σ.handleEvent t) ∧ SameLeaves g σ.system (σ.handleEvent t).system := by
  have hcount := h.counted
  have hone : ∀ x ∈ t.leaves, heardOf σ.system x ≤ 1 := fun x hx => heardOf_le_one h.leaves hx
  by_cases hn : σ.completed + 1 = t.leaves.length
  · have hset : ∀ x ∈ t.leaves, (statusOf σ.system x).isSettled = true := fun x hx =>
      settled_of_heard h.leaves hx (ne_zero_of_sum hone (by omega) x hx)
    have he : σ.handleEvent t = σ.count.finish t := if_pos hn
    have hkept : Kept g { σ.count with
        status := .finished, finishedIn := σ.finishedIn ++ [σ.system] } (σ.count.finish t) :=
      foldl_finishTurn t.drops h.leaves hset
    have hheard : t.leaves.map (heardOf (σ.count.finish t).system) =
        t.leaves.map (heardOf σ.system) :=
      List.map_congr_left fun x hx => (hkept.same.of_leaf (mem_leaves.mp hx)).2
    rw [he]
    refine ⟨⟨hkept.leaves, ?_, ?_, fun _ _ => by simp [hkept.finishedIn]⟩, hkept.same⟩
    · have hc : (σ.count.finish t).completed = σ.completed + 1 := hkept.completed
      rw [hheard, hc]
      omega
    · intro s hs
      rw [hkept.finishedIn] at hs
      rcases List.mem_append.mp hs with hs | hs
      · exact h.settled s hs
      · obtain rfl := List.mem_singleton.mp hs
        exact hset
  · have he : σ.handleEvent t = σ.count := if_neg hn
    rw [he]
    refine ⟨⟨h.leaves, by simp only [count]; omega, h.settled, fun hne hle => h.called hne ?_⟩,
      .refl⟩
    change t.leaves.length ≤ σ.completed + 1 at hle
    omega

theorem sessionInv_iterate (h : SessionInv t k σ) :
    SessionInv t 0 ((handleEvent t)^[k] σ) ∧
      SameLeaves g σ.system ((handleEvent t)^[k] σ).system := by
  induction k generalizing σ with
  | zero => exact ⟨h, .refl⟩
  | succ k ih =>
    obtain ⟨hone, hsame⟩ := sessionInv_handleEvent h
    obtain ⟨hrest, hsame'⟩ := ih hone
    exact ⟨hrest, hsame.trans hsame'⟩

omit [DecidableEq D] [DecidableEq A] in
/-- The listener hears of every event of a leaf. -/
theorem sessionInv_heard (h : SessionInv t 0 σ) (hs : LeafInv g s) (hle : NoLess σ.system s) :
    SessionInv t (Drops.newlyHeard t.leaves σ.system s) { σ with system := s } := by
  refine ⟨hs, ?_, h.settled, h.called⟩
  have hcount := h.counted
  have hsum : (t.leaves.map (heardOf σ.system)).sum + Drops.newlyHeard t.leaves σ.system s =
      (t.leaves.map (heardOf s)).sum := by
    rw [Drops.newlyHeard, ← List.sum_map_add]
    refine congrArg List.sum (List.map_congr_left fun x _ => ?_)
    exact Nat.add_sub_cancel' (hle x)
  simp only
  omega

theorem sessionInv_endTurn (h : SessionInv t 0 σ) (he : OrderlyEnd g σ.system) (x : D ⊕ A) :
    SessionInv t 0 (endTurn t (handleEvent t) σ x) ∧
      OrderlyEnd g (endTurn t (handleEvent t) σ x).system := by
  unfold endTurn
  split
  · rename_i ho
    obtain ⟨hinv, hsame⟩ :=
      sessionInv_iterate (sessionInv_heard h (leafInv_skipDrop h.leaves he ho) (noLess_skipDrop x))
    exact ⟨hinv, (orderlyEnd_skipDrop he x).of_same hsame⟩
  · exact ⟨h, he⟩

theorem sessionInv_endTurns (xs : List (D ⊕ A)) (h : SessionInv t 0 σ)
    (he : OrderlyEnd g σ.system) :
    SessionInv t 0 (xs.foldl (endTurn t (handleEvent t)) σ) ∧
      OrderlyEnd g (xs.foldl (endTurn t (handleEvent t)) σ).system := by
  induction xs generalizing σ with
  | nil => exact ⟨h, he⟩
  | cons x xs ih =>
    obtain ⟨hx, hex⟩ := sessionInv_endTurn h he x
    exact ih hx hex

theorem sessionInv_endSessions (n : Nat) (h : SessionInv t 0 σ) (he : OrderlyEnd g σ.system) :
    SessionInv t 0 ((endSession t (handleEvent t))^[n] σ) := by
  induction n generalizing σ with
  | zero => exact h
  | succ n ih =>
    obtain ⟨hinv, hend⟩ := sessionInv_endTurns (σ := { σ with status := .finished }) t.drops
      ⟨h.leaves, h.counted, h.settled, h.called⟩ he
    exact ih hinv hend

theorem sessionInv_step (σ : DeployedSession D A) (l : SessionLabel D A) (hg : Orderly t σ l)
    (h : SessionInv t 0 σ) : SessionInv t 0 (σ.step t l) := by
  obtain ⟨hinv, hsame⟩ :=
    sessionInv_iterate (sessionInv_heard h (leafInv_moved h.leaves hg.1) (noLess_moved l))
  by_cases hn : Drops.newlyHeard t.endLeaves σ.system (moved g σ.system l) = 0
  · rw [step, advance, hn]
    exact hinv
  · exact sessionInv_endSessions _ hinv ((hg.2 hn).of_same hsame)

theorem sessionInv_deployed (h : Deployed g σ) : SessionInv t 0 σ := by
  refine ⟨⟨fun d _ => (System.inv_initial h.system).data d, fun a _ => ?_, h.system.inputs, ?_⟩,
    ?_, ?_, ?_⟩
  · have hq := h.quiet a
    refine ⟨Or.inl (by simp [h.apps a, DROPStates.isOpen]), by omega, fun hc => absurd hq hc,
      fun hc => absurd (h.thread a) hc, fun hc => ?_⟩
    simp [hq, h.execStatus a] at hc
  · simp [h.system.inflight]
  · rw [h.completed]
    refine (List.sum_eq_zero fun n hn => ?_).symm
    obtain ⟨x, -, rfl⟩ := List.mem_map.mp hn
    cases x with
    | inl d => exact h.system.quiet d
    | inr a => exact h.quiet a
  · simp [h.finishedIn]
  · intro hne hle
    have := List.length_pos_of_ne_nil hne
    have := h.completed
    omega

/-- In every run whose steps are orderly, `finish` is called only when the leaves have settled, and
it has been called once they have all announced themselves. -/
theorem finish_when_leaves_settle (t : Drops g) (h : Deployed g σ) {ls : List (SessionLabel D A)}
    (hg : Along (step t) (Orderly t) σ ls) :
    (∀ s ∈ (run (step t) σ ls).finishedIn, ∀ x ∈ t.leaves, (statusOf s x).isSettled = true) ∧
    (t.leaves ≠ [] → (∀ x ∈ t.leaves, heardOf (run (step t) σ ls).system x ≠ 0) →
      (run (step t) σ ls).finishedIn ≠ []) := by
  have hinv : SessionInv t 0 (run (step t) σ ls) :=
    invariant_run sessionInv_step hg (sessionInv_deployed h)
  refine ⟨hinv.settled, fun hne hall => hinv.called hne ?_⟩
  have hcount := hinv.counted
  have hle := List.card_nsmul_le_sum (t.leaves.map (heardOf (run (step t) σ ls).system)) 1 <| by
    intro n hn
    obtain ⟨x, hx, rfl⟩ := List.mem_map.mp hn
    exact Nat.one_le_iff_ne_zero.mpr (hall x hx)
  simp only [List.length_map, smul_eq_mul, Nat.mul_one] at hle
  omega

local instance neZeroTwo : NeZero 2 := ⟨by decide⟩

/-- Application 0 produces data 0 and data 1, the leaves. -/
def twoOutputs : Engine.Graph (Fin 2) (Fin 1) where
  inputs := ![[]]
  outputs := ![[0, 1]]
  consumers := ![[], []]
  producers := ![[0], [0]]
  mem_consumers := by decide
  mem_producers := by decide
  inputs_nodup := by decide
  consumers_nodup := by decide

def twoOutputsDrops : Drops twoOutputs where
  drops := [.inr 0, .inl 0, .inl 1]
  nodup := by decide
  complete := by simp [Fin.forall_fin_one, Fin.forall_fin_two]
  isEnd := fun _ => false

/-- Data 0 expects one byte. -/
def expectsOne : DeployedSession (Fin 2) (Fin 1) where
  system := { data := ![{ producers := 1, expectedSize := 1 }, { producers := 1 }], app := ![{}] }

theorem deployed_expectsOne : Deployed twoOutputs expectsOne :=
  ⟨⟨by decide, by decide, by decide, by decide, by decide, by decide, by decide⟩,
    by decide, by decide, by decide, by decide, by decide, by decide⟩

/-- Data 0 reaches its size, and the producer ends in this way. -/
def oneWritten (r : RunResult) (st : DROPStates) : List (SessionLabel (Fin 2) (Fin 1)) :=
  [.drops (.startRoot 0), .drops (.executeStart 0), .drops (.write 0 1), .drops (.executeTry 0 r),
    .drops (.executeEnd 0), .drops (.executeNotify 0),
    .drops (.deliver (.producerFinished 0 0 st)), .drops (.deliver (.producerFinished 0 1 st))]

theorem finish_when_leaves_settle_two :
    (∀ s ∈ (run (step twoOutputsDrops) expectsOne (oneWritten .returns .completed)).finishedIn,
      ∀ x ∈ twoOutputsDrops.leaves, (statusOf s x).isSettled = true) ∧
    (run (step twoOutputsDrops) expectsOne (oneWritten .returns .completed)).finishedIn ≠ [] := by
  have hg : Along (step twoOutputsDrops) (Orderly twoOutputsDrops) expectsOne
      (oneWritten .returns .completed) := by
    refine ⟨⟨?_, ?_⟩, ⟨?_, ?_⟩, ⟨?_, ?_⟩, ⟨?_, ?_⟩, ⟨?_, ?_⟩, ⟨?_, ?_⟩, ⟨?_, ?_⟩, ⟨?_, ?_⟩, trivial⟩
    all_goals first
      | exact fun hn => absurd (by decide) hn
      | exact fun k hk => by cases hk; trivial
      | exact fun k hk => by cases hk; exact fun hn => absurd hn (by decide)
      | exact fun k hk => by cases hk; exact fun _ ha => absurd ha.2.2 (by decide)
  have h := finish_when_leaves_settle twoOutputsDrops deployed_expectsOne hg
  exact ⟨h.1, h.2 (by decide) (by decide)⟩

/-- Data 0 reaches its size and its producer then fails: its second event stands in for data 1. -/
theorem finish_before_leaf :
    Deployed twoOutputs expectsOne ∧ .inl 1 ∈ twoOutputsDrops.leaves ∧
      ∃ s ∈ (run (step twoOutputsDrops) expectsOne (oneWritten .raises .error)).finishedIn,
        statusOf s (.inl 1) = .initialized := by
  refine ⟨deployed_expectsOne, mem_leaves.mpr rfl, ?_⟩
  have h : (run (step twoOutputsDrops) expectsOne (oneWritten .raises .error)).finishedIn.any
      (fun s => statusOf s (.inl 1) = .initialized) = true := by decide
  simpa using h

/-- The same with a file, whose producer ends well. -/
def expectsOneFile : DeployedSession (Fin 2) (Fin 1) where
  system :=
    { data := ![{ producers := 1, expectedSize := 1, storage := .file }, { producers := 1 }]
      app := ![{}] }

/-- A file that reached its size completes once more when its producer is through. -/
theorem finish_before_leaf_file :
    Deployed twoOutputs expectsOneFile ∧ .inl 1 ∈ twoOutputsDrops.leaves ∧
      ∃ s ∈ (run (step twoOutputsDrops) expectsOneFile (oneWritten .returns .completed)).finishedIn,
        statusOf s (.inl 1) = .initialized := by
  refine ⟨⟨⟨by decide, by decide, by decide, by decide, by decide, by decide, by decide⟩,
    by decide, by decide, by decide, by decide, by decide, by decide⟩, mem_leaves.mpr rfl, ?_⟩
  have h : (run (step twoOutputsDrops) expectsOneFile
      (oneWritten .returns .completed)).finishedIn.any
      (fun s => statusOf s (.inl 1) = .initialized) = true := by decide
  simpa using h

/-- Application 0 produces data 0, which application 1, the leaf, reads. -/
def oneChain : Engine.Graph (Fin 1) (Fin 2) where
  inputs := ![[], [0]]
  outputs := ![[0], []]
  consumers := ![[1]]
  producers := ![[0]]
  mem_consumers := by decide
  mem_producers := by decide
  inputs_nodup := by decide
  consumers_nodup := by decide

def oneChainDrops : Drops oneChain where
  drops := [.inr 0, .inl 0, .inr 1]
  nodup := by decide
  complete := by simp [Fin.forall_fin_one, Fin.forall_fin_two]
  isEnd := fun _ => false

def blocksSkip : DeployedSession (Fin 1) (Fin 2) where
  system := { data := ![{ producers := 1 }], app := ![{}, { inputs := [0], blockSkip := true }] }

/-- Application 0 takes its other branch. -/
def skipsOutput : List (SessionLabel (Fin 1) (Fin 2)) :=
  [.drops (.startRoot 0), .drops (.executeStart 0), .skipOutput 0 0,
    .drops (.executeTry 0 .returns), .drops (.executeEnd 0), .drops (.executeNotify 0),
    .drops (.deliver (.producerFinished 0 0 .completed)),
    .drops (.deliver (.dropCompleted 0 1 .skipped))]

/-- A leaf with `block_skip` announces itself while it is INITIALIZED. -/
theorem finish_before_held_back_leaf :
    Deployed oneChain blocksSkip ∧ .inr 1 ∈ oneChainDrops.leaves ∧
      ∃ s ∈ (run (step oneChainDrops) blocksSkip skipsOutput).finishedIn,
        statusOf s (.inr 1) = .initialized := by
  refine ⟨⟨⟨by decide, by decide, by decide, by decide, by decide, by decide, by decide⟩,
    by decide, by decide, by decide, by decide, by decide, by decide⟩, mem_leaves.mpr rfl, ?_⟩
  have h : (run (step oneChainDrops) blocksSkip skipsOutput).finishedIn.any
      (fun s => statusOf s (.inr 1) = .initialized) = true := by decide
  simpa using h

end DeployedSession

end Leaves

end Daliuge.Manager
