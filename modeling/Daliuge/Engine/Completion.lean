import Daliuge.Engine.Firing
import Mathlib.Algebra.Order.Ring.Nat
import Mathlib.Order.WellFounded

/-!
# Completion

An orderly run of an acyclic graph does not come to rest before it is finished. Every event that
was fired is either still on its way or has been counted by its listener, and a drop that has
counted everything it waits for has moved on.
-/
namespace Daliuge.Engine

open Run

/-- An application reports to its outputs, in a state that satisfies `p`. -/
def Event.isNotice (p : DROPStates → Bool) : Event → Bool
  | .producerFinished s _ => p s
  | _ => false

/-- How many such reports a log holds. -/
def notices (p : DROPStates → Bool) (log : List Event) : Nat := log.countP (Event.isNotice p)

section Notices

variable {p : DROPStates → Bool}

@[simp] theorem notices_nil : notices p [] = 0 := rfl

@[simp] theorem notices_append (xs ys : List Event) :
    notices p (xs ++ ys) = notices p xs + notices p ys := List.countP_append

@[simp] theorem notices_singleton (e : Event) :
    notices p [e] = if e.isNotice p then 1 else 0 := by
  simp [notices, List.countP_cons]

@[simp] theorem isNotice_producerFinished (s : DROPStates) (e : AppDROPStates) :
    (Event.producerFinished s e).isNotice p = p s := rfl

@[simp] theorem isNotice_status (s : DROPStates) : (Event.status s).isNotice p = false := rfl

@[simp] theorem isNotice_dropCompleted (s : DROPStates) :
    (Event.dropCompleted s).isNotice p = false := rfl

@[simp] theorem isNotice_execStatus (e : AppDROPStates) :
    (Event.execStatus e).isNotice p = false := rfl

@[simp] theorem isNotice_reproducibility : Event.reproducibility.isNotice p = false := rfl

theorem newEvents_eq {x y : AbstractDROP} {l : List Event} (h : y.fired = x.fired ++ l) :
    newEvents x y = l := by
  simp [newEvents, h]

theorem notices_newEvents {x y : AbstractDROP} (h : x.fired <+: y.fired) :
    notices p y.fired = notices p x.fired + notices p (newEvents x y) := by
  obtain ⟨es, he⟩ := h
  rw [newEvents_eq he.symm, ← he, notices_append]

theorem notices_le (es : List Event) : notices p es ≤ notices (fun _ => true) es := by
  refine List.countP_mono_left fun e _ h => ?_
  cases e with
  | producerFinished => rfl
  | _ => cases h

end Notices

/-! The stages of an application. -/

namespace AppDROP

variable {U : Type} {x y : AppDROP U} {p : DROPStates → Bool}

/-- Not set off yet. -/
structure Waiting (x : AppDROP U) : Prop where
  thread : x.thread = .idle
  execStatus : x.execStatus = .notRun
  quiet : notices (fun _ => true) x.fired = 0

/-- What `execute` has set the execution status to when it ends. -/
def ended (failed : Bool) : AppDROPStates := if failed then .error else .finished

/-- Its thread is under way. -/
inductive Working (x : AppDROP U) : Prop
  | started (h : x.thread = .started) (hs : x.execStatus = .notRun)
      (hq : notices (fun _ => true) x.fired = 0)
  | running (k : Nat) (h : x.thread = .running k) (hs : x.execStatus = .running)
      (hq : notices (fun _ => true) x.fired = 0)
  | ending (f : Bool) (h : x.thread = .ending f) (hs : x.execStatus = ended f)
      (hq : notices (fun _ => true) x.fired = 0)
  | notifying (f : Bool) (h : x.thread = .notifying) (hs : x.execStatus = ended f)
      (hq : notices (fun _ => true) x.fired = 0)

/-- It has reported to its outputs, once. -/
structure Done (x : AppDROP U) : Prop where
  thread : x.thread = .idle
  execStatus : x.execStatus = .finished ∨ x.execStatus = .error ∨ x.execStatus = .skipped
  told : notices (fun _ => true) x.fired = 1

/-- It is set off by the last of the inputs it waits for. -/
def InStep (x : AppDROP U) : Prop :=
  (x.Waiting ∧ (x.inputs ≠ [] → (x.inputsSeen : Int) < x.effectiveInputs)) ∨
    ((x.Working ∨ x.Done) ∧ (x.inputs ≠ [] → x.effectiveInputs ≤ (x.inputsSeen : Int)))

/-! Calls only ever add to the log. -/

theorem fired_prefix_setExecStatus (v : AppDROPStates) :
    x.fired <+: (x.setExecStatus v).fired := by
  unfold setExecStatus
  split
  · exact List.prefix_rfl
  · exact List.prefix_append _ _

theorem fired_prefix_notifyAppIsFinished : x.fired <+: x.notifyAppIsFinished.fired := by
  refine (AbstractDROP.fired_prefix_setStatus (d := x.toAbstractDROP) x.finalStatus).trans ?_
  simp [notifyAppIsFinished, lift, fire, setStatus, AbstractDROP.completedrop]

theorem fired_prefix_skip : x.fired <+: x.skip.fired := by
  have h : x.fired <+: ((x.lift (·.skip)).setExecStatus .skipped).fired :=
    (AbstractDROP.fired_prefix_skip (d := x.toAbstractDROP)).trans
      (fired_prefix_setExecStatus (x := x.lift (·.skip)) .skipped)
  unfold skip
  split
  · exact h.trans (List.prefix_append _ _)
  · exact h

theorem fired_prefix_obey (v : Verdict) : x.fired <+: (x.obey v).fired := by
  cases v with
  | wait => exact List.prefix_rfl
  | error =>
    have hs : (x.setExecStatus .error).fired <+:
        ((x.setExecStatus .error).setStatus .error).fired :=
      AbstractDROP.fired_prefix_setStatus .error
    exact ((fired_prefix_setExecStatus .error).trans hs).trans fired_prefix_notifyAppIsFinished
  | notify => exact fired_prefix_notifyAppIsFinished
  | skip => exact fired_prefix_skip
  | execute => exact List.prefix_rfl

/-! What the calls report. -/

theorem notices_setStatus {d : AbstractDROP} (v : DROPStates) :
    notices p (d.setStatus v).fired = notices p d.fired := by
  unfold AbstractDROP.setStatus
  split <;> simp

theorem notices_setExecStatus (v : AppDROPStates) :
    notices p (x.setExecStatus v).fired = notices p x.fired := by
  unfold setExecStatus
  split
  · rfl
  · simp [fire, lift]

theorem notices_notifyAppIsFinished : notices p x.notifyAppIsFinished.fired =
    notices p x.fired + if p x.finalStatus then 1 else 0 := by
  simp only [notifyAppIsFinished, lift, fire, setStatus, AbstractDROP.completedrop,
    AbstractDROP.fire_fired, notices_append, notices_setStatus, notices_singleton,
    isNotice_producerFinished, isNotice_reproducibility]
  rfl

theorem notices_dropSkip {d : AbstractDROP} : notices p d.skip.fired = notices p d.fired := by
  unfold AbstractDROP.skip
  split
  · split
    · simp [AbstractDROP.completedrop, notices_setStatus]
    · rfl
  · rfl

theorem notices_skip (h : x.execStatus = .notRun) : notices p x.skip.fired =
    notices p x.fired + if p x.skip.status then 1 else 0 := by
  have hq : notices p ((x.lift (·.skip)).setExecStatus .skipped).fired = notices p x.fired := by
    rw [notices_setExecStatus]
    exact notices_dropSkip
  unfold skip
  rw [if_pos h, fire_status]
  simp only [fire, lift, AbstractDROP.fire_fired, notices_append, notices_singleton,
    isNotice_producerFinished]
  exact congrArg (· + _) hq

/-! What the calls make of the stage. -/

theorem setExecStatus_thread (v : AppDROPStates) : (x.setExecStatus v).thread = x.thread := by
  unfold setExecStatus
  split <;> rfl

theorem verdict_ne_notify (h : x.execStatus ≠ .error) : x.verdict ≠ .notify := by
  unfold verdict
  rw [if_neg h]
  split
  · split
    · rintro ⟨⟩
    · split <;> rintro ⟨⟩
  · rintro ⟨⟩

theorem done_notifyAppIsFinished (ht : x.thread = .idle)
    (hs : x.execStatus = .finished ∨ x.execStatus = .error)
    (hq : notices (fun _ => true) x.fired = 0) : x.notifyAppIsFinished.Done where
  thread := ht
  execStatus := hs.imp_right Or.inl
  told := by rw [notices_notifyAppIsFinished, hq]; rfl

theorem Waiting.done_skip (h : x.Waiting) : x.skip.Done := by
  refine ⟨?_, Or.inr (Or.inr ?_), by rw [notices_skip h.execStatus, h.quiet]; rfl⟩
  · unfold skip
    split <;> exact (setExecStatus_thread _).trans h.thread
  · unfold skip
    split <;> exact setExecStatus_execStatus _

theorem Waiting.obey (h : x.Waiting) {v : Verdict} (hv : v ≠ .wait) (hn : v ≠ .notify) :
    (x.obey v).Working ∨ (x.obey v).Done := by
  cases v with
  | wait => exact absurd rfl hv
  | notify => exact absurd rfl hn
  | error =>
    have hs : notices (fun _ => true) ((x.setExecStatus .error).setStatus .error).fired =
        notices (fun _ => true) (x.setExecStatus .error).fired := notices_setStatus .error
    refine Or.inr (done_notifyAppIsFinished ((setExecStatus_thread _).trans h.thread) ?_ ?_)
    · exact Or.inr (setExecStatus_execStatus _)
    · rw [hs, notices_setExecStatus, h.quiet]
  | skip => exact Or.inr h.done_skip
  | execute => exact Or.inl (.started rfl h.execStatus h.quiet)

/-- The thread takes its next step; nothing happens while there is none. -/
theorem executeStart_idle (h : x.thread = .idle) : x.executeStart = x := by
  simp [executeStart, h]

theorem executeTry_idle (h : x.thread = .idle) (r : RunResult) : x.executeTry r = x := by
  simp [executeTry, h]

theorem executeEnd_idle (h : x.thread = .idle) : x.executeEnd = x := by
  simp [executeEnd, h]

theorem executeNotify_idle (h : x.thread = .idle) : x.executeNotify = x := by
  simp [executeNotify, h]

theorem Working.executeStart (h : x.Working) : x.executeStart.Working := by
  cases h with
  | started h hs hq =>
    have he : x.executeStart = { x.setExecStatus .running with thread := .running 0 } := by
      simp [AppDROP.executeStart, h]
    rw [he]
    exact .running 0 rfl (setExecStatus_execStatus _) ((notices_setExecStatus _).trans hq)
  | running k h hs hq => rw [AppDROP.executeStart, h]; exact .running k h hs hq
  | ending f h hs hq => rw [AppDROP.executeStart, h]; exact .ending f h hs hq
  | notifying f h hs hq => rw [AppDROP.executeStart, h]; exact .notifying f h hs hq

theorem Working.executeTry (h : x.Working) (r : RunResult) : (x.executeTry r).Working := by
  cases h with
  | running k h hs hq =>
    have hend : ∀ f, ({ x.setExecStatus (ended f) with thread := .ending f } : AppDROP U).Working :=
      fun f => .ending f rfl (setExecStatus_execStatus _) ((notices_setExecStatus _).trans hq)
    have hc : x.execStatus ≠ .cancelled := by simp [hs]
    unfold AppDROP.executeTry
    rw [h]
    cases r with
    | returns =>
      simp only [if_neg hc]
      exact hend false
    | errorManagerCaught => exact hend true
    | raises =>
      simp only [if_neg hc]
      split
      · exact .running (k + 1) rfl hs hq
      · exact hend true
  | started h hs hq => rw [AppDROP.executeTry, h]; exact .started h hs hq
  | ending f h hs hq => rw [AppDROP.executeTry, h]; exact .ending f h hs hq
  | notifying f h hs hq => rw [AppDROP.executeTry, h]; exact .notifying f h hs hq

theorem Working.executeEnd (h : x.Working) : x.executeEnd.Working := by
  cases h with
  | ending f h hs hq =>
    rw [AppDROP.executeEnd, h]
    exact .notifying f rfl hs ((notices_setStatus _).trans hq)
  | started h hs hq => rw [AppDROP.executeEnd, h]; exact .started h hs hq
  | running k h hs hq => rw [AppDROP.executeEnd, h]; exact .running k h hs hq
  | notifying f h hs hq => rw [AppDROP.executeEnd, h]; exact .notifying f h hs hq

theorem Working.executeNotify (h : x.Working) :
    x.executeNotify.Working ∨ x.executeNotify.Done := by
  cases h with
  | notifying f h hs hq =>
    refine Or.inr ⟨?_, ?_, ?_⟩ <;> rw [AppDROP.executeNotify, h]
    · cases f with
      | false => exact Or.inl hs
      | true => exact Or.inr (Or.inl hs)
    · exact (notices_notifyAppIsFinished).trans (by rw [hq]; rfl)
  | started h hs hq => rw [AppDROP.executeNotify, h]; exact Or.inl (.started h hs hq)
  | running k h hs hq => rw [AppDROP.executeNotify, h]; exact Or.inl (.running k h hs hq)
  | ending f h hs hq => rw [AppDROP.executeNotify, h]; exact Or.inl (.ending f h hs hq)

theorem fired_prefix_executeStart : x.fired <+: x.executeStart.fired := by
  unfold executeStart
  split
  · exact fired_prefix_setExecStatus .running
  · exact List.prefix_rfl

theorem fired_prefix_executeTry (r : RunResult) : x.fired <+: (x.executeTry r).fired := by
  unfold executeTry
  split
  · split
    · split
      · exact List.prefix_rfl
      · exact fired_prefix_setExecStatus .finished
    · exact fired_prefix_setExecStatus .error
    · split
      · exact List.prefix_rfl
      · split
        · exact List.prefix_rfl
        · exact fired_prefix_setExecStatus .error
  · exact List.prefix_rfl

theorem fired_prefix_executeEnd : x.fired <+: x.executeEnd.fired := by
  unfold executeEnd
  split
  · exact AbstractDROP.fired_prefix_setStatus _
  · exact List.prefix_rfl

theorem fired_prefix_executeNotify : x.fired <+: x.executeNotify.fired := by
  unfold executeNotify
  split
  · exact fired_prefix_notifyAppIsFinished
  · exact List.prefix_rfl

/-- A step of the thread keeps an application in step. -/
theorem InStep.of_thread (h : x.InStep) (hs : x.SameInputs y) (hi : x.thread = .idle → y = x)
    (hw : x.Working → y.Working ∨ y.Done) : y.InStep := by
  rcases h with ⟨hx, hn⟩ | ⟨hx | hx, hn⟩
  · rw [hi hx.thread]
    exact Or.inl ⟨hx, hn⟩
  · refine Or.inr ⟨hw hx, ?_⟩
    rwa [hs.inputs, hs.effectiveInputs, hs.inputsSeen]
  · rw [hi hx.thread]
    exact Or.inr ⟨Or.inr hx, hn⟩

/-- Recording an input leaves the stage and the log alone. -/
theorem recordInput_stage {uid : U} {s : DROPStates} (h : x.recordInput uid s = .ok y) :
    y.thread = x.thread ∧ y.execStatus = x.execStatus ∧ y.toAbstractDROP = x.toAbstractDROP := by
  unfold recordInput at h
  split at h <;> cases h <;> exact ⟨rfl, rfl, rfl⟩

theorem exists_recordInput (uid : U) {s : DROPStates} (h : s.isSettled = true) :
    ∃ y, x.recordInput uid s = .ok y := by
  cases s with
  | completed | error | skipped => exact ⟨_, rfl⟩
  | initialized | writing | expired | deleted | cancelled => cases h

section Stage

variable (ht : y.thread = x.thread) (he : y.execStatus = x.execStatus)
  (hd : y.toAbstractDROP = x.toAbstractDROP)
include ht he hd

theorem Waiting.congr (h : x.Waiting) : y.Waiting :=
  ⟨ht.trans h.thread, he.trans h.execStatus, by rw [hd]; exact h.quiet⟩

theorem Working.congr (h : x.Working) : y.Working := by
  cases h with
  | started h hs hq => exact .started (ht.trans h) (he.trans hs) (by rwa [hd])
  | running k h hs hq => exact .running k (ht.trans h) (he.trans hs) (by rwa [hd])
  | ending f h hs hq => exact .ending f (ht.trans h) (he.trans hs) (by rwa [hd])
  | notifying f h hs hq => exact .notifying f (ht.trans h) (he.trans hs) (by rwa [hd])

theorem Done.congr (h : x.Done) : y.Done :=
  ⟨ht.trans h.thread, by rw [he]; exact h.execStatus, by rw [hd]; exact h.told⟩

end Stage

/-- An input that has settled is recorded, and the last one sets the application off. -/
theorem InStep.dropCompleted [DecidableEq U] (h : x.InStep) (hi : x.inputs ≠ [])
    (he : x.effectiveInputs ≤ x.inputs.length) (uid : U) {s : DROPStates}
    (hs : s.isSettled = true) :
    ∃ b, x.recordInput uid s = .ok b ∧ x.dropCompleted uid s = (b.obey b.verdict, .ok b.verdict) ∧
      (b.obey b.verdict).InStep := by
  obtain ⟨b, hb⟩ := exists_recordInput (x := x) uid hs
  obtain ⟨hin, heff, hseen, -⟩ := recordInput_spec hb
  obtain ⟨ht, hex, hd⟩ := recordInput_stage hb
  refine ⟨b, hb, ?_, ?_⟩
  · rw [AppDROP.dropCompleted, if_neg (by omega), hb]
  have hob := sameInputs_obey (a := b) b.verdict
  by_cases hv : b.verdict = .wait
  · have hne : (b.inputsSeen : Int) ≠ b.effectiveInputs := by
      intro hc
      unfold verdict at hv
      rw [if_pos hc] at hv
      split at hv
      · cases hv
      · split at hv
        · cases hv
        · split at hv <;> cases hv
    rw [hv]
    rcases h with ⟨hx, hn⟩ | ⟨hx, hn⟩
    · refine Or.inl ⟨hx.congr ht hex hd, fun _ => ?_⟩
      have := hn hi
      simp only [obey]
      omega
    · refine Or.inr ⟨hx.imp (·.congr ht hex hd) (·.congr ht hex hd), fun _ => ?_⟩
      have := hn hi
      simp only [obey]
      omega
  · have heq := inputsSeen_eq_of_verdict hv
    rcases h with ⟨hx, -⟩ | ⟨-, hn⟩
    · have hw := hx.congr ht hex hd
      have hnn : b.verdict ≠ .notify := verdict_ne_notify (by simp [hw.execStatus])
      refine Or.inr ⟨hw.obey hv hnn, fun _ => ?_⟩
      rw [hob.effectiveInputs, hob.inputsSeen, heq]
    · have := hn hi
      omega

end AppDROP

/-! What the calls of an orderly run make of a data drop. -/

namespace AbstractDROP

variable {n : Nat} {d x : AbstractDROP}

/-- A settled drop has announced itself, at the latest with the report of its last producer. -/
structure Told (n : Nat) (d : AbstractDROP) : Prop extends Sound n d where
  announces : d.status = .completed ∨ d.status = .error → completions d.fired = 1
  closes : 0 < n → n ≤ d.finishedProducers.length →
    d.status.isSettled = true ∧ completions d.fired = 1

/-- It is moved on: what has been announced stays, and what is announced is the new status. -/
structure Moves (n : Nat) (d x : AbstractDROP) : Prop where
  told : x.Told n
  grows : d.fired <+: x.fired
  steady : completions d.fired ≠ 0 → x.status = d.status
  speaks : ∀ s, .dropCompleted s ∈ newEvents d x → s = x.status

theorem Told.moves_refl (h : d.Told n) : Moves n d d where
  told := h
  grows := List.prefix_rfl
  steady := fun _ => rfl
  speaks := by simp [newEvents_eq (x := d) (y := d) (l := []) (by simp)]

theorem setStatus_fired {v : DROPStates} (h : d.status ≠ v) :
    (d.setStatus v).fired = d.fired ++ [.status v] := by
  unfold setStatus
  rw [if_neg (Ne.symm h), fire_fired]

theorem isOpen_ne (v : DROPStates) (h : d.status.isOpen = true) (hv : v.isOpen = false) :
    d.status ≠ v := by
  rintro rfl
  rw [h] at hv
  cases hv

theorem setCompleted_fired (h : d.status.isOpen = true) : d.setCompleted.1.fired =
    d.fired ++ [.status .completed, .dropCompleted .completed, .reproducibility] := by
  rcases setCompleted_cases (d := d) with ⟨-, he⟩ | ⟨hk, -⟩ | ⟨hc, -, -⟩ | ⟨hc, -, -⟩
  · rw [he]
    simp [completedrop, setStatus_fired (isOpen_ne .completed h rfl)]
  · rw [hk] at h
    cases h
  · rw [h] at hc
    cases hc
  · rw [hc] at h
    cases h

theorem setCompleted_status (h : d.status.isOpen = true) :
    d.setCompleted.1.status = .completed := by
  rcases setCompleted_cases (d := d) with ⟨-, he⟩ | ⟨hk, -⟩ | ⟨hc, -, -⟩ | ⟨hc, -, -⟩
  · rw [he]
    simp [completedrop]
  · rw [hk] at h
    cases h
  · rw [h] at hc
    cases hc
  · rw [hc] at h
    cases h

theorem setError_fired (h : d.status.isOpen = true) : d.setError.fired =
    d.fired ++ [.status .error, .dropCompleted .error, .reproducibility] := by
  unfold setError
  rw [if_neg (not_or.mpr ⟨isOpen_ne _ h rfl, isOpen_ne _ h rfl⟩)]
  simp [completedrop, setStatus_fired (isOpen_ne .error h rfl)]

theorem setError_status (h : d.status.isOpen = true) : d.setError.status = .error := by
  unfold setError
  rw [if_neg (not_or.mpr ⟨isOpen_ne _ h rfl, isOpen_ne _ h rfl⟩)]
  simp [completedrop]

/-- An open drop settles in `v` and announces it. -/
theorem moves_settle {v : DROPStates} (hq : completions d.fired = 0) (hx : x.Sound n)
    (hv : v.isSettled = true) (hs : x.status = v)
    (hf : x.fired = d.fired ++ [.status v, .dropCompleted v, .reproducibility]) : Moves n d x where
  told :=
    have hc : completions x.fired = 1 := by simp [hf, hq]
    { toSound := hx, announces := fun _ => hc, closes := fun _ _ => ⟨hs ▸ hv, hc⟩ }
  grows := hf ▸ List.prefix_append _ _
  steady := fun hc => absurd hq hc
  speaks := fun s h => by
    rw [newEvents_eq hf] at h
    simpa [hs] using h

theorem moves_write (h : d.Told n) (nbytes : Nat) : Moves n d (d.write nbytes).1 := by
  have hs := sound_write h.toSound nbytes
  rcases write_cases (d := d) nbytes with ⟨-, he⟩ | ⟨ho, he⟩ | ⟨ho, -, he⟩
  · rw [he]
    exact h.moves_refl
  · have hq := h.quiet ho
    have hnot : ¬ (0 < n ∧ n ≤ d.finishedProducers.length) := by
      rintro ⟨hn, hl⟩
      have := (h.closes hn hl).2
      omega
    refine ⟨⟨hs, fun hc => ?_, fun hn hl => ?_⟩, fired_prefix_write nbytes,
      fun hc => absurd hq hc, fun s hm => ?_⟩
    · rw [he] at hc
      simp at hc
    · rw [he] at hl
      exact absurd ⟨hn, by simpa using hl⟩ hnot
    · rw [he] at hm
      rcases eq_or_ne d.status .writing with hw | hw
      · rw [newEvents_eq (l := [])] at hm
        · cases hm
        · simp [setStatus, hw]
      · rw [newEvents_eq (l := [.status .writing])] at hm
        · simp at hm
        · exact setStatus_fired (d := { d with size := some (d.size.getD 0 + nbytes) }) hw
  · rw [he] at hs ⊢
    exact moves_settle (h.quiet ho) hs rfl
      (setCompleted_status (d := { d with size := some (d.size.getD 0 + nbytes) }) ho)
      (setCompleted_fired (d := { d with size := some (d.size.getD 0 + nbytes) }) ho)

theorem moves_skip (h : d.Told n) (hn : 0 < n) : Moves n d d.skip := by
  have hs := sound_skip h.toSound hn
  rcases Bool.eq_false_or_eq_true d.status.isOpen with ho | ho
  · have hq := h.quiet ho
    have hnot : ¬ n ≤ d.finishedProducers.length := by
      intro hl
      have := (h.closes hn hl).2
      omega
    unfold skip at hs ⊢
    rw [if_pos ho] at hs ⊢
    split
    · rename_i hb
      rw [if_pos hb] at hs
      have hf : (d.setStatus .skipped).completedrop.fired =
          d.fired ++ [.status .skipped, .reproducibility] := by
        simp [completedrop, setStatus_fired (isOpen_ne .skipped ho rfl)]
      refine ⟨⟨hs, fun hc => ?_, fun _ hl => ?_⟩, ?_, fun hc => absurd hq hc, fun s hm => ?_⟩
      · simp [completedrop] at hc
      · exact absurd (by simpa [completedrop] using hl) hnot
      · exact hf ▸ List.prefix_append _ _
      · rw [newEvents_eq hf] at hm
        simp at hm
    · rename_i hb
      rw [if_neg hb] at hs
      refine ⟨⟨hs, h.announces, fun _ hl => absurd hl hnot⟩, List.prefix_rfl, fun _ => rfl,
        fun s hm => ?_⟩
      rw [newEvents_eq (l := []) (by simp)] at hm
      cases hm
  · have he : d.skip = d := by simp [skip, ho]
    rw [he]
    exact h.moves_refl

/-- A root is completed from outside. -/
theorem moves_setCompleted (h : d.Told 0) (hf : d.status = .completed → d.storage ≠ .file) :
    Moves 0 d d.setCompleted.1 := by
  have hs : d.setCompleted.1.Sound 0 := sound_setCompleted h.toSound
    (fun hk => absurd (h.skipped hk) (Nat.lt_irrefl 0)) hf
  rcases setCompleted_cases (d := d) with ⟨ho, -⟩ | ⟨hk, -⟩ | ⟨-, -, he⟩ | ⟨hc, hfile, -⟩
  · exact moves_settle (h.quiet ho) hs rfl (setCompleted_status ho) (setCompleted_fired ho)
  · exact absurd (h.skipped hk) (Nat.lt_irrefl 0)
  · rw [he]
    exact h.moves_refl
  · exact absurd hfile (hf hc)

/-- A producer reports, but no failure to a drop that has been skipped or completed. -/
theorem moves_producerFinished (h : d.Told n) {s : DROPStates}
    (hg : d.failsOn s → d.status.isOpen = true) (ha : ¬ d.announcesAgain s) :
    Moves n d (d.producerFinished s).1 := by
  have hs : (d.producerFinished s).1.Sound n := sound_producerFinished h.toSound ha
  have hp := h.producers
  rcases producerFinished_cases (d := d) s with ⟨hf, he⟩ | ⟨hl, -, he⟩ | ⟨hl, he⟩ <;>
    rw [he] at hs ⊢
  · have ho : (d.recordReport s).status.isOpen = true := hg hf
    exact moves_settle (h.quiet ho) hs rfl (setError_status ho) (setError_fired ho)
  · rcases setCompleted_cases (d := d.recordReport s) with
      ⟨ho, -⟩ | ⟨hk, hx⟩ | ⟨ho, hk, hx⟩ | ⟨hcom, hfile, -⟩
    · exact moves_settle (h.quiet ho) hs rfl (setCompleted_status ho) (setCompleted_fired ho)
    · have hq : completions d.fired = 0 := by
        by_contra hc
        have := h.announced hk hc
        omega
      rw [hx] at hs ⊢
      have hc : completions ((d.recordReport s).fire (.dropCompleted .skipped)).fired = 1 := by
        simp [recordReport, hq]
      refine ⟨⟨hs, fun _ => hc, fun _ _ => ⟨?_, hc⟩⟩, ?_, fun hne => absurd hq hne,
        fun v hm => ?_⟩
      · rw [fire_status, hk]
        rfl
      · exact List.prefix_append _ _
      · rw [newEvents_eq (x := d) (l := [.dropCompleted .skipped]) rfl] at hm
        simpa [hk] using hm
    · have hno : d.status.isOpen = false := ho
      have hset : d.status.isSettled = true := h.status.resolve_left (by simp [hno])
      have hc : completions d.fired = 1 := by
        refine h.announces ?_
        cases hd : d.status with
        | completed => exact Or.inl rfl
        | error => exact Or.inr rfl
        | skipped => exact absurd hd hk
        | initialized | writing | expired | deleted | cancelled =>
          simp [hd, DROPStates.isSettled] at hset
      rw [hx] at hs ⊢
      refine ⟨⟨hs, fun _ => hc, fun _ _ => ⟨hset, hc⟩⟩, List.prefix_rfl, fun _ => rfl,
        fun v hm => ?_⟩
      rw [newEvents_eq (x := d) (l := []) (by simp [recordReport])] at hm
      cases hm
    · exact absurd ⟨hcom, hl, Or.inr hfile⟩ ha
  · refine ⟨⟨hs, h.announces, fun hn hle => h.closes hn ?_⟩, List.prefix_rfl, fun _ => rfl,
      fun v hm => ?_⟩
    · have : (d.recordReport s).finishedProducers.length = d.finishedProducers.length + 1 := by
        simp [recordReport]
      omega
    · rw [newEvents_eq (x := d) (l := []) (by simp [recordReport])] at hm
      cases hm

theorem finishedProducers_setCompleted :
    d.setCompleted.1.finishedProducers = d.finishedProducers := by
  rcases setCompleted_cases (d := d) with ⟨-, hx⟩ | ⟨-, hx⟩ | ⟨-, -, hx⟩ | ⟨-, -, hx⟩
  · rw [hx]
    simp [completedrop]
  · rw [hx, fire_finishedProducers]
  · rw [hx]
  · rw [hx]
    simp [completedrop]

theorem finishedProducers_write (nbytes : Nat) :
    (d.write nbytes).1.finishedProducers = d.finishedProducers := by
  rcases write_cases (d := d) nbytes with ⟨-, he⟩ | ⟨-, he⟩ | ⟨-, -, he⟩
  · rw [he]
  · rw [he, setStatus_finishedProducers]
  · rw [he, finishedProducers_setCompleted]

theorem finishedProducers_producerFinished (s : DROPStates) :
    (d.producerFinished s).1.finishedProducers = d.finishedProducers ++ [s] := by
  have hr : (d.recordReport s).finishedProducers = d.finishedProducers ++ [s] := rfl
  rcases producerFinished_cases (d := d) s with ⟨-, he⟩ | ⟨-, -, he⟩ | ⟨-, he⟩
  · rw [he, ← hr]
    unfold setError
    split
    · rfl
    · simp [completedrop]
  · rw [he, finishedProducers_setCompleted, hr]
  · rw [he, hr]

end AbstractDROP

/-! The whole graph. -/

/-- An application reads the one to write the other. -/
def Graph.Before {D A : Type} (g : Graph D A) (e d : D) : Prop :=
  ∃ a ∈ g.producers d, e ∈ g.inputs a

/-- No drop depends on itself, and outputs and producers are listed once like inputs and
consumers. -/
structure Graph.Acyclic {D A : Type} (g : Graph D A) : Prop where
  wf : WellFounded g.Before
  outputs_nodup : ∀ a, (g.outputs a).Nodup
  producers_nodup : ∀ d, (g.producers d).Nodup

namespace System

variable {D A : Type} [DecidableEq D] [DecidableEq A] {g : Graph D A} {s : System D A}
  {l : Label D A} {ls : List (Label D A)} {a b : A} {d e : D} {p : DROPStates → Bool}
  {owed : List (Message D A)}

/-- A report in a state satisfying `p` on its way to this data drop. -/
def isTo (p : DROPStates → Bool) (d : D) : Message D A → Bool
  | .producerFinished _ d' v => d' == d && p v
  | .dropCompleted .. => false

/-- What the producers of a data drop have fired. -/
def producerLogs (g : Graph D A) (s : System D A) (d : D) : List Event :=
  (g.producers d).flatMap fun a => (s.app a).fired

/-- The books are balanced: `owed` has been taken from the messages in flight and not yet been
counted by its listener. -/
structure Accounted (g : Graph D A) (s : System D A) (owed : List (Message D A)) : Prop where
  told : ∀ d, (s.data d).Told (g.producers d).length
  inputs : ∀ a, (s.app a).inputs = g.inputs a
  effective : ∀ a, g.inputs a ≠ [] → (s.app a).effectiveInputs ≤ (g.inputs a).length
  stage : ∀ a, (s.app a).InStep
  heard : ∀ a d, (s.app a).heard.count d + (owed ++ s.inflight).countP (isFor a d) =
    s.announced g a d
  reported : ∀ d p, (s.data d).finishedProducers.countP p +
    (owed ++ s.inflight).countP (isTo p d) = notices p (s.producerLogs g d)
  current : ∀ d a v, .dropCompleted d a v ∈ owed ++ s.inflight → v = (s.data d).status

omit [DecidableEq A] in
theorem isTo_dataMessages (es : List Event) :
    (dataMessages g e es).countP (isTo p d) = 0 := by
  simp only [dataMessages, List.countP_eq_zero, List.mem_flatMap]
  rintro m ⟨ev, -, hm⟩
  cases ev <;> simp at hm
  obtain ⟨b, -, rfl⟩ := hm
  simp [isTo]

omit [DecidableEq A] in
theorem isTo_appMessages (hg : g.Acyclic) (es : List Event) :
    (appMessages g a es).countP (isTo p d) = if d ∈ g.outputs a then notices p es else 0 := by
  induction es with
  | nil => simp [appMessages]
  | cons ev es ih =>
    simp only [appMessages, List.flatMap_cons, List.countP_append] at ih ⊢
    rw [ih, show notices p (ev :: es) = notices p [ev] + notices p es from
      notices_append [ev] es, notices_singleton]
    cases ev with
    | producerFinished v x =>
      have hc : ((g.outputs a).map fun d => Message.producerFinished a d v).countP (isTo p d) =
          if d ∈ g.outputs a ∧ p v then 1 else 0 := by
        rw [List.countP_map]
        by_cases hv : p v = true
        · have hp : (isTo p d ∘ fun d => Message.producerFinished a d v) = fun d' => d' == d := by
            funext d'
            simp [isTo, hv]
          rw [hp, ← List.count_eq_countP, (hg.outputs_nodup a).count]
          simp [hv]
        · simp [isTo, hv, Function.comp_def]
      rw [hc]
      simp only [isNotice_producerFinished]
      split_ifs <;> simp_all
    | _ => simp

omit [DecidableEq D] in
/-- The log of one producer grows. -/
theorem notices_update {x : AppDROP D} {k : Nat} (as : List A) (hn : as.Nodup)
    (hk : notices p x.fired = notices p (s.app a).fired + k) :
    notices p (as.flatMap fun b => (Function.update s.app a x b).fired) =
      notices p (as.flatMap fun b => (s.app b).fired) + if a ∈ as then k else 0 := by
  induction as with
  | nil => rfl
  | cons b as ih =>
    obtain ⟨hb, hn⟩ := List.nodup_cons.mp hn
    rw [List.flatMap_cons, List.flatMap_cons, notices_append, notices_append, ih hn]
    by_cases h : b = a
    · subst h
      rw [Function.update_self, hk, if_neg hb, if_pos List.mem_cons_self]
      omega
    · rw [Function.update_of_ne h]
      simp only [List.mem_cons, Ne.symm h, false_or]
      omega

/-- A data drop is moved on, and counts the reports that were owed to it. -/
theorem accounted_setData {x : AbstractDROP} {r : List (A × DROPStates)}
    (h : Accounted g s (r.map fun q => .producerFinished q.1 d q.2))
    (hm : AbstractDROP.Moves (g.producers d).length (s.data d) x)
    (hx : x.finishedProducers = (s.data d).finishedProducers ++ r.map Prod.snd) :
    Accounted g (s.setData g d x) [] where
  told := fun e => by
    by_cases he : e = d
    · subst he
      simpa [setData] using hm.told
    · simpa [setData, he] using h.told e
  inputs := h.inputs
  effective := h.effective
  stage := h.stage
  heard := fun a e => by
    have hc := h.heard a e
    have hz : (r.map fun q => Message.producerFinished q.1 d q.2).countP (isFor a e) = 0 := by
      simp [List.countP_eq_zero, isFor]
    have hn := completions_newEvents hm.grows
    rw [List.countP_append, hz] at hc
    rw [List.nil_append]
    by_cases he : e = d
    · subst he
      simp only [announced, setData, List.countP_append, countP_dataMessages,
        Function.update_self, true_and] at hc ⊢
      split at hc
      · simp_all
        omega
      · simp_all
    · simp only [announced, setData, List.countP_append, countP_dataMessages,
        Function.update_of_ne he, Ne.symm he, false_and, if_false] at hc ⊢
      omega
  reported := fun e p => by
    have hc := h.reported e p
    have hz : (r.map fun q => Message.producerFinished q.1 d q.2).countP (isTo p e) =
        if d = e then (r.map Prod.snd).countP p else 0 := by
      rw [List.countP_map, List.countP_map]
      by_cases he : d = e
      · subst he
        simp [isTo, Function.comp_def]
      · simp [isTo, he]
    rw [List.countP_append, hz] at hc
    rw [List.nil_append]
    simp only [setData, List.countP_append, isTo_dataMessages]
    by_cases he : e = d
    · subst he
      rw [if_pos rfl] at hc
      rw [Function.update_self, hx, List.countP_append]
      exact (by omega : _ = _).trans hc
    · rw [if_neg (Ne.symm he)] at hc
      rw [Function.update_of_ne he]
      exact (by omega : _ = _).trans hc
  current := fun e a v hv => by
    rw [List.nil_append] at hv
    rcases List.mem_append.mp hv with hin | hv
    · have hold := h.current e a v (List.mem_append_right _ hin)
      by_cases he : e = d
      · subst he
        have hpos : 0 < s.inflight.countP (isFor a e) :=
          List.countP_pos_iff.mpr ⟨_, hin, by simp [isFor]⟩
        have hc := h.heard a e
        rw [List.countP_append] at hc
        have hann : completions (s.data e).fired ≠ 0 := by
          unfold announced at hc
          split at hc <;> omega
        simpa [setData] using hold.trans (hm.steady hann).symm
      · simpa [setData, he] using hold
    · obtain ⟨ev, hev, hv⟩ := List.mem_flatMap.mp hv
      cases ev with
      | dropCompleted w =>
        obtain ⟨b, -, hb⟩ := List.mem_map.mp hv
        cases hb
        simpa [setData] using hm.speaks _ hev
      | _ => cases hv

/-- An application is moved on, and counts the inputs that were owed to it. -/
theorem accounted_setApp {x : AppDROP D} {r : List (D × DROPStates)} (hg : g.Acyclic)
    (h : Accounted g s (r.map fun q => .dropCompleted q.1 a q.2))
    (hi : x.inputs = (s.app a).inputs) (he : x.effectiveInputs = (s.app a).effectiveInputs)
    (hx : ∀ e, x.heard.count e = (s.app a).heard.count e + (r.map Prod.fst).count e)
    (hf : (s.app a).fired <+: x.fired) (hs : x.InStep) : Accounted g (s.setApp g a x) [] where
  told := h.told
  inputs := fun b => by
    by_cases hb : b = a
    · subst hb
      simpa [setApp, hi] using h.inputs b
    · simpa [setApp, hb] using h.inputs b
  effective := fun b => by
    by_cases hb : b = a
    · subst hb
      simpa [setApp, he] using h.effective b
    · simpa [setApp, hb] using h.effective b
  stage := fun b => by
    by_cases hb : b = a
    · subst hb
      simpa [setApp] using hs
    · simpa [setApp, hb] using h.stage b
  heard := fun b e => by
    have hc := h.heard b e
    have hz : (r.map fun q => Message.dropCompleted q.1 a q.2).countP (isFor b e) =
        if a = b then (r.map Prod.fst).count e else 0 := by
      rw [List.countP_map, List.count_eq_countP, List.countP_map]
      by_cases hb : a = b
      · subst hb
        simp [isFor, Function.comp_def]
      · simp [isFor, hb]
    rw [List.countP_append, hz] at hc
    rw [List.nil_append]
    simp only [announced, setApp, List.countP_append, countP_appMessages] at hc ⊢
    by_cases hb : b = a
    · subst hb
      rw [if_pos rfl] at hc
      rw [Function.update_self, hx]
      omega
    · rw [if_neg (Ne.symm hb)] at hc
      rw [Function.update_of_ne hb]
      omega
  reported := fun e p => by
    have hc := h.reported e p
    have hz : (r.map fun q => Message.dropCompleted q.1 a q.2).countP (isTo p e) = 0 := by
      simp [List.countP_eq_zero, isTo]
    rw [List.countP_append, hz] at hc
    have hk := notices_newEvents (p := p) hf
    have hu := notices_update (s := s) (g.producers e) (hg.producers_nodup e) hk
    simp only [List.nil_append, producerLogs, setApp, List.countP_append, isTo_appMessages hg]
      at hc ⊢
    rw [hu, ← hc]
    simp only [g.mem_producers]
    omega
  current := fun e b v hv => by
    rw [List.nil_append] at hv
    rcases List.mem_append.mp hv with hv | hv
    · exact h.current e b v (List.mem_append_right _ hv)
    · obtain ⟨ev, -, hv⟩ := List.mem_flatMap.mp hv
      cases ev with
      | producerFinished w =>
        obtain ⟨b, -, hb⟩ := List.mem_map.mp hv
        cases hb
      | _ => cases hv

theorem accounted_skipOutputs {r : List D} (h : Accounted g s [])
    (hd : ∀ d ∈ r, g.producers d ≠ []) : Accounted g (s.skipOutputs g r) [] := by
  induction r generalizing s with
  | nil => exact h
  | cons d r ih =>
    have hm := AbstractDROP.moves_skip (h.told d) (List.length_pos_of_ne_nil (hd d (by simp)))
    have hs : (s.data d).skip.finishedProducers = (s.data d).finishedProducers := by
      unfold AbstractDROP.skip
      split
      · split
        · simp [AbstractDROP.completedrop]
        · rfl
      · rfl
    exact ih (accounted_setData (r := []) h hm (by simpa using hs)) fun e he => hd e (by simp [he])

/-- A message is taken from those in flight. -/
theorem accounted_take {m : Message D A} (h : Accounted g s []) (hm : m ∈ s.inflight) :
    Accounted g { s with inflight := s.inflight.erase m } [m] := by
  have hp := List.perm_cons_erase hm
  refine ⟨h.told, h.inputs, h.effective, h.stage, fun a d => ?_, fun d p => ?_, fun d a v hv => ?_⟩
  · rw [List.singleton_append, ← hp.countP_eq]
    exact h.heard a d
  · rw [List.singleton_append, ← hp.countP_eq]
    exact h.reported d p
  · rw [List.singleton_append] at hv
    exact h.current d a v (hp.mem_iff.mpr hv)

/-- An input is heard of once it has settled, in its own status. -/
theorem announced_of_mem {v : DROPStates} (h : Accounted g s [])
    (hm : .dropCompleted d a v ∈ s.inflight) : d ∈ g.inputs a ∧ v.isSettled = true := by
  have hpos : 0 < s.inflight.countP (isFor a d) :=
    List.countP_pos_iff.mpr ⟨_, hm, by simp [isFor]⟩
  have hc := h.heard a d
  have hv := h.current d a v hm
  rw [List.nil_append] at hc
  unfold announced at hc
  split at hc
  · rename_i hin
    exact ⟨hin, hv ▸ (h.told d).settled (by omega)⟩
  · omega

/-- What an orderly run does without: an application is set off twice, the last report of the
producers, one of them failed, reaches a drop that is no longer open, or a COMPLETED file is
completed again, by its last producer or as a root. -/
def Regular (s : System D A) : Label D A → Prop
  | .deliver (.producerFinished _ d v) =>
    ((s.data d).failsOn v → (s.data d).status.isOpen = true) ∧ ¬ (s.data d).announcesAgain v
  | .completeRoot d =>
    (s.data d).producers = 0 → (s.data d).status = .completed → (s.data d).storage ≠ .file
  | .startRoot a => (s.app a).Waiting
  | _ => True

theorem accounted_handle {m : Message D A} (hg : g.Acyclic) (h : Accounted g s [])
    (hm : m ∈ s.inflight) (hr : Regular s (.deliver m)) :
    Accounted g ({ s with inflight := s.inflight.erase m }.handle g m) [] := by
  have ht := accounted_take h hm
  cases m with
  | producerFinished a d v =>
    exact accounted_setData (r := [(a, v)]) ht
      (AbstractDROP.moves_producerFinished (h.told d) hr.1 hr.2)
      (AbstractDROP.finishedProducers_producerFinished v)
  | dropCompleted d a v =>
    obtain ⟨hin, hv⟩ := announced_of_mem h hm
    have hi := h.inputs a
    have hne : (s.app a).inputs ≠ [] := hi ▸ List.ne_nil_of_mem hin
    have hle := h.effective a (List.ne_nil_of_mem hin)
    obtain ⟨b, hb, hd, hstage⟩ := (h.stage a).dropCompleted hne (hi ▸ hle) d hv
    obtain ⟨hbi, hbe, -, hbc⟩ := AppDROP.recordInput_spec hb
    have hob := AppDROP.sameInputs_obey (a := b) b.verdict
    have hlog : (s.app a).fired <+: (b.obey b.verdict).fired := by
      have hdrop := (AppDROP.recordInput_stage hb).2.2
      have hf := AppDROP.fired_prefix_obey (x := b) b.verdict
      rwa [hdrop] at hf
    have hset : Accounted g ({ s with inflight := s.inflight.erase (.dropCompleted d a v) }.setApp
        g a (b.obey b.verdict)) [] := by
      refine accounted_setApp (r := [(d, v)]) hg ht (hob.inputs.trans hbi)
        (hob.effectiveInputs.trans hbe) (fun e => ?_) hlog hstage
      rw [hob.heard, hbc]
      simp [List.count_singleton]
    have hskip := accounted_skipOutputs hset (r := g.outputs a) fun e he =>
      List.ne_nil_of_mem (g.mem_producers.mpr he)
    simp only [handle]
    rw [hd]
    split
    · exact hskip
    · exact hset

/-- The thread of an application takes a step. -/
theorem accounted_thread {x : AppDROP D} (hg : g.Acyclic) (h : Accounted g s [])
    (hs : (s.app a).SameInputs x) (hf : (s.app a).fired <+: x.fired) (hx : x.InStep) :
    Accounted g (s.setApp g a x) [] := by
  refine accounted_setApp (r := []) hg h hs.inputs hs.effectiveInputs (fun e => ?_) hf hx
  rw [hs.heard]
  rfl

theorem accounted_step (hg : g.Acyclic) (s : System D A) (l : Label D A) (hr : Regular s l)
    (h : Accounted g s []) : Accounted g (s.step g l) [] := by
  cases l with
  | write d nbytes =>
    exact accounted_setData (r := []) h (AbstractDROP.moves_write (h.told d) nbytes)
      (by simp [AbstractDROP.finishedProducers_write])
  | completeRoot d =>
    simp only [step]
    split
    · rename_i hd
      have hm := h.told d
      rw [hd] at hm
      have hmoves := AbstractDROP.moves_setCompleted hm (hr (by simp [(h.told d).producers, hd]))
      refine accounted_setData (r := []) h ?_ ?_
      · rwa [hd]
      · simp [AbstractDROP.finishedProducers_setCompleted]
    · exact h
  | startRoot a =>
    simp only [step]
    split
    · rename_i ha
      refine accounted_thread hg h (AppDROP.sameInputs_thread _) List.prefix_rfl (Or.inr ⟨?_, ?_⟩)
      · exact Or.inl (.started rfl hr.execStatus hr.quiet)
      · intro hne
        exact absurd ((h.inputs a).trans ha) hne
    · exact h
  | deliver m =>
    simp only [step]
    split
    · rename_i hm
      exact accounted_handle hg h hm hr
    · exact h
  | executeStart a =>
    exact accounted_thread hg h AppDROP.sameInputs_executeStart AppDROP.fired_prefix_executeStart
      ((h.stage a).of_thread AppDROP.sameInputs_executeStart AppDROP.executeStart_idle
        fun hw => Or.inl hw.executeStart)
  | executeTry a r =>
    exact accounted_thread hg h (AppDROP.sameInputs_executeTry r)
      (AppDROP.fired_prefix_executeTry r)
      ((h.stage a).of_thread (AppDROP.sameInputs_executeTry r)
        (fun hi => AppDROP.executeTry_idle hi r) fun hw => Or.inl (hw.executeTry r))
  | executeEnd a =>
    exact accounted_thread hg h AppDROP.sameInputs_executeEnd AppDROP.fired_prefix_executeEnd
      ((h.stage a).of_thread AppDROP.sameInputs_executeEnd AppDROP.executeEnd_idle
        fun hw => Or.inl hw.executeEnd)
  | executeNotify a =>
    exact accounted_thread hg h AppDROP.sameInputs_executeNotify
      AppDROP.fired_prefix_executeNotify
      ((h.stage a).of_thread AppDROP.sameInputs_executeNotify AppDROP.executeNotify_idle
        AppDROP.Working.executeNotify)

/-- A newly created graph that can be run: nothing has been set off, and no application waits for
more inputs than it has. -/
structure Ready (g : Graph D A) (s : System D A) : Prop extends Initial g s where
  waiting : ∀ a, (s.app a).Waiting
  effective : ∀ a, g.inputs a ≠ [] →
    1 ≤ (s.app a).effectiveInputs ∧ (s.app a).effectiveInputs ≤ (g.inputs a).length

/-- No event is on its way, no thread is running and all roots have been set off. -/
structure AtRest (g : Graph D A) (s : System D A) : Prop where
  inflight : s.inflight = []
  idle : ∀ a, (s.app a).thread = .idle
  completed : ∀ d, g.producers d = [] → (s.data d).status.isOpen = false
  started : ∀ a, g.inputs a = [] → ¬ (s.app a).Waiting

/-- Every data drop has settled, every application is through, and each of them has been heard of
once by everyone who waits for it. -/
structure Finished (g : Graph D A) (s : System D A) : Prop where
  settled : ∀ d, (s.data d).status.isSettled = true
  done : ∀ a, (s.app a).Done
  announced : ∀ d, completions (s.data d).fired = 1
  reported : ∀ d, (s.data d).finishedProducers.length = (g.producers d).length
  heard : ∀ a, ∀ d ∈ g.inputs a, (s.app a).heard.count d = 1

theorem accounted_initial (h : Ready g s) : Accounted g s [] where
  told := fun d =>
    { toSound := (inv_initial h.toInitial).data d
      announces := fun hs => by simp [h.status] at hs
      closes := fun hn hl => by
        rw [h.finished] at hl
        exact absurd (Nat.lt_of_lt_of_le hn hl) (Nat.lt_irrefl 0) }
  inputs := h.inputs
  effective := fun a ha => (h.effective a ha).2
  stage := fun a => Or.inl ⟨h.waiting a, fun hi => by
    have := (h.effective a (h.inputs a ▸ hi)).1
    rw [h.seen]
    omega⟩
  heard := fun a d => by
    have hz : (s.app a).heard = [] := by
      rw [← List.length_eq_zero_iff, AppDROP.length_heard, h.seen]
    simp [hz, h.inflight, System.announced, h.quiet]
  reported := fun d p => by
    have hz : notices p (s.producerLogs g d) = 0 := by
      rw [notices, List.countP_eq_zero]
      intro e he hn
      obtain ⟨a, -, he⟩ := List.mem_flatMap.mp he
      have hq := notices_le (p := p) (s.app a).fired
      rw [(h.waiting a).quiet, Nat.le_zero, notices, List.countP_eq_zero] at hq
      exact hq e he hn
    rw [hz]
    simp [h.finished, h.inflight]
  current := fun d a v hv => by simp [h.inflight] at hv

theorem accounted_run (hg : g.Acyclic) (h : Ready g s) (hr : Along (step g) Regular s ls) :
    Accounted g (run (step g) s ls) [] :=
  invariant_run (accounted_step hg) hr (accounted_initial h)

/-- A waiting application has not reported, all others whose thread is idle have, once. -/
theorem done_of_idle (h : Accounted g s []) (hi : (s.app a).thread = .idle)
    (hw : ¬ (s.app a).Waiting) : (s.app a).Done := by
  rcases h.stage a with ⟨hx, -⟩ | ⟨hx | hx, -⟩
  · exact absurd hx hw
  · cases hx <;> simp_all
  · exact hx

omit [DecidableEq D] [DecidableEq A] in
/-- Once each producer has reported, all reports have been counted. -/
theorem notices_producerLogs (as : List A) (h : ∀ a ∈ as, (s.app a).Done) :
    notices (fun _ => true) (as.flatMap fun a => (s.app a).fired) = as.length := by
  induction as with
  | nil => rfl
  | cons a as ih =>
    rw [List.flatMap_cons, notices_append, (h a List.mem_cons_self).told,
      ih fun b hb => h b (List.mem_cons_of_mem _ hb), List.length_cons, Nat.add_comm]

/-- An application whose inputs have all been announced has counted them all. -/
theorem not_waiting (h : Accounted g s []) (hn : (g.inputs a).Nodup) (hf : s.inflight = [])
    (hne : g.inputs a ≠ []) (hd : ∀ d ∈ g.inputs a, completions (s.data d).fired = 1) :
    ¬ (s.app a).Waiting := by
  intro hw
  have hi := h.inputs a
  have hsub : g.inputs a ⊆ (s.app a).heard := by
    intro d hm
    have hc := h.heard a d
    simp only [hf, List.append_nil, List.countP_nil, System.announced, if_pos hm, hd d hm] at hc
    exact List.count_pos_iff.mp (by omega)
  have hlen := (hn.subperm hsub).length_le
  rw [AppDROP.length_heard] at hlen
  have he := h.effective a hne
  rcases h.stage a with ⟨-, hs⟩ | ⟨hx | hx, -⟩
  · have := hs (hi ▸ hne)
    omega
  · cases hx <;> simp_all [hw.thread]
  · have := hx.told
    rw [hw.quiet] at this
    omega

/-- Along the dependencies, one drop after the other. -/
theorem settled_of_atRest (hg : g.Acyclic) (h : Accounted g s []) (hr : AtRest g s) (d : D) :
    (s.data d).status.isSettled = true ∧ completions (s.data d).fired = 1 := by
  induction d using hg.wf.induction with
  | _ d ih =>
    have ht := h.told d
    by_cases hp : g.producers d = []
    · have hset := ht.status.resolve_left (by simp [hr.completed d hp])
      refine ⟨hset, ht.announces ?_⟩
      have hk : (s.data d).status ≠ .skipped := fun hk => by simpa [hp] using ht.skipped hk
      generalize (s.data d).status = v at hset hk ⊢
      cases v <;> simp_all [DROPStates.isSettled]
    · have hdone : ∀ a ∈ g.producers d, (s.app a).Done := by
        intro a ha
        refine done_of_idle h (hr.idle a) ?_
        by_cases hi : g.inputs a = []
        · exact hr.started a hi
        · exact not_waiting h (g.inputs_nodup a) hr.inflight hi fun e he => (ih e ⟨a, ha, he⟩).2
      have hc := h.reported d fun _ => true
      rw [hr.inflight, producerLogs, notices_producerLogs _ hdone] at hc
      simp at hc
      exact ht.closes (List.length_pos_of_ne_nil hp) (by omega)

theorem finished_of_atRest (hg : g.Acyclic) (h : Accounted g s []) (hr : AtRest g s) :
    Finished g s := by
  have hset := settled_of_atRest hg h hr
  have hdone : ∀ a, (s.app a).Done := fun a => by
    refine done_of_idle h (hr.idle a) ?_
    by_cases hi : g.inputs a = []
    · exact hr.started a hi
    · exact not_waiting h (g.inputs_nodup a) hr.inflight hi fun e _ => (hset e).2
  refine ⟨fun d => (hset d).1, hdone, fun d => (hset d).2, fun d => ?_, fun a d hd => ?_⟩
  · have hc := h.reported d fun _ => true
    rw [hr.inflight, producerLogs, notices_producerLogs _ fun a _ => hdone a] at hc
    simpa using hc
  · have hc := h.heard a d
    simpa [hr.inflight, System.announced, hd, (hset d).2] using hc

theorem atRest_of_finished (h : Accounted g s []) (hf : Finished g s) : AtRest g s := by
  refine ⟨?_, fun a => (hf.done a).thread, fun d _ => ?_, fun a _ hw => ?_⟩
  · rw [List.eq_nil_iff_forall_not_mem]
    intro m hm
    cases m with
    | dropCompleted d a v =>
      have hin := (announced_of_mem h hm).1
      have hpos : 0 < s.inflight.countP (isFor a d) :=
        List.countP_pos_iff.mpr ⟨_, hm, by simp [isFor]⟩
      have hc := h.heard a d
      simp only [List.nil_append, System.announced, if_pos hin, hf.announced d,
        hf.heard a d hin] at hc
      omega
    | producerFinished a d v =>
      have hc := h.reported d fun _ => true
      rw [producerLogs, notices_producerLogs _ fun a _ => hf.done a, List.countP_true,
        hf.reported d, List.nil_append, Nat.add_eq_left, List.countP_eq_zero] at hc
      exact absurd (by simp [isTo]) (hc _ hm)
  · have hs := hf.settled d
    cases hd : (s.data d).status <;> simp_all [DROPStates.isSettled, DROPStates.isOpen]
  · have := (hf.done a).told
    rw [hw.quiet] at this
    omega

/-- An orderly run of an acyclic graph is at rest if and only if it is finished: no drop waits for
an event that does not come. -/
theorem atRest_iff_finished (hg : g.Acyclic) (h : Ready g s)
    (hr : Along (step g) Regular s ls) :
    AtRest g (run (step g) s ls) ↔ Finished g (run (step g) s ls) :=
  have hacc := accounted_run hg h hr
  ⟨finished_of_atRest hg hacc, atRest_of_finished hacc⟩

theorem acyclic_twoInputs : twoInputs.Acyclic where
  wf := by
    have hn : ∀ e d, ¬ twoInputs.Before e d := by unfold Graph.Before; decide
    exact ⟨fun d => ⟨d, fun e he => absurd he (hn e d)⟩⟩
  outputs_nodup := by decide
  producers_nodup := by decide

theorem ready_oneByte : Ready twoInputs oneByte where
  toInitial := initial_oneByte
  waiting := fun a => by constructor <;> revert a <;> decide
  effective := by decide

local instance neZeroTwo : NeZero 2 := ⟨by decide⟩

/-- Both applications run to their end. -/
def bothRun : List (Label (Fin 2) (Fin 2)) :=
  [.startRoot 0, .executeStart 0, .completeRoot 1, .deliver (.dropCompleted 1 1 .completed),
    .executeTry 0 .returns, .executeEnd 0, .executeNotify 0,
    .deliver (.producerFinished 0 0 .completed), .deliver (.dropCompleted 0 1 .completed),
    .executeStart 1, .executeTry 1 .raises, .executeEnd 1, .executeNotify 1]

theorem atRest_iff_finished_two :
    AtRest twoInputs (run (step twoInputs) oneByte bothRun) ∧
      Finished twoInputs (run (step twoInputs) oneByte bothRun) := by
  have hr : Along (step twoInputs) Regular oneByte bothRun :=
    ⟨ready_oneByte.waiting 0, trivial, fun _ _ => by decide, trivial, trivial, trivial, trivial,
      ⟨fun _ => by decide, fun h => absurd h.1 (by decide)⟩, trivial, trivial, trivial, trivial,
      trivial, trivial⟩
  have hrest : AtRest twoInputs (run (step twoInputs) oneByte bothRun) := by
    refine ⟨by decide, by decide, by decide, fun a ha hw => ?_⟩
    have hq : ∀ a, ((run (step twoInputs) oneByte bothRun).app a).execStatus ≠ .notRun := by
      decide
    exact hq a hw.execStatus
  exact ⟨hrest, (atRest_iff_finished acyclic_twoInputs ready_oneByte hr).mp hrest⟩

end System

end Daliuge.Engine
