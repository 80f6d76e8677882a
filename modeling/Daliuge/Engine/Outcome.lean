import Daliuge.Engine.Completion

/-!
# Outcome

What a run comes to does not depend on the order of its events: given what each try of each
application comes to, every finished run leaves every drop in the same state.
-/
namespace Daliuge.Engine

open Run

namespace AbstractDROP

variable {d x : AbstractDROP}

/-- What a data drop is set up with. -/
structure SameSettings (d x : AbstractDROP) : Prop where
  expectedSize : x.expectedSize = d.expectedSize
  blockSkip : x.blockSkip = d.blockSkip

theorem SameSettings.refl : SameSettings d d := ⟨rfl, rfl⟩

theorem sameSettings_setStatus (v : DROPStates) : SameSettings d (d.setStatus v) :=
  ⟨setStatus_expectedSize v, setStatus_blockSkip v⟩

theorem sameSettings_setCompleted : SameSettings d d.setCompleted.1 := by
  rcases setCompleted_cases (d := d) with ⟨-, he⟩ | ⟨-, he⟩ | ⟨-, -, he⟩ | ⟨-, -, he⟩
  · rw [he]
    exact ⟨setStatus_expectedSize .completed, setStatus_blockSkip .completed⟩
  · rw [he]
    exact ⟨rfl, rfl⟩
  · rw [he]
    exact .refl
  · rw [he]
    exact ⟨rfl, rfl⟩

theorem sameSettings_write (nbytes : Nat) : SameSettings d (d.write nbytes).1 := by
  rcases write_cases (d := d) nbytes with ⟨-, he⟩ | ⟨-, he⟩ | ⟨-, -, he⟩
  · rw [he]
    exact .refl
  · rw [he]
    exact ⟨setStatus_expectedSize .writing, setStatus_blockSkip .writing⟩
  · rw [he]
    exact ⟨sameSettings_setCompleted.expectedSize, sameSettings_setCompleted.blockSkip⟩

theorem sameSettings_skip : SameSettings d d.skip := by
  unfold skip
  split
  · split
    · exact ⟨setStatus_expectedSize .skipped, setStatus_blockSkip .skipped⟩
    · exact ⟨rfl, rfl⟩
  · exact .refl

theorem sameSettings_producerFinished (v : DROPStates) :
    SameSettings d (d.producerFinished v).1 := by
  rcases producerFinished_cases (d := d) v with ⟨-, he⟩ | ⟨-, -, he⟩ | ⟨-, he⟩
  · rw [he]
    unfold setError
    split
    · exact ⟨rfl, rfl⟩
    · exact ⟨setStatus_expectedSize .error, setStatus_blockSkip .error⟩
  · rw [he]
    exact ⟨sameSettings_setCompleted.expectedSize, sameSettings_setCompleted.blockSkip⟩
  · rw [he]
    exact ⟨rfl, rfl⟩

/-- Only open drops are skipped. -/
theorem skip_of_settled (h : d.status.isSettled = true) : d.skip = d := by
  unfold skip
  rw [if_neg]
  cases hd : d.status <;> simp_all [DROPStates.isSettled, DROPStates.isOpen]

theorem skip_status_of_open (h : d.status.isOpen = true)
    (hb : d.blockSkip = false ∨ d.producers = 1) : d.skip.status = .skipped := by
  unfold skip
  rw [if_pos h, if_pos]
  · simp [completedrop]
  · rcases hb with hb | hb <;> simp [hb]

end AbstractDROP

namespace AppDROP

variable {U : Type} {x y x₀ : AppDROP U} {res : Nat → RunResult} {n k : Nat} {f f' : Bool}

/-- The try of this number fails, and there is another one. -/
def Retries (res : Nat → RunResult) (n k : Nat) : Prop := res k = .raises ∧ k + 1 < n

/-- The last try decides on whether the execution fails. -/
def EndsAt (res : Nat → RunResult) (n k : Nat) : Bool → Prop
  | false => res k = .returns
  | true => res k = .errorManagerCaught ∨ res k = .raises ∧ ¬ k + 1 < n

/-- How an execution of at most `n` tries ends. -/
def Ends (res : Nat → RunResult) (n : Nat) (f : Bool) : Prop :=
  ∃ k, (∀ j < k, Retries res n j) ∧ EndsAt res n k f

theorem not_retries_of_endsAt (h : EndsAt res n k f) : ¬ Retries res n k := by
  rintro ⟨hr, hk⟩
  cases f with
  | false =>
    rw [EndsAt, hr] at h
    cases h
  | true =>
    rcases h with h | ⟨-, h⟩
    · rw [hr] at h
      cases h
    · exact h hk

theorem Ends.unique (h : Ends res n f) (h' : Ends res n f') : f = f' := by
  obtain ⟨k, hk, he⟩ := h
  obtain ⟨k', hk', he'⟩ := h'
  have hle : k' ≤ k := Nat.le_of_not_lt fun hlt => not_retries_of_endsAt he (hk' k hlt)
  have hge : k ≤ k' := Nat.le_of_not_lt fun hlt => not_retries_of_endsAt he' (hk k' hlt)
  obtain rfl : k = k' := Nat.le_antisymm hge hle
  cases f <;> cases f'
  · rfl
  · rcases he' with h | ⟨h, -⟩ <;> rw [EndsAt, h] at he <;> cases he
  · rcases he with h | ⟨h, -⟩ <;> rw [EndsAt, h] at he' <;> cases he'
  · rfl

/-- What is decided on once all inputs are known. -/
def decision (x : AppDROP U) : Verdict := { x with execStatus := .notRun }.verdict

theorem decision_eq (h : x.execStatus = .notRun) : x.decision = x.verdict := by
  cases x
  cases h
  rfl

theorem decision_congr (hi : y.inputs.length = x.inputs.length)
    (hn : y.nEffectiveInputs = x.nEffectiveInputs)
    (ht : y.inputErrorThreshold = x.inputErrorThreshold) (hb : y.blockSkip = x.blockSkip)
    (hs : y.skippedInputs.length = x.skippedInputs.length)
    (he : y.errorInputs.length = x.errorInputs.length)
    (hc : y.completedInputs.length = x.completedInputs.length) : y.decision = x.decision := by
  simp only [decision, verdict, inputsSeen, effectiveInputs, percentFailed, hi, hn, ht, hb, hs, he,
    hc]

/-- What an application with these settings and these results comes to. -/
structure Outcome (x₀ : AppDROP U) (res : Nat → RunResult) (x : AppDROP U) : Prop where
  executed : x.inputs = [] ∨ x.decision = .execute →
    ∃ f, Ends res x₀.nTries f ∧ x.execStatus = ended f ∧ x.status = dropState f
  failed : x.inputs ≠ [] → x.decision = .error → x.execStatus = .error ∧ x.status = .error
  skipped : x.inputs ≠ [] → x.decision = .skip →
    x.execStatus = .skipped ∧ x.status = x₀.toAbstractDROP.skip.status
  decided : x.inputs ≠ [] → x.decision ≠ .wait ∧ x.decision ≠ .notify
  told : ∀ p, notices p x.fired = if p x.status then 1 else 0

/-- An application on its way to its outcome. -/
structure Heads (x₀ : AppDROP U) (res : Nat → RunResult) (x : AppDROP U) : Prop where
  inputs : x.inputs = x₀.inputs
  nEffectiveInputs : x.nEffectiveInputs = x₀.nEffectiveInputs
  threshold : x.inputErrorThreshold = x₀.inputErrorThreshold
  nTries : x.nTries = x₀.nTries
  blockSkip : x.blockSkip = x₀.blockSkip
  waiting : x.Waiting → x.toAbstractDROP = x₀.toAbstractDROP
  running : ∀ k, x.thread = .running k → ∀ j < k, Retries res x₀.nTries j
  ending : ∀ f, x.thread = .ending f → Ends res x₀.nTries f
  notifying : ∀ f, x.thread = .notifying → x.execStatus = ended f → Ends res x₀.nTries f
  executes : x.Working → x.inputs = [] ∨ x.decision = .execute
  done : x.Done → Outcome x₀ res x

theorem mem_heard {u : U} : u ∈ x.heard ↔
    u ∈ x.skippedInputs ∨ u ∈ x.errorInputs ∨ u ∈ x.completedInputs := by
  simp [AppDROP.heard]

/-- Two applications of the same settings that know as many inputs of each kind. -/
theorem Outcome.unique (hx : Heads x₀ res x) (hy : Heads x₀ res y) (h : Outcome x₀ res x)
    (h' : Outcome x₀ res y) (hs : x.inputs ≠ [] → y.skippedInputs.length = x.skippedInputs.length)
    (he : x.inputs ≠ [] → y.errorInputs.length = x.errorInputs.length)
    (hc : x.inputs ≠ [] → y.completedInputs.length = x.completedInputs.length) :
    y.execStatus = x.execStatus ∧ y.status = x.status := by
  have hin : y.inputs = x.inputs := hy.inputs.trans hx.inputs.symm
  have hexec : (x.inputs = [] ∨ x.decision = .execute) → (y.inputs = [] ∨ y.decision = .execute) →
      y.execStatus = x.execStatus ∧ y.status = x.status := by
    intro hd hd'
    obtain ⟨f, hf, hxe, hxs⟩ := h.executed hd
    obtain ⟨f', hf', hye, hys⟩ := h'.executed hd'
    obtain rfl := hf.unique hf'
    exact ⟨hye.trans hxe.symm, hys.trans hxs.symm⟩
  by_cases hi : x.inputs = []
  · exact hexec (Or.inl hi) (Or.inl (hin.trans hi))
  have hyi : y.inputs ≠ [] := hin ▸ hi
  have hd : y.decision = x.decision :=
    decision_congr (congrArg List.length hin) (hy.nEffectiveInputs.trans hx.nEffectiveInputs.symm)
      (hy.threshold.trans hx.threshold.symm) (hy.blockSkip.trans hx.blockSkip.symm) (hs hi)
      (he hi) (hc hi)
  obtain ⟨hw, hn⟩ := h.decided hi
  cases hv : x.decision with
  | wait => exact absurd hv hw
  | notify => exact absurd hv hn
  | execute => exact hexec (Or.inr hv) (Or.inr (hd.trans hv))
  | error =>
    obtain ⟨hxe, hxs⟩ := h.failed hi hv
    obtain ⟨hye, hys⟩ := h'.failed hyi (hd.trans hv)
    exact ⟨hye.trans hxe.symm, hys.trans hxs.symm⟩
  | skip =>
    obtain ⟨hxe, hxs⟩ := h.skipped hi hv
    obtain ⟨hye, hys⟩ := h'.skipped hyi (hd.trans hv)
    exact ⟨hye.trans hxe.symm, hys.trans hxs.symm⟩

/-- The two have been set up the same way. -/
structure SameSettings (x y : AppDROP U) : Prop where
  threshold : y.inputErrorThreshold = x.inputErrorThreshold
  nTries : y.nTries = x.nTries
  blockSkip : y.blockSkip = x.blockSkip

theorem SameSettings.refl : SameSettings x x := ⟨rfl, rfl, rfl⟩

theorem SameSettings.trans {z : AppDROP U} (h : SameSettings x y) (h' : SameSettings y z) :
    SameSettings x z :=
  ⟨h'.1.trans h.1, h'.2.trans h.2, h'.3.trans h.3⟩

theorem sameSettings_lift {F : AbstractDROP → AbstractDROP}
    (h : (F x.toAbstractDROP).blockSkip = x.blockSkip) : SameSettings x (x.lift F) :=
  ⟨rfl, rfl, h⟩

theorem sameSettings_thread (t : Thread) : SameSettings x { x with thread := t } := ⟨rfl, rfl, rfl⟩

theorem sameSettings_setStatus (v : DROPStates) : SameSettings x (x.setStatus v) :=
  sameSettings_lift (AbstractDROP.setStatus_blockSkip v)

theorem sameSettings_setExecStatus (v : AppDROPStates) : SameSettings x (x.setExecStatus v) := by
  unfold setExecStatus
  split
  · exact .refl
  · exact ⟨rfl, rfl, rfl⟩

theorem sameSettings_notifyAppIsFinished : SameSettings x x.notifyAppIsFinished :=
  (sameSettings_setStatus x.finalStatus).trans ⟨rfl, rfl, rfl⟩

theorem sameSettings_skip : SameSettings x x.skip := by
  have h : SameSettings x ((x.lift (·.skip)).setExecStatus .skipped) :=
    (sameSettings_lift AbstractDROP.sameSettings_skip.blockSkip).trans
      (sameSettings_setExecStatus .skipped)
  unfold skip
  split
  · exact h.trans ⟨rfl, rfl, rfl⟩
  · exact h

theorem sameSettings_obey (v : Verdict) : SameSettings x (x.obey v) := by
  cases v with
  | wait => exact .refl
  | error =>
    exact ((sameSettings_setExecStatus .error).trans (sameSettings_setStatus .error)).trans
      sameSettings_notifyAppIsFinished
  | notify => exact sameSettings_notifyAppIsFinished
  | skip => exact sameSettings_skip
  | execute => exact sameSettings_thread .started

theorem decision_same (h : x.SameInputs y) (hs : x.SameSettings y) : y.decision = x.decision :=
  decision_congr (congrArg _ h.inputs) h.nEffectiveInputs hs.threshold hs.blockSkip
    (congrArg _ h.skippedInputs) (congrArg _ h.errorInputs) (congrArg _ h.completedInputs)

theorem Working.thread_ne (h : x.Working) : x.thread ≠ .idle := by
  cases h <;> simp_all

theorem ended_injective (h : ended f = ended f') : f = f' := by
  cases f <;> cases f' <;> first | rfl | cases h

/-! Each call leads on. -/

theorem Waiting.heads (h : x.Waiting) (hx : x.toAbstractDROP = x₀.toAbstractDROP)
    (hi : x.inputs = x₀.inputs) (hn : x.nEffectiveInputs = x₀.nEffectiveInputs)
    (ht : x.inputErrorThreshold = x₀.inputErrorThreshold) (hk : x.nTries = x₀.nTries) :
    Heads x₀ res x where
  inputs := hi
  nEffectiveInputs := hn
  threshold := ht
  nTries := hk
  blockSkip := congrArg AbstractDROP.blockSkip hx
  waiting := fun _ => hx
  running := fun k hk => by simp [h.thread] at hk
  ending := fun f hf => by simp [h.thread] at hf
  notifying := fun f hf => by simp [h.thread] at hf
  executes := fun hw => absurd h.thread hw.thread_ne
  done := fun hd => by simpa [h.quiet] using hd.told

/-- A step of the thread. -/
theorem Heads.of_thread (h : Heads x₀ res x) (hs : x.SameInputs y) (ht : x.SameSettings y)
    (hw : x.Working) (hy : y.Working)
    (hr : ∀ k, y.thread = .running k → ∀ j < k, Retries res x₀.nTries j)
    (he : ∀ f, y.thread = .ending f → Ends res x₀.nTries f)
    (hn : ∀ f, y.thread = .notifying → y.execStatus = ended f → Ends res x₀.nTries f) :
    Heads x₀ res y where
  inputs := hs.inputs.trans h.inputs
  nEffectiveInputs := hs.nEffectiveInputs.trans h.nEffectiveInputs
  threshold := ht.threshold.trans h.threshold
  nTries := ht.nTries.trans h.nTries
  blockSkip := ht.blockSkip.trans h.blockSkip
  waiting := fun hx => absurd hx.thread hy.thread_ne
  running := hr
  ending := he
  notifying := hn
  executes := fun _ => by rw [hs.inputs, decision_same hs ht]; exact h.executes hw
  done := fun hx => absurd hx.thread hy.thread_ne

theorem Heads.executeStart (h : Heads x₀ res x) (hw : x.Working) :
    Heads x₀ res x.executeStart := by
  have hy := hw.executeStart
  refine h.of_thread sameInputs_executeStart ?_ hw hy ?_ ?_ ?_ <;> unfold AppDROP.executeStart
  · split
    · exact (sameSettings_setExecStatus .running).trans (sameSettings_thread _)
    · exact .refl
  · split
    · rintro k ⟨⟩ j hj
      exact absurd hj (Nat.not_lt_zero j)
    · exact h.running
  · split
    · rintro _ ⟨⟩
    · exact h.ending
  · split
    · rintro _ ⟨⟩
    · exact h.notifying

theorem Heads.executeTry (h : Heads x₀ res x) (hw : x.Working) {r : RunResult}
    (hr : ∀ k, x.thread = .running k → r = res k) : Heads x₀ res (x.executeTry r) := by
  have hy := hw.executeTry r
  cases hw with
  | running k ht hs hq =>
    have hw : x.Working := .running k ht hs hq
    have hc : x.execStatus ≠ .cancelled := by simp [hs]
    have hend : ∀ f, EndsAt res x.nTries k f →
        Heads x₀ res { x.setExecStatus (ended f) with thread := .ending f } := by
      intro f hf
      rw [h.nTries] at hf
      refine h.of_thread ((sameInputs_setExecStatus _).trans (sameInputs_thread _))
        ((sameSettings_setExecStatus _).trans (sameSettings_thread _)) hw ?_ (by rintro _ ⟨⟩) ?_
        (by rintro _ ⟨⟩)
      · exact .ending f rfl (setExecStatus_execStatus _) ((notices_setExecStatus _).trans hq)
      · rintro f' ⟨⟩
        exact ⟨k, h.running k ht, hf⟩
    have hk := hr k ht
    unfold AppDROP.executeTry at hy ⊢
    rw [ht] at hy ⊢
    cases r with
    | returns =>
      simp only [if_neg hc]
      exact hend false hk.symm
    | errorManagerCaught => exact hend true (Or.inl hk.symm)
    | raises =>
      simp only [if_neg hc] at hy ⊢
      split
      · rename_i hlt
        refine h.of_thread (sameInputs_thread _) (sameSettings_thread _) hw ?_ ?_
          (by rintro _ ⟨⟩) (by rintro _ ⟨⟩)
        · exact .running (k + 1) rfl hs hq
        · rintro k' ⟨⟩ j hj
          rcases Nat.lt_succ_iff_lt_or_eq.mp hj with hj | rfl
          · exact h.running k ht j hj
          · exact ⟨hk.symm, h.nTries ▸ hlt⟩
      · rename_i hlt
        exact hend true (Or.inr ⟨hk.symm, hlt⟩)
  | started ht => rw [AppDROP.executeTry, ht]; exact h
  | ending f ht => rw [AppDROP.executeTry, ht]; exact h
  | notifying f ht => rw [AppDROP.executeTry, ht]; exact h

theorem Heads.executeEnd (h : Heads x₀ res x) (hw : x.Working) :
    Heads x₀ res x.executeEnd := by
  have hy := hw.executeEnd
  cases hw with
  | ending f ht hs hq =>
    have hw : x.Working := .ending f ht hs hq
    rw [AppDROP.executeEnd, ht] at hy ⊢
    refine h.of_thread ((sameInputs_lift _).trans (sameInputs_thread _))
      ((sameSettings_setStatus _).trans (sameSettings_thread _)) hw hy (by rintro _ ⟨⟩)
      (by rintro _ ⟨⟩) ?_
    intro f' _ hf'
    obtain rfl := ended_injective (hs.symm.trans hf')
    exact h.ending f ht
  | started ht => rw [AppDROP.executeEnd, ht]; exact h
  | running k ht => rw [AppDROP.executeEnd, ht]; exact h
  | notifying f ht => rw [AppDROP.executeEnd, ht]; exact h

theorem Working.quiet (h : x.Working) : notices (fun _ => true) x.fired = 0 := by
  cases h <;> assumption

theorem silent_of_quiet (h : notices (fun _ => true) x.fired = 0) (p : DROPStates → Bool) :
    notices p x.fired = 0 :=
  Nat.le_zero.mp (h ▸ notices_le x.fired)

theorem Working.not_skipped (h : x.Working) : x.execStatus ≠ .skipped := by
  have hf : ∀ f, ended f ≠ .skipped := fun f => by cases f <;> rintro ⟨⟩
  cases h with
  | started _ hs => rw [hs]; rintro ⟨⟩
  | running _ _ hs => rw [hs]; rintro ⟨⟩
  | ending f _ hs => rw [hs]; exact hf f
  | notifying f _ hs => rw [hs]; exact hf f

theorem executeNotify_execStatus : x.executeNotify.execStatus = x.execStatus := by
  unfold executeNotify
  split <;> rfl

/-- An application that is through heads for what it has come to. -/
theorem Heads.of_done (h : Heads x₀ res x) (hs : x.SameInputs y) (ht : x.SameSettings y)
    (hd : y.thread = .idle) (hq : notices (fun _ => true) y.fired = 1) (ho : Outcome x₀ res y) :
    Heads x₀ res y where
  inputs := hs.inputs.trans h.inputs
  nEffectiveInputs := hs.nEffectiveInputs.trans h.nEffectiveInputs
  threshold := ht.threshold.trans h.threshold
  nTries := ht.nTries.trans h.nTries
  blockSkip := ht.blockSkip.trans h.blockSkip
  waiting := fun hw => by
    rw [hw.quiet] at hq
    cases hq
  running := fun k hk => by simp [hd] at hk
  ending := fun f hf => by simp [hd] at hf
  notifying := fun f hf => by simp [hd] at hf
  executes := fun hw => absurd hd hw.thread_ne
  done := fun _ => ho

theorem Heads.executeNotify (h : Heads x₀ res x) (hw : x.Working) :
    Heads x₀ res x.executeNotify := by
  cases hw with
  | notifying f ht hs hq =>
    have hw : x.Working := .notifying f ht hs hq
    have hsame : x.SameInputs { x.notifyAppIsFinished with thread := .idle } :=
      sameInputs_notifyAppIsFinished.trans (sameInputs_thread _)
    have hset : x.SameSettings { x.notifyAppIsFinished with thread := .idle } :=
      sameSettings_notifyAppIsFinished.trans (sameSettings_thread _)
    have hdec := decision_same hsame hset
    have hex := h.executes hw
    have hst : x.notifyAppIsFinished.status = dropState f := by
      rw [notifyAppIsFinished_status, finalStatus, hs]
      cases f <;> rfl
    rw [AppDROP.executeNotify, ht]
    refine h.of_done hsame hset rfl ?_ ⟨fun _ => ⟨f, h.notifying f ht hs, hs, hst⟩, ?_, ?_, ?_, ?_⟩
    · exact (notices_notifyAppIsFinished).trans (by rw [hq]; rfl)
    · intro hi hd
      rcases hex with he | he
      · exact absurd (hsame.inputs.trans he) hi
      · exact absurd (he.symm.trans (hdec.symm.trans hd)) (by rintro ⟨⟩)
    · intro hi hd
      rcases hex with he | he
      · exact absurd (hsame.inputs.trans he) hi
      · exact absurd (he.symm.trans (hdec.symm.trans hd)) (by rintro ⟨⟩)
    · intro hi
      rcases hex with he | he
      · exact absurd (hsame.inputs.trans he) hi
      · rw [hdec, he]
        exact ⟨(by rintro ⟨⟩), (by rintro ⟨⟩)⟩
    · intro p
      refine (notices_notifyAppIsFinished).trans ?_
      rw [silent_of_quiet hq, Nat.zero_add]
      exact congrArg (fun v => if p v = true then 1 else 0)
        (notifyAppIsFinished_status (a := x)).symm
  | started ht => rw [AppDROP.executeNotify, ht]; exact h
  | running k ht => rw [AppDROP.executeNotify, ht]; exact h
  | ending f ht => rw [AppDROP.executeNotify, ht]; exact h

theorem Heads.startRoot (h : Heads x₀ res x) (hi : x.inputs = []) :
    Heads x₀ res { x with thread := .started } where
  inputs := h.inputs
  nEffectiveInputs := h.nEffectiveInputs
  threshold := h.threshold
  nTries := h.nTries
  blockSkip := h.blockSkip
  waiting := fun hx => by cases hx.thread
  running := by rintro _ ⟨⟩
  ending := by rintro _ ⟨⟩
  notifying := by rintro _ ⟨⟩
  executes := fun _ => Or.inl hi
  done := fun hx => by cases hx.thread

/-- The last input has been recorded, and the application does as it decides. -/
theorem Heads.obey (h : Heads x₀ res x) (hw : x.Waiting) (hi : x.inputs ≠ []) :
    Heads x₀ res (x.obey x.verdict) := by
  have hdec := decision_eq hw.execStatus
  have hsame := sameInputs_obey (a := x) x.verdict
  have hset := sameSettings_obey (x := x) x.verdict
  have hdec' := (decision_same hsame hset).trans hdec
  have hnn : x.verdict ≠ .notify := verdict_ne_notify (by simp [hw.execStatus])
  have hyi : (x.obey x.verdict).inputs ≠ [] := hsame.inputs ▸ hi
  cases hv : x.verdict with
  | wait => exact h
  | notify => exact absurd hv hnn
  | execute =>
    exact
      { inputs := h.inputs
        nEffectiveInputs := h.nEffectiveInputs
        threshold := h.threshold
        nTries := h.nTries
        blockSkip := h.blockSkip
        waiting := fun hx => by cases hx.thread
        running := by rintro _ ⟨⟩
        ending := by rintro _ ⟨⟩
        notifying := by rintro _ ⟨⟩
        executes := fun _ => Or.inr (hdec.trans hv)
        done := fun hx => by cases hx.thread }
  | error =>
    rw [hv] at hsame hset hdec'
    have hst : (x.obey .error).status = .error := by
      rw [AppDROP.obey, notifyAppIsFinished_status, finalStatus, setStatus_execStatus,
        setExecStatus_execStatus]
      rfl
    have hn : ∀ p, notices p (x.obey .error).fired = if p .error then 1 else 0 := by
      intro p
      have hs : notices p ((x.setExecStatus .error).setStatus .error).fired =
          notices p (x.setExecStatus .error).fired := notices_setStatus .error
      rw [AppDROP.obey, notices_notifyAppIsFinished, hs, notices_setExecStatus,
        silent_of_quiet hw.quiet, Nat.zero_add, finalStatus, setStatus_execStatus,
        setExecStatus_execStatus]
      rfl
    refine h.of_done hsame hset ((setExecStatus_thread _).trans hw.thread) (hn _)
      ⟨?_, ?_, ?_, ?_, ?_⟩
    · rintro (he | he)
      · exact absurd (hsame.inputs.symm.trans he) hi
      · exact absurd (hdec'.symm.trans he) (by rintro ⟨⟩)
    · exact fun _ _ => ⟨setExecStatus_execStatus _, hst⟩
    · exact fun _ he => absurd (hdec'.symm.trans he) (by rintro ⟨⟩)
    · exact fun _ => by rw [hdec']; exact ⟨(by rintro ⟨⟩), (by rintro ⟨⟩)⟩
    · exact fun p => by rw [hst]; exact hn p
  | skip =>
    rw [hv] at hsame hset hdec'
    have hd : (x.obey .skip).Done := hw.done_skip
    have hst : x.skip.status = x.toAbstractDROP.skip.status := by
      unfold AppDROP.skip
      split <;> exact setExecStatus_status _
    refine h.of_done hsame hset hd.thread hd.told ⟨?_, ?_, ?_, ?_, ?_⟩
    · rintro (he | he)
      · exact absurd (hsame.inputs.symm.trans he) hi
      · exact absurd (hdec'.symm.trans he) (by rintro ⟨⟩)
    · exact fun _ he => absurd (hdec'.symm.trans he) (by rintro ⟨⟩)
    · refine fun _ _ => ⟨?_, ?_⟩
      · rw [AppDROP.obey]
        unfold AppDROP.skip
        split <;> exact setExecStatus_execStatus _
      · exact hst.trans (by rw [h.waiting hw])
    · exact fun _ => by rw [hdec']; exact ⟨(by rintro ⟨⟩), (by rintro ⟨⟩)⟩
    · intro p
      rw [AppDROP.obey, notices_skip hw.execStatus, silent_of_quiet hw.quiet, Nat.zero_add]

/-- Recording an input changes neither the settings nor the log. -/
theorem recordInput_settings [DecidableEq U] {uid : U} {s : DROPStates}
    (h : x.recordInput uid s = .ok y) :
    y.inputs = x.inputs ∧ y.nEffectiveInputs = x.nEffectiveInputs ∧
      y.inputErrorThreshold = x.inputErrorThreshold ∧ y.nTries = x.nTries := by
  unfold recordInput at h
  split at h <;> cases h <;> exact ⟨rfl, rfl, rfl, rfl⟩

theorem Heads.recordInput [DecidableEq U] (h : Heads x₀ res x) (hw : x.Waiting) {uid : U}
    {s : DROPStates} (hr : x.recordInput uid s = .ok y) : y.Waiting ∧ Heads x₀ res y := by
  obtain ⟨ht, he, hd⟩ := recordInput_stage hr
  obtain ⟨hi, hn, hth, hk⟩ := recordInput_settings hr
  have hy := hw.congr ht he hd
  exact ⟨hy, hy.heads (hd.trans (h.waiting hw)) (hi.trans h.inputs)
    (hn.trans h.nEffectiveInputs) (hth.trans h.threshold) (hk.trans h.nTries)⟩

end AppDROP

namespace System

variable {D A : Type} [DecidableEq D] [DecidableEq A] {g : Graph D A} {s s₀ s' : System D A}
  {l : Label D A} {ls ls' : List (Label D A)} {a b : A} {d e : D} {res : A → Nat → RunResult}
  {owed : List (Message D A)}

/-- Every application waits for all of its inputs, and no drop completes by its size or holds a
skip back, unless it has one producer. -/
structure Plain (g : Graph D A) (s : System D A) : Prop where
  whole : ∀ a, g.inputs a ≠ [] → (s.app a).effectiveInputs = (g.inputs a).length
  unsized : ∀ d, g.producers d ≠ [] → (s.data d).expectedSize ≤ 0
  unblocked : ∀ d, (s.data d).blockSkip = false ∨ (g.producers d).length = 1

/-- What the applications have counted is what has happened. -/
structure Informed (g : Graph D A) (res : A → Nat → RunResult) (s₀ s : System D A) : Prop where
  heads : ∀ a, AppDROP.Heads (s₀.app a) (res a) (s.app a)
  whole : ∀ a, g.inputs a ≠ [] → (s.app a).effectiveInputs = (g.inputs a).length
  errorInputs : ∀ a, ∀ d ∈ (s.app a).errorInputs, (s.data d).status = .error
  completedInputs : ∀ a, ∀ d ∈ (s.app a).completedInputs, (s.data d).status = .completed
  skippedInputs : ∀ a, ∀ d ∈ (s.app a).skippedInputs, (s.data d).status = .skipped

/-- And so is what the data drops have. -/
structure Traced (g : Graph D A) (res : A → Nat → RunResult) (s₀ s : System D A) : Prop
    extends Informed g res s₀ s where
  unsized : ∀ d, g.producers d ≠ [] → (s.data d).expectedSize ≤ 0
  unblocked : ∀ d, (s.data d).blockSkip = false ∨ (g.producers d).length = 1
  error : ∀ d, (s.data d).status = .error → .error ∈ (s.data d).finishedProducers
  completed : ∀ d, g.producers d ≠ [] → (s.data d).status = .completed →
    .error ∉ (s.data d).finishedProducers ∧
      (g.producers d).length ≤ (s.data d).finishedProducers.length
  skipped : ∀ d, (s.data d).status = .skipped ↔
    ∃ a ∈ g.producers d, (s.app a).execStatus = .skipped

omit [DecidableEq D] [DecidableEq A] in
/-- Data drops are moved on, but not those that have been heard of. -/
theorem Informed.of_app (h : Informed g res s₀ s) (ha : s'.app = s.app)
    (hs : ∀ b, ∀ e ∈ (s.app b).heard, (s'.data e).status = (s.data e).status) :
    Informed g res s₀ s' := by
  refine ⟨by rw [ha]; exact h.heads, by rw [ha]; exact h.whole, fun b e hin => ?_,
    fun b e hin => ?_, fun b e hin => ?_⟩ <;> rw [ha] at hin
  · exact (hs b e (AppDROP.mem_heard.mpr (Or.inr (Or.inl hin)))).trans (h.errorInputs b e hin)
  · exact (hs b e (AppDROP.mem_heard.mpr (Or.inr (Or.inr hin)))).trans (h.completedInputs b e hin)
  · exact (hs b e (AppDROP.mem_heard.mpr (Or.inl hin))).trans (h.skippedInputs b e hin)

/-- An input that has been heard of has announced itself. -/
theorem announced_of_heard (h : Accounted g s owed) (hd : d ∈ (s.app a).heard) :
    completions (s.data d).fired ≠ 0 := by
  have hc := h.heard a d
  have hpos := List.count_pos_iff.mpr hd
  unfold announced at hc
  split at hc <;> omega

/-- A data drop is moved on. -/
theorem traced_setData {x : AbstractDROP} (h : Traced g res s₀ s) (ha : Accounted g s owed)
    (hm : AbstractDROP.Moves (g.producers d).length (s.data d) x)
    (hset : (s.data d).SameSettings x)
    (he : x.status = .error → .error ∈ x.finishedProducers)
    (hc : g.producers d ≠ [] → x.status = .completed →
      .error ∉ x.finishedProducers ∧ (g.producers d).length ≤ x.finishedProducers.length)
    (hs : x.status = .skipped ↔ (s.data d).status = .skipped) :
    Traced g res s₀ (s.setData g d x) := by
  have hold : ∀ b, ∀ e ∈ (s.app b).heard,
      ((s.setData g d x).data e).status = (s.data e).status := by
    intro b e hin
    by_cases hd : e = d
    · subst hd
      simpa [setData] using hm.steady (announced_of_heard ha hin)
    · simp [setData, hd]
  refine ⟨h.toInformed.of_app rfl hold, fun e hp => ?_, fun e => ?_, fun e => ?_, fun e => ?_,
    fun e => ?_⟩
  · by_cases hd : e = d
    · subst hd
      simpa [setData, hset.expectedSize] using h.unsized e hp
    · simpa [setData, hd] using h.unsized e hp
  · by_cases hd : e = d
    · subst hd
      simpa [setData, hset.blockSkip] using h.unblocked e
    · simpa [setData, hd] using h.unblocked e
  · by_cases hd : e = d
    · subst hd
      simpa [setData] using he
    · simpa [setData, hd] using h.error e
  · by_cases hd : e = d
    · subst hd
      simpa [setData] using hc
    · simpa [setData, hd] using h.completed e
  · by_cases hd : e = d
    · subst hd
      simpa [setData, hs] using h.skipped e
    · simpa [setData, hd] using h.skipped e

omit [DecidableEq D] in
/-- An application is moved on. -/
theorem informed_setApp {x : AppDROP D} (h : Informed g res s₀ s)
    (hx : AppDROP.Heads (s₀.app a) (res a) x)
    (hi : ∀ d ∈ x.errorInputs, (s.data d).status = .error)
    (hc : ∀ d ∈ x.completedInputs, (s.data d).status = .completed)
    (hk : ∀ d ∈ x.skippedInputs, (s.data d).status = .skipped) :
    Informed g res s₀ (s.setApp g a x) := by
  have heff : x.effectiveInputs = (s.app a).effectiveInputs := by
    have hh := h.heads a
    simp [AppDROP.effectiveInputs, hx.inputs, hx.nEffectiveInputs, hh.inputs, hh.nEffectiveInputs]
  refine ⟨fun b => ?_, fun b => ?_, fun b => ?_, fun b => ?_, fun b => ?_⟩
  · by_cases hb : b = a
    · subst hb
      simpa [setApp] using hx
    · simpa [setApp, hb] using h.heads b
  · by_cases hb : b = a
    · subst hb
      simpa [setApp, heff] using h.whole b
    · simpa [setApp, hb] using h.whole b
  · by_cases hb : b = a
    · subst hb
      simpa [setApp] using hi
    · simpa [setApp, hb] using h.errorInputs b
  · by_cases hb : b = a
    · subst hb
      simpa [setApp] using hc
    · simpa [setApp, hb] using h.completedInputs b
  · by_cases hb : b = a
    · subst hb
      simpa [setApp] using hk
    · simpa [setApp, hb] using h.skippedInputs b

omit [DecidableEq D] in
/-- No application is skipped, and none that was is anything else now. -/
theorem traced_setApp {x : AppDROP D} (h : Traced g res s₀ s)
    (hi : Informed g res s₀ (s.setApp g a x))
    (hs : x.execStatus = .skipped ↔ (s.app a).execStatus = .skipped) :
    Traced g res s₀ (s.setApp g a x) := by
  refine ⟨hi, h.unsized, h.unblocked, h.error, h.completed, fun e => ?_⟩
  have hall : ∀ b, ((s.setApp g a x).app b).execStatus = .skipped ↔
      (s.app b).execStatus = .skipped := by
    intro b
    by_cases hb : b = a
    · subst hb
      rw [app_setApp_self, hs]
    · rw [app_setApp_of_ne hb]
  simp only [hall]
  exact h.skipped e

/-- Reports are made once at most. -/
theorem notices_producerLogs_le (h : Accounted g s owed) (as : List A) :
    notices (fun _ => true) (as.flatMap fun a => (s.app a).fired) ≤ as.length := by
  induction as with
  | nil => exact Nat.le_refl 0
  | cons a as ih =>
    have hone : notices (fun _ => true) (s.app a).fired ≤ 1 := by
      rcases h.stage a with ⟨hx, -⟩ | ⟨hx | hx, -⟩
      · rw [hx.quiet]
        exact Nat.zero_le 1
      · rw [hx.quiet]
        exact Nat.zero_le 1
      · rw [hx.told]
    rw [List.flatMap_cons, notices_append, List.length_cons]
    omega

/-- While one of them has not reported, there are fewer reports than producers. -/
theorem notices_producerLogs_lt (h : Accounted g s owed) {as : List A} (ha : a ∈ as)
    (hq : notices (fun _ => true) (s.app a).fired = 0) :
    notices (fun _ => true) (as.flatMap fun a => (s.app a).fired) < as.length := by
  obtain ⟨pre, post, rfl⟩ := List.append_of_mem ha
  have hpre := notices_producerLogs_le h pre
  have hpost := notices_producerLogs_le h post
  rw [List.flatMap_append, List.flatMap_cons, notices_append, notices_append, hq,
    List.length_append, List.length_cons]
  omega

theorem length_finishedProducers_le (h : Accounted g s owed) (d : D) :
    (s.data d).finishedProducers.length + owed.countP (isTo (fun _ => true) d) ≤
      notices (fun _ => true) (s.producerLogs g d) := by
  have hc := h.reported d fun _ => true
  rw [List.countP_true, List.countP_append] at hc
  omega

/-- A producer that has not reported keeps a data drop from completing or failing. -/
theorem open_or_skipped (h : Accounted g s owed) (ht : Traced g res s₀ s)
    (hlt : (s.data d).finishedProducers.length < (g.producers d).length) :
    (s.data d).status.isOpen = true ∨ (s.data d).status = .skipped := by
  have hne : g.producers d ≠ [] := List.ne_nil_of_length_pos (by omega)
  rcases (h.told d).status with ho | hs
  · exact Or.inl ho
  · cases hd : (s.data d).status with
    | skipped => exact Or.inr rfl
    | completed =>
      have := (ht.completed d hne hd).2
      omega
    | error =>
      have := (h.told d).error hd
      omega
    | initialized | writing | expired | deleted | cancelled =>
      simp [hd, DROPStates.isSettled] at hs

theorem traced_report {v : DROPStates} (h : Traced g res s₀ s)
    (ha : Accounted g s [.producerFinished a d v])
    (hr : (s.data d).failsOn v → (s.data d).status.isOpen = true) :
    Traced g res s₀ (s.setData g d ((s.data d).producerFinished v).1) := by
  have hlt : (s.data d).finishedProducers.length < (g.producers d).length := by
    have hle := length_finishedProducers_le ha d
    have hn := notices_producerLogs_le ha (g.producers d)
    simp only [isTo, beq_self_eq_true, Bool.and_self, List.countP_singleton, if_true] at hle
    unfold producerLogs at hle
    omega
  have hos := open_or_skipped ha h hlt
  have hf := AbstractDROP.finishedProducers_producerFinished (d := s.data d) v
  have hlen : ((s.data d).finishedProducers ++ [v]).length =
      (s.data d).finishedProducers.length + 1 := by simp
  have hagain : ¬ (s.data d).announcesAgain v := by
    rintro ⟨hc, -⟩
    rcases hos with ho | hk
    · exact AbstractDROP.isOpen_ne _ ho rfl hc
    · cases hc.symm.trans hk
  have hm := AbstractDROP.moves_producerFinished (ha.told d) hr hagain
  have hset := AbstractDROP.sameSettings_producerFinished (d := s.data d) v
  have hp := (ha.told d).producers
  rcases AbstractDROP.producerFinished_cases (d := s.data d) v with
    ⟨hfail, he⟩ | ⟨hl, hno, he⟩ | ⟨hl, he⟩
  · have ho := hr hfail
    have hst : ((s.data d).producerFinished v).1.status = .error := by
      rw [he]
      exact AbstractDROP.setError_status ho
    refine traced_setData h ha hm hset (fun _ => by rw [hf]; exact hfail.2) (fun _ hc => ?_) ?_
    · rw [hst] at hc
      cases hc
    · rw [hst]
      exact iff_of_false (by rintro ⟨⟩) (AbstractDROP.isOpen_ne _ ho rfl)
  · rcases hos with ho | hk
    · have hst : ((s.data d).producerFinished v).1.status = .completed := by
        rw [he]
        exact AbstractDROP.setCompleted_status (d := (s.data d).recordReport v) ho
      refine traced_setData h ha hm hset (fun hc => ?_) (fun _ _ => ?_) ?_
      · rw [hst] at hc
        cases hc
      · rw [hf]
        exact ⟨hno, by omega⟩
      · rw [hst]
        exact iff_of_false (by rintro ⟨⟩) (AbstractDROP.isOpen_ne _ ho rfl)
    · have hst : ((s.data d).producerFinished v).1.status = .skipped := by
        rw [he]
        rcases AbstractDROP.setCompleted_cases (d := (s.data d).recordReport v) with
          ⟨hc, -⟩ | ⟨-, hx⟩ | ⟨-, hn, -⟩ | ⟨hc, -, -⟩
        · exact absurd (hk : ((s.data d).recordReport v).status = _)
            (AbstractDROP.isOpen_ne _ hc rfl)
        · rw [hx]
          exact hk
        · exact absurd hk hn
        · cases hc.symm.trans (hk : ((s.data d).recordReport v).status = _)
      refine traced_setData h ha hm hset (fun hc => ?_) (fun _ hc => ?_) ?_
      · rw [hst] at hc
        cases hc
      · rw [hst] at hc
        cases hc
      · exact iff_of_true hst hk
  · have hst : ((s.data d).producerFinished v).1.status = (s.data d).status := by rw [he]; rfl
    refine traced_setData h ha hm hset (fun hc => ?_) (fun hne hc => ?_) (by rw [hst])
    · rw [hf]
      exact List.mem_append_left _ (h.error d (hst.symm.trans hc))
    · have := (h.completed d hne (hst.symm.trans hc)).2
      omega

omit [DecidableEq A] in
/-- Each output is skipped once. -/
theorem data_skipOutputs {r : List D} (hr : r.Nodup) :
    (s.skipOutputs g r).data e = if e ∈ r then (s.data e).skip else s.data e := by
  induction r generalizing s with
  | nil => rfl
  | cons d r ih =>
    obtain ⟨hd, hr⟩ := List.nodup_cons.mp hr
    have hstep : s.skipOutputs g (d :: r) = (s.setData g d (s.data d).skip).skipOutputs g r := rfl
    rw [hstep, ih hr]
    by_cases he : e = d
    · subst he
      rw [if_neg hd, if_pos List.mem_cons_self]
      simp [setData]
    · simp [setData, he]

/-- An application is skipped, and its outputs with it. -/
theorem traced_skip {x : AppDROP D} (hg : g.Acyclic) (h : Traced g res s₀ s)
    (ha : Accounted g s owed) (hw : (s.app a).Waiting)
    (hi : Informed g res s₀ (s.setApp g a x)) (hs : x.execStatus = .skipped)
    (hx : ∀ e ∈ x.heard, (s.data e).status.isSettled = true) :
    Traced g res s₀ ((s.setApp g a x).skipOutputs g (g.outputs a)) := by
  have happ : ((s.setApp g a x).skipOutputs g (g.outputs a)).app = (s.setApp g a x).app :=
    app_skipOutputs _
  generalize ht : (s.setApp g a x).skipOutputs g (g.outputs a) = t at happ ⊢
  have hdata : ∀ e, t.data e = if e ∈ g.outputs a then (s.data e).skip else s.data e := by
    intro e
    rw [← ht]
    exact data_skipOutputs (hg.outputs_nodup a)
  have hout : ∀ e ∈ g.outputs a, (s.data e).skip.status = .skipped := by
    intro e he
    have hin := g.mem_producers.mpr he
    have hle := length_finishedProducers_le ha e
    have hlt := notices_producerLogs_lt ha hin hw.quiet
    unfold producerLogs at hle
    rcases open_or_skipped (d := e) ha h (by omega) with ho | hsk
    · refine AbstractDROP.skip_status_of_open ho ?_
      rw [(ha.told e).producers]
      exact h.unblocked e
    · rw [AbstractDROP.skip_of_settled (by rw [hsk]; rfl), hsk]
  have hsettled : ∀ e, (s.data e).status.isSettled = true → t.data e = s.data e := by
    intro e he
    rw [hdata, AbstractDROP.skip_of_settled he, ite_self]
  have hback : ∀ e, (t.data e).status ≠ .skipped → t.data e = s.data e := by
    intro e he
    rw [hdata] at he ⊢
    split
    · rename_i hin
      rw [if_pos hin] at he
      exact absurd (hout e hin) he
    · rfl
  have hset : ∀ e, (s.data e).SameSettings (t.data e) := by
    intro e
    rw [hdata]
    split
    · exact AbstractDROP.sameSettings_skip
    · exact .refl
  refine ⟨hi.of_app happ fun b e he => ?_, fun e hp => ?_, fun e => ?_, fun e he => ?_,
    fun e hp he => ?_, fun e => ⟨fun he => ?_, ?_⟩⟩
  · refine congrArg AbstractDROP.status (hsettled e ?_)
    by_cases hb : b = a
    · subst hb
      rw [app_setApp_self] at he
      exact hx e he
    · rw [app_setApp_of_ne hb] at he
      exact (ha.told e).settled (announced_of_heard ha he)
  · rw [(hset e).expectedSize]
    exact h.unsized e hp
  · rw [(hset e).blockSkip]
    exact h.unblocked e
  · have hb := hback e (by rw [he]; rintro ⟨⟩)
    rw [hb] at he ⊢
    exact h.error e he
  · have hb := hback e (by rw [he]; rintro ⟨⟩)
    rw [hb] at he ⊢
    exact h.completed e hp he
  · rw [happ]
    by_cases hin : e ∈ g.outputs a
    · exact ⟨a, g.mem_producers.mpr hin, by rw [app_setApp_self, hs]⟩
    · rw [hdata, if_neg hin] at he
      obtain ⟨b, hb, hbs⟩ := (h.skipped e).mp he
      have hne : b ≠ a := by
        rintro rfl
        exact hin (g.mem_producers.mp hb)
      exact ⟨b, hb, by rw [app_setApp_of_ne hne, hbs]⟩
  · rintro ⟨b, hb, hbs⟩
    rw [happ] at hbs
    by_cases hin : e ∈ g.outputs a
    · rw [hdata, if_pos hin, hout e hin]
    · have hne : b ≠ a := by
        rintro rfl
        exact hin (g.mem_producers.mp hb)
      rw [app_setApp_of_ne hne] at hbs
      have hsk := (h.skipped e).mpr ⟨b, hb, hbs⟩
      rw [hsettled e (by rw [hsk]; rfl), hsk]

omit [DecidableEq D] in
/-- The thread of an application takes a step. -/
theorem traced_thread {x : AppDROP D} (h : Traced g res s₀ s)
    (hx : AppDROP.Heads (s₀.app a) (res a) x) (hs : (s.app a).SameInputs x)
    (hk : x.execStatus = .skipped ↔ (s.app a).execStatus = .skipped) :
    Traced g res s₀ (s.setApp g a x) := by
  refine traced_setApp h (informed_setApp h.toInformed hx ?_ ?_ ?_) hk
  · rw [hs.errorInputs]
    exact h.errorInputs a
  · rw [hs.completedInputs]
    exact h.completedInputs a
  · rw [hs.skippedInputs]
    exact h.skippedInputs a

/-- An application is told of its inputs only while it waits for them. -/
theorem waiting_of_owed {v : DROPStates} (h : Accounted g s [.dropCompleted d a v])
    (hw : g.inputs a ≠ [] → (s.app a).effectiveInputs = (g.inputs a).length) :
    d ∈ g.inputs a ∧ (s.app a).Waiting := by
  have hle : ∀ e, (s.app a).heard.count e ≤ s.announced g a e := fun e => by
    have := h.heard a e
    omega
  have hone : ∀ e, s.announced g a e ≤ 1 := fun e => by
    have := (h.told e).once
    unfold announced
    split <;> omega
  have hd := h.heard a d
  simp only [List.countP_append, List.countP_singleton, isFor, beq_self_eq_true, Bool.and_self,
    if_true] at hd
  have hin : d ∈ g.inputs a := by
    by_contra hn
    rw [announced, if_neg hn] at hd
    omega
  refine ⟨hin, ?_⟩
  rcases h.stage a with ⟨hx, -⟩ | ⟨-, hs⟩
  · exact hx
  · have hnot : d ∉ (s.app a).heard := by
      intro hm
      have := List.count_pos_iff.mpr hm
      have := hone d
      omega
    have hn : (d :: (s.app a).heard).Nodup := List.nodup_cons.mpr ⟨hnot,
      List.nodup_iff_count_le_one.mpr fun e => Nat.le_trans (hle e) (hone e)⟩
    have hsub : d :: (s.app a).heard ⊆ g.inputs a := by
      intro e he
      rcases List.mem_cons.mp he with rfl | he
      · exact hin
      · by_contra hne
        have hpos := List.count_pos_iff.mpr he
        have hc := hle e
        rw [announced, if_neg hne] at hc
        omega
    have hlen := (hn.subperm hsub).length_le
    rw [List.length_cons, AppDROP.length_heard] at hlen
    have hne := List.ne_nil_of_mem hin
    have hseen := hs (by rw [h.inputs]; exact hne)
    rw [hw hne] at hseen
    omega

omit [DecidableEq D] [DecidableEq A] in
/-- The lists after recording an input hold it and what they held. -/
theorem lists_of_record {x y : AppDROP D} {v : DROPStates} (hr : x.recordInput d v = .ok y)
    (hv : v = (s.data d).status) (he : ∀ e ∈ x.errorInputs, (s.data e).status = .error)
    (hc : ∀ e ∈ x.completedInputs, (s.data e).status = .completed)
    (hk : ∀ e ∈ x.skippedInputs, (s.data e).status = .skipped) :
    (∀ e ∈ y.errorInputs, (s.data e).status = .error) ∧
      (∀ e ∈ y.completedInputs, (s.data e).status = .completed) ∧
      ∀ e ∈ y.skippedInputs, (s.data e).status = .skipped := by
  unfold AppDROP.recordInput at hr
  split at hr <;> cases hr
  · refine ⟨fun e hm => ?_, hc, hk⟩
    rcases List.mem_append.mp hm with hm | hm
    · exact he e hm
    · rw [List.mem_singleton.mp hm, ← hv]
  · refine ⟨he, fun e hm => ?_, hk⟩
    rcases List.mem_append.mp hm with hm | hm
    · exact hc e hm
    · rw [List.mem_singleton.mp hm, ← hv]
  · refine ⟨he, hc, fun e hm => ?_⟩
    rcases List.mem_append.mp hm with hm | hm
    · exact hk e hm
    · rw [List.mem_singleton.mp hm, ← hv]

theorem traced_heard {v : DROPStates} (hg : g.Acyclic) (h : Traced g res s₀ s)
    (ha : Accounted g s [.dropCompleted d a v]) :
    Traced g res s₀ (s.handle g (.dropCompleted d a v)) := by
  obtain ⟨hin, hw⟩ := waiting_of_owed ha (h.whole a)
  have hv : v = (s.data d).status := ha.current d a v (by simp)
  have hne : (s.app a).inputs ≠ [] := ha.inputs a ▸ List.ne_nil_of_mem hin
  have hle := ha.effective a (List.ne_nil_of_mem hin)
  have hset : v.isSettled = true := by
    have hd := ha.heard a d
    simp only [List.countP_append, List.countP_singleton, isFor, beq_self_eq_true, Bool.and_self,
      if_true, announced, if_pos hin] at hd
    rw [hv]
    exact (ha.told d).settled (by omega)
  obtain ⟨b, hb, hd, -⟩ := (ha.stage a).dropCompleted hne (ha.inputs a ▸ hle) d hset
  obtain ⟨hbw, hbh⟩ := (h.heads a).recordInput hw hb
  have hbi : b.inputs ≠ [] := by rwa [(AppDROP.recordInput_spec hb).1]
  have hob := AppDROP.sameInputs_obey (a := b) b.verdict
  obtain ⟨he, hc, hk⟩ := lists_of_record hb hv (h.errorInputs a) (h.completedInputs a)
    (h.skippedInputs a)
  have hinf : Informed g res s₀ (s.setApp g a (b.obey b.verdict)) :=
    informed_setApp h.toInformed (hbh.obey hbw hbi) (by rwa [hob.errorInputs])
      (by rwa [hob.completedInputs]) (by rwa [hob.skippedInputs])
  have hold : ¬ (s.app a).execStatus = .skipped := by rw [hw.execStatus]; rintro ⟨⟩
  simp only [handle]
  rw [hd]
  cases hbv : b.verdict with
  | skip =>
    rw [hbv] at hinf hob
    refine traced_skip hg h ha hw hinf ?_ fun e hm => ?_
    · rw [AppDROP.obey]
      unfold AppDROP.skip
      split <;> exact AppDROP.setExecStatus_execStatus _
    · rw [hob.heard] at hm
      rcases AppDROP.mem_heard.mp hm with hm | hm | hm
      · rw [hk e hm]; rfl
      · rw [he e hm]; rfl
      · rw [hc e hm]; rfl
  | notify => exact absurd hbv (AppDROP.verdict_ne_notify (by simp [hbw.execStatus]))
  | wait =>
    rw [hbv] at hinf
    exact traced_setApp h hinf (iff_of_false (by simp [AppDROP.obey, hbw.execStatus]) hold)
  | execute =>
    rw [hbv] at hinf
    exact traced_setApp h hinf (iff_of_false (by simp [AppDROP.obey, hbw.execStatus]) hold)
  | error =>
    rw [hbv] at hinf
    refine traced_setApp h hinf (iff_of_false ?_ hold)
    have hex : (b.obey .error).execStatus = .error := AppDROP.setExecStatus_execStatus .error
    rw [hex]
    rintro ⟨⟩

/-- An orderly run in which every try of an application ends as given. -/
def Given (res : A → Nat → RunResult) (s : System D A) (l : Label D A) : Prop :=
  Regular s l ∧ ∀ a r, l = .executeTry a r → ∀ k, (s.app a).thread = .running k → r = res a k

omit [DecidableEq D] [DecidableEq A] in
theorem Traced.take (h : Traced g res s₀ s) (ms : List (Message D A)) :
    Traced g res s₀ { s with inflight := ms } :=
  ⟨⟨h.heads, h.whole, h.errorInputs, h.completedInputs, h.skippedInputs⟩, h.unsized, h.unblocked,
    h.error, h.completed, h.skipped⟩

/-- Thread steps that leave a working thread working. -/
theorem traced_working {F : AppDROP D → AppDROP D} (ha : Accounted g s []) (h : Traced g res s₀ s)
    (hs : (s.app a).SameInputs (F (s.app a)))
    (hi : (s.app a).thread = .idle → F (s.app a) = s.app a)
    (hw : (s.app a).Working → AppDROP.Heads (s₀.app a) (res a) (F (s.app a)) ∧
      (F (s.app a)).execStatus ≠ .skipped) : Traced g res s₀ (s.setApp g a (F (s.app a))) := by
  have hidle : (s.app a).thread = .idle → Traced g res s₀ (s.setApp g a (F (s.app a))) := by
    intro ht
    have he := hi ht
    exact traced_thread h (by rw [he]; exact h.heads a) hs (by rw [he])
  rcases ha.stage a with ⟨hx, -⟩ | ⟨hx | hx, -⟩
  · exact hidle hx.thread
  · exact traced_thread h (hw hx).1 hs (iff_of_false (hw hx).2 hx.not_skipped)
  · exact hidle hx.thread

theorem traced_step (hg : g.Acyclic) (s : System D A) (l : Label D A) (hr : Given res s l)
    (h : Accounted g s [] ∧ Traced g res s₀ s) :
    Accounted g (s.step g l) [] ∧ Traced g res s₀ (s.step g l) := by
  obtain ⟨ha, ht⟩ := h
  refine ⟨accounted_step hg s l hr.1 ha, ?_⟩
  cases l with
  | write d nbytes =>
    have hm := AbstractDROP.moves_write (ha.told d) nbytes
    have hset := AbstractDROP.sameSettings_write (d := s.data d) nbytes
    have hf := AbstractDROP.finishedProducers_write (d := s.data d) nbytes
    rcases AbstractDROP.write_cases (d := s.data d) nbytes with ⟨-, he⟩ | ⟨ho, he⟩ | ⟨ho, hz, he⟩
    · refine traced_setData ht ha hm hset ?_ ?_ ?_ <;> rw [he]
      · exact ht.error d
      · exact ht.completed d
    · have hst : ((s.data d).write nbytes).1.status = .writing := by
        rw [he, AbstractDROP.setStatus_status]
      refine traced_setData ht ha hm hset (fun hc => ?_) (fun _ hc => ?_) ?_
      · rw [hst] at hc
        cases hc
      · rw [hst] at hc
        cases hc
      · rw [hst]
        exact iff_of_false (by rintro ⟨⟩) (AbstractDROP.isOpen_ne _ ho rfl)
    · have hst : ((s.data d).write nbytes).1.status = .completed := by
        rw [he]
        exact AbstractDROP.setCompleted_status
          (d := { s.data d with size := some ((s.data d).size.getD 0 + nbytes) }) ho
      refine traced_setData ht ha hm hset (fun hc => ?_) (fun hne _ => ?_) ?_
      · rw [hst] at hc
        cases hc
      · have := ht.unsized d hne
        omega
      · rw [hst]
        exact iff_of_false (by rintro ⟨⟩) (AbstractDROP.isOpen_ne _ ho rfl)
  | completeRoot d =>
    simp only [step]
    split
    · rename_i hd
      have hm := ha.told d
      have hroot : ¬ (s.data d).status = .skipped := by
        intro hk
        have := hm.skipped hk
        rw [hd] at this
        exact Nat.lt_irrefl 0 this
      have hfile := hr.1 (by simp [hm.producers, hd])
      rw [hd] at hm
      have hmoves : AbstractDROP.Moves (g.producers d).length (s.data d)
          (s.data d).setCompleted.1 := by
        rw [hd]
        exact AbstractDROP.moves_setCompleted hm hfile
      rcases AbstractDROP.setCompleted_cases (d := s.data d) with
        ⟨ho, -⟩ | ⟨hk, -⟩ | ⟨-, -, he⟩ | ⟨hc, hk, -⟩
      · have hst := AbstractDROP.setCompleted_status ho
        refine traced_setData ht ha hmoves AbstractDROP.sameSettings_setCompleted (fun hc => ?_)
          (fun hne _ => absurd hd hne) ?_
        · rw [hst] at hc
          cases hc
        · rw [hst]
          exact iff_of_false (by rintro ⟨⟩) hroot
      · exact absurd hk hroot
      · refine traced_setData ht ha hmoves AbstractDROP.sameSettings_setCompleted ?_
          (fun hne _ => absurd hd hne) (by rw [he])
        rw [he]
        exact ht.error d
      · exact absurd hk (hfile hc)
    · exact ht
  | startRoot a =>
    simp only [step]
    split
    · rename_i hi
      exact traced_thread ht ((ht.heads a).startRoot ((ha.inputs a).trans hi))
        (AppDROP.sameInputs_thread _) Iff.rfl
    · exact ht
  | deliver m =>
    simp only [step]
    split
    · rename_i hm
      have htake := ht.take (s.inflight.erase m)
      have hat := accounted_take ha hm
      cases m with
      | producerFinished a d v => exact traced_report htake hat hr.1.1
      | dropCompleted d a v => exact traced_heard hg htake hat
    · exact ht
  | executeStart a =>
    exact traced_working ha ht AppDROP.sameInputs_executeStart AppDROP.executeStart_idle fun hw =>
      ⟨(ht.heads a).executeStart hw, hw.executeStart.not_skipped⟩
  | executeTry a r =>
    exact traced_working ha ht (F := (·.executeTry r)) (AppDROP.sameInputs_executeTry r)
      (fun hi => AppDROP.executeTry_idle hi r) fun hw =>
      ⟨(ht.heads a).executeTry hw (hr.2 a r rfl), (hw.executeTry r).not_skipped⟩
  | executeEnd a =>
    exact traced_working ha ht AppDROP.sameInputs_executeEnd AppDROP.executeEnd_idle fun hw =>
      ⟨(ht.heads a).executeEnd hw, hw.executeEnd.not_skipped⟩
  | executeNotify a =>
    exact traced_working ha ht AppDROP.sameInputs_executeNotify AppDROP.executeNotify_idle
      fun hw => ⟨(ht.heads a).executeNotify hw, by
        rw [AppDROP.executeNotify_execStatus]
        exact hw.not_skipped⟩

omit [DecidableEq D] [DecidableEq A] in
theorem traced_initial (h : Ready g s) (hp : Plain g s) : Traced g res s s where
  heads := fun a => (h.waiting a).heads rfl rfl rfl rfl rfl
  whole := hp.whole
  errorInputs := fun a d hd => absurd (AppDROP.mem_heard.mpr (Or.inr (Or.inl hd))) (by
    rw [List.length_eq_zero_iff.mp ((AppDROP.length_heard).trans (h.seen a))]
    exact List.not_mem_nil)
  completedInputs := fun a d hd => absurd (AppDROP.mem_heard.mpr (Or.inr (Or.inr hd))) (by
    rw [List.length_eq_zero_iff.mp ((AppDROP.length_heard).trans (h.seen a))]
    exact List.not_mem_nil)
  skippedInputs := fun a d hd => absurd (AppDROP.mem_heard.mpr (Or.inl hd)) (by
    rw [List.length_eq_zero_iff.mp ((AppDROP.length_heard).trans (h.seen a))]
    exact List.not_mem_nil)
  unsized := hp.unsized
  unblocked := hp.unblocked
  error := fun d hd => by simp [h.status] at hd
  completed := fun d _ hd => by simp [h.status] at hd
  skipped := fun d => iff_of_false (by simp [h.status]) (by simp [(h.waiting _).execStatus])

theorem traced_run (hg : g.Acyclic) (h : Ready g s) (hp : Plain g s)
    (hr : Along (step g) (Given res) s ls) :
    Accounted g (run (step g) s ls) [] ∧ Traced g res s (run (step g) s ls) :=
  invariant_run (I := fun t => Accounted g t [] ∧ Traced g res s t) (traced_step hg) hr
    ⟨accounted_initial h, traced_initial h hp⟩

/-- A finished application has counted each of its inputs in the list of its status. -/
theorem length_inputs_of_finished (ha : Accounted g s []) (ht : Traced g res s₀ s)
    (hf : Finished g s) (a : A) :
    (s.app a).errorInputs.length = (g.inputs a).countP (fun d => (s.data d).status = .error) ∧
      (s.app a).completedInputs.length =
        (g.inputs a).countP (fun d => (s.data d).status = .completed) ∧
      (s.app a).skippedInputs.length =
        (g.inputs a).countP (fun d => (s.data d).status = .skipped) := by
  have hperm : (s.app a).heard.Perm (g.inputs a) := by
    rw [List.perm_iff_count]
    intro d
    by_cases hd : d ∈ g.inputs a
    · rw [hf.heard a d hd, (g.inputs_nodup a).count, if_pos hd]
    · have hc := ha.heard a d
      rw [System.announced, if_neg hd] at hc
      rw [List.count_eq_zero_of_not_mem hd]
      omega
  have hcount : ∀ v, (g.inputs a).countP (fun d => (s.data d).status = v) =
      (s.app a).skippedInputs.countP (fun d => (s.data d).status = v) +
        (s.app a).errorInputs.countP (fun d => (s.data d).status = v) +
        (s.app a).completedInputs.countP (fun d => (s.data d).status = v) := by
    intro v
    rw [← hperm.countP_eq, AppDROP.heard, List.countP_append, List.countP_append]
  have hall : ∀ {l : List D} {v w : DROPStates}, (∀ d ∈ l, (s.data d).status = w) →
      l.countP (fun d => (s.data d).status = v) = if w = v then l.length else 0 := by
    intro l v w hl
    split
    · rename_i hv
      exact List.countP_eq_length.mpr fun d hd => by simp [hl d hd, hv]
    · rename_i hv
      exact List.countP_eq_zero.mpr fun d hd => by simp [hl d hd, hv]
  have he := ht.errorInputs a
  have hc := ht.completedInputs a
  have hk := ht.skippedInputs a
  refine ⟨?_, ?_, ?_⟩ <;> rw [hcount, hall he, hall hc, hall hk] <;> simp

section Finished

variable (ha : Accounted g s []) (ht : Traced g res s₀ s) (hf : Finished g s)
include ha ht hf

/-- A data drop has failed if and only if a producer has, and none has been skipped. -/
theorem error_iff (d : D) : .error ∈ (s.data d).finishedProducers ↔
    ∃ a ∈ g.producers d, (s.app a).status = .error := by
  have hc := ha.reported d (· = .error)
  have hfl : s.inflight.countP (isTo (fun v => decide (v = .error)) d) = 0 := by
    have hall := ha.reported d fun _ => true
    rw [producerLogs, notices_producerLogs _ fun a _ => hf.done a, List.countP_true,
      hf.reported d, List.nil_append, Nat.add_eq_left, List.countP_eq_zero] at hall
    refine List.countP_eq_zero.mpr fun m hm => ?_
    cases m with
    | producerFinished b e v =>
      intro hv
      refine hall _ hm ?_
      simp only [isTo, Bool.and_true, Bool.and_eq_true] at hv ⊢
      exact hv.1
    | dropCompleted => rintro ⟨⟩
  rw [List.nil_append, hfl, Nat.add_zero] at hc
  have hpos : .error ∈ (s.data d).finishedProducers ↔
      0 < (s.data d).finishedProducers.countP (· = .error) := by
    rw [List.countP_pos_iff]
    simp
  rw [hpos, hc, notices, List.countP_pos_iff]
  constructor
  · rintro ⟨e, he, hn⟩
    obtain ⟨a, hin, he⟩ := List.mem_flatMap.mp he
    refine ⟨a, hin, ?_⟩
    by_contra hne
    have htold := ((ht.heads a).done (hf.done a)).told (· = .error)
    simp only [hne, decide_false, Bool.false_eq_true, if_false, notices,
      List.countP_eq_zero] at htold
    exact htold e he hn
  · rintro ⟨a, hin, hs⟩
    have htold := ((ht.heads a).done (hf.done a)).told (· = .error)
    simp only [hs, decide_true, if_true] at htold
    obtain ⟨e, he, hn⟩ := List.countP_pos_iff.mp (show 0 < notices (· = .error) (s.app a).fired by
      omega)
    exact ⟨e, List.mem_flatMap.mpr ⟨a, hin, he⟩, hn⟩

end Finished

section Same

variable {t : System D A} (ha : Accounted g s []) (ht : Traced g res s₀ s) (hf : Finished g s)
  (ha' : Accounted g t []) (ht' : Traced g res s₀ t) (hf' : Finished g t)
include ha ht hf ha' ht' hf'

/-- Applications whose inputs end the same way end the same way. -/
theorem same_app (h : ∀ d ∈ g.inputs a, (t.data d).status = (s.data d).status) :
    (t.app a).execStatus = (s.app a).execStatus ∧ (t.app a).status = (s.app a).status := by
  obtain ⟨he, hc, hk⟩ := length_inputs_of_finished ha ht hf a
  obtain ⟨he', hc', hk'⟩ := length_inputs_of_finished ha' ht' hf' a
  have hcongr : ∀ v, (g.inputs a).countP (fun d => (t.data d).status = v) =
      (g.inputs a).countP (fun d => (s.data d).status = v) :=
    fun v => List.countP_congr fun d hd => by rw [h d hd]
  exact ((ht.heads a).done (hf.done a)).unique (ht.heads a) (ht'.heads a)
    ((ht'.heads a).done (hf'.done a)) (fun _ => hk'.trans ((hcongr _).trans hk.symm))
    (fun _ => he'.trans ((hcongr _).trans he.symm)) fun _ => hc'.trans ((hcongr _).trans hc.symm)

/-- Data drops whose producers end the same way end the same way. -/
theorem same_data (h : ∀ a ∈ g.producers d, (t.app a).execStatus = (s.app a).execStatus ∧
    (t.app a).status = (s.app a).status) : (t.data d).status = (s.data d).status := by
  have hskip : (t.data d).status = .skipped ↔ (s.data d).status = .skipped := by
    rw [ht.skipped, ht'.skipped]
    exact exists_congr fun a => and_congr_right fun hin => by rw [(h a hin).1]
  have hin : .error ∈ (t.data d).finishedProducers ↔ .error ∈ (s.data d).finishedProducers := by
    rw [error_iff ha ht hf, error_iff ha' ht' hf']
    exact exists_congr fun a => and_congr_right fun hin => by rw [(h a hin).2]
  have hend : ∀ {u : System D A}, Traced g res s₀ u → Finished g u →
      (u.data d).status = .skipped ∨
      ((u.data d).status = .error ∧ .error ∈ (u.data d).finishedProducers) ∨
      ((u.data d).status = .completed ∧ .error ∉ (u.data d).finishedProducers) := by
    intro u hu hfin
    cases hd : (u.data d).status with
    | skipped => exact Or.inl rfl
    | error => exact Or.inr (Or.inl ⟨rfl, hu.error d hd⟩)
    | completed =>
      refine Or.inr (Or.inr ⟨rfl, ?_⟩)
      by_cases hp : g.producers d = []
      · have hl := hfin.reported d
        rw [hp, List.length_nil, List.length_eq_zero_iff] at hl
        rw [hl]
        exact List.not_mem_nil
      · exact (hu.completed d hp hd).1
    | initialized | writing | expired | deleted | cancelled =>
      have := hfin.settled d
      simp [hd, DROPStates.isSettled] at this
  rcases hend ht hf with hs | ⟨hs, hm⟩ | ⟨hs, hm⟩ <;>
    rcases hend ht' hf' with ht | ⟨ht, hm'⟩ | ⟨ht, hm'⟩
  · rw [hs, ht]
  · exact absurd (hskip.mpr hs) (by rw [ht]; rintro ⟨⟩)
  · exact absurd (hskip.mpr hs) (by rw [ht]; rintro ⟨⟩)
  · exact absurd (hskip.mp ht) (by rw [hs]; rintro ⟨⟩)
  · rw [hs, ht]
  · exact absurd (hin.mpr hm) hm'
  · exact absurd (hskip.mp ht) (by rw [hs]; rintro ⟨⟩)
  · exact absurd (hin.mp hm') hm
  · rw [hs, ht]

end Same

/-- Two orderly runs of an acyclic graph that have come to rest leave every drop in the same state,
whatever their orders, if each try of each application ends the same way in both. -/
theorem outcome_independent_of_order (hg : g.Acyclic) (h : Ready g s) (hp : Plain g s)
    (hr : Along (step g) (Given res) s ls) (hr' : Along (step g) (Given res) s ls')
    (hrest : AtRest g (run (step g) s ls)) (hrest' : AtRest g (run (step g) s ls')) :
    (∀ d, ((run (step g) s ls').data d).status = ((run (step g) s ls).data d).status) ∧
      ∀ a, ((run (step g) s ls').app a).execStatus = ((run (step g) s ls).app a).execStatus ∧
        ((run (step g) s ls').app a).status = ((run (step g) s ls).app a).status := by
  have hreg : Along (step g) Regular s ls := along_mono (fun _ _ h => h.1) hr
  have hreg' : Along (step g) Regular s ls' := along_mono (fun _ _ h => h.1) hr'
  have hf := finished_of_atRest hg (accounted_run hg h hreg) hrest
  have hf' := finished_of_atRest hg (accounted_run hg h hreg') hrest'
  obtain ⟨ha, ht⟩ := traced_run hg h hp hr
  obtain ⟨ha', ht'⟩ := traced_run hg h hp hr'
  have hdata : ∀ d, ((run (step g) s ls').data d).status = ((run (step g) s ls).data d).status := by
    intro d
    induction d using hg.wf.induction with
    | _ d ih =>
      exact same_data ha ht hf ha' ht' hf' fun a hin =>
        same_app ha ht hf ha' ht' hf' fun e he => ih e ⟨a, hin, he⟩
  exact ⟨hdata, fun a => same_app ha ht hf ha' ht' hf' fun d _ => hdata d⟩

attribute [local instance] neZeroTwo

/-- The graph of two applications, without an expected size. -/
def twoApps : System (Fin 2) (Fin 2) where
  data := ![{ producers := 1 }, {}]
  app := ![{}, { inputs := [0, 1] }]

/-- The second data drop is completed last. -/
def rootLast : List (Label (Fin 2) (Fin 2)) :=
  [.startRoot 0, .executeStart 0, .write 0 1, .executeTry 0 .returns, .executeEnd 0,
    .executeNotify 0, .deliver (.producerFinished 0 0 .completed),
    .deliver (.dropCompleted 0 1 .completed), .completeRoot 1,
    .deliver (.dropCompleted 1 1 .completed), .executeStart 1, .executeTry 1 .raises,
    .executeEnd 1, .executeNotify 1]

/-- The first application succeeds and the second one fails. -/
def firstOnly (a : Fin 2) (_ : Nat) : RunResult := if a = 0 then .returns else .raises

theorem outcome_independent_of_order_two :
    let s := run (step twoInputs) twoApps bothRun
    let t := run (step twoInputs) twoApps rootLast
    (∀ d, (t.data d).status = (s.data d).status) ∧
      ∀ a, (t.app a).execStatus = (s.app a).execStatus ∧ (t.app a).status = (s.app a).status := by
  have hready : Ready twoInputs twoApps :=
    { toInitial := by constructor <;> decide
      waiting := fun a => by constructor <;> revert a <;> decide
      effective := by decide }
  have hplain : Plain twoInputs twoApps := by constructor <;> decide
  have hrest : ∀ ls, (∀ a, ((run (step twoInputs) twoApps ls).app a).execStatus ≠ .notRun) →
      ∀ a, twoInputs.inputs a = [] → ¬ ((run (step twoInputs) twoApps ls).app a).Waiting :=
    fun ls hls a _ hw => hls a hw.execStatus
  have hr : Along (step twoInputs) (Given firstOnly) twoApps bothRun := by
    refine ⟨⟨hready.waiting 0, ?_⟩, ⟨trivial, ?_⟩, ⟨fun _ _ => by decide, ?_⟩, ⟨trivial, ?_⟩,
      ⟨trivial, ?_⟩, ⟨trivial, ?_⟩, ⟨trivial, ?_⟩,
      ⟨⟨fun _ => by decide, fun h => absurd h.1 (by decide)⟩, ?_⟩, ⟨trivial, ?_⟩, ⟨trivial, ?_⟩,
      ⟨trivial, ?_⟩, ⟨trivial, ?_⟩, ⟨trivial, ?_⟩, trivial⟩ <;>
    rintro a r ⟨⟩ k - <;> rfl
  have hr' : Along (step twoInputs) (Given firstOnly) twoApps rootLast := by
    refine ⟨⟨hready.waiting 0, ?_⟩, ⟨trivial, ?_⟩, ⟨trivial, ?_⟩, ⟨trivial, ?_⟩, ⟨trivial, ?_⟩,
      ⟨trivial, ?_⟩, ⟨⟨fun _ => by decide, fun h => absurd h.1 (by decide)⟩, ?_⟩,
      ⟨trivial, ?_⟩, ⟨fun _ _ => by decide, ?_⟩, ⟨trivial, ?_⟩,
      ⟨trivial, ?_⟩, ⟨trivial, ?_⟩, ⟨trivial, ?_⟩, ⟨trivial, ?_⟩, trivial⟩ <;>
    rintro a r ⟨⟩ k - <;> rfl
  exact outcome_independent_of_order acyclic_twoInputs hready hplain hr hr'
    ⟨by decide, by decide, by decide, hrest _ (by decide)⟩
    ⟨by decide, by decide, by decide, hrest _ (by decide)⟩

end System

end Daliuge.Engine
