import Daliuge.Engine.Settling

/-!
# Held-back skips

A data drop with `block_skip` and several producers. The comparison of `skip` with a reference
count of one never succeeds, since the count starts at zero and every report and every skip
that is held back takes one away.
-/
namespace Daliuge.Engine

open Run

/-- A newly created data drop with `n` producers that holds skips back. -/
structure HoldsBack (n : Nat) (d : AbstractDROP) : Prop where
  status : d.status = .initialized
  producers : d.producers = n
  finishedProducers : d.finishedProducers = []
  refCount : d.refCount = 0
  blockSkip : d.blockSkip = true

/-- How a drop that holds skips back is to end, by the docstring of `skip`. -/
structure EndsAsDocumented {n : Nat} (o : Fin n → Outcome) (status : DROPStates) : Prop where
  skipped : (∀ i, ∃ b, o i = .skipped b) → status = .skipped
  completed : (∃ i, o i = .completes) → (∀ i, o i ≠ .fails) → status = .completed

/-- The drop while some producer is still out: no skip takes effect. -/
structure Waiting (n : Nat) (acts : List Act) (d : AbstractDROP) : Prop where
  producers : d.producers = n
  blockSkip : d.blockSkip = true
  finishedProducers : d.finishedProducers = reports acts
  refCount : d.refCount ≤ 0
  status : d.status.isOpen = true ∨ d.status = .completed

variable {n : Nat} {d : AbstractDROP} {acts : List Act} {o : Fin n → Outcome}
  {as : List (Fin n × Act)}

theorem HoldsBack.waiting (h : HoldsBack n d) : Waiting n [] d where
  producers := h.producers
  blockSkip := h.blockSkip
  finishedProducers := h.finishedProducers
  refCount := h.refCount.le
  status := Or.inl (by rw [h.status]; rfl)

theorem setCompleted_of_isOpen (h : d.status.isOpen = true) :
    d.setCompleted.1 =
      ((d.setStatus .completed).fire (.dropCompleted .completed)).completedrop := by
  rcases AbstractDROP.setCompleted_cases (d := d) with ⟨_, he⟩ | ⟨hs, _⟩ | ⟨hc, _, _⟩ | ⟨hc, _, _⟩
  · exact he
  · simp [hs, DROPStates.isOpen] at h
  · simp [h] at hc
  · simp [hc, DROPStates.isOpen] at h

/-- `setCompleted` leaves a waiting drop COMPLETED, whether it was before or not. -/
theorem setCompleted_status (h : d.status.isOpen = true ∨ d.status = .completed) :
    d.setCompleted.1.status = .completed := by
  rcases h with ho | hc
  · rw [setCompleted_of_isOpen ho]
    simp [AbstractDROP.completedrop]
  · rcases AbstractDROP.setCompleted_cases (d := d) with
      ⟨ho, _⟩ | ⟨hs, _⟩ | ⟨_, _, he⟩ | ⟨_, _, he⟩
    · simp [hc, DROPStates.isOpen] at ho
    · simp [hc] at hs
    · rw [he]
      exact hc
    · rw [he]
      exact hc

theorem waiting_write (h : Waiting n acts d) (k : Nat) :
    Waiting n (acts ++ [.write k]) (act d (.write k)) := by
  rcases AbstractDROP.write_cases (d := d) k with ⟨_, he⟩ | ⟨_, he⟩ | ⟨ho, _, he⟩
  · have hw : act d (.write k) = d := he
    rw [hw]
    exact { h with finishedProducers := by simp [h.finishedProducers] }
  · have hw : act d (.write k) =
        { d with size := some (d.size.getD 0 + k) }.setStatus .writing := he
    rw [hw]
    constructor <;> simp [h.producers, h.blockSkip, h.finishedProducers, h.refCount,
      DROPStates.isOpen]
  · have hw : act d (.write k) = { d with size := some (d.size.getD 0 + k) }.setCompleted.1 := he
    rw [hw, setCompleted_of_isOpen (d := { d with size := some (d.size.getD 0 + k) }) ho]
    constructor <;> simp [AbstractDROP.completedrop, h.producers, h.blockSkip,
      h.finishedProducers, h.refCount]

/-- A skip of one of several producers is held back: the count is never one. -/
theorem waiting_skip (hn : 1 < n) (h : Waiting n acts d) :
    Waiting n (acts ++ [.skip]) (act d .skip) := by
  have hr := h.refCount
  rcases h.status with ho | hc
  · have h1 : d.refCount ≠ 1 := by omega
    have hw : act d .skip = { d with refCount := d.refCount - 1 } := by
      have hp : n ≠ 1 := by omega
      simp [act, AbstractDROP.skip, ho, h.blockSkip, h.producers, h1, hp]
    rw [hw]
    constructor <;> simp [h.producers, h.blockSkip, h.finishedProducers, h.status]
    omega
  · have hw : act d .skip = d := skip_of_not_open (by simp [hc, DROPStates.isOpen])
    rw [hw]
    exact { h with finishedProducers := by simp [h.finishedProducers] }

theorem waiting_finished (h : Waiting n acts d) (s : DROPStates)
    (hk : (reports acts).length + 1 < n) :
    Waiting n (acts ++ [.finished s]) (act d (.finished s)) := by
  have hw : act d (.finished s) = d.recordReport s := by
    rcases AbstractDROP.producerFinished_cases (d := d) s with ⟨⟨hn, _⟩, _⟩ | ⟨hn, _, _⟩ | ⟨_, he⟩
    · rw [h.finishedProducers, h.producers] at hn
      omega
    · rw [h.finishedProducers, h.producers] at hn
      omega
    · exact he
  have hr := h.refCount
  rw [hw, AbstractDROP.recordReport]
  constructor <;> simp [h.producers, h.blockSkip, h.finishedProducers, h.status]
  omega

theorem waiting_step (hn : 1 < n) (h : Waiting n acts d) (a : Act)
    (hk : (reports (acts ++ [a])).length < n) : Waiting n (acts ++ [a]) (act d a) := by
  cases a with
  | write k => exact waiting_write h k
  | skip => exact waiting_skip hn h
  | finished s => exact waiting_finished h s (by simpa using hk)

theorem waiting_run (hn : 1 < n) (h : Waiting n acts d) (as : List Act)
    (hk : (reports (acts ++ as)).length < n) : Waiting n (acts ++ as) (run act d as) := by
  induction as generalizing acts d with
  | nil => simpa using h
  | cons a as ih =>
    have hk' : (reports (acts ++ [a])).length < n := by
      have hsplit : acts ++ a :: as = (acts ++ [a]) ++ as := by simp
      rw [hsplit, reports_append, List.length_append] at hk
      omega
    have hs := ih (waiting_step hn h a hk') (by simpa using hk)
    simpa using hs

/-- Without a failure the last report completes the drop. -/
theorem waiting_last (h : Waiting n acts d) (s : DROPStates)
    (hk : (reports acts).length + 1 = n) (he : .error ∉ reports acts ++ [s]) :
    (act d (.finished s)).status = .completed := by
  rcases AbstractDROP.producerFinished_cases (d := d) s with ⟨⟨_, hf⟩, _⟩ | ⟨_, _, hw⟩ | ⟨hn, _⟩
  · rw [h.finishedProducers] at hf
    exact absurd hf he
  · have hw : act d (.finished s) = (d.recordReport s).setCompleted.1 := hw
    rw [hw]
    exact setCompleted_status h.status
  · rw [h.finishedProducers, h.producers] at hn
    exact absurd hk hn

/-- Once every producer has finished and none has failed, the drop is COMPLETED. -/
theorem completed_of_schedule (hn : 1 < n) (hd : HoldsBack n d) (h : Schedule o as)
    (hf : ∀ i, o i ≠ .fails) : (run act d (as.map Prod.snd)).status = .completed := by
  have hlen : (reports (as.map Prod.snd)).length = n := length_reports.trans (length_finishers h)
  obtain ⟨pre, j, s, post, rfl, hp⟩ :=
    exists_last_report (by intro he; rw [he] at hlen; simp at hlen; omega)
  have hall : reports ((pre ++ (j, .finished s) :: post).map Prod.snd) =
      reports (pre.map Prod.snd) ++ [s] := by
    simp only [List.map_append, List.map_cons, reports_append]
    simpa using hp
  have hpre : (reports (pre.map Prod.snd)).length + 1 = n := by
    rw [hall] at hlen
    simpa using hlen
  have hwait := waiting_run hn hd.waiting (pre.map Prod.snd) (by simp; omega)
  have herr : .error ∉ reports (pre.map Prod.snd) ++ [s] := by
    rw [← hall, error_reported h]
    rintro ⟨i, hi⟩
    exact hf i hi
  have hlast := waiting_last hwait s (by simpa using hpre) (by simpa using herr)
  rw [List.map_append, run_append, List.map_cons, run_cons,
    settled_run (by rw [hlast]; rfl) _ hp]
  exact hlast

/-- A drop that holds skips back ends as documented exactly when some producer was not skipped:
if all were, it is COMPLETED all the same. -/
theorem endsAsDocumented_iff (hn : 1 < n) (hd : HoldsBack n d) (h : Schedule o as) :
    EndsAsDocumented o (run act d (as.map Prod.snd)).status ↔ ∃ i, ∀ b, o i ≠ .skipped b := by
  constructor
  · intro he
    by_contra hc
    push Not at hc
    have hf : ∀ i, o i ≠ .fails := by
      intro i hi
      obtain ⟨b, hb⟩ := hc i
      simp [hi] at hb
    have hs := he.skipped hc
    rw [completed_of_schedule hn hd h hf] at hs
    cases hs
  · rintro ⟨i, hi⟩
    refine ⟨fun hall => ?_, fun _ hf => completed_of_schedule hn hd h hf⟩
    obtain ⟨b, hb⟩ := hall i
    exact absurd hb (hi b)

/-- One skipped producer and one that completes. -/
theorem endsAsDocumented_oneSkipped :
    EndsAsDocumented ![.skipped false, .completes]
      (run act { producers := 2, blockSkip := true }
        [.skip, .finished .completed, .finished .skipped]).status ↔
    ∃ i, ∀ b, (![.skipped false, .completes] : Fin 2 → Outcome) i ≠ .skipped b := by
  have h : Schedule (![.skipped false, .completes] : Fin 2 → Outcome)
      [(0, .skip), (1, .finished .completed), (0, .finished .skipped)] := by decide
  exact endsAsDocumented_iff (d := { producers := 2, blockSkip := true }) (by decide)
    ⟨rfl, rfl, rfl, rfl, rfl⟩ h

/-- Two skipped producers leave the drop COMPLETED. -/
theorem allSkipped_completed :
    ¬ ∀ (n : Nat) (d : AbstractDROP) (o : Fin n → Outcome) (as : List (Fin n × Act)),
      1 < n → HoldsBack n d → Schedule o as →
        EndsAsDocumented o (run act d (as.map Prod.snd)).status := by
  intro h
  have hc := h 2 { producers := 2, blockSkip := true } ![.skipped false, .skipped false]
    [(0, .skip), (0, .finished .skipped), (1, .skip), (1, .finished .skipped)]
    (by decide) ⟨rfl, rfl, rfl, rfl, rfl⟩ (by decide)
  have hs := hc.skipped (by decide)
  exact absurd hs (by decide)

end Daliuge.Engine
