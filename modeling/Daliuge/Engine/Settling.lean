import Daliuge.Lib.Run
import Daliuge.Engine.Drop
import Mathlib.Data.Fin.VecNotation
import Mathlib.Data.Fintype.Card

/-!
# Settling

A data drop hears from each of its producers: it is written to, skipped, or told
that a producer has finished. Schedules are arbitrary shuffles of what the single
producers do; nothing relates the order of different producers.
-/
namespace Daliuge.Engine

open Run

/-- How one producer ends. A skipped application reports its own status, which stays
INITIALIZED when its own `block_skip` held the skip back. -/
inductive Outcome
  | completes
  | fails
  | skipped (heldBack : Bool)
  deriving DecidableEq, Repr

/-- What a data drop sees of its producers. -/
inductive Act
  | write (nbytes : Nat)
  | skip
  | finished (status : DROPStates)
  deriving DecidableEq, Repr

def Act.isWrite : Act → Bool
  | .write _ => true
  | _ => false

def Act.isFinished : Act → Bool
  | .finished _ => true
  | _ => false

def Act.reported : Act → Option DROPStates
  | .finished s => some s
  | _ => none

@[simp] theorem isWrite_write (k : Nat) : (Act.write k).isWrite = true := rfl

@[simp] theorem isWrite_skip : Act.skip.isWrite = false := rfl

@[simp] theorem isWrite_finished (s : DROPStates) : (Act.finished s).isWrite = false := rfl

@[simp] theorem isFinished_write (k : Nat) : (Act.write k).isFinished = false := rfl

@[simp] theorem isFinished_skip : Act.skip.isFinished = false := rfl

@[simp] theorem isFinished_finished (s : DROPStates) : (Act.finished s).isFinished = true := rfl

/-- The life-cycle calls of one producer, in its own order. -/
def script : Outcome → List Act
  | .completes => [.finished .completed]
  | .fails => [.finished .error]
  | .skipped heldBack => [.skip, .finished (if heldBack then .initialized else .skipped)]

def act (d : AbstractDROP) : Act → AbstractDROP
  | .write nbytes => (d.write nbytes).1
  | .skip => d.skip
  | .finished s => (d.producerFinished s).1

/-- A shuffle of the producers' scripts, with writes at any place. -/
def Schedule {n : Nat} (o : Fin n → Outcome) (as : List (Fin n × Act)) : Prop :=
  ∀ i, (as.filter fun x => x.1 = i ∧ x.2.isWrite = false).map Prod.snd = script (o i)

instance {n : Nat} (o : Fin n → Outcome) (as : List (Fin n × Act)) : Decidable (Schedule o as) :=
  inferInstanceAs (Decidable (∀ _, _ = _))

/-- A newly created data drop without expected size and with `n` producers. -/
structure Fresh (n : Nat) (d : AbstractDROP) : Prop where
  status : d.status = .initialized
  producers : d.producers = n
  finishedProducers : d.finishedProducers = []
  refCount : d.refCount = 0
  expectedSize : d.expectedSize = -1
  quiet : completions d.fired = 0

/-- The states reported so far. -/
def reports (acts : List Act) : List DROPStates := acts.filterMap Act.reported

@[simp] theorem reports_nil : reports [] = [] := rfl

@[simp] theorem reports_write (k : Nat) (as : List Act) :
    reports (.write k :: as) = reports as := rfl

@[simp] theorem reports_skip (as : List Act) : reports (.skip :: as) = reports as := rfl

@[simp] theorem reports_finished (s : DROPStates) (as : List Act) :
    reports (.finished s :: as) = s :: reports as := rfl

@[simp] theorem reports_append (as bs : List Act) : reports (as ++ bs) = reports as ++ reports bs :=
  List.filterMap_append

/-- The drop while some producer is still out. It never fires here, and it can only
leave the open states through a skip that `block_skip` did not hold back. -/
structure Pending (n : Nat) (blockSkip : Bool) (acts : List Act) (d : AbstractDROP) : Prop where
  producers : d.producers = n
  blocked : d.blockSkip = blockSkip
  expectedSize : d.expectedSize = -1
  finishedProducers : d.finishedProducers = reports acts
  refCount : d.refCount ≤ 0
  quiet : completions d.fired = 0
  settles : d.status.isOpen = true ∨ d.status = .skipped
  skipped : d.status = .skipped ↔ .skip ∈ acts ∧ (blockSkip = false ∨ n = 1)

variable {n : Nat} {d : AbstractDROP} {b : Bool} {acts : List Act}

theorem Fresh.pending (h : Fresh n d) : Pending n d.blockSkip [] d where
  producers := h.producers
  blocked := rfl
  expectedSize := h.expectedSize
  finishedProducers := by simp [h.finishedProducers]
  refCount := by simp [h.refCount]
  quiet := h.quiet
  settles := by simp [h.status, DROPStates.isOpen]
  skipped := by simp [h.status]

theorem write_of_not_open (h : d.status.isOpen = false) (k : Nat) : (d.write k).1 = d := by
  rcases AbstractDROP.write_cases (d := d) k with ⟨_, he⟩ | ⟨ho, _⟩ | ⟨ho, _⟩
  · exact he
  · simp [h] at ho
  · simp [h] at ho

theorem skip_of_not_open (h : d.status.isOpen = false) : d.skip = d := by
  simp [AbstractDROP.skip, h]

theorem pending_write (h : Pending n b acts d) (k : Nat) :
    Pending n b (acts ++ [.write k]) (act d (.write k)) := by
  rcases h.settles with ho | hs
  · have hns : d.status ≠ .skipped := by intro he; simp [he, DROPStates.isOpen] at ho
    have hskip := h.skipped
    simp only [hns, false_iff] at hskip
    have hw : act d (.write k) =
        { d with size := some (d.size.getD 0 + k) }.setStatus .writing := by
      rcases AbstractDROP.write_cases (d := d) k with ⟨hc, _⟩ | ⟨_, he⟩ | ⟨_, hz, _⟩
      · simp [ho] at hc
      · exact he
      · simp [h.expectedSize] at hz
    rw [hw]
    constructor <;> simp [h.producers, h.blocked, h.expectedSize, h.finishedProducers, h.refCount,
      h.quiet, DROPStates.isOpen]
    simpa using hskip
  · have hw : act d (.write k) = d := write_of_not_open (by simp [hs, DROPStates.isOpen]) k
    rw [hw]
    have hskip := h.skipped
    exact { h with
      finishedProducers := by simp [h.finishedProducers]
      skipped := by simpa using hskip }

theorem pending_skip (h : Pending n b acts d) : Pending n b (acts ++ [.skip]) (act d .skip) := by
  rcases h.settles with ho | hs
  · -- The reference count is never positive, so `block_skip` holds unless there is one producer.
    have hr : d.refCount ≠ 1 := by have := h.refCount; omega
    by_cases hb : b = false ∨ n = 1
    · have hw : act d .skip = (d.setStatus .skipped).completedrop := by
        rcases hb with hb | hb <;> simp [act, AbstractDROP.skip, ho, h.blocked, h.producers, hb]
      rw [hw]
      constructor <;> simp [AbstractDROP.completedrop, h.producers, h.blocked, h.expectedSize,
        h.finishedProducers, h.refCount, h.quiet, hb]
    · have hw : act d .skip = { d with refCount := d.refCount - 1 } := by
        push Not at hb
        simp [act, AbstractDROP.skip, ho, h.blocked, h.producers, hb, hr]
      rw [hw]
      have hns : d.status ≠ .skipped := by intro he; simp [he, DROPStates.isOpen] at ho
      have hrc := h.refCount
      constructor <;> simp [h.producers, h.blocked, h.expectedSize, h.finishedProducers,
        h.quiet, hb, ho, hns]
      omega
  · have hw : act d .skip = d := skip_of_not_open (by simp [hs, DROPStates.isOpen])
    rw [hw]
    have hb := (h.skipped.mp hs).2
    exact { h with
      finishedProducers := by simp [h.finishedProducers]
      skipped := by simp [hs, hb] }

theorem pending_finished (h : Pending n b acts d) (s : DROPStates)
    (hk : (reports acts).length + 1 < n) :
    Pending n b (acts ++ [.finished s]) (act d (.finished s)) := by
  have hw : act d (.finished s) = d.recordReport s := by
    rcases AbstractDROP.producerFinished_cases (d := d) s with ⟨⟨hn, _⟩, _⟩ | ⟨hn, _, _⟩ | ⟨_, he⟩
    · rw [h.finishedProducers, h.producers] at hn
      omega
    · rw [h.finishedProducers, h.producers] at hn
      omega
    · exact he
  rw [hw, AbstractDROP.recordReport]
  have hrc := h.refCount
  have hskip := h.skipped
  constructor <;> simp [h.producers, h.blocked, h.expectedSize, h.finishedProducers,
    h.quiet, h.settles]
  · omega
  · simpa using hskip

theorem pending_step (h : Pending n b acts d) (a : Act)
    (hk : (reports (acts ++ [a])).length < n) : Pending n b (acts ++ [a]) (act d a) := by
  cases a with
  | write k => exact pending_write h k
  | skip => exact pending_skip h
  | finished s => exact pending_finished h s (by simpa using hk)

theorem pending_run (h : Pending n b acts d) (as : List Act)
    (hk : (reports (acts ++ as)).length < n) : Pending n b (acts ++ as) (run act d as) := by
  induction as generalizing acts d with
  | nil => simpa using h
  | cons a as ih =>
    have hk' : (reports (acts ++ [a])).length < n := by
      simp only [reports_append, List.length_append] at hk ⊢
      have : (reports (a :: as)).length = (reports [a]).length + (reports as).length := by
        rw [← List.singleton_append, reports_append, List.length_append]
      omega
    have hs := ih (pending_step h a hk') (by simpa using hk)
    simpa using hs

/-- The last report settles the drop, and fires unless a failure meets a skipped drop. -/
theorem pending_last (h : Pending n b acts d) (s : DROPStates)
    (hk : (reports acts).length + 1 = n) :
    (act d (.finished s)).status.isSettled = true ∧
    completions (act d (.finished s)).fired =
      if .error ∈ reports acts ++ [s] ∧ d.status = .skipped then 0 else 1 := by
  rcases AbstractDROP.producerFinished_cases (d := d) s with ⟨hf, hw⟩ | ⟨hn, hf, hw⟩ | ⟨hn, hw⟩
  · have he : .error ∈ reports acts ++ [s] := by rw [← h.finishedProducers]; exact hf.2
    have hw : act d (.finished s) = (d.recordReport s).setError := hw
    rw [hw]
    rcases h.settles with ho | hs
    · have hc : d.status ≠ .cancelled := by intro he; simp [he, DROPStates.isOpen] at ho
      have hns : d.status ≠ .skipped := by intro he; simp [he, DROPStates.isOpen] at ho
      simp [AbstractDROP.setError, AbstractDROP.recordReport, hc, hns, AbstractDROP.completedrop,
        DROPStates.isSettled, h.quiet]
    · rw [if_pos ⟨he, hs⟩]
      simp [AbstractDROP.setError, AbstractDROP.recordReport, hs, DROPStates.isSettled, h.quiet]
  · have he : .error ∉ reports acts ++ [s] := by rw [← h.finishedProducers]; exact hf
    have hw : act d (.finished s) = (d.recordReport s).setCompleted.1 := hw
    rw [hw, if_neg fun hc => he hc.1]
    have hst : (d.recordReport s).status = d.status := rfl
    have hq : completions (d.recordReport s).fired = 0 := h.quiet
    rcases AbstractDROP.setCompleted_cases (d := d.recordReport s) with
      ⟨_, hc⟩ | ⟨hs, hc⟩ | ⟨ho, hs, _⟩ | ⟨hcom, _, _⟩
    · rw [hc]
      simp [AbstractDROP.completedrop, DROPStates.isSettled, hq]
    · rw [hc]
      simp [hs, DROPStates.isSettled, hq]
    · rw [hst] at ho hs
      rcases h.settles with hop | hsk
      · simp [ho] at hop
      · exact absurd hsk hs
    · rw [hst] at hcom
      rcases h.settles with hop | hsk
      · simp [hcom, DROPStates.isOpen] at hop
      · simp [hcom] at hsk
  · rw [h.finishedProducers, h.producers] at hn
    exact absurd hk hn

/-- Nothing but a further report moves a settled drop. -/
theorem settled_run (hs : d.status.isSettled = true) (as : List Act) (hr : reports as = []) :
    run act d as = d := by
  have ho : d.status.isOpen = false := by
    cases h : d.status <;> simp_all [DROPStates.isOpen, DROPStates.isSettled]
  induction as with
  | nil => rfl
  | cons a as ih =>
    cases a with
    | write k =>
      have hw : act d (.write k) = d := write_of_not_open ho k
      rw [run_cons, hw]
      exact ih (by simpa using hr)
    | skip =>
      have hw : act d .skip = d := skip_of_not_open ho
      rw [run_cons, hw]
      exact ih (by simpa using hr)
    | finished s => simp at hr

/-! What a schedule fixes about the acts of all producers together. -/

section Schedules

variable {o : Fin n → Outcome} {as pre post : List (Fin n × Act)} {i j : Fin n} {a : Act}

/-- The life-cycle calls of one producer within a list of acts. -/
def project (i : Fin n) (as : List (Fin n × Act)) : List Act :=
  (as.filter fun x => x.1 = i ∧ x.2.isWrite = false).map Prod.snd

/-- The producers that finished, in order. -/
def finishers (as : List (Fin n × Act)) : List (Fin n) :=
  (as.filter fun x => x.2.isFinished).map Prod.fst

theorem finishers_cons (x : Fin n × Act) : finishers (x :: as) =
    (if x.2.isFinished then [x.1] else []) ++ finishers as := by
  unfold finishers
  rw [List.filter_cons]
  split <;> rfl

theorem project_cons (x : Fin n × Act) : project i (x :: as) =
    (if x.1 = i ∧ x.2.isWrite = false then [x.2] else []) ++ project i as := by
  unfold project
  rw [List.filter_cons]
  by_cases h : x.1 = i ∧ x.2.isWrite = false <;> simp [h]

theorem mem_project : a ∈ project i as ↔ (i, a) ∈ as ∧ a.isWrite = false := by
  simp only [project, List.mem_map, List.mem_filter, decide_eq_true_eq]
  constructor
  · rintro ⟨⟨k, c⟩, ⟨hm, rfl, hw⟩, rfl⟩
    exact ⟨hm, hw⟩
  · rintro ⟨hm, hw⟩
    exact ⟨(i, a), ⟨hm, rfl, hw⟩, rfl⟩

theorem project_append : project i (as ++ post) = project i as ++ project i post := by
  simp [project]

theorem mem_script (h : Schedule o as) (hw : a.isWrite = false) :
    a ∈ script (o i) ↔ (i, a) ∈ as := by
  rw [← h i]
  exact mem_project.trans (and_iff_left hw)

theorem count_finishers : (finishers as).count i = (project i as).countP Act.isFinished := by
  induction as with
  | nil => rfl
  | cons x as ih =>
    obtain ⟨k, c⟩ := x
    rw [finishers_cons, project_cons, List.count_append, List.countP_append, ih]
    cases c <;> by_cases hk : k = i <;> simp [hk]

/-- Every producer finishes exactly once. -/
theorem length_finishers (h : Schedule o as) : (finishers as).length = n := by
  have hc : ∀ i, (finishers as).count i = 1 := by
    intro i
    rw [count_finishers, project, h i]
    cases o i <;> rfl
  have hn : (finishers as).Nodup := List.nodup_iff_count_le_one.mpr fun i => (hc i).le
  have hu : (finishers as).toFinset = Finset.univ := by
    ext i
    simp [← List.count_pos_iff, hc i]
  rw [← List.toFinset_card_of_nodup hn, hu, Finset.card_univ, Fintype.card_fin]

theorem length_reports : (reports (as.map Prod.snd)).length = (finishers as).length := by
  induction as with
  | nil => rfl
  | cons x as ih =>
    obtain ⟨k, c⟩ := x
    rw [finishers_cons]
    cases c <;> simp [ih]

theorem mem_reports {s : DROPStates} :
    s ∈ reports (as.map Prod.snd) ↔ ∃ i, (i, .finished s) ∈ as := by
  simp only [reports, List.mem_filterMap, List.mem_map]
  constructor
  · rintro ⟨c, ⟨⟨k, c⟩, hm, rfl⟩, hr⟩
    cases c <;> simp_all [Act.reported]
    exact ⟨k, hm⟩
  · rintro ⟨k, hm⟩
    exact ⟨.finished s, ⟨_, hm, rfl⟩, rfl⟩

/-- The last report of a list that has one. -/
theorem exists_last_report (h : reports (as.map Prod.snd) ≠ []) :
    ∃ pre i s post, as = pre ++ (i, .finished s) :: post ∧
      reports (post.map Prod.snd) = [] := by
  induction as with
  | nil => simp at h
  | cons x as ih =>
    by_cases ht : reports (as.map Prod.snd) = []
    · obtain ⟨k, c⟩ := x
      cases c with
      | finished s => exact ⟨[], k, s, as, rfl, ht⟩
      | write m => exact absurd ht (by simpa using h)
      | skip => exact absurd ht (by simpa using h)
    · obtain ⟨pre, i, s, post, rfl, hp⟩ := ih ht
      exact ⟨x :: pre, i, s, post, rfl, hp⟩

/-- By the last report every skipped producer has called `skip`. -/
theorem skip_before_last {s : DROPStates} (h : Schedule o (pre ++ (j, .finished s) :: post))
    (hp : reports (post.map Prod.snd) = []) :
    .skip ∈ pre.map Prod.snd ↔ ∃ i b, o i = .skipped b := by
  constructor
  · intro hm
    obtain ⟨⟨k, c⟩, hm, rfl⟩ := List.mem_map.mp hm
    have hk : Act.skip ∈ script (o k) := (mem_script h rfl).mpr (by simp [hm])
    cases ho : o k with
    | skipped b => exact ⟨k, b, ho⟩
    | completes => simp [ho, script] at hk
    | fails => simp [ho, script] at hk
  · rintro ⟨k, b, hk⟩
    have hm : (k, Act.skip) ∈ pre ++ (j, .finished s) :: post :=
      (mem_script h rfl).mp (by simp [hk, script])
    rcases List.mem_append.mp hm with hm | hm
    · exact List.mem_map.mpr ⟨_, hm, rfl⟩
    · -- Otherwise the producer's own report would come after the last one.
      exfalso
      have hm : (k, Act.skip) ∈ post := by simpa using hm
      have hsuf : project k post <:+ script (o k) := by
        rw [← h k]
        exact ⟨project k pre ++ project k [(j, .finished s)], by
          rw [← project_append, ← project_append, List.append_assoc]; rfl⟩
      have hskip : Act.skip ∈ project k post := mem_project.mpr ⟨hm, rfl⟩
      rw [hk] at hsuf
      have hall : project k post = script (.skipped b) := by
        rcases List.suffix_cons_iff.mp hsuf with he | he
        · exact he
        · rcases List.suffix_cons_iff.mp he with he | he <;> simp_all
      have hr : (if b then DROPStates.initialized else .skipped) ∈ reports (post.map Prod.snd) :=
        mem_reports.mpr ⟨k, (mem_project.mp (by rw [hall]; simp [script])).1⟩
      simp [hp] at hr

theorem error_reported (h : Schedule o as) :
    .error ∈ reports (as.map Prod.snd) ↔ ∃ i, o i = .fails := by
  rw [mem_reports]
  apply exists_congr
  intro i
  rw [← mem_script h rfl]
  cases ho : o i with
  | completes => simp [script]
  | fails => simp [script]
  | skipped b => cases b <;> simp [script]

end Schedules

/-- Once every producer has finished, the drop has settled, and it has announced so exactly
once unless a skip took effect and some producer failed. -/
theorem settles_once_iff (hn : 0 < n) (hd : Fresh n d) {o : Fin n → Outcome}
    {as : List (Fin n × Act)} (h : Schedule o as) :
    ((run act d (as.map Prod.snd)).status.isSettled = true ∧
      completions (run act d (as.map Prod.snd)).fired = 1) ↔
    (d.blockSkip = true ∨ ¬ ((∃ i b, o i = .skipped b) ∧ ∃ i, o i = .fails)) := by
  have hlen : (reports (as.map Prod.snd)).length = n := length_reports.trans (length_finishers h)
  obtain ⟨pre, j, s, post, rfl, hp⟩ :=
    exists_last_report (by intro he; rw [he] at hlen; simp at hlen; omega)
  have hall : reports ((pre ++ (j, .finished s) :: post).map Prod.snd) =
      reports (pre.map Prod.snd) ++ [s] := by
    simp only [List.map_append, List.map_cons, reports_append]
    simpa using hp
  have hpre : (reports (pre.map Prod.snd)).length + 1 = n := by
    rw [hall] at hlen
    simpa using hlen
  have hpend := pending_run hd.pending (pre.map Prod.snd) (by simp; omega)
  obtain ⟨hset, hfired⟩ := pending_last hpend s (by simpa using hpre)
  have hrun : run act d ((pre ++ (j, .finished s) :: post).map Prod.snd) =
      act (run act d (pre.map Prod.snd)) (.finished s) := by
    rw [List.map_append, run_append, List.map_cons, run_cons]
    exact settled_run hset _ hp
  have hskip := (hpend.skipped).trans (and_congr_left' (skip_before_last h hp))
  have herr := error_reported h
  rw [hall] at herr
  rw [hrun, hset, hfired]
  simp only [List.nil_append, herr, hskip]
  by_cases he : (∃ i, o i = .fails) ∧ ∃ i b, o i = .skipped b
  · -- A failing and a skipped producer are two, so only `block_skip` holds the skip back.
    obtain ⟨⟨i, hi⟩, k, c, hk⟩ := he
    have hne : i ≠ k := by rintro rfl; simp [hi] at hk
    have h1 : n ≠ 1 := by rintro rfl; exact hne (Subsingleton.elim i k)
    have hf : ∃ i, o i = .fails := ⟨i, hi⟩
    cases hb : d.blockSkip <;> simp [hf, h1]
  · rw [if_neg (fun hc => he ⟨hc.1, hc.2.1⟩)]
    simp only [and_self, true_iff]
    exact Or.inr fun hc => he ⟨hc.2, hc.1⟩

/-- One failing and one completing producer: the drop settles and says so once. -/
theorem settles_once_failed_completed :
    (run act { producers := 2 }
      [.finished .error, .write 3, .finished .completed]).status.isSettled = true ∧
      completions (run act { producers := 2 }
        [.finished .error, .write 3, .finished .completed]).fired = 1 := by
  have h : Schedule (![.fails, .completes] : Fin 2 → Outcome)
      [(0, .finished .error), (1, .write 3), (1, .finished .completed)] := by decide
  refine (settles_once_iff (n := 2) (d := { producers := 2 }) (by decide)
    ⟨rfl, rfl, rfl, rfl, rfl, rfl⟩ h).mpr (Or.inr ?_)
  rintro ⟨⟨i, b, hi⟩, -⟩
  revert i b
  decide

/-- One skipped and one failing producer: the drop stays SKIPPED and never announces it. -/
theorem skipped_failed_never_announced :
    ¬ ∀ (n : Nat) (d : AbstractDROP) (o : Fin n → Outcome) (as : List (Fin n × Act)),
      0 < n → Fresh n d → Schedule o as →
        (run act d (as.map Prod.snd)).status.isSettled = true ∧
          completions (run act d (as.map Prod.snd)).fired = 1 := by
  intro h
  have hc := h 2 { producers := 2 } ![.skipped false, .fails]
    [(0, .skip), (0, .finished .skipped), (1, .finished .error)]
    (by decide) ⟨rfl, rfl, rfl, rfl, rfl, rfl⟩ (by decide)
  exact absurd hc.2 (by decide)

end Daliuge.Engine
