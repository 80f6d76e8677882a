import Daliuge.Lib.Run
import Daliuge.Engine.App
import Mathlib.Data.Fin.VecNotation
import Mathlib.Data.List.Count
import Mathlib.Data.List.Nodup
import Mathlib.Data.List.Perm.Subperm
import Mathlib.Logic.Function.Basic

/-!
# Running graphs

A graph of data drops and input-fired applications. Fired events travel as messages that
are handled in any order, or never; the synchronous delivery of the source is one of the
orders. The only thing a subscription adds is where a message goes.
-/
namespace Daliuge.Engine

open Run

/-- The relationships of a graph, symmetric and without repetition. -/
structure Graph (D A : Type) where
  inputs : A → List D
  outputs : A → List D
  consumers : D → List A
  producers : D → List A
  mem_consumers : ∀ {d a}, a ∈ consumers d ↔ d ∈ inputs a
  mem_producers : ∀ {d a}, a ∈ producers d ↔ d ∈ outputs a
  inputs_nodup : ∀ a, (inputs a).Nodup
  consumers_nodup : ∀ d, (consumers d).Nodup

/-- An event on its way to one listener. -/
inductive Message (D A : Type)
  | dropCompleted (source : D) (listener : A) (status : DROPStates)
  | producerFinished (source : A) (listener : D) (status : DROPStates)
  deriving DecidableEq, Repr

structure System (D A : Type) where
  data : D → AbstractDROP
  app : A → AppDROP D
  inflight : List (Message D A) := []

/-- Everything that can happen next. Roots are set off by the session. -/
inductive Label (D A : Type)
  | write (d : D) (nbytes : Nat)
  | completeRoot (d : D)
  | startRoot (a : A)
  | deliver (m : Message D A)
  | executeStart (a : A)
  | executeTry (a : A) (r : RunResult)
  | executeEnd (a : A)
  | executeNotify (a : A)
  deriving DecidableEq, Repr

section Definitions

variable {D A : Type} [DecidableEq D] [DecidableEq A]

/-- The events a call added to the log. -/
def newEvents (before after : AbstractDROP) : List Event := after.fired.drop before.fired.length

/-- The `dropCompleted` messages of a data drop, one for each subscribed consumer. -/
def dataMessages (g : Graph D A) (d : D) (es : List Event) : List (Message D A) :=
  es.flatMap fun
    | .dropCompleted s => (g.consumers d).map fun a => .dropCompleted d a s
    | _ => []

/-- The `producerFinished` messages of an application, one for each subscribed output. -/
def appMessages (g : Graph D A) (a : A) (es : List Event) : List (Message D A) :=
  es.flatMap fun
    | .producerFinished s _ => (g.outputs a).map fun d => .producerFinished a d s
    | _ => []

namespace System

/-- A call on one data drop and the messages of what it fired. -/
def setData (g : Graph D A) (s : System D A) (d : D) (x : AbstractDROP) : System D A :=
  { s with
    data := Function.update s.data d x
    inflight := s.inflight ++ dataMessages g d (newEvents (s.data d) x) }

def setApp (g : Graph D A) (s : System D A) (a : A) (x : AppDROP D) : System D A :=
  { s with
    app := Function.update s.app a x
    inflight := s.inflight ++
      appMessages g a (newEvents (s.app a).toAbstractDROP x.toAbstractDROP) }

/-- `o.skip()` on each output of a skipped application. -/
def skipOutputs (g : Graph D A) (s : System D A) (ds : List D) : System D A :=
  ds.foldl (fun s d => s.setData g d (s.data d).skip) s

/-- A message reaches its listener's handler. -/
def handle (g : Graph D A) (s : System D A) : Message D A → System D A
  | .producerFinished _ d st => s.setData g d ((s.data d).producerFinished st).1
  | .dropCompleted d a st =>
    let r := (s.app a).dropCompleted d st
    let s := s.setApp g a r.1
    match r.2 with
    | .ok .skip => s.skipOutputs g (g.outputs a)
    | _ => s

def step (g : Graph D A) (s : System D A) : Label D A → System D A
  | .write d nbytes => s.setData g d ((s.data d).write nbytes).1
  | .completeRoot d =>
    if g.producers d = [] then s.setData g d (s.data d).setCompleted.1 else s
  | .startRoot a => if g.inputs a = [] then s.setApp g a { s.app a with thread := .started } else s
  | .deliver m =>
    if m ∈ s.inflight then { s with inflight := s.inflight.erase m }.handle g m else s
  | .executeStart a => s.setApp g a (s.app a).executeStart
  | .executeTry a r => s.setApp g a ((s.app a).executeTry r)
  | .executeEnd a => s.setApp g a (s.app a).executeEnd
  | .executeNotify a => s.setApp g a (s.app a).executeNotify

/-- The label is a `dropCompleted` call that makes the application act. -/
def Triggers (s : System D A) (l : Label D A) (a : A) : Prop :=
  ∃ d st v, l = .deliver (.dropCompleted d a st) ∧ .dropCompleted d a st ∈ s.inflight ∧
    ((s.app a).dropCompleted d st).2 = .ok v ∧ v ≠ .wait

/-- The inputs of an application that have settled; inputs are listed once, so they are
distinct. -/
def settledInputs (g : Graph D A) (s : System D A) (a : A) : List D :=
  (g.inputs a).filter fun d => (s.data d).status.isSettled

/-- A newly created graph: any sizes, thresholds and flags. -/
structure Initial (g : Graph D A) (s : System D A) : Prop where
  inflight : s.inflight = []
  status : ∀ d, (s.data d).status = .initialized
  producers : ∀ d, (s.data d).producers = (g.producers d).length
  finished : ∀ d, (s.data d).finishedProducers = []
  quiet : ∀ d, completions (s.data d).fired = 0
  inputs : ∀ a, (s.app a).inputs = g.inputs a
  seen : ∀ a, (s.app a).inputsSeen = 0

/-- No data drop is announced again that is COMPLETED already: it does not get the last of its
reports if that makes it fail or it is a file, and a file is not completed as a root once more. -/
def Guard (s : System D A) : Label D A → Prop
  | .deliver (.producerFinished _ d st) => ¬ (s.data d).announcesAgain st
  | .completeRoot d =>
    (s.data d).producers = 0 → (s.data d).status = .completed → (s.data d).storage ≠ .file
  | _ => True

end System

end Definitions

/-! What each call leaves of the lists an application counts its inputs in. -/

namespace AppDROP

variable {U : Type} {a b c : AppDROP U}

/-- The two agree on everything the trigger condition counts. -/
structure SameInputs (a b : AppDROP U) : Prop where
  inputs : b.inputs = a.inputs
  nEffectiveInputs : b.nEffectiveInputs = a.nEffectiveInputs
  skippedInputs : b.skippedInputs = a.skippedInputs
  errorInputs : b.errorInputs = a.errorInputs
  completedInputs : b.completedInputs = a.completedInputs

/-- Every input event recorded so far. -/
def heard (a : AppDROP U) : List U := a.skippedInputs ++ a.errorInputs ++ a.completedInputs

theorem SameInputs.refl : SameInputs a a := ⟨rfl, rfl, rfl, rfl, rfl⟩

theorem SameInputs.trans (h : SameInputs a b) (h' : SameInputs b c) : SameInputs a c :=
  ⟨h'.1.trans h.1, h'.2.trans h.2, h'.3.trans h.3, h'.4.trans h.4, h'.5.trans h.5⟩

theorem SameInputs.heard (h : SameInputs a b) : b.heard = a.heard := by
  simp [AppDROP.heard, h.skippedInputs, h.errorInputs, h.completedInputs]

theorem SameInputs.effectiveInputs (h : SameInputs a b) :
    b.effectiveInputs = a.effectiveInputs := by
  simp [AppDROP.effectiveInputs, h.inputs, h.nEffectiveInputs]

theorem length_heard : a.heard.length = a.inputsSeen := by
  simp [AppDROP.heard, inputsSeen, Nat.add_assoc]

theorem SameInputs.inputsSeen (h : SameInputs a b) : b.inputsSeen = a.inputsSeen := by
  rw [← length_heard, ← length_heard, h.heard]

theorem sameInputs_lift (f : AbstractDROP → AbstractDROP) : SameInputs a (a.lift f) :=
  ⟨rfl, rfl, rfl, rfl, rfl⟩

theorem sameInputs_thread (t : Thread) : SameInputs a { a with thread := t } :=
  ⟨rfl, rfl, rfl, rfl, rfl⟩

theorem sameInputs_setExecStatus (v : AppDROPStates) : SameInputs a (a.setExecStatus v) := by
  unfold setExecStatus
  split
  · exact .refl
  · exact ⟨rfl, rfl, rfl, rfl, rfl⟩

theorem sameInputs_notifyAppIsFinished : SameInputs a a.notifyAppIsFinished :=
  ⟨rfl, rfl, rfl, rfl, rfl⟩

theorem sameInputs_skip : SameInputs a a.skip := by
  have h := (sameInputs_lift (a := a) (·.skip)).trans (sameInputs_setExecStatus .skipped)
  unfold skip
  split
  · exact h.trans (sameInputs_lift _)
  · exact h

theorem sameInputs_obey (v : Verdict) : SameInputs a (a.obey v) := by
  cases v with
  | wait => exact .refl
  | error =>
    exact ((sameInputs_setExecStatus _).trans (sameInputs_lift _)).trans
      sameInputs_notifyAppIsFinished
  | notify => exact sameInputs_notifyAppIsFinished
  | skip => exact sameInputs_skip
  | execute => exact sameInputs_thread _

theorem sameInputs_executeStart : SameInputs a a.executeStart := by
  unfold executeStart
  split
  · exact (sameInputs_setExecStatus _).trans (sameInputs_thread _)
  · exact .refl

theorem sameInputs_executeTry (r : RunResult) : SameInputs a (a.executeTry r) := by
  unfold executeTry
  split
  · split
    · split
      · exact sameInputs_thread _
      · exact (sameInputs_setExecStatus _).trans (sameInputs_thread _)
    · exact (sameInputs_setExecStatus _).trans (sameInputs_thread _)
    · split
      · exact sameInputs_thread _
      · split
        · exact sameInputs_thread _
        · exact (sameInputs_setExecStatus _).trans (sameInputs_thread _)
  · exact .refl

theorem sameInputs_executeEnd : SameInputs a a.executeEnd := by
  unfold executeEnd
  split
  · exact (sameInputs_lift _).trans (sameInputs_thread _)
  · exact .refl

theorem sameInputs_executeNotify : SameInputs a a.executeNotify := by
  unfold executeNotify
  split
  · exact sameInputs_notifyAppIsFinished.trans (sameInputs_thread _)
  · exact .refl

/-- Recording an input adds that input to one of the lists and changes nothing else. -/
theorem recordInput_spec [DecidableEq U] {uid : U} {s : DROPStates}
    (h : a.recordInput uid s = .ok b) :
    b.inputs = a.inputs ∧ b.effectiveInputs = a.effectiveInputs ∧
      b.inputsSeen = a.inputsSeen + 1 ∧
      ∀ u, b.heard.count u = a.heard.count u + if uid = u then 1 else 0 := by
  unfold recordInput at h
  split at h <;> cases h <;>
    refine ⟨rfl, rfl, ?_, fun u => ?_⟩ <;>
    simp only [AppDROP.heard, inputsSeen, List.length_append, List.length_singleton,
      List.count_append, List.count_singleton, beq_iff_eq] <;> omega

/-- A call either leaves the lists alone or records its input and decides from there. -/
theorem dropCompleted_cases (uid : U) (s : DROPStates) :
    ((∃ e, (a.dropCompleted uid s).2 = .error e) ∧ (a.dropCompleted uid s).1 = a) ∨
    ∃ b, a.recordInput uid s = .ok b ∧
      a.dropCompleted uid s = (b.obey b.verdict, .ok b.verdict) := by
  unfold dropCompleted
  split
  · exact Or.inl ⟨⟨_, rfl⟩, rfl⟩
  · split
    · exact Or.inl ⟨⟨_, rfl⟩, rfl⟩
    · exact Or.inr ⟨_, by assumption, rfl⟩

theorem inputsSeen_eq_of_verdict (h : a.verdict ≠ .wait) :
    (a.inputsSeen : Int) = a.effectiveInputs := by
  by_contra hn
  simp [verdict, hn] at h

end AppDROP

/-! The life of one data drop. -/

namespace AbstractDROP

/-- What holds of a data drop with `n` producers as long as no failure reaches it after it
completed: it is open or settled and has announced itself at most once. -/
structure Sound (n : Nat) (d : AbstractDROP) : Prop where
  producers : d.producers = n
  status : d.status.isOpen = true ∨ d.status.isSettled = true
  quiet : d.status.isOpen = true → completions d.fired = 0
  once : completions d.fired ≤ 1
  error : d.status = .error → n ≤ d.finishedProducers.length
  skipped : d.status = .skipped → 0 < n
  announced : d.status = .skipped → completions d.fired ≠ 0 → n ≤ d.finishedProducers.length

variable {n : Nat} {d : AbstractDROP}

theorem Sound.settled (h : Sound n d) (hc : completions d.fired ≠ 0) :
    d.status.isSettled = true :=
  h.status.resolve_left fun ho => hc (h.quiet ho)

theorem sound_setCompleted (h : Sound n d)
    (hs : d.status = .skipped → completions d.fired = 0 ∧ n ≤ d.finishedProducers.length)
    (hf : d.status = .completed → d.storage ≠ .file) : Sound n d.setCompleted.1 := by
  rcases setCompleted_cases (d := d) with ⟨ho, he⟩ | ⟨hk, he⟩ | ⟨-, -, he⟩ | ⟨hc, hfile, -⟩
  · have hq := h.quiet ho
    rw [he]
    constructor <;> simp_all [completedrop, h.producers, DROPStates.isOpen, DROPStates.isSettled]
  · obtain ⟨hq, hl⟩ := hs hk
    have hp := h.skipped hk
    rw [he]
    constructor <;> simp_all [h.producers, DROPStates.isOpen, DROPStates.isSettled]
  · rwa [he]
  · exact absurd hfile (hf hc)

theorem sound_write (h : Sound n d) (nbytes : Nat) : Sound n (d.write nbytes).1 := by
  rcases write_cases (d := d) nbytes with ⟨-, he⟩ | ⟨ho, he⟩ | ⟨ho, -, he⟩
  · rwa [he]
  · have hq := h.quiet ho
    rw [he]
    constructor <;> simp_all [h.producers, DROPStates.isOpen]
  · rw [he]
    refine sound_setCompleted ⟨h.1, h.2, h.3, h.4, h.5, h.6, h.7⟩ (fun hk => ?_) fun hc => ?_
    · simp_all [DROPStates.isOpen]
    · simp_all [DROPStates.isOpen]

theorem sound_skip (h : Sound n d) (hn : 0 < n) : Sound n d.skip := by
  unfold skip
  split
  · rename_i ho
    have hq := h.quiet ho
    split
    · constructor <;>
        simp_all [completedrop, h.producers, DROPStates.isOpen, DROPStates.isSettled]
    · exact ⟨h.1, h.2, h.3, h.4, h.5, h.6, h.7⟩
  · exact h

theorem sound_recordReport (h : Sound n d) (s : DROPStates) : Sound n (d.recordReport s) :=
  ⟨h.1, h.2, h.3, h.4, fun he => Nat.le_trans (h.error he) (by simp [recordReport]), h.6,
    fun hk hc => Nat.le_trans (h.announced hk hc) (by simp [recordReport])⟩

/-- Only a last report to a COMPLETED drop breaks soundness, of a failure or to a file. -/
theorem sound_producerFinished (h : Sound n d) {s : DROPStates}
    (hg : ¬ d.announcesAgain s) : Sound n (d.producerFinished s).1 := by
  have hr := sound_recordReport h s
  have hl : (d.recordReport s).finishedProducers.length = d.finishedProducers.length + 1 := by
    simp [recordReport]
  have hp := h.producers
  rcases producerFinished_cases (d := d) s with ⟨hf, he⟩ | ⟨hn, -, he⟩ | ⟨-, he⟩
  · have hc : d.status ≠ .completed := fun hc => hg ⟨hc, hf.1, Or.inl hf.2⟩
    have hn := hf.1
    have hne : d.status ≠ .error := fun hd => by
      have := h.error hd
      omega
    rw [he]
    unfold setError
    split
    · exact hr
    · rename_i hk
      have hst : (d.recordReport s).status = d.status := rfl
      have ho : d.status.isOpen = true := by
        rcases h.status with ho | ho
        · exact ho
        · cases hd : d.status <;> simp_all [DROPStates.isSettled]
      have hq := h.quiet ho
      have hfi : (d.recordReport s).fired = d.fired := rfl
      constructor <;>
        simp_all [completedrop, hr.producers, DROPStates.isOpen, DROPStates.isSettled]
  · rw [he]
    refine sound_setCompleted hr (fun hk => ⟨?_, by omega⟩) fun hc hfile =>
      hg ⟨hc, hn, Or.inr hfile⟩
    by_contra hc
    have := h.announced hk hc
    omega
  · rwa [he]

/-! Calls only ever add to the log. -/

theorem fired_prefix_setStatus (v : DROPStates) : d.fired <+: (d.setStatus v).fired := by
  unfold setStatus
  split <;> simp

theorem fired_prefix_setCompleted : d.fired <+: d.setCompleted.1.fired := by
  rcases setCompleted_cases (d := d) with ⟨-, he⟩ | ⟨-, he⟩ | ⟨-, -, he⟩ | ⟨-, -, he⟩
  · rw [he]
    exact (fired_prefix_setStatus .completed).trans (by simp [completedrop])
  · simp [he]
  · exact he.symm ▸ List.prefix_rfl
  · simp [he, completedrop]

theorem fired_prefix_setError : d.fired <+: d.setError.fired := by
  unfold setError
  split
  · exact List.prefix_rfl
  · exact (fired_prefix_setStatus .error).trans (by simp [completedrop])

theorem fired_prefix_skip : d.fired <+: d.skip.fired := by
  unfold skip
  split
  · split
    · exact (fired_prefix_setStatus .skipped).trans (by simp [completedrop])
    · exact List.prefix_rfl
  · exact List.prefix_rfl

theorem fired_prefix_write (nbytes : Nat) : d.fired <+: (d.write nbytes).1.fired := by
  rcases write_cases (d := d) nbytes with ⟨-, he⟩ | ⟨-, he⟩ | ⟨-, -, he⟩
  · exact he.symm ▸ List.prefix_rfl
  · rw [he]
    exact fired_prefix_setStatus (d := { d with size := some (d.size.getD 0 + nbytes) }) .writing
  · rw [he]
    exact fired_prefix_setCompleted (d := { d with size := some (d.size.getD 0 + nbytes) })

theorem fired_prefix_producerFinished (s : DROPStates) :
    d.fired <+: (d.producerFinished s).1.fired := by
  rcases producerFinished_cases (d := d) s with ⟨-, he⟩ | ⟨-, -, he⟩ | ⟨-, he⟩
  · rw [he]
    exact fired_prefix_setError (d := d.recordReport s)
  · rw [he]
    exact fired_prefix_setCompleted (d := d.recordReport s)
  · exact he.symm ▸ (List.prefix_rfl : d.fired <+: (d.recordReport s).fired)

end AbstractDROP

/-! Messages are never made out of nothing: an input is heard at most as often as it fired. -/

namespace System

variable {D A : Type} [DecidableEq D] [DecidableEq A] {g : Graph D A} {s : System D A}
  {l : Label D A} {ls : List (Label D A)} {a b : A} {d e : D}

/-- A `dropCompleted` of this input on its way to this application. -/
def isFor (a : A) (d : D) : Message D A → Bool
  | .dropCompleted d' a' _ => d' == d && a' == a
  | .producerFinished .. => false

/-- How often an input is still to be heard of. -/
def pending (s : System D A) (a : A) (d : D) : Nat := s.inflight.countP (isFor a d)

/-- How often a data drop has announced itself to an application. -/
def announced (g : Graph D A) (s : System D A) (a : A) (d : D) : Nat :=
  if d ∈ g.inputs a then completions (s.data d).fired else 0

structure Inv (g : Graph D A) (s : System D A) : Prop where
  data : ∀ d, (s.data d).Sound (g.producers d).length
  inputs : ∀ a, (s.app a).inputs = g.inputs a
  counted : ∀ a d, (s.app a).heard.count d + s.pending a d ≤ s.announced g a d

theorem countP_appMessages (es : List Event) :
    (appMessages g b es).countP (isFor a d) = 0 := by
  simp only [appMessages, List.countP_eq_zero, List.mem_flatMap]
  rintro m ⟨e, -, hm⟩
  cases e <;> simp at hm
  obtain ⟨d', -, rfl⟩ := hm
  simp [isFor]

theorem countP_dataMessages (es : List Event) :
    (dataMessages g e es).countP (isFor a d) =
      if e = d ∧ d ∈ g.inputs a then completions es else 0 := by
  induction es with
  | nil => simp [dataMessages]
  | cons x es ih =>
    simp only [dataMessages, List.flatMap_cons, List.countP_append] at ih ⊢
    rw [ih]
    cases x with
    | dropCompleted st =>
      have hc : ((g.consumers e).map fun b => Message.dropCompleted e b st).countP (isFor a d) =
          if e = d ∧ d ∈ g.inputs a then 1 else 0 := by
        rw [List.countP_map]
        by_cases hd : e = d
        · subst hd
          have hp : (isFor a e ∘ fun b => Message.dropCompleted e b st) = fun b => b == a := by
            funext b
            simp [isFor]
          rw [hp, ← List.count_eq_countP, (g.consumers_nodup e).count]
          simp [g.mem_consumers]
        · simp [isFor, hd]
      rw [hc]
      split <;> simp [Nat.add_comm]
    | _ => simp

theorem completions_newEvents {x y : AbstractDROP} (h : x.fired <+: y.fired) :
    completions y.fired = completions x.fired + completions (newEvents x y) := by
  obtain ⟨es, he⟩ := h
  simp [newEvents, ← he]

theorem inv_setApp {x : AppDROP D} (h : Inv g s) (hi : x.inputs = g.inputs a)
    (hx : ∀ d, x.heard.count d + s.pending a d ≤ s.announced g a d) : Inv g (s.setApp g a x) := by
  have hp : ∀ b d, (s.setApp g a x).pending b d = s.pending b d := by
    intro b d
    simp [pending, setApp, countP_appMessages]
  refine ⟨h.data, fun b => ?_, fun b d => ?_⟩
  · by_cases hb : b = a
    · subst hb
      simpa [setApp] using hi
    · simpa [setApp, hb] using h.inputs b
  · rw [hp]
    by_cases hb : b = a
    · subst hb
      simpa [setApp, announced] using hx d
    · simpa [setApp, announced, hb] using h.counted b d

theorem inv_setApp_same {x : AppDROP D} (h : Inv g s) (hx : (s.app a).SameInputs x) :
    Inv g (s.setApp g a x) :=
  inv_setApp h (hx.inputs.trans (h.inputs a)) fun d => hx.heard ▸ h.counted a d

theorem inv_setData {x : AbstractDROP} (h : Inv g s) (hx : x.Sound (g.producers d).length)
    (hf : (s.data d).fired <+: x.fired) : Inv g (s.setData g d x) := by
  refine ⟨fun e => ?_, h.inputs, fun a e => ?_⟩
  · by_cases he : e = d
    · subst he
      simpa [setData] using hx
    · simpa [setData, he] using h.data e
  · have hc := h.counted a e
    have hn := completions_newEvents hf
    by_cases he : e = d
    · subst he
      simp only [pending, announced, setData, List.countP_append, countP_dataMessages,
        Function.update_self, true_and] at hc ⊢
      split at hc
      · simp_all
        omega
      · simp_all
    · have hd : d ≠ e := fun hd => he hd.symm
      simpa [pending, announced, setData, countP_dataMessages, he, hd] using hc

theorem inv_skipOutputs {ds : List D} (h : Inv g s) (hd : ∀ d ∈ ds, g.producers d ≠ []) :
    Inv g (s.skipOutputs g ds) := by
  induction ds generalizing s with
  | nil => exact h
  | cons d ds ih =>
    have hp := List.length_pos_of_ne_nil (hd d (by simp))
    exact ih (inv_setData h (AbstractDROP.sound_skip (h.data d) hp)
      AbstractDROP.fired_prefix_skip) fun e he => hd e (by simp [he])

theorem inv_erase {m : Message D A} (h : Inv g s) :
    Inv g { s with inflight := s.inflight.erase m } := by
  refine ⟨h.data, h.inputs, fun a d => ?_⟩
  have hs : ({ s with inflight := s.inflight.erase m } : System D A).pending a d ≤
      s.pending a d := List.Sublist.countP_le List.erase_sublist
  have hc := h.counted a d
  simp only [announced] at hc ⊢
  omega

theorem pending_erase {st : DROPStates} (hm : .dropCompleted d a st ∈ s.inflight) (e : D) :
    ({ s with inflight := s.inflight.erase (.dropCompleted d a st) } : System D A).pending a e +
      (if d = e then 1 else 0) = s.pending a e := by
  have hp := (List.perm_cons_erase hm).countP_eq (isFor a e)
  simp only [pending, hp, List.countP_cons]
  simp [isFor]

theorem inv_handle {m : Message D A} (h : Inv g s) (hm : m ∈ s.inflight)
    (hg : Guard s (.deliver m)) :
    Inv g ({ s with inflight := s.inflight.erase m }.handle g m) := by
  have he := inv_erase (m := m) h
  cases m with
  | producerFinished a d st =>
    exact inv_setData he (AbstractDROP.sound_producerFinished (h.data d) hg)
      (AbstractDROP.fired_prefix_producerFinished st)
  | dropCompleted d a st =>
    have hset : Inv g ({ s with inflight := s.inflight.erase (.dropCompleted d a st) }.setApp g a
        ((s.app a).dropCompleted d st).1) := by
      rcases AppDROP.dropCompleted_cases (a := s.app a) d st with ⟨-, hd⟩ | ⟨b, hb, hd⟩
      · rw [hd]
        exact inv_setApp_same he .refl
      · obtain ⟨hi, -, -, hcount⟩ := AppDROP.recordInput_spec hb
        have hob := AppDROP.sameInputs_obey (a := b) b.verdict
        rw [hd]
        refine inv_setApp he ((hob.inputs.trans hi).trans (h.inputs a)) fun e => ?_
        have hc := h.counted a e
        have hp := pending_erase hm e
        rw [hob.heard, hcount]
        simp only [announced] at hc ⊢
        omega
    have hskip : Inv g (({ s with inflight := s.inflight.erase (.dropCompleted d a st) }.setApp g a
        ((s.app a).dropCompleted d st).1).skipOutputs g (g.outputs a)) :=
      inv_skipOutputs hset fun e hm => List.ne_nil_of_mem (g.mem_producers.mpr hm)
    simp only [handle]
    split
    · exact hskip
    · exact hset

theorem inv_step (s : System D A) (l : Label D A) (hg : Guard s l) (h : Inv g s) :
    Inv g (s.step g l) := by
  cases l with
  | write d nbytes =>
    exact inv_setData h (AbstractDROP.sound_write (h.data d) nbytes)
      (AbstractDROP.fired_prefix_write nbytes)
  | completeRoot d =>
    simp only [step]
    split
    · rename_i hd
      refine inv_setData h (AbstractDROP.sound_setCompleted (h.data d) (fun hk => ?_)
        (hg (by simp [(h.data d).producers, hd]))) AbstractDROP.fired_prefix_setCompleted
      have := (h.data d).skipped hk
      simp [hd] at this
    · exact h
  | startRoot a =>
    simp only [step]
    split
    · exact inv_setApp_same h (AppDROP.sameInputs_thread _)
    · exact h
  | deliver m =>
    simp only [step]
    split
    · rename_i hm
      exact inv_handle h hm hg
    · exact h
  | executeStart a => exact inv_setApp_same h AppDROP.sameInputs_executeStart
  | executeTry a r => exact inv_setApp_same h (AppDROP.sameInputs_executeTry r)
  | executeEnd a => exact inv_setApp_same h AppDROP.sameInputs_executeEnd
  | executeNotify a => exact inv_setApp_same h AppDROP.sameInputs_executeNotify

theorem inv_initial (h : Initial g s) : Inv g s := by
  refine ⟨fun d => ?_, h.inputs, fun a d => ?_⟩
  · have hs := h.status d
    have hq := h.quiet d
    constructor <;> simp_all [h.producers, DROPStates.isOpen]
  · have hz : (s.app a).heard = [] := by
      rw [← List.length_eq_zero_iff, AppDROP.length_heard, h.seen]
    simp [hz, pending, h.inflight]

/-- The input of a trigger has been heard of only once, and so has every other one. -/
theorem settled_of_triggers (h : Inv g s) (ht : s.Triggers l a) :
    (s.app a).effectiveInputs ≤ (s.settledInputs g a).length := by
  obtain ⟨d, st, v, -, hm, hv, hw⟩ := ht
  rcases AppDROP.dropCompleted_cases (a := s.app a) d st with ⟨⟨e, he⟩, -⟩ | ⟨b, hb, hd⟩
  · simp [he] at hv
  obtain ⟨-, heff, -, hcount⟩ := AppDROP.recordInput_spec hb
  have hbv : b.verdict = v := by simpa [hd] using hv
  have hseen := AppDROP.inputsSeen_eq_of_verdict (hbv ▸ hw)
  have hle : ∀ e, b.heard.count e ≤ s.announced g a e := by
    intro e
    have hc := h.counted a e
    have hp := pending_erase hm e
    rw [hcount]
    omega
  have hn : b.heard.Nodup := List.nodup_iff_count_le_one.mpr fun e => by
    have hc := hle e
    have ho := (h.data e).once
    unfold announced at hc
    split at hc <;> omega
  have hsub : b.heard ⊆ s.settledInputs g a := by
    intro e he
    have hpos : 0 < s.announced g a e := Nat.lt_of_lt_of_le (List.count_pos_iff.mpr he) (hle e)
    unfold announced at hpos
    split at hpos
    · rename_i hi
      exact List.mem_filter.mpr ⟨hi, (h.data e).settled (Nat.ne_of_gt hpos)⟩
    · omega
  have hlen := (hn.subperm hsub).length_le
  rw [AppDROP.length_heard] at hlen
  omega

/-! Triggers do not repeat, whatever the drops do. -/

omit [DecidableEq D] in
theorem app_setApp_self (x : AppDROP D) : (s.setApp g a x).app a = x := by simp [setApp]

omit [DecidableEq D] in
theorem app_setApp_of_ne {x : AppDROP D} (h : b ≠ a) : (s.setApp g a x).app b = s.app b := by
  simp [setApp, h]

omit [DecidableEq D] in
theorem app_setApp_same {x : AppDROP D} (h : (s.app a).SameInputs x) (b : A) :
    (s.app b).SameInputs ((s.setApp g a x).app b) := by
  by_cases hb : b = a
  · subst hb
    rwa [app_setApp_self]
  · rw [app_setApp_of_ne hb]
    exact .refl

omit [DecidableEq A] in
theorem app_skipOutputs (ds : List D) : (s.skipOutputs g ds).app = s.app := by
  induction ds generalizing s with
  | nil => rfl
  | cons d ds ih => exact ih

/-- A step either leaves the lists of an application alone or records one more input. -/
theorem app_step (s : System D A) (l : Label D A) (a : A) :
    (s.app a).SameInputs ((s.step g l).app a) ∨
    ∃ d st b, l = .deliver (.dropCompleted d a st) ∧ (s.app a).recordInput d st = .ok b ∧
      b.SameInputs ((s.step g l).app a) := by
  cases l with
  | deliver m =>
    simp only [step]
    split
    · cases m with
      | producerFinished => exact Or.inl .refl
      | dropCompleted d b st =>
        have happ : ({ s with inflight := s.inflight.erase (.dropCompleted d b st) }.handle g
            (.dropCompleted d b st)).app =
            (s.setApp g b ((s.app b).dropCompleted d st).1).app := by
          simp only [handle]
          split
          · rw [app_skipOutputs]
            rfl
          · rfl
        rw [happ]
        by_cases hb : a = b
        · subst hb
          rw [app_setApp_self]
          rcases AppDROP.dropCompleted_cases (a := s.app a) d st with ⟨-, hd⟩ | ⟨b, hb, hd⟩
          · rw [hd]
            exact Or.inl .refl
          · rw [hd]
            exact Or.inr ⟨d, st, b, rfl, hb, AppDROP.sameInputs_obey _⟩
        · rw [app_setApp_of_ne hb]
          exact Or.inl .refl
    · exact Or.inl .refl
  | write | completeRoot =>
    refine Or.inl ?_
    simp only [step]
    first
    | exact .refl
    | split <;> exact .refl
  | startRoot b =>
    refine Or.inl ?_
    simp only [step]
    split
    · exact app_setApp_same (AppDROP.sameInputs_thread _) a
    · exact .refl
  | executeStart b => exact Or.inl (app_setApp_same AppDROP.sameInputs_executeStart a)
  | executeTry b r => exact Or.inl (app_setApp_same (AppDROP.sameInputs_executeTry r) a)
  | executeEnd b => exact Or.inl (app_setApp_same AppDROP.sameInputs_executeEnd a)
  | executeNotify b => exact Or.inl (app_setApp_same AppDROP.sameInputs_executeNotify a)

theorem effectiveInputs_step :
    ((s.step g l).app a).effectiveInputs = (s.app a).effectiveInputs := by
  rcases app_step (g := g) s l a with h | ⟨d, st, b, -, hb, h⟩
  · exact h.effectiveInputs
  · exact h.effectiveInputs.trans (AppDROP.recordInput_spec hb).2.1

theorem inputsSeen_step : (s.app a).inputsSeen ≤ ((s.step g l).app a).inputsSeen := by
  rcases app_step (g := g) s l a with h | ⟨d, st, b, -, hb, h⟩
  · exact Nat.le_of_eq h.inputsSeen.symm
  · rw [h.inputsSeen, (AppDROP.recordInput_spec hb).2.2.1]
    omega

/-- The application has counted all the inputs it waits for. -/
def Counted (s : System D A) (a : A) : Prop :=
  (s.app a).effectiveInputs ≤ ((s.app a).inputsSeen : Int)

theorem counted_run (ls : List (Label D A)) (h : s.Counted a) :
    (run (step g) s ls).Counted a := by
  refine invariant_run_all (I := (Counted · a)) (fun s l hs => ?_) h
  have hi := inputsSeen_step (g := g) (s := s) (l := l) (a := a)
  unfold Counted at *
  rw [effectiveInputs_step]
  omega

theorem triggers_spec (h : s.Triggers l a) : ¬ s.Counted a ∧ (s.step g l).Counted a := by
  obtain ⟨d, st, v, rfl, hm, hv, hw⟩ := h
  rcases AppDROP.dropCompleted_cases (a := s.app a) d st with ⟨⟨e, he⟩, -⟩ | ⟨b, hb, hd⟩
  · simp [he] at hv
  obtain ⟨-, heff, hseen, -⟩ := AppDROP.recordInput_spec hb
  have hbv : b.verdict = v := by simpa [hd] using hv
  have heq := AppDROP.inputsSeen_eq_of_verdict (hbv ▸ hw)
  have hob := AppDROP.sameInputs_obey (a := b) b.verdict
  have happ : ((s.step g (.deliver (.dropCompleted d a st))).app a) = b.obey b.verdict := by
    simp only [step, hm, if_true, handle]
    split
    · rw [app_skipOutputs, app_setApp_self]
      simp [hd]
    · rw [app_setApp_self]
      simp [hd]
  constructor
  · unfold Counted
    omega
  · unfold Counted
    rw [happ, hob.effectiveInputs, hob.inputsSeen]
    omega

/-- An application acts at most once, and not before its effective inputs have settled, in
every run in which no completed drop is announced again. -/
theorem triggers_once_never_early (h : Initial g s) (hg : Along (step g) Guard s ls) (a : A) :
    (∀ pre l mid l' post, ls = pre ++ l :: mid ++ l' :: post →
      (run (step g) s pre).Triggers l a →
        ¬ (run (step g) s (pre ++ l :: mid)).Triggers l' a) ∧
    ∀ pre l post, ls = pre ++ l :: post → (run (step g) s pre).Triggers l a →
      ((run (step g) s pre).app a).effectiveInputs ≤
        ((run (step g) s pre).settledInputs g a).length := by
  constructor
  · rintro pre l mid l' post - ht ht'
    have hc := counted_run (g := g) mid (triggers_spec (g := g) ht).2
    rw [run_append, run_cons] at ht'
    exact (triggers_spec (g := g) ht').1 hc
  · rintro pre l post rfl ht
    have hpre : Along (step g) Guard s pre := (along_append.mp hg).1
    exact settled_of_triggers (invariant_run inv_step hpre (inv_initial h)) ht

/-- Application 0 produces data 0, which application 1 reads together with data 1. -/
def twoInputs : Graph (Fin 2) (Fin 2) where
  inputs := ![[], [0, 1]]
  outputs := ![[0], []]
  consumers := ![[1], [1]]
  producers := ![[0], []]
  mem_consumers := by decide
  mem_producers := by decide
  inputs_nodup := by decide
  consumers_nodup := by decide

/-- Data 0 expects one byte. -/
def oneByte : System (Fin 2) (Fin 2) where
  data := ![{ producers := 1, expectedSize := 1 }, {}]
  app := ![{}, { inputs := [0, 1] }]

theorem initial_oneByte : Initial twoInputs oneByte := by
  constructor <;> decide

/-- Data 0 reaches its size while its producer is still running. -/
def sizeReached : List (Label (Fin 2) (Fin 2)) :=
  [.startRoot 0, .executeStart 0, .write 0 1, .deliver (.dropCompleted 0 1 .completed)]

theorem triggers_once_never_early_two :
    let s := run (step twoInputs) oneByte (sizeReached ++ [.completeRoot 1])
    s.Triggers (.deliver (.dropCompleted 1 1 .completed)) 1 ∧
      (s.app 1).effectiveInputs ≤ (s.settledInputs twoInputs 1).length := by
  have ht : (run (step twoInputs) oneByte (sizeReached ++ [.completeRoot 1])).Triggers
      (.deliver (.dropCompleted 1 1 .completed)) 1 :=
    ⟨1, .completed, .execute, rfl, by decide, by decide, by decide⟩
  have hg : Along (step twoInputs) Guard oneByte
      ((sizeReached ++ [.completeRoot 1]) ++ [.deliver (.dropCompleted 1 1 .completed)]) :=
    ⟨trivial, trivial, trivial, trivial, fun _ _ => by decide, trivial, trivial⟩
  exact ⟨ht, (triggers_once_never_early initial_oneByte hg 1).2 _ _ [] rfl ht⟩

/-- Its producer then fails: data 0 is announced a second time, which stands in for data 1. -/
def failsAfterSize : List (Label (Fin 2) (Fin 2)) :=
  sizeReached ++ [.executeTry 0 .raises, .executeEnd 0, .executeNotify 0,
    .deliver (.producerFinished 0 0 .error)]

theorem triggers_early_after_size :
    Initial twoInputs oneByte ∧
      (run (step twoInputs) oneByte failsAfterSize).Triggers
        (.deliver (.dropCompleted 0 1 .error)) 1 ∧
      ¬ ((run (step twoInputs) oneByte failsAfterSize).app 1).effectiveInputs ≤
        ((run (step twoInputs) oneByte failsAfterSize).settledInputs twoInputs 1).length :=
  ⟨initial_oneByte, ⟨0, .error, .error, rfl, by decide, by decide, by decide⟩, by decide⟩

/-- Data 0 is a file. -/
def oneByteFile : System (Fin 2) (Fin 2) where
  data := ![{ producers := 1, expectedSize := 1, storage := .file }, {}]
  app := ![{}, { inputs := [0, 1] }]

/-- Its producer ends well, and a file completes once more. -/
def completesAfterSize : List (Label (Fin 2) (Fin 2)) :=
  sizeReached ++ [.executeTry 0 .returns, .executeEnd 0, .executeNotify 0,
    .deliver (.producerFinished 0 0 .completed)]

theorem triggers_early_after_file :
    Initial twoInputs oneByteFile ∧
      (run (step twoInputs) oneByteFile completesAfterSize).Triggers
        (.deliver (.dropCompleted 0 1 .completed)) 1 ∧
      ¬ ((run (step twoInputs) oneByteFile completesAfterSize).app 1).effectiveInputs ≤
        ((run (step twoInputs) oneByteFile completesAfterSize).settledInputs twoInputs 1).length :=
  ⟨by constructor <;> decide, ⟨0, .completed, .execute, rfl, by decide, by decide, by decide⟩,
    by decide⟩

end System

end Daliuge.Engine
