import Daliuge.Lib.Adjacency
import Daliuge.Engine.Firing

/-!
# Relationships

How data drops and applications are joined: the `add` methods of both sides, each of which
calls its counterpart once, and the listeners they subscribe. Uids are pairwise distinct, so
a drop is its uid.
-/
namespace Daliuge.Engine

open Adjacency

/-- `ExecutionMode`. -/
inductive ExecutionMode
  | drop
  | external
  deriving DecidableEq, Repr

/-- The application classes that differ in what they accept as input. -/
inductive AppClass
  | appDROP
  | inputFired
  | socketListener
  deriving DecidableEq, Repr

inductive EventType
  | dropCompleted
  | dropFailed
  | producerFinished
  | reproducibility
  deriving DecidableEq, Repr

/-- `InvalidRelationshipException`, by its reason. -/
inductive InvalidRelationship
  | alreadyStreamingConsumer
  | alreadyNormalConsumer
  | noInputs
  | noStreamingInputs
  deriving DecidableEq, Repr

/-- The relationships a data drop keeps, with the listeners of each event type. -/
structure DataRelations (A : Type) where
  executionMode : ExecutionMode := .drop
  consumers : List A := []
  producers : List A := []
  streamingConsumers : List A := []
  listeners : EventType → List A := fun _ => []

structure AppRelations (D : Type) where
  appClass : AppClass := .appDROP
  inputs : List D := []
  outputs : List D := []
  streamingInputs : List D := []
  listeners : EventType → List D := fun _ => []

structure Relations (D A : Type) where
  data : D → DataRelations A
  app : A → AppRelations D

/-- The calls of either side, with the automatic back-reference. -/
inductive AddCall (D A : Type)
  | addConsumer (d : D) (a : A)
  | addInput (a : A) (d : D)
  | addProducer (d : D) (a : A)
  | addOutput (a : A) (d : D)
  | addStreamingConsumer (d : D) (a : A)
  | addStreamingInput (a : A) (d : D)
  deriving DecidableEq, Repr

/-- `subscribe`. -/
def DataRelations.subscribe {A : Type} (x : DataRelations A) (listener : A) (e : EventType) :
    DataRelations A :=
  { x with listeners := Function.update x.listeners e (x.listeners e ++ [listener]) }

def AppRelations.subscribe {D : Type} (x : AppRelations D) (listener : D) (e : EventType) :
    AppRelations D :=
  { x with listeners := Function.update x.listeners e (x.listeners e ++ [listener]) }

namespace Relations

section Definitions

variable {D A : Type} [DecidableEq D] [DecidableEq A]

def onData (w : Relations D A) (d : D) (f : DataRelations A → DataRelations A) :
    Relations D A :=
  { w with data := Function.update w.data d (f (w.data d)) }

def onApp (w : Relations D A) (a : A) (f : AppRelations D → AppRelations D) : Relations D A :=
  { w with app := Function.update w.app a (f (w.app a)) }

/-- The subscription of an execution mode other than DROP is left to somebody else. -/
def subscribeCompleted (w : Relations D A) (d : D) (a : A) : Relations D A :=
  if (w.data d).executionMode = .drop then w.onData d (·.subscribe a .dropCompleted) else w

/-- The type of a back-reference: the call a method makes on its argument. -/
abbrev BackRef (D A : Type) := Relations D A → Except InvalidRelationship (Relations D A)

def addConsumerWith (back : BackRef D A) (w : Relations D A) (d : D) (a : A) :
    Except InvalidRelationship (Relations D A) :=
  if a ∈ (w.data d).streamingConsumers then .error .alreadyStreamingConsumer
  else if a ∈ (w.data d).consumers then .ok w
  else do
    let w := w.onData d fun x => { x with consumers := x.consumers ++ [a] }
    let w := w.subscribeCompleted d a
    let w ← back w
    return w.onData d (·.subscribe a .reproducibility)

def addInputWith (back : BackRef D A) (w : Relations D A) (a : A) (d : D) :
    Except InvalidRelationship (Relations D A) :=
  if (w.app a).appClass = .socketListener then .error .noInputs
  else if d ∈ (w.app a).inputs then .ok w
  else do
    let w := w.onApp a fun x => { x with inputs := x.inputs ++ [d] }
    let w ← back w
    return w.onApp a (·.subscribe d .dropFailed)

def addProducerWith (back : BackRef D A) (w : Relations D A) (d : D) (a : A) :
    Except InvalidRelationship (Relations D A) :=
  if a ∈ (w.data d).producers then .ok w
  else back (w.onData d fun x => { x with producers := x.producers ++ [a] })

def addOutputWith (back : BackRef D A) (w : Relations D A) (a : A) (d : D) :
    Except InvalidRelationship (Relations D A) :=
  if d ∈ (w.app a).outputs then .ok w
  else do
    let w := w.onApp a fun x => { x with outputs := x.outputs ++ [d] }
    let w ← back w
    return w.onApp a (·.subscribe d .producerFinished)

def addStreamingConsumerWith (back : BackRef D A) (w : Relations D A) (d : D) (a : A) :
    Except InvalidRelationship (Relations D A) :=
  if a ∈ (w.data d).consumers then .error .alreadyNormalConsumer
  else if a ∈ (w.data d).streamingConsumers then .ok w
  else do
    let w := w.onData d fun x => { x with streamingConsumers := x.streamingConsumers ++ [a] }
    let w ← back w
    let w := w.subscribeCompleted d a
    return w.onData d (·.subscribe a .reproducibility)

def addStreamingInputWith (back : BackRef D A) (w : Relations D A) (a : A) (d : D) :
    Except InvalidRelationship (Relations D A) :=
  match (w.app a).appClass with
  | .inputFired => .error .noStreamingInputs
  | .socketListener => .error .noInputs
  | .appDROP =>
    if d ∈ (w.app a).streamingInputs then .ok w
    else back (w.onApp a fun x => { x with streamingInputs := x.streamingInputs ++ [d] })

/-- A call with `back=True`; the call it makes in turn has `back=False`. -/
def call (w : Relations D A) : AddCall D A → Except InvalidRelationship (Relations D A)
  | .addConsumer d a => addConsumerWith (addInputWith .ok · a d) w d a
  | .addInput a d => addInputWith (addConsumerWith .ok · d a) w a d
  | .addProducer d a => addProducerWith (addOutputWith .ok · a d) w d a
  | .addOutput a d => addOutputWith (addProducerWith .ok · d a) w a d
  | .addStreamingConsumer d a => addStreamingConsumerWith (addStreamingInputWith .ok · a d) w d a
  | .addStreamingInput a d => addStreamingInputWith (addStreamingConsumerWith .ok · d a) w a d

/-- Calls made one after the other, as long as none raises. -/
def calls (w : Relations D A) (cs : List (AddCall D A)) :
    Except InvalidRelationship (Relations D A) :=
  cs.foldlM call w

/-- Drops that no call has joined yet. -/
structure Unconnected (w : Relations D A) : Prop where
  consumers : ∀ d, (w.data d).consumers = []
  producers : ∀ d, (w.data d).producers = []
  streamingConsumers : ∀ d, (w.data d).streamingConsumers = []
  inputs : ∀ a, (w.app a).inputs = []
  outputs : ∀ a, (w.app a).outputs = []
  streamingInputs : ∀ a, (w.app a).streamingInputs = []
  dataListeners : ∀ d e, (w.data d).listeners e = []
  appListeners : ∀ a e, (w.app a).listeners e = []

/-- Both sides of every relationship agree, nothing is listed twice, and every listener is
subscribed once. -/
structure Consistent (w : Relations D A) : Prop where
  consumers : ∀ d a, a ∈ (w.data d).consumers ↔ d ∈ (w.app a).inputs
  producers : ∀ d a, a ∈ (w.data d).producers ↔ d ∈ (w.app a).outputs
  streaming : ∀ d a, a ∈ (w.data d).streamingConsumers ↔ d ∈ (w.app a).streamingInputs
  consumers_nodup : ∀ d, (w.data d).consumers.Nodup
  producers_nodup : ∀ d, (w.data d).producers.Nodup
  streamingConsumers_nodup : ∀ d, (w.data d).streamingConsumers.Nodup
  inputs_nodup : ∀ a, (w.app a).inputs.Nodup
  outputs_nodup : ∀ a, (w.app a).outputs.Nodup
  streamingInputs_nodup : ∀ a, (w.app a).streamingInputs.Nodup
  completed_once : ∀ d a, a ∈ (w.data d).consumers ∨ a ∈ (w.data d).streamingConsumers →
    ((w.data d).listeners .dropCompleted).count a = 1
  finished_once : ∀ d a, d ∈ (w.app a).outputs →
    ((w.app a).listeners .producerFinished).count d = 1

end Definitions

variable {D A : Type} [DecidableEq D] [DecidableEq A] {w w' : Relations D A} {d e : D} {a b : A}
  {f f' : DataRelations A → DataRelations A} {k k' : AppRelations D → AppRelations D}

/-! Updates of different drops do not meet. -/

omit [DecidableEq A] in
@[simp] theorem data_onData_self : (w.onData d f).data d = f (w.data d) := by simp [onData]

omit [DecidableEq A] in
@[simp] theorem app_onData : (w.onData d f).app = w.app := rfl

omit [DecidableEq D] in
@[simp] theorem app_onApp_self : (w.onApp a k).app a = k (w.app a) := by simp [onApp]

omit [DecidableEq D] in
@[simp] theorem data_onApp : (w.onApp a k).data = w.data := rfl

omit [DecidableEq A] in
@[simp] theorem onData_onData :
    (w.onData d f).onData d f' = w.onData d fun x => f' (f x) := by
  simp [onData]

omit [DecidableEq D] in
@[simp] theorem onApp_onApp : (w.onApp a k).onApp a k' = w.onApp a fun x => k' (k x) := by
  simp [onApp]

@[simp] theorem onData_onApp : (w.onApp a k).onData d f = (w.onData d f).onApp a k := rfl

omit [DecidableEq A] in
/-- Reading a field of every data drop after one of them changed. -/
theorem field_onData {β : Type} (p : DataRelations A → β) :
    (fun e => p ((w.onData d f).data e)) =
      Function.update (fun e => p (w.data e)) d (p (f (w.data d))) := by
  funext e
  by_cases he : e = d
  · subst he
    simp
  · simp [onData, he]

omit [DecidableEq D] in
theorem field_onApp {β : Type} (p : AppRelations D → β) :
    (fun b => p ((w.onApp a k).app b)) =
      Function.update (fun b => p (w.app b)) a (p (k (w.app a))) := by
  funext b
  by_cases hb : b = a
  · subst hb
    simp
  · simp [onApp, hb]

/-- The listeners of a data drop are its consumers, normal or streaming but not both. -/
structure DataInv (x : DataRelations A) : Prop where
  mode : x.executionMode = .drop
  disjoint : ∀ a ∈ x.consumers, a ∉ x.streamingConsumers
  completed : (x.listeners .dropCompleted).Perm (x.consumers ++ x.streamingConsumers)

/-- The listeners of an application are its outputs; only plain applications stream. -/
structure AppInv (x : AppRelations D) : Prop where
  finished : x.listeners .producerFinished = x.outputs
  plain : x.appClass ≠ .appDROP → x.streamingInputs = []

/-- What the calls keep: the two sides of each relationship matched, and the listeners those
the relationships call for. -/
structure Inv (w : Relations D A) : Prop where
  consumers : Matched (fun d => (w.data d).consumers) fun a => (w.app a).inputs
  producers : Matched (fun d => (w.data d).producers) fun a => (w.app a).outputs
  streaming : Matched (fun d => (w.data d).streamingConsumers) fun a => (w.app a).streamingInputs
  data : ∀ d, DataInv (w.data d)
  app : ∀ a, AppInv (w.app a)

/-! The three ways two drops can be joined, whichever side started. -/

def joinConsumer (w : Relations D A) (d : D) (a : A) : Relations D A :=
  (w.onData d fun x => ({ x with consumers := x.consumers ++ [a] }.subscribe a
    .dropCompleted).subscribe a .reproducibility).onApp a fun x =>
      { x with inputs := x.inputs ++ [d] }.subscribe d .dropFailed

def joinProducer (w : Relations D A) (d : D) (a : A) : Relations D A :=
  (w.onData d fun x => { x with producers := x.producers ++ [a] }).onApp a fun x =>
    { x with outputs := x.outputs ++ [d] }.subscribe d .producerFinished

def joinStreaming (w : Relations D A) (d : D) (a : A) : Relations D A :=
  (w.onData d fun x => ({ x with streamingConsumers := x.streamingConsumers ++ [a] }.subscribe a
    .dropCompleted).subscribe a .reproducibility).onApp a fun x =>
      { x with streamingInputs := x.streamingInputs ++ [d] }

/-- Either side's call for a consumer does nothing or joins the two drops. -/
theorem addConsumer_cases (h : Inv w)
    (hc : w.call (.addConsumer d a) = .ok w' ∨ w.call (.addInput a d) = .ok w') :
    w' = w ∨ a ∉ (w.data d).consumers ∧ a ∉ (w.data d).streamingConsumers ∧
      w' = w.joinConsumer d a := by
  have hm := (h.data d).mode
  have hi := h.consumers.mem_iff d a
  have hx := (h.data d).disjoint a
  by_cases hk : (w.app a).appClass = .socketListener <;>
    by_cases hs : a ∈ (w.data d).streamingConsumers <;>
    by_cases hd : a ∈ (w.data d).consumers <;>
    simp_all [call, addConsumerWith, addInputWith, subscribeCompleted, joinConsumer, eq_comm]

theorem addProducer_cases (h : Inv w)
    (hc : w.call (.addProducer d a) = .ok w' ∨ w.call (.addOutput a d) = .ok w') :
    w' = w ∨ a ∉ (w.data d).producers ∧ w' = w.joinProducer d a := by
  have hi := h.producers.mem_iff d a
  by_cases hd : a ∈ (w.data d).producers <;>
    simp_all [call, addProducerWith, addOutputWith, joinProducer, eq_comm]

theorem addStreamingConsumer_cases (h : Inv w)
    (hc : w.call (.addStreamingConsumer d a) = .ok w' ∨
      w.call (.addStreamingInput a d) = .ok w') :
    w' = w ∨ a ∉ (w.data d).consumers ∧ a ∉ (w.data d).streamingConsumers ∧
      (w.app a).appClass = .appDROP ∧ w' = w.joinStreaming d a := by
  have hm := (h.data d).mode
  have hi := h.streaming.mem_iff d a
  have hx := (h.data d).disjoint a
  cases hk : (w.app a).appClass <;>
    by_cases hs : a ∈ (w.data d).streamingConsumers <;>
    by_cases hd : a ∈ (w.data d).consumers <;>
    simp_all [call, addStreamingConsumerWith, addStreamingInputWith, subscribeCompleted,
      joinStreaming, eq_comm]

/-- An untouched relationship stays as it was. -/
theorem matched_frame {p : DataRelations A → List A} {q : AppRelations D → List D}
    (h : Matched (fun d => p (w.data d)) fun a => q (w.app a))
    (hp : p (f (w.data d)) = p (w.data d)) (hq : q (k (w.app a)) = q (w.app a)) :
    Matched (fun e => p (((w.onData d f).onApp a k).data e))
      fun b => q (((w.onData d f).onApp a k).app b) := by
  have hl := field_onData (w := w) (d := d) (f := f) p
  have hr := field_onApp (w := w.onData d f) (a := a) (k := k) q
  rw [hp, Function.update_eq_self] at hl
  rw [app_onData, hq, Function.update_eq_self] at hr
  simp only [data_onApp]
  rwa [hl, hr]

/-- A relationship extended on both sides. -/
theorem matched_extend {p : DataRelations A → List A} {q : AppRelations D → List D}
    (h : Matched (fun d => p (w.data d)) fun a => q (w.app a)) (ha : a ∉ p (w.data d))
    (hp : p (f (w.data d)) = p (w.data d) ++ [a]) (hq : q (k (w.app a)) = q (w.app a) ++ [d]) :
    Matched (fun e => p (((w.onData d f).onApp a k).data e))
      fun b => q (((w.onData d f).onApp a k).app b) := by
  have hl := field_onData (w := w) (d := d) (f := f) p
  have hr := field_onApp (w := w.onData d f) (a := a) (k := k) q
  rw [hp] at hl
  rw [app_onData, hq] at hr
  simp only [data_onApp]
  rw [hl, hr]
  exact h.push ha

omit [DecidableEq A] in
/-- A property of every data drop survives a change that keeps it. -/
theorem forall_onData {P : DataRelations A → Prop} (h : ∀ d, P (w.data d))
    (hf : P (f (w.data d))) (e : D) : P ((w.onData d f).data e) := by
  by_cases he : e = d
  · subst he
    rwa [data_onData_self]
  · simpa [onData, he] using h e

omit [DecidableEq D] in
theorem forall_onApp {P : AppRelations D → Prop} (h : ∀ a, P (w.app a))
    (hk : P (k (w.app a))) (b : A) : P ((w.onApp a k).app b) := by
  by_cases hb : b = a
  · subst hb
    rwa [app_onApp_self]
  · simpa [onApp, hb] using h b

omit [DecidableEq A] in
theorem dataInv_addConsumer {x : DataRelations A} (h : DataInv x)
    (hs : a ∉ x.streamingConsumers) :
    DataInv (({ x with consumers := x.consumers ++ [a] }.subscribe a .dropCompleted).subscribe a
      .reproducibility) where
  mode := h.mode
  disjoint b hb := by
    rcases List.mem_append.mp hb with hb | hb
    · exact h.disjoint b hb
    · rw [List.mem_singleton.mp hb]
      exact hs
  completed := by
    have hp : (x.consumers ++ x.streamingConsumers ++ [a]).Perm
        (x.consumers ++ [a] ++ x.streamingConsumers) := by
      rw [List.append_assoc, List.append_assoc]
      exact List.perm_append_comm.append_left _
    exact (h.completed.append_right [a]).trans hp

omit [DecidableEq A] in
theorem dataInv_addStreamingConsumer {x : DataRelations A} (h : DataInv x)
    (hd : a ∉ x.consumers) :
    DataInv (({ x with streamingConsumers := x.streamingConsumers ++ [a] }.subscribe a
      .dropCompleted).subscribe a .reproducibility) where
  mode := h.mode
  disjoint b hb hm := by
    rcases List.mem_append.mp hm with hm | hm
    · exact h.disjoint b hb hm
    · rw [List.mem_singleton.mp hm] at hb
      exact hd hb
  completed := by
    have hp := h.completed.append_right [a]
    rwa [List.append_assoc] at hp

/-- A join keeps the invariant if it keeps each part of it where it acts. -/
theorem inv_join (h : Inv w) (hd : DataInv (f (w.data d)))
    (hk : AppInv (k (w.app a)))
    (hc : Matched (fun e => (((w.onData d f).onApp a k).data e).consumers)
      fun b => (((w.onData d f).onApp a k).app b).inputs)
    (hp : Matched (fun e => (((w.onData d f).onApp a k).data e).producers)
      fun b => (((w.onData d f).onApp a k).app b).outputs)
    (hs : Matched (fun e => (((w.onData d f).onApp a k).data e).streamingConsumers)
      fun b => (((w.onData d f).onApp a k).app b).streamingInputs) :
    Inv ((w.onData d f).onApp a k) :=
  ⟨hc, hp, hs, forall_onData h.data hd, forall_onApp (w := w.onData d f) h.app hk⟩

theorem inv_joinConsumer (h : Inv w) (hd : a ∉ (w.data d).consumers)
    (hs : a ∉ (w.data d).streamingConsumers) : Inv (w.joinConsumer d a) :=
  inv_join h (dataInv_addConsumer (h.data d) hs) ⟨(h.app a).finished, (h.app a).plain⟩
    (matched_extend h.consumers hd rfl rfl) (matched_frame h.producers rfl rfl)
    (matched_frame h.streaming rfl rfl)

theorem inv_joinStreaming (h : Inv w) (hd : a ∉ (w.data d).consumers)
    (hs : a ∉ (w.data d).streamingConsumers) (ha : (w.app a).appClass = .appDROP) :
    Inv (w.joinStreaming d a) :=
  inv_join h (dataInv_addStreamingConsumer (h.data d) hd)
    ⟨(h.app a).finished, fun hn => (hn ha).elim⟩
    (matched_frame h.consumers rfl rfl) (matched_frame h.producers rfl rfl)
    (matched_extend h.streaming hs rfl rfl)

theorem inv_joinProducer (h : Inv w) (hd : a ∉ (w.data d).producers) :
    Inv (w.joinProducer d a) :=
  inv_join h ⟨(h.data d).mode, (h.data d).disjoint, (h.data d).completed⟩
    ⟨congrArg (· ++ [d]) (h.app a).finished, (h.app a).plain⟩ (matched_frame h.consumers rfl rfl)
    (matched_extend h.producers hd rfl rfl) (matched_frame h.streaming rfl rfl)

theorem inv_call (h : Inv w) {c : AddCall D A} (hc : w.call c = .ok w') : Inv w' := by
  have consumer : ∀ {d a}, w.call (.addConsumer d a) = .ok w' ∨ w.call (.addInput a d) = .ok w' →
      Inv w' := by
    intro d a hc
    rcases addConsumer_cases h hc with rfl | ⟨hd, hs, rfl⟩
    · exact h
    · exact inv_joinConsumer h hd hs
  have producer : ∀ {d a}, w.call (.addProducer d a) = .ok w' ∨ w.call (.addOutput a d) = .ok w' →
      Inv w' := by
    intro d a hc
    rcases addProducer_cases h hc with rfl | ⟨hd, rfl⟩
    · exact h
    · exact inv_joinProducer h hd
  have streaming : ∀ {d a}, w.call (.addStreamingConsumer d a) = .ok w' ∨
      w.call (.addStreamingInput a d) = .ok w' → Inv w' := by
    intro d a hc
    rcases addStreamingConsumer_cases h hc with rfl | ⟨hd, hs, ha, rfl⟩
    · exact h
    · exact inv_joinStreaming h hd hs ha
  cases c with
  | addConsumer => exact consumer (Or.inl hc)
  | addInput => exact consumer (Or.inr hc)
  | addProducer => exact producer (Or.inl hc)
  | addOutput => exact producer (Or.inr hc)
  | addStreamingConsumer => exact streaming (Or.inl hc)
  | addStreamingInput => exact streaming (Or.inr hc)

theorem inv_calls {cs : List (AddCall D A)} (h : Inv w) (hc : w.calls cs = .ok w') : Inv w' := by
  induction cs generalizing w with
  | nil =>
    cases hc
    exact h
  | cons c cs ih =>
    simp only [calls, List.foldlM_cons] at hc ih
    cases hw : w.call c with
    | error e => simp [hw, bind, Except.bind] at hc
    | ok w₁ =>
      refine ih (inv_call h hw) ?_
      simpa [hw, bind, Except.bind] using hc

omit [DecidableEq D] [DecidableEq A] in
theorem inv_unconnected (h : Unconnected w) (hm : ∀ d, (w.data d).executionMode = .drop) :
    Inv w where
  consumers := ⟨by simp [h.consumers, h.inputs], by simp [h.consumers], by simp [h.inputs]⟩
  producers := ⟨by simp [h.producers, h.outputs], by simp [h.producers], by simp [h.outputs]⟩
  streaming := ⟨by simp [h.streamingConsumers, h.streamingInputs],
    by simp [h.streamingConsumers], by simp [h.streamingInputs]⟩
  data d := ⟨hm d, by simp [h.consumers], by simp [h.dataListeners, h.consumers,
    h.streamingConsumers]⟩
  app a := ⟨by simp [h.appListeners, h.outputs], fun _ => h.streamingInputs a⟩

theorem Inv.consistent (h : Inv w) : Consistent w where
  consumers := h.consumers.mem_iff
  producers := h.producers.mem_iff
  streaming := h.streaming.mem_iff
  consumers_nodup := h.consumers.left_nodup
  producers_nodup := h.producers.left_nodup
  streamingConsumers_nodup := h.streaming.left_nodup
  inputs_nodup := h.consumers.right_nodup
  outputs_nodup := h.producers.right_nodup
  streamingInputs_nodup := h.streaming.right_nodup
  completed_once d a ha := by
    have hn : ((w.data d).consumers ++ (w.data d).streamingConsumers).Nodup :=
      List.nodup_append'.mpr ⟨h.consumers.left_nodup d, h.streaming.left_nodup d,
        (h.data d).disjoint⟩
    rw [(h.data d).completed.count_eq, List.count_eq_one_of_mem hn (List.mem_append.mpr ha)]
  finished_once d a hd := by
    rw [(h.app a).finished, List.count_eq_one_of_mem (h.producers.right_nodup a) hd]

/-- Whatever is called from whichever side, and however often: relationships are symmetric
and every listener is subscribed once. -/
theorem calls_consistent {cs : List (AddCall D A)} (h : Unconnected w)
    (hm : ∀ d, (w.data d).executionMode = .drop) (hc : w.calls cs = .ok w') : Consistent w' :=
  (inv_calls (inv_unconnected h hm) hc).consistent

def alone : Relations (Fin 2) (Fin 2) where
  data _ := {}
  app _ := {}

theorem unconnected_alone : Unconnected alone := by
  constructor <;> intros <;> rfl

theorem calls_consistent_from_both_sides :
    ∃ w, alone.calls [.addInput 0 0, .addConsumer 0 0, .addOutput 0 1, .addStreamingInput 1 0,
      .addStreamingConsumer 0 1, .addProducer 1 0] = .ok w ∧ Consistent w := by
  obtain ⟨w, hw⟩ : ∃ w, alone.calls [.addInput 0 0, .addConsumer 0 0, .addOutput 0 1,
    .addStreamingInput 1 0, .addStreamingConsumer 0 1, .addProducer 1 0] = .ok w := ⟨_, rfl⟩
  exact ⟨w, hw, calls_consistent unconnected_alone (fun _ => rfl) hw⟩

/-- The graph the calls have built. -/
def Inv.toGraph (h : Inv w) : Graph D A where
  inputs a := (w.app a).inputs
  outputs a := (w.app a).outputs
  consumers d := (w.data d).consumers
  producers d := (w.data d).producers
  mem_consumers := h.consumers.mem_iff _ _
  mem_producers := h.producers.mem_iff _ _
  inputs_nodup := h.consumers.right_nodup
  consumers_nodup := h.consumers.left_nodup

omit [DecidableEq D] [DecidableEq A] in
/-- Among input-fired applications the listeners of a data drop are the consumers its
messages go to. -/
theorem Inv.listeners_perm_consumers (h : Inv w)
    (hw : ∀ a, (w.app a).appClass = .inputFired) (d : D) :
    ((w.data d).listeners .dropCompleted).Perm (h.toGraph.consumers d) := by
  have hs : (w.data d).streamingConsumers = [] := by
    refine List.eq_nil_iff_forall_not_mem.mpr fun a ha => ?_
    have hn := (h.streaming.mem_iff d a).mp ha
    rw [(h.app a).plain (by simp [hw])] at hn
    simp at hn
  have hp := (h.data d).completed
  rwa [hs, List.append_nil] at hp

end Relations

end Daliuge.Engine
