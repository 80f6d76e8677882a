import Daliuge.Engine.Linking

/-!
# Refusals

What a refused relationship leaves behind. A method that takes the relationship up before it asks
the other side leaves its own half of it when the other side refuses.
-/
namespace Daliuge.Engine.Linking

variable {U : Type} [DecidableEq U]

/-- A refused relationship leaves the two drops as they were. -/
def LeavesNoTrace (w : U → Links U) (c : Call U) : Prop :=
  ∀ e, (call w c).2 = some e → e.isInvalidRelationship = true →
    (call w c).1 c.receiver = w c.receiver ∧ (call w c).1 c.argument = w c.argument

/-- The receiver takes the relationship up, and it is the other side that refuses it. -/
def RefusedByOther (w : U → Links U) (c : Call U) : Prop :=
  let x := w c.receiver
  let y := w c.argument
  c.back = true ∧ match c.method with
  | .addConsumer => c.argument ∉ x.streamingConsumers ∧ c.argument ∉ x.consumers ∧
      y.dropClass = .app .socketListener
  | .addInput => (x.dropClass = .app .appDROP ∨ x.dropClass = .app .inputFired) ∧
      c.argument ∉ x.inputs ∧ c.receiver ∈ y.streamingConsumers
  | .addProducer => c.argument ∉ x.producers ∧ c.argument = c.receiver ∧
      x.dropClass.isApp = true
  | .addOutput => False
  | .addStreamingConsumer => c.argument ∉ x.consumers ∧ c.argument ∉ x.streamingConsumers ∧
      (y.dropClass = .app .inputFired ∨ y.dropClass = .app .socketListener)
  | .addStreamingInput => x.dropClass = .app .appDROP ∧ c.argument ∉ x.streamingInputs ∧
      c.receiver ∈ y.consumers

variable {w : U → Links U} {x y : U} {c : Call U} {r : Outcome U} {e : Raised}

/-! What the other side answers; a refusal changes nothing there. -/

def inputAnswer (c : DropClass) : Option Raised :=
  match c with
  | .data => some .attributeError
  | .app .socketListener => some (.invalid .noInputs)
  | .app _ => none

theorem addInput_answer : (addInput done w x y).2 = inputAnswer (w x).dropClass ∧
    ((addInput done w x y).2 ≠ none → (addInput done w x y).1 = w) := by
  by_cases hm : y ∈ (w x).inputs <;> rcases hc : (w x).dropClass with _ | (_ | _ | _) <;>
    simp [addInput, inputAnswer, hc, hm, done, Outcome.andThen]

theorem addConsumer_answer : (addConsumer done w x y).2 =
      (if y ∈ (w x).streamingConsumers then some (.invalid .alreadyStreamingConsumer) else none) ∧
    ((addConsumer done w x y).2 ≠ none → (addConsumer done w x y).1 = w) := by
  by_cases hs : y ∈ (w x).streamingConsumers <;> by_cases hm : y ∈ (w x).consumers <;>
    simp [addConsumer, hs, hm, done, Outcome.andThen]

theorem addOutput_answer : (addOutput done w x y).2 =
      (if (w x).dropClass.isApp then if y = x then some .ownOutput else none
        else some .attributeError) ∧
    ((addOutput done w x y).2 ≠ none → (addOutput done w x y).1 = w) := by
  by_cases hy : y = x <;> by_cases hm : y ∈ (w x).outputs <;>
    rcases hc : (w x).dropClass with _ | _ <;>
    simp_all [addOutput, DropClass.isApp, done, Outcome.andThen]

theorem addProducer_answer : (addProducer done w x y).2 = none := by
  by_cases hm : y ∈ (w x).producers <;> simp [addProducer, hm, done]

def streamingInputAnswer (c : DropClass) : Option Raised :=
  match c with
  | .data => some .attributeError
  | .app .inputFired => some (.invalid .noStreamingInputs)
  | .app .socketListener => some (.invalid .noInputs)
  | .app .appDROP => none

theorem addStreamingInput_answer :
    (addStreamingInput done w x y).2 = streamingInputAnswer (w x).dropClass ∧
    ((addStreamingInput done w x y).2 ≠ none → (addStreamingInput done w x y).1 = w) := by
  by_cases hm : y ∈ (w x).streamingInputs <;> rcases hc : (w x).dropClass with _ | (_ | _ | _) <;>
    simp [addStreamingInput, streamingInputAnswer, hc, hm, done]

theorem addStreamingConsumer_answer : (addStreamingConsumer done w x y).2 =
      (if y ∈ (w x).consumers then some (.invalid .alreadyNormalConsumer) else none) ∧
    ((addStreamingConsumer done w x y).2 ≠ none → (addStreamingConsumer done w x y).1 = w) := by
  by_cases hs : y ∈ (w x).consumers <;> by_cases hm : y ∈ (w x).streamingConsumers <;>
    simp [addStreamingConsumer, hs, hm, done, Outcome.andThen]

/-! Refused at once, refused by the other side, or not at all. -/

/-- A call that raises before it changes anything leaves no trace. -/
theorem leavesNoTrace_of_unchanged (h : (call w c).1 = w) : LeavesNoTrace w c := by
  intro _ _ _
  rw [h]
  exact ⟨rfl, rfl⟩

/-- A call that raises nothing is not refused. -/
theorem leavesNoTrace_of_done (h : (call w c).2 = none) : LeavesNoTrace w c := by
  intro e he
  simp [h] at he

/-- A receiver that has changed when the other side refuses has kept a trace. -/
theorem not_leavesNoTrace (he : (call w c).2 = some e) (hi : e.isInvalidRelationship = true)
    (hne : (call w c).1 c.receiver ≠ w c.receiver) : ¬ LeavesNoTrace w c :=
  fun h => hne (h e he hi).1

/-- A receiver that has taken the relationship up keeps no trace exactly when the other side does
not refuse it. -/
theorem leavesNoTrace_late {w' : U → Links U} {g : (U → Links U) → U → Links U}
    (hc : call w c = r.andThen fun w => done (g w)) (hkeep : r.2 ≠ none → r.1 = w')
    (hne : w' c.receiver ≠ w c.receiver) :
    LeavesNoTrace w c ↔ ∀ e, r.2 = some e → e.isInvalidRelationship = false := by
  cases hb : r.2 with
  | none =>
    rw [andThen_ok hb] at hc
    exact iff_of_true (leavesNoTrace_of_done (by rw [hc]; rfl)) (by simp)
  | some e =>
    rw [andThen_raised hb, hkeep (by simp [hb])] at hc
    constructor
    · intro h e' he
      cases he
      by_contra hi
      exact not_leavesNoTrace (by rw [hc]) (by simpa using hi) (by rw [hc]; exact hne) h
    · intro h e' he hi
      rw [hc] at he
      cases he
      simp [h e rfl] at hi

omit [DecidableEq U] in
theorem backIf_true (f : (U → Links U) → Outcome U) : backIf true f = f := rfl

omit [DecidableEq U] in
theorem backIf_false (f : (U → Links U) → Outcome U) : backIf false f = done := rfl

theorem leavesNoTrace_addConsumer (b : Bool) : LeavesNoTrace w ⟨.addConsumer, x, y, b⟩ ↔
    ¬ RefusedByOther w ⟨.addConsumer, x, y, b⟩ := by
  by_cases hs : y ∈ (w x).streamingConsumers
  · exact iff_of_true (leavesNoTrace_of_unchanged (by simp [call, addConsumer, hs]))
      (by simp [RefusedByOther, hs])
  by_cases hd : y ∈ (w x).consumers
  · exact iff_of_true (leavesNoTrace_of_unchanged (by simp [call, addConsumer, hs, hd, done]))
      (by simp [RefusedByOther, hd])
  let w' := subscribeCompleted (onDrop w x fun l => { l with consumers := l.consumers ++ [y] }) x y
  have hcls : (w' y).dropClass = (w y).dropClass := by
    rw [field_subscribeCompleted (p := Links.dropClass) fun _ _ => rfl]
    exact field_onDrop rfl
  have hne : w' x ≠ w x := by
    intro h
    have := congrArg Links.consumers h
    rw [field_subscribeCompleted (p := Links.consumers) fun _ _ => rfl, onDrop_self] at this
    simp at this
  have hans := addInput_answer (w := w') (x := y) (y := x)
  have hc : call w ⟨.addConsumer, x, y, b⟩ =
      (backIf (b && (w y).dropClass.isApp) (addInput done · y x) w').andThen
        fun w => done (onDrop w x (·.subscribe y .reproducibility)) := by
    simp only [call, addConsumer, hs, hd, if_false]
    rfl
  cases hb : b && (w y).dropClass.isApp with
  | false =>
    rw [hb, backIf_false] at hc
    rw [leavesNoTrace_late hc (fun h => (h rfl).elim) hne]
    simp only [done, RefusedByOther]
    cases hy : (w y).dropClass <;> simp_all [DropClass.isApp]
  | true =>
    rw [hb, backIf_true] at hc
    rw [leavesNoTrace_late hc hans.2 hne, hans.1, hcls]
    rw [Bool.and_eq_true] at hb
    rcases hy : (w y).dropClass with _ | (_ | _ | _) <;>
      simp_all [inputAnswer, RefusedByOther, Raised.isInvalidRelationship, DropClass.isApp]

theorem leavesNoTrace_addInput (b : Bool) : LeavesNoTrace w ⟨.addInput, x, y, b⟩ ↔
    ¬ RefusedByOther w ⟨.addInput, x, y, b⟩ := by
  by_cases hcls : (w x).dropClass = .app .appDROP ∨ (w x).dropClass = .app .inputFired
  case neg =>
    refine iff_of_true (leavesNoTrace_of_unchanged ?_) fun h => hcls h.2.1
    rcases hx : (w x).dropClass with _ | (_ | _ | _) <;> simp_all [call, addInput]
  by_cases hm : y ∈ (w x).inputs
  · refine iff_of_true (leavesNoTrace_of_done ?_) fun h => h.2.2.1 hm
    rcases hcls with hx | hx <;> simp [call, addInput, hx, hm, done]
  let w' := onDrop w x fun l => { l with inputs := l.inputs ++ [y] }
  have hstr : (w' y).streamingConsumers = (w y).streamingConsumers := field_onDrop rfl
  have hne : w' x ≠ w x := by
    intro h
    have := congrArg Links.inputs h
    simp [w'] at this
  have hans := addConsumer_answer (w := w') (x := y) (y := x)
  have hc : call w ⟨.addInput, x, y, b⟩ = (backIf b (addConsumer done · y x) w').andThen
      fun w => done (onDrop w x (·.subscribe y .dropFailed)) := by
    rcases hcls with hx | hx <;> simp only [call, addInput, hx, hm, if_false] <;> rfl
  cases b with
  | false =>
    rw [backIf_false] at hc
    rw [leavesNoTrace_late hc (fun h => (h rfl).elim) hne]
    simp [done, RefusedByOther]
  | true =>
    rw [backIf_true] at hc
    rw [leavesNoTrace_late hc hans.2 hne, hans.1, hstr]
    by_cases hs : x ∈ (w y).streamingConsumers <;>
      simp_all [RefusedByOther, Raised.isInvalidRelationship]

theorem leavesNoTrace_addProducer (b : Bool) : LeavesNoTrace w ⟨.addProducer, x, y, b⟩ ↔
    ¬ RefusedByOther w ⟨.addProducer, x, y, b⟩ := by
  by_cases hm : y ∈ (w x).producers
  · exact iff_of_true (leavesNoTrace_of_done (by simp [call, addProducer, hm, done]))
      fun h => h.2.1 hm
  let w' := onDrop w x fun l => { l with producers := l.producers ++ [y] }
  have hcls : (w' y).dropClass = (w y).dropClass := field_onDrop rfl
  have hne : w' x ≠ w x := by
    intro h
    have := congrArg Links.producers h
    simp [w'] at this
  have hans := addOutput_answer (w := w') (x := y) (y := x)
  have hc : call w ⟨.addProducer, x, y, b⟩ =
      (backIf (b && (w y).dropClass.isApp) (addOutput done · y x) w').andThen done := by
    simp only [call, addProducer, hm, if_false, andThen_done]
    rfl
  cases hb : b && (w y).dropClass.isApp with
  | false =>
    rw [hb, backIf_false] at hc
    rw [leavesNoTrace_late hc (fun h => (h rfl).elim) hne]
    simp only [done, RefusedByOther]
    by_cases hy : y = x <;> simp_all
  | true =>
    rw [hb, backIf_true] at hc
    rw [leavesNoTrace_late hc hans.2 hne, hans.1, hcls]
    rw [Bool.and_eq_true] at hb
    by_cases hy : y = x
    · subst hy
      simp [RefusedByOther, Raised.isInvalidRelationship, hb.1, hb.2, hm]
    · simp [RefusedByOther, hb.2, hy, Ne.symm hy]

theorem leavesNoTrace_addOutput (b : Bool) : LeavesNoTrace w ⟨.addOutput, x, y, b⟩ ↔
    ¬ RefusedByOther w ⟨.addOutput, x, y, b⟩ := by
  refine iff_of_true ?_ fun h => h.2
  cases hx : (w x).dropClass with
  | data => exact leavesNoTrace_of_unchanged (by simp [call, addOutput, hx])
  | app c =>
    by_cases hy : y = x
    · exact leavesNoTrace_of_unchanged (by simp [call, addOutput, hx, hy])
    · apply leavesNoTrace_of_done
      by_cases hm : y ∈ (w x).outputs
      · simp [call, addOutput, hx, hy, hm, done]
      · cases b with
        | false => simp [call, addOutput, hx, hy, hm, done, backIf, Outcome.andThen]
        | true =>
          have hans := addProducer_answer
            (w := onDrop w x fun l => { l with outputs := l.outputs ++ [y] }) (x := y) (y := x)
          simp only [call, addOutput, hx, hy, hm, if_false, backIf_true]
          rw [andThen_ok hans]
          rfl

theorem leavesNoTrace_addStreamingConsumer (b : Bool) :
    LeavesNoTrace w ⟨.addStreamingConsumer, x, y, b⟩ ↔
    ¬ RefusedByOther w ⟨.addStreamingConsumer, x, y, b⟩ := by
  by_cases hs : y ∈ (w x).consumers
  · exact iff_of_true (leavesNoTrace_of_unchanged (by simp [call, addStreamingConsumer, hs]))
      fun h => h.2.1 hs
  by_cases hd : y ∈ (w x).streamingConsumers
  · exact iff_of_true (leavesNoTrace_of_done (by simp [call, addStreamingConsumer, hs, hd, done]))
      fun h => h.2.2.1 hd
  let w' := onDrop w x fun l => { l with streamingConsumers := l.streamingConsumers ++ [y] }
  have hcls : (w' y).dropClass = (w y).dropClass := field_onDrop rfl
  have hne : w' x ≠ w x := by
    intro h
    have := congrArg Links.streamingConsumers h
    simp [w'] at this
  have hans := addStreamingInput_answer (w := w') (x := y) (y := x)
  have hc : call w ⟨.addStreamingConsumer, x, y, b⟩ =
      (backIf (b && (w y).dropClass.isApp) (addStreamingInput done · y x) w').andThen
        fun w => done (onDrop (subscribeCompleted w x y) x (·.subscribe y .reproducibility)) := by
    simp only [call, addStreamingConsumer, hs, hd, if_false]
    rfl
  cases hb : b && (w y).dropClass.isApp with
  | false =>
    rw [hb, backIf_false] at hc
    rw [leavesNoTrace_late hc (fun h => (h rfl).elim) hne]
    simp only [done, RefusedByOther]
    cases hy : (w y).dropClass <;> simp_all [DropClass.isApp]
  | true =>
    rw [hb, backIf_true] at hc
    rw [leavesNoTrace_late hc hans.2 hne, hans.1, hcls]
    rw [Bool.and_eq_true] at hb
    rcases hy : (w y).dropClass with _ | (_ | _ | _) <;>
      simp_all [streamingInputAnswer, RefusedByOther, Raised.isInvalidRelationship,
        DropClass.isApp]

theorem leavesNoTrace_addStreamingInput (b : Bool) :
    LeavesNoTrace w ⟨.addStreamingInput, x, y, b⟩ ↔
    ¬ RefusedByOther w ⟨.addStreamingInput, x, y, b⟩ := by
  by_cases hcls : (w x).dropClass = .app .appDROP
  case neg =>
    refine iff_of_true (leavesNoTrace_of_unchanged ?_) fun h => hcls h.2.1
    rcases hx : (w x).dropClass with _ | (_ | _ | _) <;> simp_all [call, addStreamingInput]
  by_cases hm : y ∈ (w x).streamingInputs
  · exact iff_of_true
      (leavesNoTrace_of_done (by simp [call, addStreamingInput, hcls, hm, done]))
      fun h => h.2.2.1 hm
  let w' := onDrop w x fun l => { l with streamingInputs := l.streamingInputs ++ [y] }
  have hcon : (w' y).consumers = (w y).consumers := field_onDrop rfl
  have hne : w' x ≠ w x := by
    intro h
    have := congrArg Links.streamingInputs h
    simp [w'] at this
  have hans := addStreamingConsumer_answer (w := w') (x := y) (y := x)
  have hc : call w ⟨.addStreamingInput, x, y, b⟩ =
      (backIf b (addStreamingConsumer done · y x) w').andThen done := by
    simp only [call, addStreamingInput, hcls, hm, if_false, andThen_done]
    rfl
  cases b with
  | false =>
    rw [backIf_false] at hc
    rw [leavesNoTrace_late hc (fun h => (h rfl).elim) hne]
    simp [done, RefusedByOther]
  | true =>
    rw [backIf_true] at hc
    rw [leavesNoTrace_late hc hans.2 hne, hans.1, hcon]
    by_cases hs : x ∈ (w y).consumers <;>
      simp_all [RefusedByOther, Raised.isInvalidRelationship]

/-- A refused relationship leaves no trace exactly when it is the receiver of the call that
refuses it. -/
theorem leavesNoTrace_iff (w : U → Links U) (c : Call U) :
    LeavesNoTrace w c ↔ ¬ RefusedByOther w c := by
  obtain ⟨method, x, y, b⟩ := c
  cases method with
  | addConsumer => exact leavesNoTrace_addConsumer b
  | addInput => exact leavesNoTrace_addInput b
  | addProducer => exact leavesNoTrace_addProducer b
  | addOutput => exact leavesNoTrace_addOutput b
  | addStreamingConsumer => exact leavesNoTrace_addStreamingConsumer b
  | addStreamingInput => exact leavesNoTrace_addStreamingInput b

/-- A data drop and a barrier. -/
def dataAndBarrier : Fin 2 → Links (Fin 2) :=
  ![{}, { dropClass := .app .inputFired }]

/-- A barrier is added as a streaming consumer: the data drop keeps it, though it refuses. -/
theorem refused_streaming_consumer_stays :
    ¬ ∀ (cs : List (Call (Fin 2))) (c : Call (Fin 2)), (calls dataAndBarrier cs).2 = none →
      LeavesNoTrace (calls dataAndBarrier cs).1 c := by
  intro h
  have hc := h [] ⟨.addStreamingConsumer, 0, 1, true⟩ rfl
  rw [leavesNoTrace_iff] at hc
  exact hc ⟨rfl, by decide, by decide, Or.inl rfl⟩

end Daliuge.Engine.Linking
