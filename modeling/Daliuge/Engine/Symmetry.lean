import Daliuge.Engine.Linking

/-!
# Symmetry

What calls that all succeed make of drops that had no relationships: every relationship is known on
both sides, once, unless one side has no list for it.
-/
namespace Daliuge.Engine.Linking

/-- The three ways two drops are related. -/
inductive Kind
  | consumer | producer | streaming
  deriving DecidableEq, Repr

/-- The list of the side that any drop can be on. -/
def Links.left {U : Type} (l : Links U) : Kind → List U
  | .consumer => l.consumers
  | .producer => l.producers
  | .streaming => l.streamingConsumers

/-- The list of the side that only applications can be on. -/
def Links.right {U : Type} (l : Links U) : Kind → List U
  | .consumer => l.inputs
  | .producer => l.outputs
  | .streaming => l.streamingInputs

/-- Which drops a call relates, and how; the second one is the application. -/
def Call.link {U : Type} (c : Call U) : Kind × U × U :=
  match c.method with
  | .addConsumer => (.consumer, c.receiver, c.argument)
  | .addInput => (.consumer, c.argument, c.receiver)
  | .addProducer => (.producer, c.receiver, c.argument)
  | .addOutput => (.producer, c.argument, c.receiver)
  | .addStreamingConsumer => (.streaming, c.receiver, c.argument)
  | .addStreamingInput => (.streaming, c.argument, c.receiver)

section Definitions

variable {U : Type}

/-- What is added to the lists of the drops. -/
abbrev Additions (U : Type) := Kind → U → List U

def nothing : Additions U := fun _ _ => []

def one [DecidableEq U] (k : Kind) (x y : U) : Additions U :=
  fun k' z => if k' = k ∧ z = x then [y] else []

/-- The lists of every drop grow by these; nothing is said of the listeners. -/
structure Adds (onLeft onRight : Additions U) (w w' : U → Links U) : Prop where
  dropClass : ∀ z, (w' z).dropClass = (w z).dropClass
  left : ∀ k z, (w' z).left k = (w z).left k ++ onLeft k z
  right : ∀ k z, (w' z).right k = (w z).right k ++ onRight k z

/-- Drops that no call has related yet. -/
def Unlinked (w : U → Links U) : Prop := ∀ z k, (w z).left k = [] ∧ (w z).right k = []

/-- Both sides of a relationship know it, once, and no drop is both kinds of consumer. -/
structure Symmetric (w : U → Links U) : Prop where
  mem_right : ∀ k x y, x ∈ (w y).right k ↔ y ∈ (w x).left k ∧ (w y).dropClass.isApp = true
  left_nodup : ∀ k x, ((w x).left k).Nodup
  right_nodup : ∀ k x, ((w x).right k).Nodup
  disjoint : ∀ x, ∀ y ∈ (w x).left .consumer, y ∉ (w x).left .streaming

end Definitions

variable {U : Type} [DecidableEq U] {w w' w'' : U → Links U} {x y z : U} {k : Kind}
  {a a' b b' : Additions U} {f : Links U → Links U} {c : Call U} {e : EventType}

/-! What the single steps of the methods add. -/

omit [DecidableEq U] in
theorem Adds.trans (h : Adds a b w w') (h' : Adds a' b' w' w'') :
    Adds (fun k z => a k z ++ a' k z) (fun k z => b k z ++ b' k z) w w'' where
  dropClass z := (h'.dropClass z).trans (h.dropClass z)
  left k z := by rw [h'.left, h.left, List.append_assoc]
  right k z := by rw [h'.right, h.right, List.append_assoc]

omit [DecidableEq U] in
theorem Adds.refl : Adds nothing nothing w w := ⟨fun _ => rfl, by simp [nothing], by simp [nothing]⟩

/-- A change of one drop that lengthens its lists. -/
theorem adds_onDrop (hc : (f (w x)).dropClass = (w x).dropClass)
    (hl : ∀ k, (f (w x)).left k = (w x).left k ++ a k x)
    (hr : ∀ k, (f (w x)).right k = (w x).right k ++ b k x)
    (ha : ∀ k z, z ≠ x → a k z = []) (hb : ∀ k z, z ≠ x → b k z = []) :
    Adds a b w (onDrop w x f) := by
  refine ⟨fun z => field_onDrop hc, fun k z => ?_, fun k z => ?_⟩ <;> by_cases hz : z = x
  · subst hz
    rw [onDrop_self, hl]
  · rw [onDrop_of_ne hz, ha k z hz, List.append_nil]
  · subst hz
    rw [onDrop_self, hr]
  · rw [onDrop_of_ne hz, hb k z hz, List.append_nil]

theorem one_of_ne (h : z ≠ x) (k' : Kind) : one k x y k' z = [] := by simp [one, h]

theorem adds_left (hc : (f (w x)).dropClass = (w x).dropClass)
    (hl : ∀ k', (f (w x)).left k' = (w x).left k' ++ if k' = k then [y] else [])
    (hr : ∀ k', (f (w x)).right k' = (w x).right k') :
    Adds (one k x y) nothing w (onDrop w x f) :=
  adds_onDrop hc (by simpa [one] using hl) (by simpa [nothing] using hr)
    (fun k' _ hz => one_of_ne hz k') fun _ _ _ => rfl

theorem adds_right (hc : (f (w x)).dropClass = (w x).dropClass)
    (hl : ∀ k', (f (w x)).left k' = (w x).left k')
    (hr : ∀ k', (f (w x)).right k' = (w x).right k' ++ if k' = k then [y] else []) :
    Adds nothing (one k x y) w (onDrop w x f) :=
  adds_onDrop hc (by simpa [nothing] using hl) (by simpa [one] using hr) (fun _ _ _ => rfl)
    fun k' _ hz => one_of_ne hz k'

theorem adds_subscribe : Adds nothing nothing w (onDrop w x (·.subscribe y e)) :=
  adds_onDrop rfl (fun k => by cases k <;> simp [nothing, Links.left, Links.subscribe])
    (fun k => by cases k <;> simp [nothing, Links.right, Links.subscribe]) (fun _ _ _ => rfl)
    fun _ _ _ => rfl

theorem adds_subscribeCompleted : Adds nothing nothing w (subscribeCompleted w x y) := by
  unfold subscribeCompleted
  split
  · exact adds_subscribe
  · exact Adds.refl

omit [DecidableEq U] in
theorem Adds.trans_nothing (h : Adds a b w w') (h' : Adds nothing nothing w' w'') :
    Adds a b w w'' := by
  simpa [nothing] using h.trans h'

omit [DecidableEq U] in
theorem Adds.both (h : Adds a nothing w w') (h' : Adds nothing b w' w'') : Adds a b w w'' := by
  simpa [nothing] using h.trans h'

omit [DecidableEq U] in
theorem Adds.both' (h : Adds nothing b w w') (h' : Adds a nothing w' w'') : Adds a b w w'' := by
  simpa [nothing] using h.trans h'

/-! The back-references: what the other side adds when it does not refuse. -/

theorem addInput_done_adds (h : (addInput done w x y).2 = none)
    (hm : y ∉ (w x).right .consumer) :
    Adds nothing (one .consumer x y) w (addInput done w x y).1 := by
  have hm : y ∉ (w x).inputs := hm
  rcases hc : (w x).dropClass with _ | (_ | _ | _)
  case data => simp [addInput, hc] at h
  case app.socketListener => simp [addInput, hc] at h
  all_goals
    have he : (addInput done w x y).1 =
        onDrop (onDrop w x fun l => { l with inputs := l.inputs ++ [y] }) x
          (·.subscribe y .dropFailed) := by
      simp only [addInput, hc, hm, if_false]
      rfl
    rw [he]
    exact Adds.trans_nothing (adds_right rfl (fun k => by cases k <;> rfl)
      fun k => by cases k <;> simp [Links.right]) adds_subscribe

theorem addOutput_done_adds (h : (addOutput done w x y).2 = none)
    (hm : y ∉ (w x).right .producer) :
    Adds nothing (one .producer x y) w (addOutput done w x y).1 := by
  have hm : y ∉ (w x).outputs := hm
  cases hc : (w x).dropClass with
  | data => simp [addOutput, hc] at h
  | app c =>
    by_cases hy : y = x
    · simp [addOutput, hc, hy] at h
    · have he : (addOutput done w x y).1 =
          onDrop (onDrop w x fun l => { l with outputs := l.outputs ++ [y] }) x
            (·.subscribe y .producerFinished) := by
        simp only [addOutput, hc, hy, hm, if_false]
        rfl
      rw [he]
      exact Adds.trans_nothing (adds_right rfl (fun k => by cases k <;> rfl)
        fun k => by cases k <;> simp [Links.right]) adds_subscribe

theorem addStreamingInput_done_adds (h : (addStreamingInput done w x y).2 = none)
    (hm : y ∉ (w x).right .streaming) :
    Adds nothing (one .streaming x y) w (addStreamingInput done w x y).1 := by
  have hm : y ∉ (w x).streamingInputs := hm
  rcases hc : (w x).dropClass with _ | (_ | _ | _)
  case app.appDROP =>
    have he : (addStreamingInput done w x y).1 =
        onDrop w x fun l => { l with streamingInputs := l.streamingInputs ++ [y] } := by
      simp only [addStreamingInput, hc, hm, if_false]
      rfl
    rw [he]
    exact adds_right rfl (fun k => by cases k <;> rfl) fun k => by cases k <;> simp [Links.right]
  all_goals simp [addStreamingInput, hc] at h

theorem addConsumer_done_adds (h : (addConsumer done w x y).2 = none)
    (hm : y ∉ (w x).left .consumer) : y ∉ (w x).left .streaming ∧
    Adds (one .consumer x y) nothing w (addConsumer done w x y).1 := by
  have hm : y ∉ (w x).consumers := hm
  by_cases hs : y ∈ (w x).streamingConsumers
  · simp [addConsumer, hs] at h
  refine ⟨hs, ?_⟩
  have he : (addConsumer done w x y).1 = onDrop (subscribeCompleted
      (onDrop w x fun l => { l with consumers := l.consumers ++ [y] }) x y) x
        (·.subscribe y .reproducibility) := by
    simp only [addConsumer, hs, hm, if_false]
    rfl
  rw [he]
  exact ((adds_left rfl (fun k => by cases k <;> simp [Links.left])
    fun k => by cases k <;> rfl).trans_nothing adds_subscribeCompleted).trans_nothing
    adds_subscribe

theorem addProducer_done_adds (hm : y ∉ (w x).left .producer) :
    Adds (one .producer x y) nothing w (addProducer done w x y).1 := by
  have hm : y ∉ (w x).producers := hm
  have he : (addProducer done w x y).1 =
      onDrop w x fun l => { l with producers := l.producers ++ [y] } := by
    simp only [addProducer, hm, if_false]
    rfl
  rw [he]
  exact adds_left rfl (fun k => by cases k <;> simp [Links.left]) fun k => by cases k <;> rfl

theorem addStreamingConsumer_done_adds (h : (addStreamingConsumer done w x y).2 = none)
    (hm : y ∉ (w x).left .streaming) : y ∉ (w x).left .consumer ∧
    Adds (one .streaming x y) nothing w (addStreamingConsumer done w x y).1 := by
  have hm : y ∉ (w x).streamingConsumers := hm
  by_cases hs : y ∈ (w x).consumers
  · simp [addStreamingConsumer, hs] at h
  refine ⟨hs, ?_⟩
  have he : (addStreamingConsumer done w x y).1 = onDrop (subscribeCompleted
      (onDrop w x fun l => { l with streamingConsumers := l.streamingConsumers ++ [y] }) x y) x
        (·.subscribe y .reproducibility) := by
    simp only [addStreamingConsumer, hs, hm, if_false]
    rfl
  rw [he]
  exact ((adds_left rfl (fun k => by cases k <;> simp [Links.left])
    fun k => by cases k <;> rfl).trans_nothing adds_subscribeCompleted).trans_nothing
    adds_subscribe

/-! The calls with their back-references. -/

omit [DecidableEq U] in
theorem andThen_eq {r : Outcome U} {g : (U → Links U) → Outcome U}
    (h : (r.andThen g).2 = none) : r.2 = none ∧ r.andThen g = g r.1 := by
  cases hr : r.2 with
  | none => exact ⟨rfl, andThen_ok hr⟩
  | some e =>
    rw [andThen_raised hr] at h
    cases h

/-- A successful call: the relationship is there already, or it is added on both sides. -/
def Effect (k : Kind) (x y : U) (w w' : U → Links U) : Prop :=
  y ∈ (w x).left k ∧ w' = w ∨
  y ∉ (w x).left k ∧ (k ≠ .producer → y ∉ (w x).left .consumer ∧ y ∉ (w x).left .streaming) ∧
    Adds (one k x y) (if (w y).dropClass.isApp then one k y x else nothing) w w'

/-- The first side has added the relationship; the other one has a list for it or has not. -/
theorem adds_back {back : (U → Links U) → Outcome U} (h : Adds (one k x y) nothing w w')
    (hr : (backIf (w y).dropClass.isApp back w').2 = none)
    (hback : (w y).dropClass.isApp = true → (back w').2 = none →
      Adds nothing (one k y x) w' (back w').1) :
    Adds (one k x y) (if (w y).dropClass.isApp then one k y x else nothing) w
      (backIf (w y).dropClass.isApp back w').1 := by
  cases hy : (w y).dropClass.isApp with
  | false => exact h
  | true =>
    rw [hy] at hr
    exact h.both (hback hy hr)

omit [DecidableEq U] in
/-- What the other side lacks as long as the first one has it not. -/
theorem Symmetric.notMem_right (hs : Symmetric w) (hm : y ∉ (w x).left k)
    (h : Adds a nothing w w') : x ∉ (w' y).right k := by
  rw [h.right, nothing, List.append_nil, hs.mem_right]
  exact fun hy => hm hy.1

omit [DecidableEq U] in
theorem Symmetric.notMem_left (hs : Symmetric w) (hm : x ∉ (w y).right k)
    (hy : (w y).dropClass.isApp = true) (h : Adds nothing b w w') : y ∉ (w' x).left k := by
  rw [h.left, nothing, List.append_nil]
  exact fun hl => hm ((hs.mem_right k x y).mpr ⟨hl, hy⟩)

theorem effect_addConsumer (hs : Symmetric w)
    (h : (call w ⟨.addConsumer, x, y, true⟩).2 = none) :
    Effect .consumer x y w (call w ⟨.addConsumer, x, y, true⟩).1 := by
  by_cases hstr : y ∈ (w x).streamingConsumers
  · simp [call, addConsumer, hstr] at h
  by_cases hm : y ∈ (w x).consumers
  · exact Or.inl ⟨hm, by simp [call, addConsumer, hstr, hm, done]⟩
  let w' := subscribeCompleted (onDrop w x fun l => { l with consumers := l.consumers ++ [y] }) x y
  have hw : Adds (one .consumer x y) nothing w w' :=
    (adds_left rfl (fun k => by cases k <;> simp [Links.left])
      fun k => by cases k <;> rfl).trans_nothing adds_subscribeCompleted
  have hc : call w ⟨.addConsumer, x, y, true⟩ =
      (backIf (w y).dropClass.isApp (addInput done · y x) w').andThen
        fun w => done (onDrop w x (·.subscribe y .reproducibility)) := by
    simp only [call, addConsumer, hstr, hm, if_false, Bool.true_and]
    rfl
  rw [hc] at h
  obtain ⟨hr, he⟩ := andThen_eq h
  rw [hc, he]
  refine Or.inr ⟨hm, fun _ => ⟨hm, hstr⟩, (adds_back hw hr fun _ hb => ?_).trans_nothing
    adds_subscribe⟩
  exact addInput_done_adds hb (hs.notMem_right (k := .consumer) hm hw)

theorem effect_addProducer (hs : Symmetric w)
    (h : (call w ⟨.addProducer, x, y, true⟩).2 = none) :
    Effect .producer x y w (call w ⟨.addProducer, x, y, true⟩).1 := by
  by_cases hm : y ∈ (w x).producers
  · exact Or.inl ⟨hm, by simp [call, addProducer, hm, done]⟩
  let w' := onDrop w x fun l => { l with producers := l.producers ++ [y] }
  have hw : Adds (one .producer x y) nothing w w' :=
    adds_left rfl (fun k => by cases k <;> simp [Links.left]) fun k => by cases k <;> rfl
  have hc : call w ⟨.addProducer, x, y, true⟩ =
      backIf (w y).dropClass.isApp (addOutput done · y x) w' := by
    simp only [call, addProducer, hm, if_false, Bool.true_and]
    rfl
  rw [hc] at h ⊢
  refine Or.inr ⟨hm, fun hk => (hk rfl).elim, adds_back hw h fun _ hb => ?_⟩
  exact addOutput_done_adds hb (hs.notMem_right (k := .producer) hm hw)

theorem effect_addStreamingConsumer (hs : Symmetric w)
    (h : (call w ⟨.addStreamingConsumer, x, y, true⟩).2 = none) :
    Effect .streaming x y w (call w ⟨.addStreamingConsumer, x, y, true⟩).1 := by
  by_cases hcon : y ∈ (w x).consumers
  · simp [call, addStreamingConsumer, hcon] at h
  by_cases hm : y ∈ (w x).streamingConsumers
  · exact Or.inl ⟨hm, by simp [call, addStreamingConsumer, hcon, hm, done]⟩
  let w' := onDrop w x fun l => { l with streamingConsumers := l.streamingConsumers ++ [y] }
  have hw : Adds (one .streaming x y) nothing w w' :=
    adds_left rfl (fun k => by cases k <;> simp [Links.left]) fun k => by cases k <;> rfl
  have hc : call w ⟨.addStreamingConsumer, x, y, true⟩ =
      (backIf (w y).dropClass.isApp (addStreamingInput done · y x) w').andThen
        fun w => done (onDrop (subscribeCompleted w x y) x (·.subscribe y .reproducibility)) := by
    simp only [call, addStreamingConsumer, hcon, hm, if_false, Bool.true_and]
    rfl
  rw [hc] at h
  obtain ⟨hr, he⟩ := andThen_eq h
  rw [hc, he]
  refine Or.inr ⟨hm, fun _ => ⟨hcon, hm⟩, ((adds_back hw hr fun _ hb => ?_).trans_nothing
    adds_subscribeCompleted).trans_nothing adds_subscribe⟩
  exact addStreamingInput_done_adds hb (hs.notMem_right (k := .streaming) hm hw)

theorem effect_addInput (hs : Symmetric w) (h : (call w ⟨.addInput, y, x, true⟩).2 = none) :
    Effect .consumer x y w (call w ⟨.addInput, y, x, true⟩).1 := by
  rcases hy : (w y).dropClass with _ | (_ | _ | _)
  case data => simp [call, addInput, hy] at h
  case app.socketListener => simp [call, addInput, hy] at h
  all_goals
    have happ : (w y).dropClass.isApp = true := by rw [hy]; rfl
    by_cases hm : x ∈ (w y).inputs
    · exact Or.inl ⟨((hs.mem_right .consumer x y).mp hm).1,
        by simp [call, addInput, hy, hm, done]⟩
    let w' := onDrop w y fun l => { l with inputs := l.inputs ++ [x] }
    have hw : Adds nothing (one .consumer y x) w w' :=
      adds_right rfl (fun k => by cases k <;> rfl) fun k => by cases k <;> simp [Links.right]
    have hc : call w ⟨.addInput, y, x, true⟩ = (addConsumer done w' x y).andThen
        fun w => done (onDrop w y (·.subscribe x .dropFailed)) := by
      simp only [call, addInput, hy, hm, if_false]
      rfl
    rw [hc] at h
    obtain ⟨hr, he⟩ := andThen_eq h
    have hnot := hs.notMem_left (k := .consumer) hm happ hw
    obtain ⟨hstr, hadds⟩ := addConsumer_done_adds hr hnot
    rw [hw.left, nothing, List.append_nil] at hnot hstr
    rw [hc, he]
    refine Or.inr ⟨hnot, fun _ => ⟨hnot, hstr⟩, ?_⟩
    rw [if_pos happ]
    exact (hw.both' hadds).trans_nothing adds_subscribe

theorem effect_addOutput (hs : Symmetric w) (h : (call w ⟨.addOutput, y, x, true⟩).2 = none) :
    Effect .producer x y w (call w ⟨.addOutput, y, x, true⟩).1 := by
  cases hy : (w y).dropClass with
  | data => simp [call, addOutput, hy] at h
  | app c =>
    have happ : (w y).dropClass.isApp = true := by rw [hy]; rfl
    by_cases hself : x = y
    · simp [call, addOutput, hy, hself] at h
    by_cases hm : x ∈ (w y).outputs
    · exact Or.inl ⟨((hs.mem_right .producer x y).mp hm).1,
        by simp [call, addOutput, hy, hself, hm, done]⟩
    let w' := onDrop w y fun l => { l with outputs := l.outputs ++ [x] }
    have hw : Adds nothing (one .producer y x) w w' :=
      adds_right rfl (fun k => by cases k <;> rfl) fun k => by cases k <;> simp [Links.right]
    have hc : call w ⟨.addOutput, y, x, true⟩ = (addProducer done w' x y).andThen
        fun w => done (onDrop w y (·.subscribe x .producerFinished)) := by
      simp only [call, addOutput, hy, hself, hm, if_false]
      rfl
    rw [hc] at h
    obtain ⟨hr, he⟩ := andThen_eq h
    have hnot := hs.notMem_left (k := .producer) hm happ hw
    have hadds := addProducer_done_adds hnot
    rw [hw.left, nothing, List.append_nil] at hnot
    rw [hc, he]
    refine Or.inr ⟨hnot, fun hk => (hk rfl).elim, ?_⟩
    rw [if_pos happ]
    exact (hw.both' hadds).trans_nothing adds_subscribe

theorem effect_addStreamingInput (hs : Symmetric w)
    (h : (call w ⟨.addStreamingInput, y, x, true⟩).2 = none) :
    Effect .streaming x y w (call w ⟨.addStreamingInput, y, x, true⟩).1 := by
  rcases hy : (w y).dropClass with _ | (_ | _ | _)
  case app.appDROP =>
    have happ : (w y).dropClass.isApp = true := by rw [hy]; rfl
    by_cases hm : x ∈ (w y).streamingInputs
    · exact Or.inl ⟨((hs.mem_right .streaming x y).mp hm).1,
        by simp [call, addStreamingInput, hy, hm, done]⟩
    let w' := onDrop w y fun l => { l with streamingInputs := l.streamingInputs ++ [x] }
    have hw : Adds nothing (one .streaming y x) w w' :=
      adds_right rfl (fun k => by cases k <;> rfl) fun k => by cases k <;> simp [Links.right]
    have hc : call w ⟨.addStreamingInput, y, x, true⟩ = addStreamingConsumer done w' x y := by
      simp only [call, addStreamingInput, hy, hm, if_false]
      rfl
    rw [hc] at h
    have hnot := hs.notMem_left (k := .streaming) hm happ hw
    obtain ⟨hcon, hadds⟩ := addStreamingConsumer_done_adds h hnot
    rw [hw.left, nothing, List.append_nil] at hnot hcon
    rw [hc]
    refine Or.inr ⟨hnot, fun _ => ⟨hcon, hnot⟩, ?_⟩
    rw [if_pos happ]
    exact hw.both' hadds
  all_goals simp [call, addStreamingInput, hy] at h

theorem effect_call (hs : Symmetric w) (hb : c.back = true) (h : (call w c).2 = none) :
    Effect c.link.1 c.link.2.1 c.link.2.2 w (call w c).1 := by
  obtain ⟨method, x, y, back⟩ := c
  obtain rfl : back = true := hb
  cases method with
  | addConsumer => exact effect_addConsumer hs h
  | addInput => exact effect_addInput hs h
  | addProducer => exact effect_addProducer hs h
  | addOutput => exact effect_addOutput hs h
  | addStreamingConsumer => exact effect_addStreamingConsumer hs h
  | addStreamingInput => exact effect_addStreamingInput hs h

/-! What a successful call keeps, and what a run of them comes to. -/

theorem Effect.dropClass (h : Effect k x y w w') (z : U) : (w' z).dropClass = (w z).dropClass := by
  rcases h with ⟨_, rfl⟩ | ⟨_, _, h⟩
  · rfl
  · exact h.dropClass z

theorem Effect.mem_left (h : Effect k x y w w') (k' : Kind) (z v : U) :
    v ∈ (w' z).left k' ↔ v ∈ (w z).left k' ∨ (k, x, y) = (k', z, v) := by
  rcases h with ⟨hm, rfl⟩ | ⟨_, _, h⟩
  · refine ⟨Or.inl, ?_⟩
    rintro (hv | hv)
    · exact hv
    · cases hv
      exact hm
  · rw [h.left, List.mem_append, one]
    by_cases hk : k' = k ∧ z = x
    · obtain ⟨rfl, rfl⟩ := hk
      simp [eq_comm]
    · rw [if_neg hk]
      refine or_congr_right (iff_of_false (by simp) ?_)
      rintro hv
      cases hv
      exact hk ⟨rfl, rfl⟩

omit [DecidableEq U] in
theorem symmetric_unlinked (h : Unlinked w) : Symmetric w where
  mem_right k x y := by simp [(h y k).2, (h x k).1]
  left_nodup k x := by simp [(h x k).1]
  right_nodup k x := by simp [(h x k).2]
  disjoint x := by simp [(h x .consumer).1]

theorem Effect.symmetric (hs : Symmetric w) (h : Effect k x y w w') : Symmetric w' := by
  have hleft := h.mem_left
  have hcls := h.dropClass
  rcases h with ⟨_, rfl⟩ | ⟨hm, hdis, h⟩
  · exact hs
  have hright : ∀ k' z v, v ∈ (w' z).right k' ↔
      v ∈ (w z).right k' ∨ (k', z, v) = (k, y, x) ∧ (w y).dropClass.isApp = true := by
    intro k' z v
    rw [h.right, List.mem_append]
    by_cases hy : (w y).dropClass.isApp = true
    · rw [if_pos hy, one]
      by_cases hk : k' = k ∧ z = y
      · obtain ⟨rfl, rfl⟩ := hk
        simp [hy]
      · rw [if_neg hk]
        simp only [List.not_mem_nil, Prod.mk.injEq]
        tauto
    · simp [hy, nothing]
  refine ⟨fun k' u v => ?_, fun k' z => ?_, fun k' z => ?_, fun z v hv hv' => ?_⟩
  · rw [hright, hleft, hs.mem_right, hcls]
    simp only [Prod.mk.injEq]
    constructor
    · rintro (⟨hv, ha⟩ | ⟨⟨rfl, rfl, rfl⟩, ha⟩)
      · exact ⟨Or.inl hv, ha⟩
      · exact ⟨Or.inr ⟨rfl, rfl, rfl⟩, ha⟩
    · rintro ⟨hv | ⟨rfl, rfl, rfl⟩, ha⟩
      · exact Or.inl ⟨hv, ha⟩
      · exact Or.inr ⟨⟨rfl, rfl, rfl⟩, ha⟩
  · rw [h.left, one]
    by_cases hk : k' = k ∧ z = x
    · obtain ⟨rfl, rfl⟩ := hk
      rw [if_pos ⟨rfl, rfl⟩, List.nodup_append']
      exact ⟨hs.left_nodup _ _, by simp, by simpa using hm⟩
    · rw [if_neg hk, List.append_nil]
      exact hs.left_nodup _ _
  · rw [h.right]
    by_cases hy : (w y).dropClass.isApp = true
    · rw [if_pos hy, one]
      by_cases hk : k' = k ∧ z = y
      · obtain ⟨rfl, rfl⟩ := hk
        rw [if_pos ⟨rfl, rfl⟩, List.nodup_append']
        refine ⟨hs.right_nodup _ _, by simp, ?_⟩
        have hx : x ∉ (w z).right k' := fun hx => hm ((hs.mem_right _ _ _).mp hx).1
        simpa using hx
      · rw [if_neg hk, List.append_nil]
        exact hs.right_nodup _ _
    · rw [if_neg hy, nothing, List.append_nil]
      exact hs.right_nodup _ _
  · rw [hleft] at hv hv'
    rcases hv with hv | hv <;> rcases hv' with hv' | hv'
    · exact hs.disjoint z v hv hv'
    · cases hv'
      exact (hdis (by simp)).1 hv
    · cases hv
      exact (hdis (by simp)).2 hv'
    · cases hv
      cases hv'

/-- After calls that all succeed both sides agree, and what is related is what the calls related. -/
theorem symmetric_calls {cs : List (Call U)} (hs : Symmetric w) (hb : ∀ c ∈ cs, c.back = true)
    (h : (calls w cs).2 = none) : Symmetric (calls w cs).1 ∧
      (∀ z, ((calls w cs).1 z).dropClass = (w z).dropClass) ∧
      ∀ k x y, y ∈ ((calls w cs).1 x).left k ↔
        y ∈ (w x).left k ∨ ∃ c ∈ cs, c.link = (k, x, y) := by
  induction cs generalizing w with
  | nil => exact ⟨hs, fun _ => rfl, by simp [calls, done]⟩
  | cons c cs ih =>
    obtain ⟨hc, he⟩ := andThen_eq (g := (calls · cs)) h
    have heff := effect_call hs (hb c List.mem_cons_self) hc
    have hcs : calls w (c :: cs) = calls (call w c).1 cs := he
    rw [hcs] at h ⊢
    obtain ⟨hsym, hcls, hmem⟩ :=
      ih (heff.symmetric hs) (fun c' hc' => hb c' (List.mem_cons_of_mem _ hc')) h
    refine ⟨hsym, fun z => (hcls z).trans (heff.dropClass z), fun k x y => ?_⟩
    rw [hmem, heff.mem_left]
    simp only [List.mem_cons, exists_eq_or_imp, or_assoc]

end Daliuge.Engine.Linking
