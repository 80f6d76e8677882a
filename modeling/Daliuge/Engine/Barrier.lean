import Daliuge.Lib.Association
import Daliuge.Lib.Numeral
import Daliuge.Engine.Firing

/-!
# Barriers

The construction of a `BarrierAppDROP`: its integer parameters are extracted from the keyword
arguments and the application arguments before `initialize` overrides one of the former.
-/
namespace Daliuge.Engine

open Run

/-- A value given for a parameter; `F` stands for the floating point numbers. -/
inductive ParamValue (F : Type)
  | null
  | bool (b : Bool)
  | int (i : Int)
  | float (x : F)
  | text (s : List Char)
  | other
  deriving DecidableEq, Repr

/-- An entry of `applicationArgs`; a plain dictionary has no attribute `usage`. -/
inductive AppArg (F : Type)
  | record (usage : String) (value : ParamValue F)
  | dictionary
  deriving DecidableEq, Repr

/-- The keyword arguments a drop is created with, `block_skip` by its truth value. -/
structure Kwargs (F : Type) where
  args : List (String × ParamValue F) := []
  applicationArgs : Option (List (String × AppArg F)) := none
  blockSkip : Bool := false
  deriving DecidableEq, Repr

/-- What `int` reads, and what it gives for a float that is finite. -/
structure Ints (F : Type) where
  alphabet : Numeral.Alphabet
  trunc : F → Option Int

inductive ConstructError
  | attributeError
  | valueError
  | typeError
  /-- `InvalidDropException`, by the parameter at fault. -/
  | invalidDrop (attr : String)
  deriving DecidableEq, Repr

/-- The values of the three parameters of `InputFiredAppDROP`; None and the empty text stay. -/
structure Attributes where
  inputErrorThreshold : Option Int
  nEffectiveInputs : Option Int
  nTries : Option Int
  deriving DecidableEq, Repr

section Definitions

variable {F U : Type} (py : Ints F)

/-- `int`. -/
def toInt : ParamValue F → Except ConstructError Int
  | .null | .other => .error .typeError
  | .bool b => .ok (if b then 1 else 0)
  | .int i => .ok i
  | .float x => (py.trunc x).elim (.error .valueError) .ok
  | .text s => (Numeral.integer py.alphabet s).elim (.error .valueError) .ok

/-- The branch of `_extract_attributes` for a `dlg_int_param`. -/
def intParam : ParamValue F → Except ConstructError (Option Int)
  | .null | .text [] => .ok none
  | v => (toInt py v).map some

/-- The usages of `get_param_value` that make an application argument a port. -/
def portUsages : List String := ["InputPort", "OutputPort", "InputOutput"]

/-- `get_param_value`. -/
def getParamValue (k : Kwargs F) (attrName : String) (defaultValue : ParamValue F) :
    Except ConstructError (ParamValue F) :=
  match k.args.lookup attrName with
  | some v => .ok v
  | none =>
    match k.applicationArgs.bind (·.lookup attrName) with
    | some (.record usage value) => .ok (if usage ∈ portUsages then defaultValue else value)
    | some .dictionary => .error .attributeError
    | none => .ok defaultValue

/-- `_extract_attributes`, for the parameters of `InputFiredAppDROP`. -/
def extractAttributes (k : Kwargs F) : Except ConstructError Attributes := do
  let threshold ← intParam py (← getParamValue k "input_error_threshold" (.int 0))
  let effective ← intParam py (← getParamValue k "n_effective_inputs" (.int (-1)))
  let tries ← intParam py (← getParamValue k "n_tries" (.int 1))
  return ⟨threshold, effective, tries⟩

/-- A parameter that is compared with a number. -/
def number (x : Option Int) : Except ConstructError Int := x.elim (.error .typeError) .ok

/-- A check that raises. -/
def refuseIf (bad : Bool) (attr : String) : Except ConstructError Unit :=
  if bad then .error (.invalidDrop attr) else .ok ()

/-- `InputFiredAppDROP.initialize`, with the application it leaves. -/
def InputFired.initialize (attrs : Attributes) (k : Kwargs F) :
    Except ConstructError (AppDROP U) := do
  let threshold ← number attrs.inputErrorThreshold
  refuseIf (decide (threshold < 0) || decide (100 < threshold)) "input_error_threshold"
  refuseIf (k.args.lookup "n_effective_inputs").isNone "n_effective_inputs"
  let effective ← number attrs.nEffectiveInputs
  refuseIf (decide (effective < -1) || effective == 0) "n_effective_inputs"
  let tries ← number attrs.nTries
  refuseIf (decide (tries < 1)) "n_tries"
  return { blockSkip := k.blockSkip, inputErrorThreshold := threshold,
           nEffectiveInputs := effective, nTries := tries.toNat }

/-- `BarrierAppDROP.initialize`: it overrides the argument, not the attribute. -/
def Barrier.initialize (attrs : Attributes) (k : Kwargs F) : Except ConstructError (AppDROP U) :=
  InputFired.initialize attrs
    { k with args := Association.set k.args "n_effective_inputs" (.int (-1)) }

/-- `AbstractDROP.__init__`, where it bears on when a barrier triggers. -/
def Barrier.construct (k : Kwargs F) : Except ConstructError (AppDROP U) := do
  let attrs ← extractAttributes py k
  Barrier.initialize attrs k

/-- The value of `n_effective_inputs` an argument or a field carries. -/
def Carries (k : Kwargs F) (v : ParamValue F) : Prop :=
  k.args.lookup "n_effective_inputs" = some v ∨
    k.args.lookup "n_effective_inputs" = none ∧ ∃ usage, usage ∉ portUsages ∧
      k.applicationArgs.bind (·.lookup "n_effective_inputs") = some (.record usage v)

/-- The application after its inputs announced themselves in this order. -/
def hear (a : AppDROP U) (es : List (U × DROPStates)) : AppDROP U :=
  run (fun a e => (a.dropCompleted e.1 e.2).1) a es

/-- The application triggers on an event only when every input has sent one. -/
def WaitsForAll (a : AppDROP U) : Prop :=
  ∀ (es : List (U × DROPStates)) (uid : U) (s : DROPStates) (v : Verdict),
    ((es ++ [(uid, s)]).map Prod.fst).Nodup →
      (∀ u ∈ (es ++ [(uid, s)]).map Prod.fst, u ∈ a.inputs) →
    ((hear a es).dropCompleted uid s).2 = .ok v → v ≠ .wait →
      ∀ u ∈ a.inputs, u ∈ (es ++ [(uid, s)]).map Prod.fst

end Definitions

variable {F U : Type} {py : Ints F} {k : Kwargs F} {a : AppDROP U} {inputs : List U}
  {es : List (U × DROPStates)}

/-! What a successful construction went through. -/

theorem bind_eq_ok {α β : Type} {x : Except ConstructError α} {f : α → Except ConstructError β}
    {b : β} (h : x >>= f = .ok b) : ∃ a, x = .ok a ∧ f a = .ok b := by
  cases x with
  | error e => cases h
  | ok a => exact ⟨a, rfl, h⟩

theorem number_eq_ok {x : Option Int} {i : Int} (h : number x = .ok i) : x = some i := by
  cases x with
  | none => cases h
  | some j =>
    cases h
    rfl

theorem refuseIf_eq_ok {bad : Bool} {attr : String} {u : Unit} (h : refuseIf bad attr = .ok u) :
    bad = false := by
  unfold refuseIf at h
  cases bad with
  | false => rfl
  | true => cases h

/-- A new application that has heard nothing, with the parameter as it was extracted. -/
structure Constructed (py : Ints F) (k : Kwargs F) (a : AppDROP U) : Prop where
  extracted : ∃ v, getParamValue k "n_effective_inputs" (.int (-1)) = .ok v ∧
    intParam py v = .ok (some a.nEffectiveInputs)
  positive : a.nEffectiveInputs = -1 ∨ 0 < a.nEffectiveInputs
  inputsSeen : a.inputsSeen = 0

theorem constructed (h : Barrier.construct py k = .ok a) : Constructed py k a := by
  obtain ⟨attrs, ha, hi⟩ := bind_eq_ok h
  obtain ⟨v₁, _, ha⟩ := bind_eq_ok ha
  obtain ⟨threshold, _, ha⟩ := bind_eq_ok ha
  obtain ⟨v, hv, ha⟩ := bind_eq_ok ha
  obtain ⟨effective, he, ha⟩ := bind_eq_ok ha
  obtain ⟨v₃, _, ha⟩ := bind_eq_ok ha
  obtain ⟨tries, _, ha⟩ := bind_eq_ok ha
  cases ha
  obtain ⟨t, _, hi⟩ := bind_eq_ok hi
  obtain ⟨_, _, hi⟩ := bind_eq_ok hi
  obtain ⟨_, _, hi⟩ := bind_eq_ok hi
  obtain ⟨e, hn, hi⟩ := bind_eq_ok hi
  obtain ⟨_, hr, hi⟩ := bind_eq_ok hi
  obtain ⟨n, _, hi⟩ := bind_eq_ok hi
  obtain ⟨_, _, hi⟩ := bind_eq_ok hi
  have hchecked := refuseIf_eq_ok hr
  have hsome : effective = some e := number_eq_ok hn
  cases hi
  refine ⟨⟨v, hv, by rw [he, hsome]⟩, ?_, rfl⟩
  · simp only [Bool.or_eq_false_iff, decide_eq_false_iff_not, beq_eq_false_iff_ne] at hchecked
    show e = -1 ∨ 0 < e
    omega

/-- The extracted value is the one carried, or -1 if there is none. -/
theorem extracted_cases {v : ParamValue F} {i : Int}
    (hv : getParamValue k "n_effective_inputs" (.int (-1)) = .ok v)
    (hi : intParam py v = .ok (some i)) :
    Carries k v ∧ toInt py v = .ok i ∨ (∀ w, ¬ Carries k w) ∧ i = -1 := by
  have hint : toInt py v = .ok i := by
    unfold intParam at hi
    split at hi
    · cases hi
    · cases hi
    · cases ht : toInt py v with
      | error e => simp [ht, Except.map] at hi
      | ok j => simpa [ht, Except.map] using hi
  unfold getParamValue at hv
  unfold Carries
  cases hl : k.args.lookup "n_effective_inputs" with
  | some w =>
    simp only [hl] at hv
    cases hv
    exact Or.inl ⟨Or.inl rfl, hint⟩
  | none =>
    simp only [hl] at hv
    cases hb : k.applicationArgs.bind (·.lookup "n_effective_inputs") with
    | none =>
      simp only [hb] at hv
      cases hv
      cases hint
      exact Or.inr ⟨by simp, rfl⟩
    | some arg =>
      cases arg with
      | dictionary => simp [hb] at hv
      | record usage value =>
        simp only [hb] at hv
        by_cases hu : usage ∈ portUsages
        · rw [if_pos hu] at hv
          cases hv
          cases hint
          refine Or.inr ⟨?_, rfl⟩
          rintro w (hw | ⟨_, usage', hu', hw⟩)
          · cases hw
          · cases hw
            exact hu' hu
        · rw [if_neg hu] at hv
          cases hv
          exact Or.inl ⟨Or.inr ⟨rfl, usage, hu, rfl⟩, hint⟩

theorem carries_unique {v w : ParamValue F} (hv : Carries k v) (hw : Carries k w) : v = w := by
  rcases hv with hv | ⟨hn, u, _, hv⟩ <;> rcases hw with hw | ⟨hm, u', _, hw⟩
  · simpa [hv] using hw
  · simp [hv] at hm
  · simp [hw] at hn
  · have := hv.symm.trans hw
    simp_all

/-! What the events change of the lists the inputs are counted in. -/

/-- An event leaves the lists alone or adds one to them; a completed input is refused only when
more inputs are effective than there are. -/
theorem dropCompleted_counts [DecidableEq U] (a : AppDROP U) (uid : U) (s : DROPStates) :
    (a.dropCompleted uid s).1.inputs = a.inputs ∧
    (a.dropCompleted uid s).1.effectiveInputs = a.effectiveInputs ∧
    (a.dropCompleted uid s).1.inputsSeen ≤ a.inputsSeen + 1 := by
  rcases a.dropCompleted_cases uid s with ⟨_, he⟩ | ⟨b, hb, he⟩
  · rw [he]
    exact ⟨rfl, rfl, Nat.le_succ _⟩
  · obtain ⟨hin, heff, hseen, _⟩ := AppDROP.recordInput_spec hb
    have hobey := AppDROP.sameInputs_obey (a := b) b.verdict
    rw [he]
    refine ⟨hobey.inputs.trans hin, hobey.effectiveInputs.trans heff, ?_⟩
    show (b.obey b.verdict).inputsSeen ≤ a.inputsSeen + 1
    rw [hobey.inputsSeen, hseen]

theorem hear_counts [DecidableEq U] (a : AppDROP U) (es : List (U × DROPStates)) :
    (hear a es).inputs = a.inputs ∧ (hear a es).effectiveInputs = a.effectiveInputs ∧
    (hear a es).inputsSeen ≤ a.inputsSeen + es.length := by
  induction es generalizing a with
  | nil => exact ⟨rfl, rfl, Nat.le_refl _⟩
  | cons e es ih =>
    obtain ⟨hin, heff, hseen⟩ := dropCompleted_counts a e.1 e.2
    obtain ⟨hin', heff', hseen'⟩ := ih (a.dropCompleted e.1 e.2).1
    refine ⟨hin'.trans hin, heff'.trans heff, ?_⟩
    have hle : (hear a (e :: es)).inputsSeen ≤ (a.dropCompleted e.1 e.2).1.inputsSeen + es.length :=
      hseen'
    rw [List.length_cons]
    omega

/-- Inputs that complete are all counted, unless more are effective than there are. -/
theorem dropCompleted_completed [DecidableEq U] (h : a.effectiveInputs ≤ a.inputs.length)
    (uid : U) : ∃ b, a.recordInput uid .completed = .ok b ∧
      a.dropCompleted uid .completed = (b.obey b.verdict, .ok b.verdict) ∧
      (a.dropCompleted uid .completed).1.inputsSeen = a.inputsSeen + 1 := by
  refine ⟨_, rfl, ?_, ?_⟩
  · simp [AppDROP.dropCompleted, Int.not_lt.mpr h, AppDROP.recordInput]
  · rcases a.dropCompleted_cases uid .completed with ⟨⟨e, he⟩, _⟩ | ⟨b, hb, he⟩
    · simp [AppDROP.dropCompleted, Int.not_lt.mpr h, AppDROP.recordInput] at he
    · obtain ⟨_, _, hseen, _⟩ := AppDROP.recordInput_spec hb
      rw [he]
      exact (AppDROP.sameInputs_obey (a := b) b.verdict).inputsSeen.trans hseen

theorem hear_completed [DecidableEq U] (h : a.effectiveInputs ≤ a.inputs.length) (us : List U) :
    (hear a (us.map fun u => (u, .completed))).inputsSeen = a.inputsSeen + us.length := by
  induction us generalizing a with
  | nil => rfl
  | cons u us ih =>
    obtain ⟨hin, heff, _⟩ := dropCompleted_counts a u .completed
    obtain ⟨_, _, _, hseen⟩ := dropCompleted_completed h u
    have hs := ih (a := (a.dropCompleted u .completed).1) (by rw [hin, heff]; exact h)
    rw [List.length_cons]
    show (hear (a.dropCompleted u .completed).1 _).inputsSeen = _
    omega

/-- An application that triggers has heard of as many inputs as are effective. -/
theorem dropCompleted_triggers [DecidableEq U] {uid : U} {s : DROPStates} {v : Verdict}
    (h : (a.dropCompleted uid s).2 = .ok v) (hv : v ≠ .wait) :
    a.effectiveInputs = a.inputsSeen + 1 := by
  rcases a.dropCompleted_cases uid s with ⟨⟨e, he⟩, _⟩ | ⟨b, hb, he⟩
  · simp [he] at h
  · obtain ⟨_, heff, hseen, _⟩ := AppDROP.recordInput_spec hb
    rw [he] at h
    cases h
    have := AppDROP.inputsSeen_eq_of_verdict hv
    omega

/-- An event that completes the effective inputs triggers. -/
theorem verdict_ne_wait (h : (a.inputsSeen : Int) = a.effectiveInputs) : a.verdict ≠ .wait := by
  unfold AppDROP.verdict
  rw [if_pos h]
  split
  · simp
  · split
    · simp
    · split <;> simp

/-- As many distinct inputs as there are, are all of them. -/
theorem all_of_length {us : List U} (hd : us.Nodup) (hs : ∀ u ∈ us, u ∈ inputs)
    (hl : inputs.length ≤ us.length) : ∀ u ∈ inputs, u ∈ us := by
  have hp : us.Perm inputs := (List.subperm_of_subset hd hs).perm_of_length_le hl
  exact fun u hu => hp.mem_iff.mpr hu

theorem WaitsForAll.of_effective [DecidableEq U] (hseen : a.inputsSeen = 0)
    (he : (a.inputs.length : Int) ≤ a.effectiveInputs) : WaitsForAll a := by
  intro es uid s v hd hs hv hne
  obtain ⟨_, heff, hle⟩ := hear_counts a es
  have ht := dropCompleted_triggers hv hne
  apply all_of_length hd hs
  rw [List.length_map, List.length_append, List.length_singleton]
  omega

theorem not_waitsForAll [DecidableEq U] (hseen : a.inputsSeen = 0) (hd : a.inputs.Nodup)
    (hpos : 0 < a.effectiveInputs) (hlt : a.effectiveInputs < a.inputs.length) :
    ¬ WaitsForAll a := by
  intro h
  obtain ⟨m, hm⟩ : ∃ m : Nat, a.effectiveInputs = m + 1 := ⟨(a.effectiveInputs - 1).toNat, by omega⟩
  have hml : m < a.inputs.length := by omega
  -- The first inputs complete; one too few to make up the barrier's inputs.
  have hsplit : a.inputs.take (m + 1) = a.inputs.take m ++ [a.inputs[m]] := by
    rw [List.take_succ_eq_append_getElem hml]
  have hkeys : ((a.inputs.take m).map (fun u => (u, DROPStates.completed)) ++
      [(a.inputs[m], DROPStates.completed)]).map Prod.fst = a.inputs.take (m + 1) := by
    rw [hsplit]
    simp [Function.comp_def]
  obtain ⟨hin, heff, _⟩ :=
    hear_counts a ((a.inputs.take m).map fun u => (u, DROPStates.completed))
  obtain ⟨b, hb, hdone, _⟩ := dropCompleted_completed
    (a := hear a ((a.inputs.take m).map fun u => (u, DROPStates.completed)))
    (by rw [hin, heff]; omega) a.inputs[m]
  obtain ⟨_, hbeff, hbseen, _⟩ := AppDROP.recordInput_spec hb
  have hcount := hear_completed (a := a) (by omega) (a.inputs.take m)
  rw [List.length_take, hseen] at hcount
  have hne : b.verdict ≠ .wait := by
    apply verdict_ne_wait
    rw [hbseen, hbeff, heff, hm, hcount]
    omega
  have hall := h _ _ _ _ (by rw [hkeys]; exact hd.sublist (List.take_sublist _ _))
    (by rw [hkeys]; exact fun u hu => List.mem_of_mem_take hu) (by rw [hdone]) hne
  rw [hkeys] at hall
  have hlen := (List.subperm_of_subset hd hall).length_le
  rw [List.length_take] at hlen
  omega

/-- A barrier with the given inputs waits for all of them exactly when what it carries as the number
of effective inputs, if anything, is -1 or at least their number. -/
theorem waitsForAll_iff [DecidableEq U] (h : Barrier.construct py k = .ok a)
    (hd : inputs.Nodup) : WaitsForAll { a with inputs := inputs } ↔
      ∀ v i, Carries k v → toInt py v = .ok i → i = -1 ∨ (inputs.length : Int) ≤ i := by
  obtain ⟨⟨v, hv, hi⟩, hpos, hseen⟩ := constructed h
  have hseen' : ({ a with inputs := inputs } : AppDROP U).inputsSeen = 0 := hseen
  have heff : ({ a with inputs := inputs } : AppDROP U).effectiveInputs =
      if a.nEffectiveInputs = -1 then (inputs.length : Int) else a.nEffectiveInputs := rfl
  have hwaits : WaitsForAll { a with inputs := inputs } ↔
      a.nEffectiveInputs = -1 ∨ (inputs.length : Int) ≤ a.nEffectiveInputs := by
    constructor
    · intro hw
      by_contra hc
      push Not at hc
      rw [if_neg hc.1] at heff
      refine not_waitsForAll hseen' hd ?_ ?_ hw
      · rw [heff]
        exact hpos.resolve_left hc.1
      · rw [heff]
        exact hc.2
    · intro hc
      apply WaitsForAll.of_effective hseen'
      rw [heff]
      split
      · exact le_refl _
      · exact hc.resolve_left (by assumption)
  rw [hwaits]
  rcases extracted_cases hv hi with ⟨hcar, hint⟩ | ⟨hnone, he⟩
  · constructor
    · intro hc w j hw hj
      obtain rfl := carries_unique hw hcar
      rw [hint] at hj
      cases hj
      exact hc
    · exact fun hc => hc v _ hcar hint
  · rw [he]
    simp [hnone]

/-- Texts of ASCII characters, and no floats. -/
def ascii : Ints Empty where
  alphabet := .ascii
  trunc := nofun

/-- Two effective inputs given as a text, for a barrier with two inputs. -/
theorem waitsForAll_twoOfTwo :
    Barrier.construct ascii { args := [("n_effective_inputs", .text ['2'])] } =
      .ok ({ nEffectiveInputs := 2 } : AppDROP (Fin 2)) ∧
    (WaitsForAll ({ nEffectiveInputs := 2, inputs := [0, 1] } : AppDROP (Fin 2)) ↔
      ∀ v i, Carries (F := Empty) { args := [("n_effective_inputs", .text ['2'])] } v →
        toInt ascii v = .ok i → i = -1 ∨ (([0, 1] : List (Fin 2)).length : Int) ≤ i) := by
  have h : Barrier.construct ascii { args := [("n_effective_inputs", .text ['2'])] } =
      .ok ({ nEffectiveInputs := 2 } : AppDROP (Fin 2)) := by decide
  exact ⟨h, waitsForAll_iff h (by decide)⟩

/-- With one effective input a barrier with two of them triggers on the first. -/
theorem barrier_triggers_early :
    ¬ ∀ (k : Kwargs Empty) (a : AppDROP (Fin 2)) (inputs : List (Fin 2)),
      Barrier.construct ascii k = .ok a → inputs ≠ [] → inputs.Nodup →
        WaitsForAll { a with inputs := inputs } := by
  intro h
  have hw := h { args := [("n_effective_inputs", .int 1)] } { nEffectiveInputs := 1 } [0, 1]
    (by decide) (by decide) (by decide)
  have hall := hw [] 0 .completed .execute (by decide) (by decide) (by decide) (by decide)
  exact absurd (hall 1 (by decide)) (by decide)

end Daliuge.Engine
