import Daliuge.Lib.Association
import Daliuge.Lib.Stepwise
import Daliuge.Prepare.Requested

/-!
# The active configuration

`apply_active_configuration` on the dictionaries as they are read, where any key may be missing.
What was written before a key is found to be missing stays.
-/
namespace Daliuge.Prepare.Active

open Unroll (NodeId)
open Stepwise

inductive Raised
  | keyError
  | typeError
  deriving DecidableEq, Repr

structure Field (F : Type) where
  id : Option NodeId
  name : Option String
  value : Option (Value F)
  deriving DecidableEq, Repr

structure Node (F : Type) where
  id : Option NodeId
  name : Option String
  fields : Option (List (Field F))
  deriving DecidableEq, Repr

/-- The fields a configuration names under a node, each with its value. -/
abbrev Entries (F : Type) := List (NodeId × Option (Value F))

/-- A graph configuration. Both levels are dictionaries. -/
structure GraphConfig (F : Type) where
  nodes : Option (List (NodeId × Option (Entries F)))
  nodes_nodup : ∀ cs ∈ nodes, (cs.map Prod.fst).Nodup
  fields_nodup : ∀ cs ∈ nodes, ∀ c ∈ cs, ∀ fs ∈ c.2, (fs.map Prod.fst).Nodup

/-- What the active configuration has to do with in a logical graph. -/
structure LogicalGraph (F : Type) where
  nodeDataArray : Option (List (Node F))
  activeGraphConfigId : Option String
  graphConfigurations : Option (List (String × GraphConfig F))

section Definitions

variable {F : Type}

/-- `get_key_idx_from_list`, which reads only the ids of the entries. -/
def getKeyIdx (key : NodeId) : List (Option NodeId) → Except Raised (Option Nat)
  | [] => .ok none
  | none :: _ => .error .keyError
  | some id :: ids =>
    if id = key then .ok (some 0) else (getKeyIdx key ids).map fun i => i.map (· + 1)

/-- Change the entry that is found by its id, as far as this goes; `absent` follows from `None`. -/
def changeFound {α : Type} (id : α → Option NodeId) (key : NodeId) (absent : Option Raised)
    (change : α → α × Option Raised) (l : List α) : List α × Option Raised :=
  match getKeyIdx key (l.map id) with
  | .error e => (l, some e)
  | .ok none => (l, absent)
  | .ok (some i) =>
    match l[i]? with
    | none => (l, absent)
    | some a => (l.set i (change a).1, (change a).2)

/-- The old value is read before the new one is written, and the name of the field after it. -/
def writeValue (value : Option (Value F)) (f : Field F) : Field F × Option Raised :=
  match f.value, value with
  | some _, some v =>
    ({ f with value := some v }, if f.name.isSome then none else some .keyError)
  | _, _ => (f, some .keyError)

/-- One turn of the inner loop of `apply_configuration`; `None` cannot be an index. -/
def applyField (fields : List (Field F)) (entry : NodeId × Option (Value F)) :
    List (Field F) × Option Raised :=
  changeFound Field.id entry.1 (some .typeError) (writeValue entry.2) fields

/-- The inner loop. The fields of the node are not looked at before the first turn. -/
def applyFields (entries : Option (Entries F)) (n : Node F) : Node F × Option Raised :=
  if n.name.isNone then (n, some .keyError)
  else
    match entries, n.fields with
    | none, _ => (n, some .keyError)
    | some fs, none => (n, if fs.isEmpty then none else some .keyError)
    | some fs, some fields =>
      let r := run applyField fields fs
      ({ n with fields := some r.1 }, r.2)

/-- One turn of the outer loop; a node that is not there is logged and passed over. -/
def applyNode (nodes : List (Node F)) (c : NodeId × Option (Entries F)) :
    List (Node F) × Option Raised :=
  changeFound Node.id c.1 none (applyFields c.2) nodes

/-- `apply_configuration`. -/
def applyConfiguration (lg : LogicalGraph F) (cfg : GraphConfig F) :
    LogicalGraph F × Option Raised :=
  match lg.nodeDataArray, cfg.nodes with
  | some nodes, some cs =>
    let r := run applyNode nodes cs
    ({ lg with nodeDataArray := some r.1 }, r.2)
  | _, _ => (lg, some .keyError)

/-- `is_config_stored_in_graph`. -/
def isConfigStoredInGraph (lg : LogicalGraph F) : Bool :=
  lg.activeGraphConfigId.any (· != "") && lg.graphConfigurations.any (!·.isEmpty)

/-- The active configuration, if it is stored. -/
def LogicalGraph.active? (lg : LogicalGraph F) : Option (GraphConfig F) :=
  if isConfigStoredInGraph lg then
    lg.activeGraphConfigId.bind fun id => (lg.graphConfigurations.getD []).lookup id
  else none

/-- `apply_active_configuration`: a `KeyError` is logged, and the graph returned as it is by
then. -/
def applyActiveConfiguration (lg : LogicalGraph F) : LogicalGraph F × Option Raised :=
  match lg.active? with
  | none => (lg, none)
  | some cfg =>
    match applyConfiguration lg cfg with
    | (lg, some .keyError) => (lg, none)
    | r => r

/-! What a configuration needs. -/

/-- The entry with an id, if no entry before it lacks one. -/
def Finds {α : Type} (id : α → Option NodeId) (key : NodeId) (l : List α) (a : α) : Prop :=
  ∃ i, getKeyIdx key (l.map id) = .ok (some i) ∧ l[i]? = some a

/-- The field is there, and the keys that are read. -/
def FieldReady (fields : List (Field F)) (entry : NodeId × Option (Value F)) : Prop :=
  ∃ f, Finds Field.id entry.1 fields f ∧ f.value.isSome = true ∧ f.name.isSome = true ∧
    entry.2.isSome = true

/-- The node is there with all that is read of it. -/
def NodeReady (nodes : List (Node F)) (c : NodeId × Option (Entries F)) : Prop :=
  ∃ n fs, Finds Node.id c.1 nodes n ∧ n.name.isSome = true ∧ c.2 = some fs ∧
    ∀ entry ∈ fs, ∃ fields, n.fields = some fields ∧ FieldReady fields entry

/-- Every key, node and field the configuration needs is there. -/
def Complete (lg : LogicalGraph F) (cfg : GraphConfig F) : Prop :=
  ∃ nodes cs, lg.nodeDataArray = some nodes ∧ cfg.nodes = some cs ∧ ∀ c ∈ cs, NodeReady nodes c

/-- No exception gets out, and a configuration that is not complete changes nothing. -/
def AsDocumented (lg : LogicalGraph F) : Prop :=
  (applyActiveConfiguration lg).2 = none ∧
    ∀ cfg, lg.active? = some cfg → ¬ Complete lg cfg → (applyActiveConfiguration lg).1 = lg

/-- Up to the first entry that lacks something, every field is there by its id, and has the value
already that would be written. -/
def FieldsHarmless (fields : List (Field F)) (fs : Entries F) : Prop :=
  ∀ pre entry post, fs = pre ++ entry :: post → (∀ e ∈ pre, FieldReady fields e) →
    getKeyIdx entry.1 (fields.map Field.id) ≠ .ok none ∧
      ∀ f u v, Finds Field.id entry.1 fields f → f.value = some u → entry.2 = some v → u = v

/-- The same for the nodes; those that are not there do not count. -/
def Harmless (lg : LogicalGraph F) (cfg : GraphConfig F) : Prop :=
  ∀ nodes cs, lg.nodeDataArray = some nodes → cfg.nodes = some cs →
    ∀ pre c post, cs = pre ++ c :: post →
      (∀ d ∈ pre, getKeyIdx d.1 (nodes.map Node.id) = .ok none ∨ NodeReady nodes d) →
      ∀ n fs fields, Finds Node.id c.1 nodes n → n.name.isSome = true → c.2 = some fs →
        n.fields = some fields → FieldsHarmless fields fs

end Definitions

/-! The entry that is found. -/

section Found

variable {α : Type} {id : α → Option NodeId} {key k : NodeId} {absent : Option Raised}
  {change : α → α × Option Raised} {l : List α} {ids : List (Option NodeId)} {a a' : α} {i : Nat}
  {e : Raised}

theorem id_of_getKeyIdx (h : getKeyIdx key ids = .ok (some i)) : ids[i]? = some (some key) := by
  induction ids generalizing i with
  | nil => cases h
  | cons x ids ih =>
    cases x with
    | none => cases h
    | some x =>
      rw [getKeyIdx] at h
      split at h
      · rename_i hx
        cases h
        rw [hx]
        rfl
      · cases hr : getKeyIdx key ids with
        | error e =>
          rw [hr] at h
          cases h
        | ok o =>
          rw [hr] at h
          cases o with
          | none => cases h
          | some j =>
            cases h
            exact ih hr

/-- The lookup raises nothing but a `KeyError`. -/
theorem getKeyIdx_error (h : getKeyIdx key ids = .error e) : e = .keyError := by
  induction ids with
  | nil => cases h
  | cons x ids ih =>
    cases x with
    | none =>
      cases h
      rfl
    | some x =>
      rw [getKeyIdx] at h
      split at h
      · cases h
      · cases hr : getKeyIdx key ids with
        | error e' =>
          rw [hr] at h
          cases h
          exact ih hr
        | ok o =>
          rw [hr] at h
          cases h

theorem exists_finds (h : getKeyIdx key (l.map id) = .ok (some i)) :
    ∃ a, l[i]? = some a ∧ id a = some key := by
  have hi := id_of_getKeyIdx h
  rw [List.getElem?_map] at hi
  exact Option.map_eq_some_iff.mp hi

theorem Finds.unique (h : Finds id key l a) (h' : Finds id key l a') : a = a' := by
  obtain ⟨i, hi, ha⟩ := h
  obtain ⟨j, hj, ha'⟩ := h'
  obtain rfl : i = j := Option.some.inj (Except.ok.inj (hi.symm.trans hj))
  exact Option.some.inj (ha.symm.trans ha')

/-- What a lookup comes to. -/
theorem finds_cases (id : α → Option NodeId) (key : NodeId) (l : List α) :
    getKeyIdx key (l.map id) = .error .keyError ∨ getKeyIdx key (l.map id) = .ok none ∨
      ∃ i a, getKeyIdx key (l.map id) = .ok (some i) ∧ l[i]? = some a ∧ id a = some key := by
  cases h : getKeyIdx key (l.map id) with
  | error e =>
    obtain rfl := getKeyIdx_error h
    exact Or.inl rfl
  | ok o =>
    cases o with
    | none => exact Or.inr (Or.inl rfl)
    | some i =>
      obtain ⟨a, ha, hid⟩ := exists_finds h
      exact Or.inr (Or.inr ⟨i, a, rfl, ha, hid⟩)

theorem changeFound_found (h : getKeyIdx key (l.map id) = .ok (some i)) (ha : l[i]? = some a) :
    changeFound id key absent change l = (l.set i (change a).1, (change a).2) := by
  simp only [changeFound, h, ha]

theorem set_eq_self_iff (ha : l[i]? = some a) : l.set i a' = l ↔ a' = a := by
  obtain ⟨hi, rfl⟩ := List.getElem?_eq_some_iff.mp ha
  constructor
  · intro h
    have := congrArg (·[i]?) h
    simpa [List.getElem?_set_self hi, hi] using this
  · rintro rfl
    exact List.set_getElem_self hi

/-- The list stays as it is, and no `TypeError` is raised. -/
theorem changeFound_calm_iff :
    (changeFound id key absent change l).1 = l ∧
      (changeFound id key absent change l).2 ≠ some .typeError ↔
    (getKeyIdx key (l.map id) = .ok none → absent ≠ some .typeError) ∧
      ∀ a, Finds id key l a → (change a).1 = a ∧ (change a).2 ≠ some .typeError := by
  rcases finds_cases id key l with h | h | ⟨i, a, h, ha, -⟩
  · have hno : ∀ a, ¬ Finds id key l a := by
      rintro a ⟨i, hi, -⟩
      rw [h] at hi
      cases hi
    simp [changeFound, h, hno]
  · have hno : ∀ a, ¬ Finds id key l a := by
      rintro a ⟨i, hi, -⟩
      rw [h] at hi
      cases hi
    simp [changeFound, h, hno]
  · have hall : ∀ P : α → Prop, (∀ a, Finds id key l a → P a) ↔ P a := by
      intro P
      refine ⟨fun hp => hp a ⟨i, h, ha⟩, fun hp a' ha' => ?_⟩
      rwa [ha'.unique ⟨i, h, ha⟩]
    rw [changeFound_found h ha, hall, set_eq_self_iff ha]
    simp [h]

theorem changeFound_succeeds_iff : (changeFound id key absent change l).2 = none ↔
    getKeyIdx key (l.map id) = .ok none ∧ absent = none ∨
      ∃ a, Finds id key l a ∧ (change a).2 = none := by
  rcases finds_cases id key l with h | h | ⟨i, a, h, ha, -⟩
  · simp [changeFound, Finds, h]
  · simp [changeFound, Finds, h]
  · rw [changeFound_found h ha]
    simp only [h, Except.ok.injEq, reduceCtorEq, false_and, false_or]
    constructor
    · exact fun hc => ⟨a, ⟨i, h, ha⟩, hc⟩
    · rintro ⟨a', ha', hc⟩
      rwa [ha'.unique ⟨i, h, ha⟩] at hc

/-- Anything that the changed entries keep, of all entries. -/
theorem map_changeFound {β : Type} {p : α → β} (hp : ∀ a, p (change a).1 = p a) :
    (changeFound id key absent change l).1.map p = l.map p := by
  rcases finds_cases id key l with h | h | ⟨i, a, h, ha, -⟩
  · simp [changeFound, h]
  · simp [changeFound, h]
  · obtain ⟨hi, rfl⟩ := List.getElem?_eq_some_iff.mp ha
    rw [changeFound_found h ha, List.map_set, hp, ← List.map_set, List.set_getElem_self]

/-- The entry that is found, or none. -/
def foundEntry (id : α → Option NodeId) (key : NodeId) (l : List α) : Option α :=
  match getKeyIdx key (l.map id) with
  | .ok (some i) => l[i]?
  | _ => none

theorem changeFound_self (hid : ∀ a, id (change a).1 = id a)
    (h : foundEntry id key (changeFound id key absent change l).1 = foundEntry id key l) :
    (changeFound id key absent change l).1 = l := by
  rcases finds_cases id key l with hk | hk | ⟨i, a, hk, ha, -⟩
  · simp [changeFound, hk]
  · simp [changeFound, hk]
  · obtain ⟨hi, -⟩ := List.getElem?_eq_some_iff.mp ha
    simp only [foundEntry, map_changeFound hid, hk] at h
    rw [changeFound_found hk ha] at h ⊢
    rw [List.getElem?_set_self hi, ha] at h
    exact (set_eq_self_iff ha).mpr (Option.some.inj h)

theorem changeFound_other (hid : ∀ a, id (change a).1 = id a) (hne : k ≠ key) :
    foundEntry id k (changeFound id key absent change l).1 = foundEntry id k l := by
  rcases finds_cases id key l with hk | hk | ⟨i, a, hk, ha, hida⟩
  · simp [changeFound, hk]
  · simp [changeFound, hk]
  · simp only [foundEntry, map_changeFound hid]
    rcases finds_cases id k l with h | h | ⟨j, b, h, hb, hidb⟩
    · simp only [h]
    · simp only [h]
    · have hij : i ≠ j := by
        rintro rfl
        obtain rfl := Option.some.inj (ha.symm.trans hb)
        exact hne (Option.some.inj (hidb.symm.trans hida))
      simp only [h, changeFound_found hk ha, List.getElem?_set_ne hij]

end Found

variable {F : Type} {lg : LogicalGraph F} {cfg : GraphConfig F} {fields fields' : List (Field F)}
  {fs : Entries F} {nodes nodes' : List (Node F)} {n : Node F} {c : NodeId × Option (Entries F)}
  {cs : List (NodeId × Option (Entries F))} {entry : NodeId × Option (Value F)}

/-! One field. -/

@[simp] theorem writeValue_id (v : Option (Value F)) (f : Field F) :
    (writeValue v f).1.id = f.id := by
  unfold writeValue
  split <;> rfl

/-- Writing a value neither adds keys nor takes them away. -/
theorem writeValue_keys (v : Option (Value F)) (f : Field F) :
    ((writeValue v f).1.id, (writeValue v f).1.name.isSome, (writeValue v f).1.value.isSome) =
      (f.id, f.name.isSome, f.value.isSome) := by
  unfold writeValue
  split
  · rename_i h
    simp [h]
  · rfl

theorem writeValue_calm_iff (v : Option (Value F)) (f : Field F) :
    (writeValue v f).1 = f ∧ (writeValue v f).2 ≠ some .typeError ↔
      ∀ u w, f.value = some u → v = some w → u = w := by
  obtain ⟨id, name, value⟩ := f
  cases value with
  | none => simp [writeValue]
  | some u =>
    cases v with
    | none => simp [writeValue]
    | some w => cases name <;> simp [writeValue, eq_comm]

theorem writeValue_succeeds_iff (v : Option (Value F)) (f : Field F) :
    (writeValue v f).2 = none ↔ f.value.isSome = true ∧ f.name.isSome = true ∧ v.isSome = true := by
  obtain ⟨id, name, value⟩ := f
  cases value <;> cases name <;> cases v <;> simp [writeValue]

/-- The keys of the fields, which are never changed. -/
def fieldKeys (fields : List (Field F)) : List (Option NodeId × Bool × Bool) :=
  fields.map fun f => (f.id, f.name.isSome, f.value.isSome)

theorem fieldKeys_applyField : fieldKeys (applyField fields entry).1 = fieldKeys fields :=
  map_changeFound (writeValue_keys entry.2)

theorem applyField_succeeds_iff : (applyField fields entry).2 = none ↔ FieldReady fields entry := by
  rw [applyField, changeFound_succeeds_iff]
  simp [writeValue_succeeds_iff, FieldReady]

/-- What is needed of the fields are their keys. -/
theorem fieldReady_of_keys (h : fieldKeys fields' = fieldKeys fields)
    (hr : FieldReady fields entry) : FieldReady fields' entry := by
  obtain ⟨f, ⟨i, hi, hf⟩, hv, hn, he⟩ := hr
  have hids : fields'.map Field.id = fields.map Field.id := by
    have := congrArg (List.map Prod.fst) h
    simpa [fieldKeys, Function.comp_def] using this
  have hat : fields'[i]?.map (fun f => (f.id, f.name.isSome, f.value.isSome)) =
      some (f.id, f.name.isSome, f.value.isSome) := by
    have := congrArg (·[i]?) h
    simpa [fieldKeys, hf] using this
  obtain ⟨f', hf', hkeys⟩ := Option.map_eq_some_iff.mp hat
  simp only [Prod.mk.injEq] at hkeys
  exact ⟨f', ⟨i, by rwa [hids], hf'⟩, by rw [hkeys.2.2, hv], by rw [hkeys.2.1, hn], he⟩

theorem fieldReady_iff_of_keys (h : fieldKeys fields' = fieldKeys fields) :
    FieldReady fields' entry ↔ FieldReady fields entry :=
  ⟨fieldReady_of_keys h.symm, fieldReady_of_keys h⟩

/-! The fields of one node. -/

theorem fieldKeys_run : fieldKeys (run applyField fields fs).1 = fieldKeys fields :=
  run_kept (I := fun l => fieldKeys l = fieldKeys fields) rfl
    fun _ _ h => fieldKeys_applyField.trans h

theorem run_applyField_succeeds_iff :
    (run applyField fields fs).2 = none ↔ ∀ entry ∈ fs, FieldReady fields entry :=
  run_succeeds_iff (I := fun l => fieldKeys l = fieldKeys fields) rfl
    (fun _ _ h => fieldKeys_applyField.trans h)
    fun _ _ h => applyField_succeeds_iff.trans (fieldReady_iff_of_keys h)

theorem run_applyField_calm_iff (hn : (fs.map Prod.fst).Nodup) :
    (run applyField fields fs).1 = fields ∧ (run applyField fields fs).2 ≠ some .typeError ↔
      FieldsHarmless fields fs := by
  have hself : ∀ (l : List (Field F)) e, foundEntry Field.id e.1 (applyField l e).1 =
      foundEntry Field.id e.1 l → (applyField l e).1 = l :=
    fun _ e => changeFound_self (writeValue_id e.2)
  have hother : ∀ (l : List (Field F)) e k, k ≠ e.1 →
      foundEntry Field.id k (applyField l e).1 = foundEntry Field.id k l :=
    fun _ e _ => changeFound_other (writeValue_id e.2)
  rw [run_calm_iff Prod.fst (foundEntry Field.id) hself hother hn]
  simp only [FieldsHarmless, applyField_succeeds_iff]
  refine forall_congr' fun pre => forall_congr' fun entry => forall_congr' fun post =>
    forall₂_congr fun _ _ => ?_
  rw [applyField, changeFound_calm_iff]
  simp only [writeValue_calm_iff, not_true_eq_false, ne_eq, imp_false]
  refine and_congr_right fun _ => forall_congr' fun f => ?_
  constructor
  · exact fun h u v hf => h hf u v
  · exact fun h hf u v => h u v hf

/-! One node. -/

@[simp] theorem applyFields_id (fs : Option (Entries F)) (n : Node F) :
    (applyFields fs n).1.id = n.id := by
  unfold applyFields
  split
  · rfl
  · split <;> rfl

theorem applyFields_calm_iff (hn : ∀ fs ∈ c.2, (fs.map Prod.fst).Nodup) :
    (applyFields c.2 n).1 = n ∧ (applyFields c.2 n).2 ≠ some .typeError ↔
      (n.name.isSome = true → ∀ fs fields, c.2 = some fs → n.fields = some fields →
        FieldsHarmless fields fs) := by
  obtain ⟨id, name, nfields⟩ := n
  obtain ⟨nid, entries⟩ := c
  cases name with
  | none => simp [applyFields]
  | some name =>
    cases entries with
    | none => simp [applyFields]
    | some fs =>
      cases nfields with
      | none => cases fs <;> simp [applyFields]
      | some fields =>
        rw [show (∀ fs' fields', some fs = some fs' → some fields = some fields' →
          FieldsHarmless fields' fs') ↔ FieldsHarmless fields fs by simp]
        rw [← run_applyField_calm_iff (hn fs rfl)]
        simp [applyFields]

theorem applyFields_succeeds_iff : (applyFields c.2 n).2 = none ↔
    n.name.isSome = true ∧ ∃ fs, c.2 = some fs ∧
      ∀ entry ∈ fs, ∃ fields, n.fields = some fields ∧ FieldReady fields entry := by
  obtain ⟨id, name, nfields⟩ := n
  obtain ⟨nid, entries⟩ := c
  cases name with
  | none => simp [applyFields]
  | some name =>
    cases entries with
    | none => simp [applyFields]
    | some fs =>
      cases nfields with
      | none =>
        cases fs with
        | nil => simp [applyFields]
        | cons entry fs =>
          refine iff_of_false (by simp [applyFields]) ?_
          rintro ⟨-, _, hfs, hall⟩
          cases hfs
          obtain ⟨_, h, -⟩ := hall entry List.mem_cons_self
          cases h
      | some fields => simp [applyFields, run_applyField_succeeds_iff]

/-- The keys of the nodes and of their fields. -/
def nodeKeys (nodes : List (Node F)) :
    List (Option NodeId × Bool × Option (List (Option NodeId × Bool × Bool))) :=
  nodes.map fun n => (n.id, n.name.isSome, n.fields.map fieldKeys)

theorem nodeKeys_applyNode : nodeKeys (applyNode nodes c).1 = nodeKeys nodes := by
  refine map_changeFound fun n => ?_
  obtain ⟨id, name, nfields⟩ := n
  cases name with
  | none => rfl
  | some name =>
    cases c.2 with
    | none => rfl
    | some fs =>
      cases nfields with
      | none => rfl
      | some fields => simp [applyFields, fieldKeys_run]

theorem applyNode_succeeds_iff : (applyNode nodes c).2 = none ↔
    getKeyIdx c.1 (nodes.map Node.id) = .ok none ∨ NodeReady nodes c := by
  rw [applyNode, changeFound_succeeds_iff]
  simp only [and_true, applyFields_succeeds_iff, NodeReady]
  refine or_congr_right (exists_congr fun n => ?_)
  constructor
  · rintro ⟨hf, hname, fs, hfs, hall⟩
    exact ⟨fs, hf, hname, hfs, hall⟩
  · rintro ⟨fs, hf, hname, hfs, hall⟩
    exact ⟨hf, hname, fs, hfs, hall⟩

theorem ids_of_nodeKeys (h : nodeKeys nodes' = nodeKeys nodes) :
    nodes'.map Node.id = nodes.map Node.id := by
  have := congrArg (List.map Prod.fst) h
  simpa [nodeKeys, Function.comp_def] using this

theorem nodeReady_of_keys (h : nodeKeys nodes' = nodeKeys nodes) (hr : NodeReady nodes c) :
    NodeReady nodes' c := by
  obtain ⟨n, fs, ⟨i, hi, hn⟩, hname, hfs, hall⟩ := hr
  have hat : nodes'[i]?.map (fun n => (n.id, n.name.isSome, n.fields.map fieldKeys)) =
      some (n.id, n.name.isSome, n.fields.map fieldKeys) := by
    have := congrArg (·[i]?) h
    simpa [nodeKeys, hn] using this
  obtain ⟨n', hn', hkeys⟩ := Option.map_eq_some_iff.mp hat
  simp only [Prod.mk.injEq] at hkeys
  refine ⟨n', fs, ⟨i, by rwa [ids_of_nodeKeys h], hn'⟩, by rw [hkeys.2.1, hname], hfs,
    fun entry he => ?_⟩
  obtain ⟨fields, hf, hr⟩ := hall entry he
  have hf' := hkeys.2.2
  rw [hf, Option.map_some] at hf'
  obtain ⟨fields', hf', hk⟩ := Option.map_eq_some_iff.mp hf'
  exact ⟨fields', hf', fieldReady_of_keys hk hr⟩

/-! The whole configuration. -/

/-- A complete configuration is applied to its end. -/
theorem run_of_ready (h : ∀ c ∈ cs, NodeReady nodes c) : (run applyNode nodes cs).2 = none := by
  have hok : ∀ l c, nodeKeys l = nodeKeys nodes → ((applyNode l c).2 = none ↔
      getKeyIdx c.1 (nodes.map Node.id) = .ok none ∨ NodeReady nodes c) := by
    intro l c hl
    rw [applyNode_succeeds_iff, ids_of_nodeKeys hl]
    exact or_congr_right ⟨nodeReady_of_keys hl.symm, nodeReady_of_keys hl⟩
  exact (run_succeeds_iff (I := fun l => nodeKeys l = nodeKeys nodes) rfl
    (fun _ _ hl => nodeKeys_applyNode.trans hl) hok).mpr fun c hc => Or.inr (h c hc)

/-- When an incomplete one changes nothing. -/
theorem run_applyNode_calm_iff (nodes : List (Node F)) (hn : (cs.map Prod.fst).Nodup)
    (hf : ∀ c ∈ cs, ∀ fs ∈ c.2, (fs.map Prod.fst).Nodup) :
    (run applyNode nodes cs).1 = nodes ∧ (run applyNode nodes cs).2 ≠ some .typeError ↔
      ∀ pre c post, cs = pre ++ c :: post →
        (∀ d ∈ pre, getKeyIdx d.1 (nodes.map Node.id) = .ok none ∨ NodeReady nodes d) →
        ∀ n fs fields, Finds Node.id c.1 nodes n → n.name.isSome = true → c.2 = some fs →
          n.fields = some fields → FieldsHarmless fields fs := by
  have hself : ∀ (l : List (Node F)) d, foundEntry Node.id d.1 (applyNode l d).1 =
      foundEntry Node.id d.1 l → (applyNode l d).1 = l :=
    fun _ d => changeFound_self (applyFields_id d.2)
  have hother : ∀ (l : List (Node F)) d k, k ≠ d.1 →
      foundEntry Node.id k (applyNode l d).1 = foundEntry Node.id k l :=
    fun _ d _ => changeFound_other (applyFields_id d.2)
  rw [run_calm_iff Prod.fst (foundEntry Node.id) hself hother hn]
  simp only [applyNode_succeeds_iff]
  refine forall_congr' fun pre => forall_congr' fun c => forall_congr' fun post =>
    forall₂_congr fun he _ => ?_
  have hc : c ∈ cs := by
    rw [he]
    simp
  rw [applyNode, changeFound_calm_iff]
  simp only [applyFields_calm_iff (hf c hc), ne_eq, reduceCtorEq, not_false_eq_true, implies_true,
    true_and]
  constructor
  · exact fun h n fs fields hfind hname hfs hfields => h n hfind hname fs fields hfs hfields
  · exact fun h n hfind hname fs fields hfs hfields => h n fs fields hfind hname hfs hfields

theorem applyActiveConfiguration_active (h : lg.active? = some cfg) :
    (applyActiveConfiguration lg).1 = (applyConfiguration lg cfg).1 ∧
      ((applyActiveConfiguration lg).2 = none ↔
        (applyConfiguration lg cfg).2 ≠ some .typeError) := by
  simp only [applyActiveConfiguration, h]
  rcases applyConfiguration lg cfg with ⟨lg', _ | _ | _⟩ <;> simp

/-- Applying the active configuration is as documented exactly where it is complete, or does no
harm up to where it breaks off. -/
theorem asDocumented_iff (lg : LogicalGraph F) : AsDocumented lg ↔
    ∀ cfg, lg.active? = some cfg → Complete lg cfg ∨ Harmless lg cfg := by
  cases hact : lg.active? with
  | none => simp [AsDocumented, applyActiveConfiguration, hact]
  | some cfg =>
    obtain ⟨hgraph, hraised⟩ := applyActiveConfiguration_active hact
    simp only [AsDocumented, hact, hgraph, hraised, Option.some.injEq, forall_eq']
    cases hnodes : lg.nodeDataArray with
    | none => simp [applyConfiguration, hnodes, Harmless]
    | some nodes =>
      cases hcs : cfg.nodes with
      | none => simp [applyConfiguration, hnodes, hcs, Harmless]
      | some cs =>
        have hcalm := run_applyNode_calm_iff nodes (cfg.nodes_nodup cs hcs)
          (cfg.fields_nodup cs hcs)
        have hharm : Harmless lg cfg ↔ (run applyNode nodes cs).1 = nodes ∧
            (run applyNode nodes cs).2 ≠ some .typeError := by
          rw [hcalm]
          simp [Harmless, hnodes, hcs]
        have hcomplete : Complete lg cfg ↔ ∀ c ∈ cs, NodeReady nodes c := by
          simp [Complete, hnodes, hcs]
        have hsame : (applyConfiguration lg cfg).1 = lg ↔ (run applyNode nodes cs).1 = nodes := by
          simp only [applyConfiguration, hnodes, hcs]
          constructor
          · intro h
            have := congrArg LogicalGraph.nodeDataArray h
            rw [hnodes] at this
            exact Option.some.inj this
          · intro h
            rw [h, ← hnodes]
        have hexc : (applyConfiguration lg cfg).2 = (run applyNode nodes cs).2 := by
          simp only [applyConfiguration, hnodes, hcs]
        rw [hsame, hexc, hharm]
        by_cases hc : Complete lg cfg
        · simp [hc, run_of_ready (hcomplete.mp hc)]
        · simp [hc, and_comm]

/-! Graphs that lack no key. -/

def ofField (f : Prepare.Field F) : Field F := ⟨f.id, f.name, f.value⟩

def ofNode (n : Config.Node F) : Node F := ⟨n.id, n.name, some (n.fields.map ofField)⟩

def ofEntries (c : NodeId × List (NodeId × Value F)) : NodeId × Option (Entries F) :=
  (c.1, some (c.2.map fun e => (e.1, some e.2)))

def ofConfig (cfg : Config.GraphConfig F) : GraphConfig F where
  nodes := some (cfg.nodes.map ofEntries)
  nodes_nodup := by
    have h := cfg.nodes_nodup
    simpa [ofEntries, Function.comp_def] using h
  fields_nodup := by
    have h := cfg.fields_nodup
    simpa [ofEntries, Function.comp_def] using h

def ofGraph (lg : Config.LogicalGraph F) : LogicalGraph F where
  nodeDataArray := some (lg.nodeDataArray.map ofNode)
  activeGraphConfigId := lg.activeGraphConfigId
  graphConfigurations := some (lg.graphConfigurations.map fun c => (c.1, ofConfig c.2))

theorem getKeyIdx_map_some {key : NodeId} {ids : List NodeId} :
    getKeyIdx key (ids.map some) = .ok (ids.findIdx? (· == key)) := by
  induction ids with
  | nil => rfl
  | cons id ids ih =>
    rw [List.map_cons, getKeyIdx, ih, List.findIdx?_cons]
    by_cases h : id = key
    · simp [h]
    · simp [h, Except.map]

theorem getKeyIdx_of {α β : Type} (id : α → Option NodeId) (id' : β → NodeId) (f : β → α)
    (h : ∀ b, id (f b) = some (id' b)) (key : NodeId) (l : List β) :
    getKeyIdx key ((l.map f).map id) = .ok (Config.getKeyIdx id' key l) := by
  have hids : (l.map f).map id = (l.map id').map some := by
    simp [List.map_map, Function.comp_def, h]
  rw [hids, getKeyIdx_map_some, Config.getKeyIdx, List.findIdx?_map]
  rfl

/-- One field. -/
theorem applyField_ofField (l : List (Prepare.Field F)) (e : NodeId × Value F) :
    (∀ r, Config.setField l e.1 e.2 = .ok r →
      applyField (l.map ofField) (e.1, some e.2) = (r.map ofField, none)) ∧
    ∀ d, Config.setField l e.1 e.2 = .error d →
      (applyField (l.map ofField) (e.1, some e.2)).2 = some .typeError := by
  have hkey := getKeyIdx_of Field.id Prepare.Field.id (ofField (F := F)) (fun _ => rfl) e.1 l
  unfold Config.setField
  cases hk : Config.getKeyIdx Prepare.Field.id e.1 l with
  | none =>
    rw [hk] at hkey
    refine ⟨fun r h => (nomatch h), fun _ _ => ?_⟩
    simp only [applyField, changeFound, hkey]
  | some i =>
    rw [hk] at hkey
    obtain ⟨hi, -⟩ := List.findIdx?_eq_some_iff_getElem.mp hk
    have hat : (l.map ofField)[i]? = some (ofField l[i]) := by simp [hi]
    refine ⟨fun r h => ?_, fun d h => nomatch h⟩
    cases h
    rw [applyField, changeFound_found hkey hat, List.modify_eq_set_getElem?,
      List.getElem?_eq_getElem hi]
    simp [writeValue, ofField, List.map_set]

/-- One node. -/
theorem applyNode_ofNode (l : List (Config.Node F)) (c : NodeId × List (NodeId × Value F)) :
    (∀ r, Config.applyNode l c = .ok r →
      applyNode (l.map ofNode) (ofEntries c) = (r.map ofNode, none)) ∧
    ∀ d, Config.applyNode l c = .error d →
      (applyNode (l.map ofNode) (ofEntries c)).2 = some .typeError := by
  have hkey : getKeyIdx (ofEntries c).1 ((l.map ofNode).map Node.id) = _ :=
    getKeyIdx_of Node.id Config.Node.id (ofNode (F := F)) (fun _ => rfl) c.1 l
  unfold Config.applyNode
  cases hk : Config.getKeyIdx Config.Node.id c.1 l with
  | none =>
    rw [hk] at hkey
    refine ⟨fun r h => ?_, fun d h => nomatch h⟩
    cases h
    simp only [applyNode, changeFound, hkey]
  | some i =>
    rw [hk] at hkey
    obtain ⟨hi, -⟩ := List.findIdx?_eq_some_iff_getElem.mp hk
    have hat : (l.map ofNode)[i]? = some (ofNode l[i]) := by simp [hi]
    obtain ⟨hok, herr⟩ := run_of_foldlM applyField (fun t => t.map ofField)
      (fun e : NodeId × Value F => (e.1, some e.2)) .typeError
      (fun t e t' h => (applyField_ofField t e).1 t' h)
      (fun t e d h => (applyField_ofField t e).2 d h) l[i].fields c.2
    simp only [List.getElem?_eq_getElem hi]
    rw [applyNode, changeFound_found hkey hat]
    simp only [applyFields, ofNode, ofEntries, Option.isNone_some, Bool.false_eq_true, if_false]
    cases hf : c.2.foldlM (fun fields f => Config.setField fields f.1 f.2) l[i].fields with
    | error d =>
      refine ⟨fun r h => ?_, fun _ _ => herr d hf⟩
      cases h
    | ok fields =>
      refine ⟨fun r h => ?_, fun d h => nomatch h⟩
      cases h
      rw [hok fields hf, List.map_set]
      rfl

/-- A whole configuration. -/
theorem applyConfiguration_ofGraph (lg : Config.LogicalGraph F) (cfg : Config.GraphConfig F) :
    (∀ r, Config.applyConfiguration lg cfg = .ok r →
      applyConfiguration (ofGraph lg) (ofConfig cfg) = (ofGraph r, none)) ∧
    ∀ d, Config.applyConfiguration lg cfg = .error d →
      (applyConfiguration (ofGraph lg) (ofConfig cfg)).2 = some .typeError := by
  obtain ⟨hok, herr⟩ := run_of_foldlM applyNode (fun t => t.map ofNode) ofEntries
    .typeError (fun t c t' h => (applyNode_ofNode t c).1 t' h)
    (fun t c d h => (applyNode_ofNode t c).2 d h) lg.nodeDataArray cfg.nodes
  unfold Config.applyConfiguration applyConfiguration
  cases hf : cfg.nodes.foldlM Config.applyNode lg.nodeDataArray with
  | error d =>
    refine ⟨fun r h => ?_, fun _ _ => herr d hf⟩
    cases h
  | ok nodes =>
    refine ⟨fun r h => ?_, fun d h => nomatch h⟩
    cases h
    simp only [ofGraph, ofConfig, hok nodes hf]

theorem lookup_map_snd {β γ : Type} (f : β → γ) (l : List (String × β)) (k : String) :
    (l.map fun c => (c.1, f c.2)).lookup k = (l.lookup k).map f := by
  induction l with
  | nil => rfl
  | cons c l ih =>
    rw [List.map_cons, List.lookup_cons, List.lookup_cons, ih]
    cases k == c.1 <;> rfl

theorem active?_ofGraph (lg : Config.LogicalGraph F) :
    (ofGraph lg).active? = lg.active?.map ofConfig := by
  have hstored : isConfigStoredInGraph (ofGraph lg) = Config.isConfigStoredInGraph lg := by
    simp [isConfigStoredInGraph, Config.isConfigStoredInGraph, ofGraph]
  unfold LogicalGraph.active? Config.LogicalGraph.active?
  rw [hstored]
  split
  · cases hid : lg.activeGraphConfigId with
    | none => simp [ofGraph, hid]
    | some id =>
      simp only [ofGraph, hid, Option.bind_some, Option.getD_some]
      exact lookup_map_snd ofConfig lg.graphConfigurations id
  · rfl

/-- On graphs that lack no key, this is the function that reads filled graphs; where that fails, a
`TypeError` gets out. -/
theorem applyActiveConfiguration_ofGraph (lg : Config.LogicalGraph F) :
    (∀ r, Config.applyActiveConfiguration lg = .ok r →
      applyActiveConfiguration (ofGraph lg) = (ofGraph r, none)) ∧
    ∀ d, Config.applyActiveConfiguration lg = .error d →
      (applyActiveConfiguration (ofGraph lg)).2 = some .typeError := by
  rw [Config.applyActiveConfiguration_eq, applyActiveConfiguration, active?_ofGraph]
  cases hact : lg.active? with
  | none =>
    refine ⟨fun r h => ?_, fun d h => nomatch h⟩
    cases h
    rfl
  | some cfg =>
    obtain ⟨hok, herr⟩ := applyConfiguration_ofGraph lg cfg
    simp only [Option.map_some]
    refine ⟨fun r h => by rw [hok r h], fun d h => ?_⟩
    have hraised := herr d h
    rcases hrun : applyConfiguration (ofGraph lg) (ofConfig cfg) with ⟨lg', _ | _ | _⟩
    · rw [hrun] at hraised
      cases hraised
    · rw [hrun] at hraised
      cases hraised
    · rfl

/-- A node with a field and one whose value is missing, and an active configuration that names the
field and another one. -/
def namesAlso (other : NodeId) : LogicalGraph Empty where
  nodeDataArray := some [
    { id := some (.str "a"), name := some "a"
      fields := some [{ id := some (.str "x"), name := some "x", value := some (.int 1) },
        { id := some (.str "z"), name := some "z", value := none }] }]
  activeGraphConfigId := some "first"
  graphConfigurations := some [("first",
    { nodes := some [(.str "a", some ((.str "x", some (.int 5)) ::
        if other = .str "x" then [] else [(other, some (.int 6))]))]
      nodes_nodup := by simp
      fields_nodup := by
        simp only [Option.mem_def, Option.some.injEq, forall_eq', List.mem_singleton, forall_eq]
        split
        · simp
        · rename_i h
          simpa [eq_comm] using h })]

/-- A field that is not there raises a `TypeError`, and one without a value leaves the graph half
changed. -/
theorem active_breaks_off : (applyActiveConfiguration (namesAlso (.str "y"))).2 = some .typeError ∧
    ¬ AsDocumented (namesAlso (.str "z")) := by
  refine ⟨by decide, ?_⟩
  rintro ⟨-, h⟩
  have hact : ∃ cfg, (namesAlso (.str "z")).active? = some cfg := ⟨_, rfl⟩
  obtain ⟨cfg, hcfg⟩ := hact
  have hincomplete : ¬ Complete (namesAlso (.str "z")) cfg := by
    rintro ⟨nodes, cs, hn, hc, hall⟩
    cases hcfg
    cases hn
    cases hc
    exact absurd (run_of_ready hall) (by decide)
  have hsame := congrArg LogicalGraph.nodeDataArray (h cfg hcfg hincomplete)
  exact absurd hsame (by decide)

end Daliuge.Prepare.Active
