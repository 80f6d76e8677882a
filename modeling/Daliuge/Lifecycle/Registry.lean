import Mathlib.Data.List.Induction
import Daliuge.Lib.Association
import Daliuge.Lib.Collect
import Daliuge.Lib.Run

/-!
# The in-memory registry

Which drops there are, under which uids each of them is kept and when it was read. The list of
access times is an attribute of the class of the records, so there is one for all of them.
-/
namespace Daliuge.Lifecycle

open Run Collect

/-- `DROPPhases`. -/
inductive DROPPhases
  | plasma | gas | solid | liquid | lost
  deriving DecidableEq, Repr

/-- What the registry reads of a drop. -/
structure Instance (O U : Type) where
  oid : O
  uid : U
  phase : DROPPhases := .gas
  deriving DecidableEq, Repr

/-- `DROP`, the record of an oid. Of `instances` only the keys are ever read. -/
structure DROP (O U : Type) where
  oid : O
  phase : DROPPhases
  instances : List U
  deriving DecidableEq, Repr

/-- What the registry raises. -/
inductive RegistryErr (O U : Type)
  | notPresent (oid : O)
  | alreadyPresent (oid : O) (uid : U)
  | noAttribute (name : String)
  deriving DecidableEq, Repr

/-- `InMemoryRegistry`, with `DROP.accessTimes` of the class. -/
structure InMemoryRegistry (O U T : Type) where
  drops : List (O × DROP O U) := []
  accessTimes : List T := []
  deriving DecidableEq, Repr

variable {O U T : Type} [DecidableEq O] [DecidableEq U]

namespace InMemoryRegistry

/-- `_drops[oid]`, after `_checkDropIsInRegistry`. -/
def row (r : InMemoryRegistry O U T) (oid : O) : Except (RegistryErr O U) (DROP O U) :=
  match r.drops.lookup oid with
  | some row => .ok row
  | none => .error (.notPresent oid)

/-- `_drops[oid]` becomes this row. -/
def put (r : InMemoryRegistry O U T) (oid : O) (row : DROP O U) : InMemoryRegistry O U T :=
  { r with drops := Association.set r.drops oid row }

def addDrop (r : InMemoryRegistry O U T) (drop : Instance O U) : InMemoryRegistry O U T :=
  r.put drop.oid { oid := drop.oid, phase := drop.phase, instances := [drop.uid] }

def addDropInstance (r : InMemoryRegistry O U T) (drop : Instance O U) :
    Except (RegistryErr O U) (InMemoryRegistry O U T) := do
  let row ← r.row drop.oid
  if drop.uid ∈ row.instances then .error (.alreadyPresent drop.oid drop.uid)
  else return r.put drop.oid { row with instances := row.instances ++ [drop.uid] }

/-- `getDropUids`, which reads the oid of its drop only, as does `setDropPhase`. -/
def getDropUids (r : InMemoryRegistry O U T) (oid : O) : Except (RegistryErr O U) (List U) := do
  let row ← r.row oid
  return row.instances

def setDropPhase (r : InMemoryRegistry O U T) (oid : O) (phase : DROPPhases) :
    Except (RegistryErr O U) (InMemoryRegistry O U T) := do
  let row ← r.row oid
  return r.put oid { row with phase := phase }

/-- `recordNewAccess`, at a time of the clock. -/
def recordNewAccess (r : InMemoryRegistry O U T) (oid : O) (now : T) :
    Except (RegistryErr O U) (InMemoryRegistry O U T) := do
  let _ ← r.row oid
  return { r with accessTimes := r.accessTimes ++ [now] }

/-- `getLastAccess`, with `none` for -1. It asks the record for `accesTimes`. -/
def getLastAccess (r : InMemoryRegistry O U T) (oid : O) :
    Except (RegistryErr O U) (Option T) :=
  if (r.drops.lookup oid).isSome ∧ r.accessTimes ≠ [] then .error (.noAttribute "accesTimes")
  else .ok none

end InMemoryRegistry

/-- The calls that write. -/
inductive Call (O U T : Type)
  | addDrop (drop : Instance O U)
  | addDropInstance (drop : Instance O U)
  | setDropPhase (oid : O) (phase : DROPPhases)
  | recordNewAccess (oid : O) (now : T)
  deriving DecidableEq, Repr

/-- The oid a call is for. -/
def Call.oid : Call O U T → O
  | addDrop drop => drop.oid
  | addDropInstance drop => drop.oid
  | setDropPhase oid _ => oid
  | recordNewAccess oid _ => oid

namespace InMemoryRegistry

def call (r : InMemoryRegistry O U T) :
    Call O U T → Except (RegistryErr O U) (InMemoryRegistry O U T)
  | .addDrop drop => .ok (r.addDrop drop)
  | .addDropInstance drop => r.addDropInstance drop
  | .setDropPhase oid phase => r.setDropPhase oid phase
  | .recordNewAccess oid now => r.recordNewAccess oid now

/-- The registry after a call, which may have raised. -/
def step (r : InMemoryRegistry O U T) (c : Call O U T) : InMemoryRegistry O U T :=
  match r.call c with
  | .ok r' => r'
  | .error _ => r

end InMemoryRegistry

/-! A map of independent records. -/

/-- What is known of one oid. -/
structure Record (U T : Type) where
  phase : DROPPhases
  instances : List U
  accesses : List T := []
  deriving DecidableEq, Repr

/-- What a call does to the record of one oid. -/
def Record.after (oid : O) (record : Option (Record U T)) (c : Call O U T) : Option (Record U T) :=
  if c.oid = oid then
    match c with
    | .addDrop drop => some { phase := drop.phase, instances := [drop.uid],
                              accesses := (record.map (·.accesses)).getD [] }
    | .addDropInstance drop => record.map fun rec =>
        if drop.uid ∈ rec.instances then rec
        else { rec with instances := rec.instances ++ [drop.uid] }
    | .setDropPhase _ phase => record.map fun rec => { rec with phase := phase }
    | .recordNewAccess _ now => record.map fun rec => { rec with accesses := rec.accesses ++ [now] }
  else record

/-- The record of an oid after some calls. -/
def record (calls : List (Call O U T)) (oid : O) : Option (Record U T) :=
  calls.foldl (Record.after oid) none

variable {calls : List (Call O U T)} {c : Call O U T} {r : InMemoryRegistry O U T} {oid : O}

theorem record_snoc : record (calls ++ [c]) oid = Record.after oid (record calls oid) c := by
  simp [record]

/-! The registry and the records. -/

/-- The oid has been added. -/
def Added (oid : O) (calls : List (Call O U T)) : Prop :=
  ∃ drop, .addDrop drop ∈ calls ∧ drop.oid = oid

/-- An access has been recorded, of a drop that had been added. -/
def Accessed (calls : List (Call O U T)) : Prop :=
  ∃ pre oid now post, calls = pre ++ .recordNewAccess oid now :: post ∧ Added oid pre

omit [DecidableEq O] [DecidableEq U] in
theorem added_snoc : Added oid (calls ++ [c]) ↔
    Added oid calls ∨ ∃ drop, c = .addDrop drop ∧ drop.oid = oid := by
  simp only [Added, List.mem_append, List.mem_singleton]
  constructor
  · rintro ⟨drop, h | rfl, ho⟩
    · exact Or.inl ⟨drop, h, ho⟩
    · exact Or.inr ⟨drop, rfl, ho⟩
  · rintro (⟨drop, h, ho⟩ | ⟨drop, rfl, ho⟩)
    · exact ⟨drop, Or.inl h, ho⟩
    · exact ⟨drop, Or.inr rfl, ho⟩

omit [DecidableEq O] [DecidableEq U] in
theorem accessed_snoc : Accessed (calls ++ [c]) ↔
    Accessed calls ∨ ∃ oid now, c = .recordNewAccess oid now ∧ Added oid calls := by
  constructor
  · rintro ⟨pre, oid, now, post, h, ha⟩
    cases post using List.reverseRecOn with
    | nil =>
      obtain ⟨rfl, hc⟩ := List.append_inj' h rfl
      exact Or.inr ⟨oid, now, (List.cons.inj hc).1, ha⟩
    | append_singleton post d =>
      rw [← List.cons_append, ← List.append_assoc] at h
      obtain ⟨rfl, -⟩ := List.append_inj' h rfl
      exact Or.inl ⟨pre, oid, now, post, rfl, ha⟩
  · rintro (⟨pre, oid, now, post, rfl, ha⟩ | ⟨oid, now, rfl, ha⟩)
    · exact ⟨pre, oid, now, post ++ [c], by simp, ha⟩
    · exact ⟨calls, oid, now, [], rfl, ha⟩

theorem after_eq_none : Record.after oid (record calls oid) c = none ↔
    record calls oid = none ∧ ∀ drop, c = .addDrop drop → drop.oid ≠ oid := by
  unfold Record.after
  cases c with
  | addDrop drop =>
    by_cases ho : drop.oid = oid
    · simp [Call.oid, ho]
    · simp [Call.oid, ho]
  | addDropInstance drop => by_cases ho : drop.oid = oid <;> simp [Call.oid, ho]
  | setDropPhase o phase => by_cases ho : o = oid <;> simp [Call.oid, ho]
  | recordNewAccess o now => by_cases ho : o = oid <;> simp [Call.oid, ho]

theorem record_eq_none : record calls oid = none ↔ ¬ Added oid calls := by
  induction calls using List.reverseRecOn with
  | nil => simp [record, Added]
  | append_singleton calls c ih =>
    rw [record_snoc, after_eq_none, ih, added_snoc, not_or]
    refine and_congr_right fun _ => ?_
    constructor
    · rintro h ⟨drop, hc, ho⟩
      exact h drop hc ho
    · exact fun h drop hc ho => h ⟨drop, hc, ho⟩

/-- Without an access no record has any. -/
theorem accesses_eq_nil {rec : Record U T} (h : ¬ Accessed calls)
    (hr : record calls oid = some rec) : rec.accesses = [] := by
  induction calls using List.reverseRecOn generalizing rec with
  | nil => cases hr
  | append_singleton calls c ih =>
    rw [accessed_snoc, not_or] at h
    have hold : ∀ old, record calls oid = some old → old.accesses = [] := fun old => ih h.1
    rw [record_snoc] at hr
    unfold Record.after at hr
    split at hr
    · rename_i ho
      cases c with
      | addDrop drop =>
        obtain rfl := Option.some.inj hr
        cases hrec : record calls oid with
        | none => rfl
        | some old => exact hold old hrec
      | addDropInstance drop =>
        obtain ⟨old, hrec, rfl⟩ := Option.map_eq_some_iff.mp hr
        split <;> exact hold old hrec
      | setDropPhase o phase =>
        obtain ⟨old, hrec, rfl⟩ := Option.map_eq_some_iff.mp hr
        exact hold old hrec
      | recordNewAccess o now =>
        obtain ⟨old, hrec, rfl⟩ := Option.map_eq_some_iff.mp hr
        refine absurd ⟨o, now, rfl, ?_⟩ h.2
        by_contra hn
        rw [← record_eq_none, show o = oid from ho, hrec] at hn
        cases hn
    · exact hold rec hr

namespace InMemoryRegistry

omit [DecidableEq U] in
theorem lookup_put {row : DROP O U} {o : O} : (r.put oid row).drops.lookup o =
    if oid = o then some row else r.drops.lookup o := by
  rw [put]
  split
  · rename_i h
    rw [← h, Association.lookup_set_self]
  · rename_i h
    exact Association.lookup_set_ne (Ne.symm h)

/-- The row of a record. -/
def rowOf (oid : O) (rec : Record U T) : DROP O U := ⟨oid, rec.phase, rec.instances⟩

/-- The rows of a registry are the records. -/
def Holds (r : InMemoryRegistry O U T) (records : O → Option (Record U T)) : Prop :=
  ∀ oid, r.drops.lookup oid = (records oid).map (rowOf oid)

variable {records : O → Option (Record U T)}

omit [DecidableEq U] in
theorem row_eq (h : r.Holds records) : r.row oid =
    match records oid with
    | some rec => .ok (rowOf oid rec)
    | none => .error (.notPresent oid) := by
  rw [row, h oid]
  cases records oid <;> rfl

theorem holds_step (h : r.Holds records) (c : Call O U T) :
    (r.step c).Holds fun oid => Record.after oid (records oid) c := by
  intro o
  cases c with
  | addDrop drop =>
    change (r.put _ _).drops.lookup o = _
    rw [lookup_put, h o]
    by_cases ho : drop.oid = o <;> simp [Record.after, Call.oid, ho, rowOf]
  | addDropInstance drop =>
    simp only [step, call, addDropInstance, row_eq h]
    cases hrec : records drop.oid with
    | none =>
      change r.drops.lookup o = _
      rw [h o]
      by_cases ho : drop.oid = o
      · simp [← ho, hrec, Record.after]
      · simp [Record.after, Call.oid, ho]
    | some rec =>
      rw [ok_bind]
      by_cases hu : drop.uid ∈ rec.instances
      · rw [if_pos (show drop.uid ∈ (rowOf drop.oid rec).instances from hu)]
        change r.drops.lookup o = _
        rw [h o]
        by_cases ho : drop.oid = o
        · simp [← ho, hrec, Record.after, Call.oid, hu]
        · simp [Record.after, Call.oid, ho]
      · rw [if_neg (show drop.uid ∉ (rowOf drop.oid rec).instances from hu)]
        change (r.put _ _).drops.lookup o = _
        rw [lookup_put, h o]
        by_cases ho : drop.oid = o
        · simp [← ho, hrec, Record.after, Call.oid, hu, rowOf]
        · simp [Record.after, Call.oid, ho]
  | setDropPhase oid phase =>
    simp only [step, call, setDropPhase, row_eq h]
    cases hrec : records oid with
    | none =>
      change r.drops.lookup o = _
      rw [h o]
      by_cases ho : oid = o
      · simp [← ho, hrec, Record.after]
      · simp [Record.after, Call.oid, ho]
    | some rec =>
      change (r.put _ _).drops.lookup o = _
      rw [lookup_put, h o]
      by_cases ho : oid = o
      · simp [← ho, hrec, Record.after, Call.oid, rowOf]
      · simp [Record.after, Call.oid, ho]
  | recordNewAccess oid now =>
    have hdrops : (r.step (.recordNewAccess oid now)).drops = r.drops := by
      simp only [step, call, recordNewAccess, row_eq h]
      cases records oid <;> rfl
    rw [hdrops, h o]
    by_cases ho : oid = o
    · simp only [Record.after, Call.oid, ho, if_true, Option.map_map]
      rfl
    · simp [Record.after, Call.oid, ho]

/-- Only a recorded access of a known drop grows the list. -/
theorem accessTimes_step (h : r.Holds records) (c : Call O U T) : (r.step c).accessTimes = [] ↔
    r.accessTimes = [] ∧ ∀ oid now, c = .recordNewAccess oid now → records oid = none := by
  cases c with
  | addDrop drop => simp [step, call, addDrop, put]
  | addDropInstance drop =>
    have hsame : (r.step (.addDropInstance drop)).accessTimes = r.accessTimes := by
      simp only [step, call, addDropInstance, row_eq h]
      cases records drop.oid with
      | none => rfl
      | some rec =>
        rw [ok_bind]
        by_cases hu : drop.uid ∈ (rowOf drop.oid rec).instances
        · rw [if_pos hu]
        · rw [if_neg hu]
          rfl
    simp [hsame]
  | setDropPhase oid phase =>
    have hsame : (r.step (.setDropPhase oid phase)).accessTimes = r.accessTimes := by
      simp only [step, call, setDropPhase, row_eq h]
      cases records oid <;> rfl
    simp [hsame]
  | recordNewAccess oid now =>
    simp only [step, call, recordNewAccess, row_eq h]
    cases hrec : records oid with
    | none =>
      change r.accessTimes = [] ↔ _
      simp [hrec]
    | some rec =>
      change r.accessTimes ++ [now] = [] ↔ _
      simp [hrec]

/-- Whatever is called, the rows are the records of their oids. -/
theorem holds_run (earlier : List T) (calls : List (Call O U T)) :
    (run step ({ accessTimes := earlier } : InMemoryRegistry O U T) calls).Holds
      (record calls) := by
  induction calls using List.reverseRecOn with
  | nil => exact fun _ => rfl
  | append_singleton calls c ih =>
    rw [run_append]
    intro oid
    rw [record_snoc]
    exact holds_step ih c oid

theorem accessTimes_run (earlier : List T) (calls : List (Call O U T)) :
    (run step ({ accessTimes := earlier } : InMemoryRegistry O U T) calls).accessTimes = [] ↔
      earlier = [] ∧ ¬ Accessed calls := by
  induction calls using List.reverseRecOn with
  | nil => simp [Accessed]
  | append_singleton calls c ih =>
    rw [run_append]
    refine (accessTimes_step (holds_run earlier calls) c).trans ?_
    rw [ih, accessed_snoc, not_or, and_assoc]
    refine and_congr_right fun _ => and_congr_right fun _ => ?_
    constructor
    · rintro h ⟨oid, now, hc, ha⟩
      exact record_eq_none.mp (h oid now hc) ha
    · exact fun h oid now hc => record_eq_none.mpr fun ha => h ⟨oid, now, hc, ha⟩

/-- The two questions about an oid are answered from the record of that oid. -/
def Answers (r : InMemoryRegistry O U T) (oid : O) (record : Option (Record U T)) : Prop :=
  (r.getDropUids oid = match record with
    | some rec => .ok rec.instances
    | none => .error (.notPresent oid)) ∧
  r.getLastAccess oid = .ok (record.bind fun rec => rec.accesses.getLast?)

/-- The uids of an oid are always right. -/
theorem getDropUids_run (earlier : List T) (calls : List (Call O U T)) (oid : O) :
    (run step ({ accessTimes := earlier } : InMemoryRegistry O U T) calls).getDropUids oid =
      match record calls oid with
      | some rec => .ok rec.instances
      | none => .error (.notPresent oid) := by
  rw [getDropUids, row_eq (holds_run earlier calls)]
  cases record calls oid <;> rfl

/-- The last access of an oid that has been added can be asked for as long as none has been
recorded, of whatever oid. -/
theorem answers_iff (earlier : List T) (calls : List (Call O U T)) (oid : O) :
    (run step ({ accessTimes := earlier } : InMemoryRegistry O U T) calls).Answers oid
        (record calls oid) ↔
      ¬ Added oid calls ∨ earlier = [] ∧ ¬ Accessed calls := by
  refine (and_iff_right (getDropUids_run earlier calls oid)).trans ?_
  rw [getLastAccess, holds_run earlier calls oid, ← record_eq_none, ← accessTimes_run]
  cases hrec : record calls oid with
  | none => simp
  | some rec =>
    by_cases ht : (run step ({ accessTimes := earlier } : InMemoryRegistry O U T) calls).accessTimes
        = []
    · have hno := (accessTimes_run earlier calls).mp ht
      simp [ht, accesses_eq_nil hno.2 hrec]
    · simp [ht]

/-- An access of one drop, and the other one can no more be asked for. -/
theorem access_of_another :
    ¬ ∀ (calls : List (Call String String Nat)) (oid : String),
      (run step ({} : InMemoryRegistry String String Nat) calls).Answers oid
        (record calls oid) := by
  intro h
  have ha := (h [.addDrop ⟨"a", "a1", .gas⟩, .addDrop ⟨"b", "b1", .gas⟩, .recordNewAccess "b" 5]
    "a").2
  revert ha
  decide

end InMemoryRegistry

end Daliuge.Lifecycle
