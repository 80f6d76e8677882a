import Mathlib.Data.List.Nodup
import Daliuge.Engine.States
import Daliuge.Lifecycle.Registry

/-!
# Lost drops

`deleteLostDrops`: the manager goes through the drops it monitors, looks for what is left of those
that have disappeared, and takes the lost ones out at the end.
-/
namespace Daliuge.Lifecycle

open Collect Daliuge.Engine

/-- What `_disappeared` and `replicateDrop` ask a drop. Applications cannot be asked whether they
exist. -/
structure Content where
  status : DROPStates
  existence : Option Bool
  size : Option Nat
  deriving DecidableEq, Repr

structure Drop (O U : Type) extends Content where
  oid : O
  uid : U
  deriving DecidableEq, Repr

/-- What is raised on the way. -/
inductive Err (O U : Type)
  | registry (e : RegistryErr O U)
  | noExists (uid : U)
  | keyError (uid : U)
  | sizeChanged
  | notCompleted (uid : U)
  | noStore
  | noSpace
  | copyFailed
  deriving DecidableEq, Repr

/-- The slowest store: its free space, and the copy of a drop in it. -/
structure Store (O U : Type) where
  availableSpace : Nat
  copy : Drop O U → Except (Err O U) Content

/-- A uid of ten random characters, which is taken to be a new one. -/
structure Draw (U : Type) where
  newUid : List U → U
  fresh : ∀ l, newUid l ∉ l

/-- `DataLifecycleManager`. The drops stand under their uids, in the order they were put in, and
their phases beside them; without replication there is no store. -/
structure DataLifecycleManager (O U T : Type) where
  reg : InMemoryRegistry O U T := {}
  drops : List (Drop O U) := []
  uids_nodup : (drops.map (·.uid)).Nodup
  phase : U → DROPPhases
  store : Option (Store O U) := none

variable {O U T : Type} [DecidableEq O] [DecidableEq U]

/-- `_disappeared`. -/
def Drop.disappeared (drop : Drop O U) : Except (Err O U) Bool :=
  if drop.status = .deleted then .ok false
  else match drop.existence with
    | some there => .ok !there
    | none => .error (.noExists drop.uid)

namespace DataLifecycleManager

/-- A call of the registry. -/
def asked {α : Type} : Except (RegistryErr O U) α → Except (Err O U) α
  | .ok a => .ok a
  | .error e => .error (.registry e)

/-- `_drops[uid]`. -/
def drop (drops : List (Drop O U)) (uid : U) : Except (Err O U) (Drop O U) :=
  match drops.find? (·.uid = uid) with
  | some drop => .ok drop
  | none => .error (.keyError uid)

/-- `_drops[newUid] = newDrop`, which is kept last. -/
def put (m : DataLifecycleManager O U T) (new : Drop O U) (h : new.uid ∉ m.drops.map (·.uid)) :
    DataLifecycleManager O U T :=
  { m with
    drops := m.drops ++ [new]
    uids_nodup := by
      rw [List.map_append, List.nodup_append]
      refine ⟨m.uids_nodup, List.nodup_singleton _, ?_⟩
      rintro a ha b hb rfl
      obtain rfl := List.mem_singleton.mp hb
      exact h ha }

/-- `del _drops[uid]`. -/
def remove (m : DataLifecycleManager O U T) (uid : U) :
    Except (Err O U) (DataLifecycleManager O U T) :=
  if uid ∈ m.drops.map (·.uid) then
    .ok { m with
      drops := m.drops.filter (·.uid ≠ uid)
      uids_nodup := m.uids_nodup.sublist (List.filter_sublist.map _) }
  else .error (.keyError uid)

/-- `drop.phase = phase`. -/
def setPhase (m : DataLifecycleManager O U T) (uid : U) (phase : DROPPhases) :
    DataLifecycleManager O U T :=
  { m with phase := fun u => if u = uid then phase else m.phase u }

variable (draw : Draw U)

/-- `replicateDrop`, with `_replicate`. -/
def replicateDrop (m : DataLifecycleManager O U T) (drop : Drop O U) :
    Except (Err O U) (DataLifecycleManager O U T) :=
  if drop.status ≠ .completed then .error (.notCompleted drop.uid)
  else match drop.size with
    | none => .ok m
    | some size =>
      match m.store with
      | none => .error .noStore
      | some store =>
        if size > store.availableSpace then .error .noSpace
        else do
          let newUid := draw.newUid (m.drops.map (·.uid))
          let content ← store.copy drop
          let newDrop : Drop O U := { content with oid := drop.oid, uid := newUid }
          let m := (m.setPhase newUid .solid).setPhase drop.uid .solid
          let m := m.put newDrop (draw.fresh _)
          let reg ← asked (m.reg.addDropInstance ⟨newDrop.oid, newDrop.uid, .solid⟩)
          let reg ← asked (reg.setDropPhase drop.oid .solid)
          return { m with reg := reg }

/-- The replicas that are left and the uids of those that have disappeared as well. -/
def siblings (drops : List (Drop O U)) (self : U) :
    List U → Except (Err O U) (List (Drop O U) × List U)
  | [] => .ok ([], [])
  | uid :: uids =>
    if uid = self then siblings drops self uids
    else do
      let siblingDrop ← drop drops uid
      let gone ← siblingDrop.disappeared
      let (replicas, lost) ← siblings drops self uids
      return if gone then (replicas, siblingDrop.uid :: lost) else (siblingDrop :: replicas, lost)

/-- No replica is left: the drop is DEFINITELY LOST. -/
def markLost (m : DataLifecycleManager O U T) (drop : Drop O U) :
    Except (Err O U) (DataLifecycleManager O U T) := do
  let reg ← asked (m.reg.setDropPhase drop.oid .lost)
  return { m.setPhase drop.uid .lost with reg := reg }

/-- One turn of the loop over the drops. -/
def turn (m : DataLifecycleManager O U T) (toRemove : List U) (drop : Drop O U) :
    Except (Err O U) (DataLifecycleManager O U T × List U) := do
  if ← drop.disappeared then
    let uids ← asked (m.reg.getDropUids drop.oid)
    if uids = [] then return (← m.markLost drop, toRemove ++ [drop.uid])
    else
      let (replicas, lost) ← siblings m.drops drop.uid uids
      let toRemove := toRemove ++ drop.uid :: lost
      match replicas with
      | [] => return (← m.markLost drop, toRemove)
      | [replica] => return (← m.replicateDrop draw replica, toRemove)
      | _ => return (m, toRemove)
  else return (m, toRemove)

/-- The loop over the dictionary, which has to keep its size. -/
def scan (size : Nat) (m : DataLifecycleManager O U T) (toRemove : List U) :
    List (Drop O U) → Except (Err O U) (DataLifecycleManager O U T × List U)
  | [] => if m.drops.length ≠ size then .error .sizeChanged else .ok (m, toRemove)
  | drop :: drops =>
    if m.drops.length ≠ size then .error .sizeChanged
    else do
      let (m, toRemove) ← m.turn draw toRemove drop
      scan size m toRemove drops

/-- `deleteLostDrops`. -/
def deleteLostDrops (m : DataLifecycleManager O U T) :
    Except (Err O U) (DataLifecycleManager O U T) := do
  let (m, toRemove) ← scan draw m.drops.length m [] m.drops
  toRemove.foldlM remove m

/-! What is to be done. -/

end DataLifecycleManager

/-- The drop exists no more, and has not been deleted. -/
def Drop.Disappeared (d : Drop O U) : Prop := d.status ≠ .deleted ∧ d.existence = some false

instance (d : Drop O U) : Decidable d.Disappeared :=
  inferInstanceAs (Decidable (_ ∧ _))

/-- The drop can be asked. -/
def Drop.Answers (d : Drop O U) : Prop := d.status = .deleted ∨ d.existence ≠ none

namespace DataLifecycleManager

variable (m m' : DataLifecycleManager O U T) (d : Drop O U)

/-- The uids the registry lists for an oid. -/
def instances (oid : O) : List U := ((m.reg.drops.lookup oid).map (·.instances)).getD []

/-- The uids of the other instances of a drop. -/
def others : List U := (m.instances d.oid).filter (· ≠ d.uid)

/-- Neither the drop nor another instance of it is left. -/
def NoneLeft : Prop :=
  d.Disappeared ∧ ∀ uid ∈ m.others d, ∀ e ∈ m.drops, e.uid = uid → e.Disappeared

/-- A replica that has been registered in the meantime. -/
def Created (uid : U) : Prop := ∃ oid, uid ∈ m'.instances oid ∧ uid ∉ m.instances oid

/-- The drops that have disappeared are monitored no more, all others are, and those of which
nothing is left have been marked. -/
structure CleanedUp : Prop where
  monitored : ∀ uid, uid ∈ m'.drops.map (·.uid) ↔
    (∃ d ∈ m.drops, d.uid = uid ∧ ¬ d.Disappeared) ∨ m.Created m' uid
  marked : ∀ d ∈ m.drops, m'.phase d.uid = .lost ↔ m.NoneLeft d ∨ m.phase d.uid = .lost

/-- The registry knows the drop, every other instance is monitored and still there, and if there
is just one it cannot be copied: it has been completed and its size is not known. -/
structure Alone : Prop where
  known : (m.reg.drops.lookup d.oid).isSome
  kept : ∀ uid ∈ m.others d, ∃ e ∈ m.drops, e.uid = uid ∧ ¬ e.Disappeared
  uncopied : ∀ e ∈ m.drops, m.others d = [e.uid] → e.status = .completed ∧ e.size = none

/-- Every drop can be asked, and those that have disappeared are alone in that. -/
structure LossesApart : Prop where
  answers : ∀ d ∈ m.drops, d.Answers
  alone : ∀ d ∈ m.drops, d.Disappeared → m.Alone d

variable {m m' m₀ : DataLifecycleManager O U T} {d e : Drop O U}
  {ds drops replicas : List (Drop O U)} {r r' uids lost : List U} {self uid : U} {oid : O} {draw}

omit [DecidableEq O] [DecidableEq U] in
theorem disappeared_false : d.disappeared = .ok false ↔ d.Answers ∧ ¬ d.Disappeared := by
  unfold Drop.disappeared Drop.Answers Drop.Disappeared
  by_cases hs : d.status = .deleted
  · simp [hs]
  · cases he : d.existence with
    | none => simp [hs]
    | some there => cases there <;> simp [hs]

omit [DecidableEq O] [DecidableEq U] in
theorem disappeared_true : d.disappeared = .ok true ↔ d.Disappeared := by
  unfold Drop.disappeared Drop.Disappeared
  by_cases hs : d.status = .deleted
  · simp [hs]
  · cases he : d.existence with
    | none => simp [hs]
    | some there => cases there <;> simp [hs]

omit [DecidableEq O] [DecidableEq U] in
theorem answers_of_disappeared (h : d.Disappeared) : d.Answers := Or.inr (by simp [h.2])

omit [DecidableEq O] [DecidableEq U] in
theorem asked_ok {α : Type} {x : Except (RegistryErr O U) α} {a : α} :
    asked x = .ok a ↔ x = .ok a := by
  cases x <;> simp [asked]

omit [DecidableEq O] in
theorem drop_ok (h : drop drops uid = .ok d) : d ∈ drops ∧ d.uid = uid := by
  unfold drop at h
  split at h
  · rename_i hd
    obtain rfl := Except.ok.inj h
    exact ⟨List.mem_of_find?_eq_some hd, by simpa using List.find?_some hd⟩
  · cases h

omit [DecidableEq O] in
theorem drop_of_mem (hn : (drops.map (·.uid)).Nodup) (hd : d ∈ drops) :
    drop drops d.uid = .ok d := by
  rw [drop, Association.find?_key hn hd]

omit [DecidableEq O] in
/-- What is looked up of the other instances: they are all monitored, and if none of them has
disappeared they are the replicas. -/
theorem siblings_ok (h : siblings drops self uids = .ok (replicas, lost)) :
    (∀ uid ∈ uids, uid ≠ self → ∃ e ∈ drops, e.uid = uid ∧ (e.Disappeared → uid ∈ lost)) ∧
    (lost = [] → replicas.map (·.uid) = uids.filter (· ≠ self)) ∧ ∀ e ∈ replicas, e ∈ drops := by
  induction uids generalizing replicas lost with
  | nil =>
    obtain ⟨rfl, rfl⟩ := Prod.mk.inj (Except.ok.inj h)
    simp
  | cons uid uids ih =>
    unfold siblings at h
    split at h
    · rename_i hu
      obtain ⟨hall, hmap, hmem⟩ := ih h
      refine ⟨?_, by simpa [hu] using hmap, hmem⟩
      intro v hv hne
      rcases List.mem_cons.mp hv with rfl | hv
      · exact absurd hu hne
      · exact hall v hv hne
    · rename_i hu
      obtain ⟨e, he, h⟩ := bind_ok.mp h
      obtain ⟨gone, hg, h⟩ := bind_ok.mp h
      obtain ⟨⟨replicas', lost'⟩, hrest, h⟩ := bind_ok.mp h
      obtain ⟨hall, hmap, hmem⟩ := ih hrest
      obtain ⟨hin, rfl⟩ := drop_ok he
      cases gone with
      | true =>
        obtain ⟨rfl, rfl⟩ := Prod.mk.inj (pure_ok.mp h)
        refine ⟨?_, by simp, hmem⟩
        intro v hv hne
        rcases List.mem_cons.mp hv with rfl | hv
        · exact ⟨e, hin, rfl, fun _ => List.mem_cons_self⟩
        · obtain ⟨e', he', hu', hl⟩ := hall v hv hne
          exact ⟨e', he', hu', fun hd => List.mem_cons_of_mem _ (hl hd)⟩
      | false =>
        obtain ⟨rfl, rfl⟩ := Prod.mk.inj (pure_ok.mp h)
        refine ⟨?_, ?_, ?_⟩
        · intro v hv hne
          rcases List.mem_cons.mp hv with rfl | hv
          · exact ⟨e, hin, rfl, fun hd => absurd hd (disappeared_false.mp hg).2⟩
          · exact hall v hv hne
        · intro hl
          rw [List.map_cons, hmap hl, List.filter_cons_of_pos (by simpa using hu)]
        · intro e' he'
          rcases List.mem_cons.mp he' with rfl | he'
          · exact hin
          · exact hmem e' he'

omit [DecidableEq O] in
theorem siblings_of_left (self : U) (hn : (drops.map (·.uid)).Nodup) (ha : ∀ e ∈ drops, e.Answers)
    (h : ∀ uid ∈ uids.filter (· ≠ self), ∃ e ∈ drops, e.uid = uid ∧ ¬ e.Disappeared) :
    ∃ replicas, siblings drops self uids = .ok (replicas, []) := by
  induction uids with
  | nil => exact ⟨[], rfl⟩
  | cons uid uids ih =>
    obtain ⟨replicas, hrest⟩ := ih fun v hv => h v (by
      rw [List.filter_cons]
      split
      · exact List.mem_cons_of_mem _ hv
      · exact hv)
    by_cases hu : uid = self
    · exact ⟨replicas, by rw [siblings, if_pos hu, hrest]⟩
    · obtain ⟨e, he, rfl, hgone⟩ := h uid (List.mem_filter.mpr ⟨List.mem_cons_self, by simpa⟩)
      refine ⟨e :: replicas, ?_⟩
      rw [siblings, if_neg hu, drop_of_mem hn he, ok_bind,
        disappeared_false.mpr ⟨ha e he, hgone⟩, ok_bind, hrest]
      rfl

/-- The same drops are monitored, and the same instances listed. -/
structure Same (m m₀ : DataLifecycleManager O U T) : Prop where
  drops : m.drops = m₀.drops
  instances : ∀ oid, (m.reg.drops.lookup oid).map (·.instances) =
    (m₀.reg.drops.lookup oid).map (·.instances)

omit [DecidableEq U] in
theorem Same.refl : Same m m := ⟨rfl, fun _ => rfl⟩

omit [DecidableEq U] in
theorem Same.trans (h : Same m m') (h' : Same m' m₀) : Same m m₀ :=
  ⟨h.drops.trans h'.drops, fun oid => (h.instances oid).trans (h'.instances oid)⟩

omit [DecidableEq U] in
theorem Same.listed (h : Same m m₀) (oid : O) : m.instances oid = m₀.instances oid :=
  congrArg (·.getD []) (h.instances oid)

omit [DecidableEq U] in
theorem Same.known (h : Same m m₀) (oid : O) :
    (m.reg.drops.lookup oid).isSome = (m₀.reg.drops.lookup oid).isSome := by
  have hs := congrArg Option.isSome (h.instances oid)
  simpa using hs

theorem Same.others (h : Same m m₀) (d : Drop O U) : m.others d = m₀.others d := by
  rw [DataLifecycleManager.others, h.listed, DataLifecycleManager.others]

theorem Same.alone (h : Same m m₀) (ha : m₀.Alone d) : m.Alone d where
  known := by rw [h.known]; exact ha.known
  kept := by rw [h.others, h.drops]; exact ha.kept
  uncopied := by rw [h.others, h.drops]; exact ha.uncopied

omit [DecidableEq U] in
theorem getDropUids_ok : m.reg.getDropUids oid = .ok uids ↔
    (m.reg.drops.lookup oid).isSome ∧ uids = m.instances oid := by
  rw [InMemoryRegistry.getDropUids, InMemoryRegistry.row, instances]
  cases m.reg.drops.lookup oid with
  | none => simp
  | some row =>
    rw [ok_bind, pure_ok]
    simp [eq_comm]

theorem markLost_ok (h : m.markLost d = .ok m') :
    Same m' m ∧ m'.phase = (m.setPhase d.uid .lost).phase := by
  obtain ⟨reg, hreg, h⟩ := bind_ok.mp h
  obtain rfl := pure_ok.mp h
  refine ⟨⟨rfl, fun oid => ?_⟩, rfl⟩
  obtain ⟨row, hrow, hput⟩ := bind_ok.mp (asked_ok.mp hreg)
  obtain rfl := pure_ok.mp hput
  rw [InMemoryRegistry.row] at hrow
  split at hrow
  · rename_i hl
    obtain rfl := Except.ok.inj hrow
    rw [InMemoryRegistry.lookup_put]
    split
    · rename_i ho
      rw [← ho, hl]
      rfl
    · rfl
  · cases hrow

theorem exists_markLost (h : (m.reg.drops.lookup d.oid).isSome) :
    ∃ m', m.markLost d = .ok m' := by
  obtain ⟨row, hrow⟩ := Option.isSome_iff_exists.mp h
  have hreg : m.reg.setDropPhase d.oid .lost =
      .ok (m.reg.put d.oid { row with phase := .lost }) := by
    rw [InMemoryRegistry.setDropPhase, InMemoryRegistry.row, hrow, ok_bind]
    rfl
  exact ⟨_, by rw [markLost, hreg, asked, ok_bind]; rfl⟩

/-- A copy makes the dictionary grow. -/
theorem replicateDrop_ok (h : m.replicateDrop draw e = .ok m') :
    e.status = .completed ∧ e.size = none ∧ m' = m ∨
      m'.drops.length = m.drops.length + 1 := by
  unfold replicateDrop at h
  split at h
  · cases h
  · rename_i hs
    split at h
    · rename_i hsize
      exact Or.inl ⟨not_not.mp hs, hsize, (Except.ok.inj h).symm⟩
    · split at h
      · cases h
      · split at h
        · cases h
        · obtain ⟨content, -, h⟩ := bind_ok.mp h
          obtain ⟨reg, -, h⟩ := bind_ok.mp h
          obtain ⟨reg', -, h⟩ := bind_ok.mp h
          obtain rfl := pure_ok.mp h
          exact Or.inr (by simp [put, setPhase])

/-- What one turn takes out: the drop and the other instances that have disappeared. -/
def gone (m : DataLifecycleManager O U T) (d : Drop O U) : List U :=
  if d.Disappeared then
    d.uid :: match siblings m.drops d.uid (m.instances d.oid) with
      | .ok (_, lost) => lost
      | .error _ => []
  else []

/-- What a turn has found out about a drop that has disappeared. -/
structure Seen (m : DataLifecycleManager O U T) (d : Drop O U) : Prop where
  known : (m.reg.drops.lookup d.oid).isSome
  monitored : ∀ uid ∈ m.others d, ∃ e ∈ m.drops, e.uid = uid ∧ (e.Disappeared → uid ∈ m.gone d)
  uncopied : m.gone d = [d.uid] →
    ∀ e ∈ m.drops, m.others d = [e.uid] → e.status = .completed ∧ e.size = none

theorem Same.gone (h : Same m m₀) (d : Drop O U) : m.gone d = m₀.gone d := by
  rw [DataLifecycleManager.gone, h.drops, h.listed, DataLifecycleManager.gone]

theorem Same.seen (h : Same m m₀) (hs : m.Seen d) : m₀.Seen d where
  known := by rw [← h.known]; exact hs.known
  monitored := by rw [← h.others, ← h.drops, ← h.gone]; exact hs.monitored
  uncopied := by rw [← h.others, ← h.drops, ← h.gone]; exact hs.uncopied

/-- A turn that leaves the dictionary its size. -/
theorem turn_ok (h : m.turn draw r d = .ok (m', r')) (hlen : m'.drops.length = m.drops.length) :
    Same m' m ∧ r' = r ++ m.gone d ∧ d.Answers ∧ (d.Disappeared → m.Seen d) := by
  obtain ⟨b, hb, h⟩ := bind_ok.mp h
  cases b with
  | false =>
    obtain ⟨rfl, rfl⟩ := Prod.mk.inj (pure_ok.mp h)
    obtain ⟨ha, hd⟩ := disappeared_false.mp hb
    exact ⟨.refl, by simp [gone, hd], ha, fun h => absurd h hd⟩
  | true =>
    have hd := disappeared_true.mp hb
    obtain ⟨uids, hu, h⟩ := bind_ok.mp h
    obtain ⟨hknown, rfl⟩ := getDropUids_ok.mp (asked_ok.mp hu)
    split at h
    · rename_i hnil
      obtain ⟨m₁, hm, h⟩ := bind_ok.mp h
      obtain ⟨rfl, rfl⟩ := Prod.mk.inj (pure_ok.mp h)
      have hothers : m.others d = [] := by rw [others, hnil, List.filter_nil]
      refine ⟨(markLost_ok hm).1, by simp [gone, hd, hnil, siblings], answers_of_disappeared hd,
        fun _ => ⟨hknown, by simp [hothers], by simp [hothers]⟩⟩
    · obtain ⟨⟨replicas, lost⟩, hs, h⟩ := bind_ok.mp h
      obtain ⟨hall, hmap, hmem⟩ := siblings_ok hs
      have hgone : m.gone d = d.uid :: lost := by rw [gone, if_pos hd, hs]
      have hseen : (∀ e, replicas = [e] → e.status = .completed ∧ e.size = none) → m.Seen d := by
        intro hone
        refine ⟨hknown, fun uid huid => ?_, fun hlost e he ho => ?_⟩
        · obtain ⟨hin, hne⟩ := List.mem_filter.mp huid
          obtain ⟨e, he, hu, hl⟩ := hall uid hin (by simpa using hne)
          exact ⟨e, he, hu, fun hd => by rw [hgone]; exact List.mem_cons_of_mem _ (hl hd)⟩
        · rw [hgone] at hlost
          have hreplicas := (hmap (List.cons.inj hlost).2).trans ho
          obtain ⟨e', hr, hu⟩ := List.map_eq_singleton_iff.mp hreplicas
          obtain rfl : e' = e :=
            List.inj_on_of_nodup_map m.uids_nodup (hmem e' (by simp [hr])) he hu
          exact hone e' hr
      rcases replicas with _ | ⟨e, _ | ⟨e', es⟩⟩
      · obtain ⟨m₁, hm, h⟩ := bind_ok.mp h
        obtain ⟨rfl, rfl⟩ := Prod.mk.inj (pure_ok.mp h)
        exact ⟨(markLost_ok hm).1, by rw [hgone], answers_of_disappeared hd,
          fun _ => hseen nofun⟩
      · obtain ⟨m₁, hm, h⟩ := bind_ok.mp h
        obtain ⟨rfl, rfl⟩ := Prod.mk.inj (pure_ok.mp h)
        rcases replicateDrop_ok hm with ⟨hc, hsize, rfl⟩ | hgrown
        · refine ⟨.refl, by rw [hgone], answers_of_disappeared hd, fun _ => hseen fun e' he => ?_⟩
          obtain rfl := (List.cons.inj he).1
          exact ⟨hc, hsize⟩
        · omega
      · obtain ⟨rfl, rfl⟩ := Prod.mk.inj (pure_ok.mp h)
        exact ⟨.refl, by rw [hgone], answers_of_disappeared hd, fun _ => hseen nofun⟩

/-- Where the loop ends, no drop has been added and every drop has been looked at. -/
theorem scan_ok {size : Nat} (h : scan draw size m r ds = .ok (m', r')) :
    Same m' m ∧ r' = r ++ ds.flatMap m.gone ∧
      ∀ d ∈ ds, d.Answers ∧ (d.Disappeared → m.Seen d) := by
  induction ds generalizing m r with
  | nil =>
    unfold scan at h
    split at h
    · cases h
    · obtain ⟨rfl, rfl⟩ := Prod.mk.inj (Except.ok.inj h)
      exact ⟨.refl, by simp, by simp⟩
  | cons d ds ih =>
    unfold scan at h
    split at h
    · cases h
    · rename_i hsize
      obtain ⟨⟨m₁, r₁⟩, hturn, hrest⟩ := bind_ok.mp h
      have hsize₁ : m₁.drops.length = size := by
        by_contra hne
        cases ds with
        | nil => simp [scan, hne] at hrest
        | cons d' ds => simp [scan, hne] at hrest
      obtain ⟨hsame₁, rfl, hd⟩ := turn_ok hturn (by omega)
      obtain ⟨hsame, rfl, hds⟩ := ih hrest
      refine ⟨hsame.trans hsame₁, ?_, ?_⟩
      · have hgone : m₁.gone = m.gone := funext hsame₁.gone
        rw [List.flatMap_cons, hgone, List.append_assoc]
      · intro d' hd'
        rcases List.mem_cons.mp hd' with rfl | hd'
        · exact hd
        · exact ⟨(hds d' hd').1, fun hdis => hsame₁.seen ((hds d' hd').2 hdis)⟩

/-- A turn whose drop is alone in its loss, or has not disappeared. -/
theorem exists_turn (draw : Draw U) (r : List U) (ha : ∀ e ∈ m.drops, e.Answers)
    (hd : d ∈ m.drops) (h : d.Disappeared → m.Alone d) : ∃ m', Same m' m ∧
      m.turn draw r d = .ok (m', r ++ if d.Disappeared then [d.uid] else []) ∧
      ∀ u, m'.phase u = .lost ↔
        m.phase u = .lost ∨ u = d.uid ∧ d.Disappeared ∧ m.others d = [] := by
  by_cases hdis : d.Disappeared
  · have halone := h hdis
    have huids : asked (m.reg.getDropUids d.oid) = .ok (m.instances d.oid) :=
      asked_ok.mpr (getDropUids_ok.mpr ⟨halone.known, rfl⟩)
    obtain ⟨m₁, hmark⟩ := exists_markLost halone.known
    obtain ⟨hsame, hphase⟩ := markLost_ok hmark
    have hlost : ∀ u, m₁.phase u = .lost ↔ m.phase u = .lost ∨ u = d.uid := by
      intro u
      rw [hphase, setPhase]
      by_cases hu : u = d.uid <;> simp [hu]
    rw [turn, disappeared_true.mpr hdis, ok_bind, if_pos rfl, huids, ok_bind, if_pos hdis]
    by_cases hnil : m.instances d.oid = []
    · have hothers : m.others d = [] := by rw [others, hnil, List.filter_nil]
      refine ⟨m₁, hsame, by rw [if_pos hnil, hmark]; rfl, fun u => ?_⟩
      rw [hlost]
      simp [hdis, hothers]
    · obtain ⟨replicas, hs⟩ := siblings_of_left d.uid m.uids_nodup ha halone.kept
      obtain ⟨-, hmap, hmem⟩ := siblings_ok hs
      have hothers : m.others d = replicas.map (·.uid) := (hmap rfl).symm
      rw [if_neg hnil, hs, ok_bind]
      rcases replicas with _ | ⟨e, _ | ⟨e', es⟩⟩
      · refine ⟨m₁, hsame, by simp only [hmark, ok_bind]; rfl, fun u => ?_⟩
        rw [hlost]
        simp [hdis, hothers]
      · obtain ⟨hc, hsize⟩ := halone.uncopied e (hmem e List.mem_cons_self) hothers
        have hcopy : m.replicateDrop draw e = .ok m := by simp [replicateDrop, hc, hsize]
        exact ⟨m, .refl, by simp only [hcopy, ok_bind]; rfl, fun u => by simp [hothers]⟩
      · exact ⟨m, .refl, rfl, fun u => by simp [hothers]⟩
  · refine ⟨m, .refl, ?_, fun u => by simp [hdis]⟩
    rw [turn, disappeared_false.mpr ⟨ha d hd, hdis⟩, if_neg hdis, List.append_nil]
    rfl

theorem exists_scan (draw : Draw U) (r : List U) {size : Nat} (hsize : m.drops.length = size)
    (ha : ∀ e ∈ m.drops, e.Answers)
    (h : ∀ d ∈ ds, d ∈ m.drops ∧ (d.Disappeared → m.Alone d)) : ∃ m', Same m' m ∧
      scan draw size m r ds = .ok (m', r ++ (ds.filter fun d => d.Disappeared).map (·.uid)) ∧
      ∀ u, m'.phase u = .lost ↔ m.phase u = .lost ∨
        ∃ d ∈ ds, u = d.uid ∧ d.Disappeared ∧ m.others d = [] := by
  induction ds generalizing m r with
  | nil => exact ⟨m, .refl, by simp [scan, hsize], by simp⟩
  | cons d ds ih =>
    obtain ⟨m₁, hsame₁, hturn, hphase₁⟩ :=
      exists_turn draw r ha (h d List.mem_cons_self).1 (h d List.mem_cons_self).2
    obtain ⟨m₂, hsame₂, hscan, hphase₂⟩ := ih (m := m₁)
      (r ++ if d.Disappeared then [d.uid] else [])
      (by rw [hsame₁.drops, hsize]) (by rw [hsame₁.drops]; exact ha) fun d' hd' => by
        obtain ⟨hin, halone⟩ := h d' (List.mem_cons_of_mem _ hd')
        exact ⟨by rwa [hsame₁.drops], fun hdis => hsame₁.alone (halone hdis)⟩
    refine ⟨m₂, hsame₂.trans hsame₁, ?_, fun u => ?_⟩
    · rw [scan, if_neg (not_not.mpr hsize), hturn, ok_bind]
      refine hscan.trans ?_
      rw [List.append_assoc]
      by_cases hdis : d.Disappeared <;> simp [hdis]
    · rw [hphase₂, hphase₁]
      simp only [List.mem_cons, exists_eq_or_imp, hsame₁.others, or_assoc]

omit [DecidableEq O] in
/-- The removal at the end takes every uid out, and each must be there when its turn comes. -/
theorem removed_ok (h : uids.foldlM remove m = .ok m') : uids.Nodup ∧
    (∀ uid ∈ uids, uid ∈ m.drops.map (·.uid)) ∧
    m'.drops = m.drops.filter (fun d => d.uid ∉ uids) ∧ m'.reg = m.reg ∧ m'.phase = m.phase := by
  induction uids generalizing m with
  | nil =>
    obtain rfl := pure_ok.mp h
    simp
  | cons uid uids ih =>
    rw [List.foldlM_cons] at h
    obtain ⟨m₁, hm, h⟩ := bind_ok.mp h
    obtain ⟨hn, hin, hdrops, hreg, hphase⟩ := ih h
    unfold remove at hm
    split at hm
    · rename_i hmem
      obtain rfl := Except.ok.inj hm
      have hall : ∀ v ∈ uids, v ∈ m.drops.map (·.uid) ∧ v ≠ uid := by
        intro v hv
        obtain ⟨d, hd, rfl⟩ := List.mem_map.mp (hin v hv)
        obtain ⟨hd, hne⟩ := List.mem_filter.mp hd
        exact ⟨List.mem_map_of_mem hd, by simpa using hne⟩
      refine ⟨List.nodup_cons.mpr ⟨fun hm => (hall uid hm).2 rfl, hn⟩, ?_, ?_, hreg, hphase⟩
      · intro v hv
        rcases List.mem_cons.mp hv with rfl | hv
        · exact hmem
        · exact (hall v hv).1
      · rw [hdrops, List.filter_filter]
        refine List.filter_congr fun d _ => ?_
        rw [Bool.eq_iff_iff]
        simp [and_comm]
    · cases hm

omit [DecidableEq O] in
theorem exists_removed (hn : uids.Nodup) (h : ∀ uid ∈ uids, uid ∈ m.drops.map (·.uid)) :
    ∃ m', uids.foldlM remove m = .ok m' := by
  induction uids generalizing m with
  | nil => exact ⟨m, rfl⟩
  | cons uid uids ih =>
    obtain ⟨hnot, hn⟩ := List.nodup_cons.mp hn
    rw [List.foldlM_cons, remove, if_pos (h uid List.mem_cons_self), ok_bind]
    refine ih hn fun v hv => ?_
    obtain ⟨d, hd, rfl⟩ := List.mem_map.mp (h v (List.mem_cons_of_mem _ hv))
    refine List.mem_map.mpr ⟨d, List.mem_filter.mpr ⟨hd, ?_⟩, rfl⟩
    have hne : d.uid ≠ uid := fun he => hnot (he ▸ hv)
    simpa using hne

theorem noneLeft_iff (ha : m.Alone d) : m.NoneLeft d ↔ d.Disappeared ∧ m.others d = [] := by
  refine and_congr_right fun _ => ?_
  constructor
  · intro h
    refine List.eq_nil_iff_forall_not_mem.mpr fun uid hu => ?_
    obtain ⟨e, he, rfl, hgone⟩ := ha.kept uid hu
    exact hgone (h e.uid hu e he rfl)
  · rintro h
    simp [h]

/-- Losses that lie apart are cleaned up. -/
theorem cleanedUp (h : m.LossesApart) :
    ∃ m', m.deleteLostDrops draw = .ok m' ∧ m.CleanedUp m' := by
  obtain ⟨m₁, hsame, hscan, hphase⟩ := exists_scan draw [] rfl h.answers
    (fun d hd => ⟨hd, h.alone d hd⟩)
  rw [List.nil_append] at hscan
  have hsub : ((m.drops.filter fun d => d.Disappeared).map (·.uid)).Sublist (m.drops.map (·.uid)) :=
    List.filter_sublist.map _
  obtain ⟨m₂, hm₂⟩ := exists_removed (m := m₁) (m.uids_nodup.sublist hsub)
    (by rw [hsame.drops]; exact fun uid hu => hsub.subset hu)
  obtain ⟨-, -, hdrops, hreg, hkept⟩ := removed_ok hm₂
  refine ⟨m₂, by rw [deleteLostDrops, hscan, ok_bind]; exact hm₂, fun uid => ?_, fun d hd => ?_⟩
  · have hcreated : ¬ m.Created m₂ uid := by
      rintro ⟨oid, hin, hout⟩
      rw [instances, hreg] at hin
      exact hout (hsame.listed oid ▸ hin)
    rw [or_iff_left hcreated, hdrops, hsame.drops]
    simp only [List.mem_map, List.mem_filter, decide_eq_true_eq]
    constructor
    · rintro ⟨d, ⟨hd, hout⟩, rfl⟩
      exact ⟨d, hd, rfl, fun hdis => hout ⟨d, ⟨hd, hdis⟩, rfl⟩⟩
    · rintro ⟨d, hd, rfl, hdis⟩
      refine ⟨d, ⟨hd, ?_⟩, rfl⟩
      rintro ⟨e, ⟨he, hgone⟩, hu⟩
      obtain rfl := List.inj_on_of_nodup_map m.uids_nodup he hd hu
      exact hdis hgone
  · rw [hkept, hphase, or_comm]
    refine or_congr_left ?_
    constructor
    · rintro ⟨e, he, hu, hdis, hnone⟩
      obtain rfl := List.inj_on_of_nodup_map m.uids_nodup hd he hu
      exact (noneLeft_iff (h.alone d hd hdis)).mpr ⟨hdis, hnone⟩
    · intro hn
      exact ⟨d, hd, rfl, (noneLeft_iff (h.alone d hd hn.1)).mp hn⟩

/-- `deleteLostDrops` comes to an end without raising only where the losses lie apart. -/
theorem lossesApart (h : m.deleteLostDrops draw = .ok m') : m.LossesApart := by
  obtain ⟨⟨m₁, toRemove⟩, hscan, h⟩ := bind_ok.mp h
  obtain ⟨-, rfl, hall⟩ := scan_ok hscan
  obtain ⟨hn, -⟩ := removed_ok h
  rw [List.nil_append, List.nodup_flatMap] at hn
  have hdisjoint : ∀ d ∈ m.drops, ∀ e ∈ m.drops, d ≠ e → (m.gone d).Disjoint (m.gone e) := by
    intro d hd e he
    refine List.Pairwise.forall_of_forall_of_flip
      (R := fun d e => d ≠ e → (m.gone d).Disjoint (m.gone e)) ?_ (hn.2.imp ?_)
      (hn.2.imp ?_) hd he
    · exact fun _ _ hne => absurd rfl hne
    · exact fun h _ => h
    · intro a b h _
      exact fun _ hb ha => h ha hb
  have hself : ∀ e ∈ m.drops, e.Disappeared → e.uid ∈ m.gone e := by
    intro e _ he
    rw [gone, if_pos he]
    exact List.mem_cons_self
  have hkept : ∀ d ∈ m.drops, d.Disappeared → ∀ uid ∈ m.others d,
      ∃ e ∈ m.drops, e.uid = uid ∧ ¬ e.Disappeared := by
    intro d hd hdis uid hu
    obtain ⟨e, he, rfl, hl⟩ := ((hall d hd).2 hdis).monitored uid hu
    refine ⟨e, he, rfl, fun hgone => ?_⟩
    -- it would be taken out in the turn of either
    have hne : d ≠ e := by
      rintro rfl
      simpa using (List.mem_filter.mp hu).2
    exact hdisjoint d hd e he hne (hl hgone) (hself e he hgone)
  refine ⟨fun d hd => (hall d hd).1, fun d hd hdis => ?_⟩
  have hseen := (hall d hd).2 hdis
  refine ⟨hseen.known, hkept d hd hdis, hseen.uncopied ?_⟩
  obtain ⟨replicas, hs⟩ := siblings_of_left d.uid m.uids_nodup
    (fun e he => (hall e he).1) (hkept d hd hdis)
  rw [gone, if_pos hdis, hs]

/-- Lost drops are cleaned up if and only if every drop can be asked whether it exists and those
that have disappeared are alone in that. -/
theorem cleanedUp_iff (draw : Draw U) (m : DataLifecycleManager O U T) :
    (∃ m', m.deleteLostDrops draw = .ok m' ∧ m.CleanedUp m') ↔ m.LossesApart := by
  constructor
  · rintro ⟨m', h, -⟩
    exact lossesApart h
  · exact cleanedUp

/-- The registry goes on listing what has been taken out: when another instance of the same drop
disappears later, the next call fails. -/
theorem next_loss_fails {n : DataLifecycleManager O U T} (h : m.deleteLostDrops draw = .ok m')
    (hd : d ∈ m.drops) (hdis : d.Disappeared) (hlisted : d.uid ∈ m.instances d.oid)
    (hreg : n.reg = m'.reg) (huids : n.drops.map (·.uid) = m'.drops.map (·.uid)) (he : e ∈ n.drops)
    (hoid : e.oid = d.oid) (hgone : e.Disappeared) :
    ∃ err, n.deleteLostDrops draw = .error err := by
  cases hcall : n.deleteLostDrops draw with
  | error err => exact ⟨err, rfl⟩
  | ok n' =>
    obtain ⟨⟨m₁, toRemove⟩, hscan, hremove⟩ := bind_ok.mp h
    obtain ⟨hsame, rfl, -⟩ := scan_ok hscan
    obtain ⟨-, -, hdrops, hkept, -⟩ := removed_ok hremove
    have hout : d.uid ∉ n.drops.map (·.uid) := by
      rw [huids, hdrops]
      intro hmem
      obtain ⟨d', hd', hu⟩ := List.mem_map.mp hmem
      obtain ⟨-, hnot⟩ := List.mem_filter.mp hd'
      refine absurd (List.mem_flatMap.mpr ⟨d, hd, ?_⟩) (by simpa using hnot)
      rw [gone, if_pos hdis, hu]
      exact List.mem_cons_self
    have hother : d.uid ∈ n.others e := by
      rw [others, instances, hreg, hkept, hoid]
      refine List.mem_filter.mpr ⟨by rw [← hsame.listed] at hlisted; exact hlisted, ?_⟩
      have hne : d.uid ≠ e.uid := fun hu => hout (hu ▸ List.mem_map_of_mem he)
      simpa using hne
    obtain ⟨e', he', hu, -⟩ := ((lossesApart hcall).alone e he hgone).kept d.uid hother
    exact absurd (hu ▸ List.mem_map_of_mem he') hout

theorem le_total {n : Nat} {l : List Nat} (h : n ∈ l) : n ≤ l.foldr (· + ·) 0 := by
  induction l with
  | nil => cases h
  | cons k l ih =>
    rw [List.foldr_cons]
    rcases List.mem_cons.mp h with rfl | h
    · omega
    · have := ih h
      omega

/-- Numbers for uids. -/
def numbered : Draw Nat where
  newUid := fun l => l.foldr (· + ·) 0 + 1
  fresh := fun _ h => absurd (le_total h) (by omega)

/-- A drop of one byte that has been completed. -/
def completed (uid : Nat) (there : Bool) : Drop String Nat :=
  { oid := "A", uid := uid, status := .completed, existence := some there, size := some 1 }

/-- Two instances, the first of which has disappeared. -/
def oneLeft : DataLifecycleManager String Nat Nat where
  reg := { drops := [("A", ⟨"A", .solid, [1, 2]⟩)] }
  drops := [completed 1 false, completed 2 true]
  uids_nodup := by decide
  phase := fun _ => .solid
  store := some { availableSpace := 100, copy := fun d => .ok d.toContent }

/-- The one that is left is copied, which makes the dictionary grow in the loop over it. -/
theorem oneLeft_fails : ¬ ∀ (draw : Draw Nat) (m : DataLifecycleManager String Nat Nat),
    ∃ m', m.deleteLostDrops draw = .ok m' ∧ m.CleanedUp m' := by
  intro h
  obtain ⟨m', hm, -⟩ := h numbered oneLeft
  have hfails : (oneLeft.deleteLostDrops numbered).toBool = false := by decide
  rw [hm] at hfails
  cases hfails

end DataLifecycleManager

end Daliuge.Lifecycle
