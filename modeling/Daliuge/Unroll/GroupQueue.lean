import Mathlib.Logic.Function.Basic
import Daliuge.Unroll.Layout

/-!
# The group queue

How the nodes come into their groups: `nodeDataArray` holds them in any order, so a node is given
to its group at once when the group is there, and waits in a queue for it otherwise. The forest
is what the array says, whatever its order.
-/
namespace Daliuge.Unroll

open Collect

/-- An entry of `nodeDataArray`. The categoryType of the node counts only when the entry has
one. -/
structure NodeData where
  node : Node
  typed : Bool := true
  parentId : Option NodeId := none
  deriving DecidableEq, Repr

/-- Why a node is refused: `GInvalidNode` for its own category, or what `add_child` raises. -/
inductive Refused
  | noCategoryType (id : NodeId)
  | notAdded (e : Err)
  deriving DecidableEq, Repr

/-- `APP_TYPES`. -/
def appTypes : List Category :=
  [.branch, .component, .pythonApp, .daliugeApp, .bashShellApp, .mpi, .dynlibApp, .dynlibProcApp,
    .docker, .service]

/-- `DATA_TYPES`. -/
def dataTypes : List Category :=
  [.file, .memory, .s3, .ngas, .json, .shmem, .data, .null, .plasma, .plasmaFlight, .parset,
    .start, .end]

def NodeData.id (d : NodeData) : NodeId := d.node.id

/-- The setter of `jd`. -/
def NodeData.jd (d : NodeData) : Except Refused Node :=
  if d.typed then .ok d.node
  else if d.node.category ∈ appTypes then .ok { d.node with categoryType := .application }
  else if d.node.category ∈ dataTypes then .ok { d.node with categoryType := .data }
  else .error (.noCategoryType d.id)

/-- What `add_child` asks of a member. -/
def Node.checkAdded (n : Node) : Except Err Unit :=
  if n.isGroup then do
    let handler ← n.handler
    if handler ∈ [Handler.scatter, .loop, .groupBy] then return () else .error (.notNestable n.id)
  else .ok ()

/-- The nodes that have been built: the group and the children of each, who waits for which
group, and `done_dict`. -/
structure Building where
  group : NodeId → Option NodeId := fun _ => none
  children : NodeId → List NodeId := fun _ => []
  groupQ : NodeId → Option (List Node) := fun _ => none
  done : List NodeId := []

namespace Building

/-- A node's group is set and `add_child` called. -/
def adopt (g : NodeId) (b : Building) (n : Node) : Except Refused Building := do
  n.checkAdded.mapError .notAdded
  return { b with
    group := Function.update b.group n.id (some g)
    children := Function.update b.children g (b.children g ++ [n.id]) }

/-- A group takes the nodes that wait for it. -/
def drain (b : Building) (n : Node) : Except Refused Building :=
  if n.isGroup then do
    let b ← ((b.groupQ n.id).getD []).foldlM (adopt n.id) b
    return { b with groupQ := Function.update b.groupQ n.id none }
  else .ok b

/-- A node goes to its group or waits for it. -/
def place (b : Building) (n : Node) (grpId : NodeId) : Except Refused Building :=
  if grpId ∈ b.done then adopt grpId b n
  else .ok { b with
    groupQ := Function.update b.groupQ grpId (some ((b.groupQ grpId).getD [] ++ [n])) }

/-- `LGNode.__init__`. -/
def add (b : Building) (d : NodeData) : Except Refused Building := do
  let n ← d.jd
  let b ← b.drain n
  let b ← (d.parentId.map (b.place n)).getD (.ok b)
  return { b with done := b.done ++ [n.id] }

end Building

/-- The loop over `nodeDataArray`. -/
def build (ds : List NodeData) : Except Refused Building := ds.foldlM Building.add {}

/-- The entries whose parentId names `p`. -/
def membersOf (ds : List NodeData) (p : NodeId) : List NodeData :=
  ds.filter fun d => d.parentId == some p

/-- The forest that the array describes: nobody waits any more, every node is in the group it
names, and the children of a group are the nodes that name it, in the order of the array. -/
structure Linked (ds : List NodeData) (b : Building) : Prop where
  queue : ∀ p, b.groupQ p = none
  group : ∀ d ∈ ds, b.group d.id = d.parentId
  children : ∀ d ∈ ds, b.children d.id = (membersOf ds d.id).map NodeData.id
  once : ∀ d ∈ ds, (b.children d.id).Nodup

/-- The ids are distinct and every parentId names another entry, which is a group. -/
structure Proper (ds : List NodeData) : Prop where
  ids : (ds.map NodeData.id).Nodup
  parents : ∀ d ∈ ds, ∀ p, d.parentId = some p →
    p ≠ d.id ∧ ∃ g ∈ ds, g.id = p ∧ g.node.isGroup = true

section Steps

variable {b b' : Building} {n : Node} {ns : List Node} {g : NodeId} {d : NodeData}

/-- A node as its entry is read. -/
def NodeData.read (d : NodeData) : Node := d.jd.toOption.getD d.node

theorem NodeData.read_of_jd (h : d.jd = .ok n) : d.read = n := by
  simp [NodeData.read, h, Except.toOption]

theorem NodeData.jd_id (h : d.jd = .ok n) : n.id = d.id ∧ n.isGroup = d.node.isGroup := by
  rw [NodeData.jd] at h
  split at h
  · cases h
    exact ⟨rfl, rfl⟩
  · split at h
    · cases h
      exact ⟨rfl, rfl⟩
    · split at h
      · cases h
        exact ⟨rfl, rfl⟩
      · cases h

namespace Building

/-- The building after a group has got these members. -/
def taken (b : Building) (g : NodeId) (ns : List Node) : Building :=
  { b with
    group := fun i => if i ∈ ns.map Node.id then some g else b.group i
    children := Function.update b.children g (b.children g ++ ns.map Node.id) }

theorem adopt_ok : adopt g b n = .ok b' ↔ n.checkAdded = .ok () ∧ b' = b.taken g [n] := by
  have ht : b.taken g [n] = { b with
      group := Function.update b.group n.id (some g)
      children := Function.update b.children g (b.children g ++ [n.id]) } := by
    simp only [taken, List.map_cons, List.map_nil, List.mem_singleton]
    congr 1
    funext i
    simp [Function.update_apply]
  rw [adopt, ht]
  cases n.checkAdded with
  | error e => simp [Except.mapError]
  | ok u => simp [Except.mapError, eq_comm]

theorem taken_nil (b : Building) (g : NodeId) : b.taken g [] = b := by simp [taken]

theorem taken_cons (b : Building) (g : NodeId) (n : Node) (ns : List Node) :
    (b.taken g [n]).taken g ns = b.taken g (n :: ns) := by
  simp only [taken, Function.update_self, Function.update_idem, List.map_cons, List.map_nil,
    List.mem_cons, List.append_assoc, List.singleton_append]
  congr 1
  funext i
  by_cases hi : i ∈ ns.map Node.id <;> by_cases hn : i = n.id <;> simp [hi, hn]

theorem foldlM_adopt : ns.foldlM (adopt g) b = .ok b' ↔
    (∀ n ∈ ns, n.checkAdded = .ok ()) ∧ b' = b.taken g ns := by
  induction ns generalizing b with
  | nil =>
    rw [List.foldlM_nil, pure_ok]
    simp [taken_nil, eq_comm]
  | cons n ns ih =>
    rw [List.foldlM_cons, bind_ok, List.forall_mem_cons]
    constructor
    · rintro ⟨c, hc, hns⟩
      obtain ⟨hn, rfl⟩ := adopt_ok.mp hc
      obtain ⟨hadded, rfl⟩ := ih.mp hns
      exact ⟨⟨hn, hadded⟩, taken_cons b g n ns⟩
    · rintro ⟨⟨hn, hns⟩, rfl⟩
      exact ⟨b.taken g [n], adopt_ok.mpr ⟨hn, rfl⟩, ih.mpr ⟨hns, (taken_cons b g n ns).symm⟩⟩

def drained (b : Building) (n : Node) : Building :=
  if n.isGroup then
    { b.taken n.id ((b.groupQ n.id).getD []) with groupQ := Function.update b.groupQ n.id none }
  else b

theorem drain_ok : b.drain n = .ok b' ↔
    (n.isGroup = true → ∀ m ∈ (b.groupQ n.id).getD [], m.checkAdded = .ok ()) ∧
      b' = b.drained n := by
  rw [drain, drained]
  by_cases hg : n.isGroup = true
  · simp only [hg, if_true, bind_ok, foldlM_adopt, pure_ok, forall_const]
    constructor
    · rintro ⟨c, ⟨hc, rfl⟩, rfl⟩
      exact ⟨hc, rfl⟩
    · rintro ⟨hc, rfl⟩
      exact ⟨_, ⟨hc, rfl⟩, rfl⟩
  · simp [hg, eq_comm]

def placed (b : Building) (n : Node) (grpId : NodeId) : Building :=
  if grpId ∈ b.done then b.taken grpId [n]
  else { b with
    groupQ := Function.update b.groupQ grpId (some ((b.groupQ grpId).getD [] ++ [n])) }

theorem place_ok : b.place n g = .ok b' ↔
    (g ∈ b.done → n.checkAdded = .ok ()) ∧ b' = b.placed n g := by
  rw [place, placed]
  by_cases hg : g ∈ b.done
  · simp [hg, adopt_ok]
  · simp [hg, eq_comm]

@[simp] theorem drained_done (b : Building) (n : Node) : (b.drained n).done = b.done := by
  rw [drained]
  split <;> rfl

@[simp] theorem placed_done (b : Building) (n : Node) (g : NodeId) :
    (b.placed n g).done = b.done := by
  rw [placed]
  split <;> rfl

/-- What one turn of the loop does. -/
theorem add_ok : b.add d = .ok b' ↔ d.jd = .ok d.read ∧
    (d.read.isGroup = true →
      ∀ m ∈ (b.groupQ d.read.id).getD [], m.checkAdded = .ok ()) ∧
    (∀ p ∈ b.done, d.parentId = some p → d.read.checkAdded = .ok ()) ∧
    b' = { (d.parentId.map ((b.drained d.read).placed d.read)).getD (b.drained d.read) with
      done := b.done ++ [d.read.id] } := by
  rw [add, bind_ok]
  constructor
  · rintro ⟨n, hn, h⟩
    obtain rfl := NodeData.read_of_jd hn
    obtain ⟨b₁, hb₁, h⟩ := bind_ok.mp h
    obtain ⟨hwaiting, rfl⟩ := drain_ok.mp hb₁
    obtain ⟨b₂, hb₂, h⟩ := bind_ok.mp h
    obtain rfl := pure_ok.mp h
    cases hp : d.parentId with
    | none =>
      obtain rfl : b.drained d.read = b₂ := by simpa [hp] using hb₂
      exact ⟨hn, hwaiting, by simp, by simp⟩
    | some p =>
      obtain ⟨hadded, rfl⟩ := place_ok.mp (by simpa [hp] using hb₂)
      refine ⟨hn, hwaiting, fun q hq hqp => ?_, by simp⟩
      obtain rfl := Option.some.inj hqp
      exact hadded (by simpa using hq)
  · rintro ⟨hn, hwaiting, hadded, rfl⟩
    refine ⟨_, hn, bind_ok.mpr ⟨_, drain_ok.mpr ⟨hwaiting, rfl⟩, ?_⟩⟩
    cases hp : d.parentId with
    | none => simp
    | some p =>
      refine bind_ok.mpr ⟨_, place_ok.mpr ⟨fun hq => ?_, rfl⟩, ?_⟩
      · exact hadded p (by simpa using hq) hp
      · simp [pure_ok]

end Building

end Steps

section Arrivals

variable {pre post ds es : List NodeData} {b b' : Building} {d : NodeData} {p : NodeId}

theorem membersOf_append (pre post : List NodeData) (p : NodeId) :
    membersOf (pre ++ post) p = membersOf pre p ++ membersOf post p :=
  List.filter_append pre post

theorem mem_membersOf : d ∈ membersOf ds p ↔ d ∈ ds ∧ d.parentId = some p := by
  simp [membersOf]

/-- How far the building is after some entries: who names a group that is there is in it, and
who names one that is not there waits. -/
structure Arrived (pre : List NodeData) (b : Building) : Prop where
  done : b.done = pre.map NodeData.id
  group : ∀ d ∈ pre, b.group d.id = d.parentId.filter fun p => decide (p ∈ pre.map NodeData.id)
  unborn : ∀ i ∉ pre.map NodeData.id, b.group i = none
  children : ∀ p, b.children p =
    if p ∈ pre.map NodeData.id then (membersOf pre p).map NodeData.id else []
  queue : ∀ p, b.groupQ p = if p ∈ pre.map NodeData.id ∨ membersOf pre p = [] then none
    else some ((membersOf pre p).map NodeData.read)
  typed : ∀ d ∈ pre, d.jd = .ok d.read
  added : ∀ d ∈ pre, ∀ p ∈ pre.map NodeData.id, d.parentId = some p → d.read.checkAdded = .ok ()

theorem arrived_nil : Arrived [] {} := by
  constructor <;> simp [membersOf]

theorem Arrived.read_id (h : Arrived pre b) (hd : d ∈ pre) : d.read.id = d.id :=
  (NodeData.jd_id (h.typed d hd)).1

/-- What waits for a group that is not there yet. -/
theorem Arrived.waiting (h : Arrived pre b) (hp : p ∉ pre.map NodeData.id) :
    (b.groupQ p).getD [] = (membersOf pre p).map NodeData.read := by
  rw [h.queue p]
  by_cases hm : membersOf pre p = [] <;> simp [hp, hm]

theorem Arrived.ids_read (h : Arrived pre b) (p : NodeId) :
    ((membersOf pre p).map NodeData.read).map Node.id = (membersOf pre p).map NodeData.id := by
  rw [List.map_map]
  exact List.map_congr_left fun d hd => h.read_id (mem_membersOf.mp hd).1

/-- A node that comes takes exactly the nodes that have named it. -/
theorem Arrived.drained_eq (h : Arrived pre b) {n : Node} (hn : n.id ∉ pre.map NodeData.id)
    (hg : n.isGroup = false → membersOf pre n.id = []) :
    b.drained n = { b with
      group := fun i => if i ∈ (membersOf pre n.id).map NodeData.id then some n.id else b.group i
      children := Function.update b.children n.id ((membersOf pre n.id).map NodeData.id)
      groupQ := Function.update b.groupQ n.id none } := by
  have hnone : b.children n.id = [] := by rw [h.children, if_neg hn]
  cases hgroup : n.isGroup with
  | true =>
    simp only [Building.drained, hgroup, if_true, Building.taken, h.waiting hn, h.ids_read, hnone,
      List.nil_append]
  | false =>
    have hm := hg hgroup
    have hq : b.groupQ n.id = none := by simp [h.queue, hm]
    have hc : Function.update b.children n.id [] = b.children := by
      rw [← hnone, Function.update_eq_self]
    have hq' : Function.update b.groupQ n.id none = b.groupQ := by
      rw [← hq, Function.update_eq_self]
    simp [Building.drained, hgroup, hm, hc, hq']

theorem membersOf_singleton (d : NodeData) (p : NodeId) :
    membersOf [d] p = if d.parentId = some p then [d] else [] := by
  simp [membersOf, List.filter_cons]

/-- The building after a node has come that does not name itself. -/
theorem Arrived.after (h : Arrived pre b) (hnew : d.id ∉ pre.map NodeData.id)
    (hgroup : d.node.isGroup = false → membersOf pre d.id = []) (hself : d.parentId ≠ some d.id)
    (hadd : b.add d = .ok b') :
    b'.done = (pre ++ [d]).map NodeData.id ∧
    (∀ i, b'.group i = if i = d.id then d.parentId.filter fun p => decide (p ∈ pre.map NodeData.id)
      else if i ∈ (membersOf pre d.id).map NodeData.id then some d.id else b.group i) ∧
    (∀ p, b'.children p = if p = d.id then (membersOf pre d.id).map NodeData.id
      else if d.parentId = some p ∧ p ∈ pre.map NodeData.id then b.children p ++ [d.id]
      else b.children p) ∧
    ∀ p, b'.groupQ p = if p = d.id then none
      else if d.parentId = some p ∧ p ∉ pre.map NodeData.id then
        some ((membersOf pre p).map NodeData.read ++ [d.read])
      else b.groupQ p := by
  obtain ⟨hjd, -, -, rfl⟩ := Building.add_ok.mp hadd
  obtain ⟨hid, hisg⟩ := NodeData.jd_id hjd
  have hdrained := h.drained_eq (n := d.read) (by rwa [hid]) (by rwa [hid, hisg])
  rw [hid] at hdrained ⊢
  have hunborn : d.id ∉ (membersOf pre d.id).map NodeData.id := fun hm =>
    hnew (((List.filter_sublist).map _).subset hm)
  refine ⟨by simp [h.done], ?_⟩
  cases hp : d.parentId with
  | none =>
    simp only [Option.map_none, Option.getD_none, hdrained, Function.update_apply]
    refine ⟨fun i => ?_, fun p => ?_, fun p => ?_⟩
    · by_cases hi : i = d.id
      · simp [hi, hunborn, h.unborn _ hnew]
      · simp [hi]
    · simp
    · simp
  | some p =>
    have hne : p ≠ d.id := fun he => hself (by rw [hp, he])
    have hgi : b.group d.id = none := h.unborn _ hnew
    rw [Option.map_some, Option.getD_some, Building.placed, Building.drained_done, h.done]
    by_cases hpre : p ∈ pre.map NodeData.id
    · rw [if_pos hpre, Building.taken, hdrained]
      refine ⟨fun i => ?_, fun q => ?_, fun q => ?_⟩
      · by_cases hi : i = d.id
        · simp [hi, hid, hpre, Option.filter]
        · simp [hi, hid]
      · by_cases hq : q = p
        · simp [hq, hne, hid, hpre]
        · simp [hq, Ne.symm hq, Function.update_apply]
      · by_cases hq : q = p
        · simp [hq, hne, hpre]
        · simp [Ne.symm hq, Function.update_apply]
    · rw [if_neg hpre, hdrained]
      refine ⟨fun i => ?_, fun q => ?_, fun q => ?_⟩
      · by_cases hi : i = d.id
        · simp [hi, hpre, hunborn, hgi, Option.filter]
        · simp [hi]
      · by_cases hq : q = p
        · simp [hq, hne, hpre]
        · simp [Ne.symm hq, Function.update_apply]
      · by_cases hq : q = p
        · simp [hq, hne, hpre, h.waiting hpre]
        · simp [hq, Ne.symm hq, Function.update_apply]

theorem id_notMem (h : ((pre ++ [d]).map NodeData.id).Nodup) : d.id ∉ pre.map NodeData.id := by
  rw [List.map_append, List.nodup_append] at h
  exact fun hm => h.2.2 _ hm _ (by simp) rfl

theorem filter_parentId {pre : List NodeData} {e d : NodeData} (h : e.parentId ≠ some d.id) :
    (e.parentId.filter fun p => decide (p ∈ (pre ++ [d]).map NodeData.id)) =
      e.parentId.filter fun p => decide (p ∈ pre.map NodeData.id) := by
  cases hp : e.parentId with
  | none => rfl
  | some p =>
    have hne : p ≠ d.id := fun he => h (by rw [hp, he])
    simp [Option.filter, hne]

/-- One more node. -/
theorem Arrived.add (h : Arrived pre b) (hids : ((pre ++ [d]).map NodeData.id).Nodup)
    (hgroup : d.node.isGroup = false → membersOf pre d.id = []) (hself : d.parentId ≠ some d.id)
    (hadd : b.add d = .ok b') : Arrived (pre ++ [d]) b' := by
  have hpre : (pre.map NodeData.id).Nodup := hids.sublist (by simp)
  have hnew := id_notMem hids
  obtain ⟨hdone, hgroups, hchildren, hqueue⟩ := h.after hnew hgroup hself hadd
  obtain ⟨hjd, hwaiting, hadded, -⟩ := Building.add_ok.mp hadd
  obtain ⟨hid, hisg⟩ := NodeData.jd_id hjd
  constructor
  · exact hdone
  · intro e he
    rw [hgroups e.id]
    rcases List.mem_append.mp he with he | he
    · have hne : e.id ≠ d.id := fun heq => hnew (heq ▸ List.mem_map_of_mem he)
      rw [if_neg hne]
      by_cases hp : e.parentId = some d.id
      · have hm : e.id ∈ (membersOf pre d.id).map NodeData.id :=
          List.mem_map_of_mem (mem_membersOf.mpr ⟨he, hp⟩)
        simp [hm, hp, Option.filter]
      · have hm : e.id ∉ (membersOf pre d.id).map NodeData.id := by
          intro hm
          obtain ⟨c, hc, hce⟩ := List.mem_map.mp hm
          obtain ⟨hcm, hcp⟩ := mem_membersOf.mp hc
          exact hp (List.inj_on_of_nodup_map hpre hcm he hce ▸ hcp)
        rw [if_neg hm, h.group e he, filter_parentId hp]
    · obtain rfl := List.mem_singleton.mp he
      rw [if_pos rfl, filter_parentId hself]
  · intro i hi
    rw [List.map_append, List.mem_append, not_or] at hi
    have hne : i ≠ d.id := by simpa using hi.2
    have hm : i ∉ (membersOf pre d.id).map NodeData.id := fun hm =>
      hi.1 ((List.filter_sublist.map _).subset hm)
    rw [hgroups, if_neg hne, if_neg hm, h.unborn i hi.1]
  · intro p
    rw [hchildren, membersOf_append, membersOf_singleton, h.children]
    by_cases hp : p = d.id
    · simp [hp, hself]
    · by_cases hm : p ∈ pre.map NodeData.id <;> by_cases hd : d.parentId = some p <;>
        simp [hp, hm, hd]
  · intro p
    rw [hqueue, membersOf_append, membersOf_singleton, h.queue]
    by_cases hp : p = d.id
    · simp [hp]
    · by_cases hm : p ∈ pre.map NodeData.id <;> by_cases hd : d.parentId = some p <;>
        simp [hp, hm, hd]
  · intro e he
    rcases List.mem_append.mp he with he | he
    · exact h.typed e he
    · obtain rfl := List.mem_singleton.mp he
      exact hjd
  · -- who named the new node has waited for it
    intro e he p hp hep
    rw [List.map_append, List.mem_append] at hp
    rcases List.mem_append.mp he with he | he
    · rcases hp with hp | hp
      · exact h.added e he p hp hep
      · obtain rfl : p = d.id := by simpa using hp
        have hm : e ∈ membersOf pre d.id := mem_membersOf.mpr ⟨he, hep⟩
        have hg : d.read.isGroup = true := by
          by_contra hg
          rw [hgroup (by simpa [hisg] using hg)] at hm
          simp at hm
        refine hwaiting hg e.read ?_
        rw [hid, h.waiting hnew]
        exact List.mem_map_of_mem hm
    · obtain rfl := List.mem_singleton.mp he
      rcases hp with hp | hp
      · exact hadded p (h.done ▸ hp) hep
      · obtain rfl : p = e.id := by simpa using hp
        exact absurd hep hself

theorem Proper.perm (h : Proper ds) (hp : ds.Perm es) : Proper es := by
  refine ⟨(hp.map _).nodup_iff.mp h.ids, fun d hd p hdp => ?_⟩
  obtain ⟨hne, g, hg, hgp⟩ := h.parents d (hp.mem_iff.mpr hd) p hdp
  exact ⟨hne, g, hp.mem_iff.mp hg, hgp⟩

/-- An entry that nothing speaks against: its node has a type, and can be nested if it is in a
group. -/
def NodeData.Accepted (d : NodeData) : Prop :=
  d.jd = .ok d.read ∧ (d.parentId.isSome = true → d.read.checkAdded = .ok ())

/-- The conditions of one turn. -/
theorem Proper.turn (h : Proper (pre ++ d :: post)) :
    ((pre ++ [d]).map NodeData.id).Nodup ∧
      (d.node.isGroup = false → membersOf pre d.id = []) ∧ d.parentId ≠ some d.id := by
  refine ⟨h.ids.sublist (by simp), fun hg => ?_, fun hself => ?_⟩
  · rw [List.eq_nil_iff_forall_not_mem]
    intro e he
    obtain ⟨he, hep⟩ := mem_membersOf.mp he
    obtain ⟨-, g, hgm, hgid, hgg⟩ := h.parents e (by simp [he]) d.id hep
    obtain rfl := List.inj_on_of_nodup_map h.ids hgm (by simp) hgid
    rw [hg] at hgg
    cases hgg
  · exact (h.parents d (by simp) d.id hself).1 rfl

theorem Proper.arrived (h : Proper ds) (hb : build ds = .ok b) : Arrived ds b := by
  refine foldlM_prefix_kept (fun pre d post c c' he hc hadd => ?_) arrived_nil hb
  obtain ⟨hids, hgroup, hself⟩ := (he ▸ h).turn
  exact hc.add hids hgroup hself hadd

theorem Arrived.accepted (h : Arrived ds b) (hp : Proper ds) (hd : d ∈ ds) : d.Accepted := by
  refine ⟨h.typed d hd, fun hsome => ?_⟩
  obtain ⟨p, hdp⟩ := Option.isSome_iff_exists.mp hsome
  obtain ⟨-, g, hg, rfl, -⟩ := hp.parents d hd p hdp
  exact h.added d hd g.id (List.mem_map_of_mem hg) hdp

/-- A node that nothing speaks against gets in, and so do those that wait for it. -/
theorem Arrived.exists_add (h : Arrived pre b) (hnew : d.id ∉ pre.map NodeData.id)
    (hd : d.Accepted) (hpre : ∀ e ∈ pre, e.Accepted) : ∃ b', b.add d = .ok b' := by
  refine ⟨_, Building.add_ok.mpr ⟨hd.1, fun _ m hm => ?_, fun p _ hp => ?_, rfl⟩⟩
  · rw [(NodeData.jd_id hd.1).1, h.waiting hnew] at hm
    obtain ⟨e, he, rfl⟩ := List.mem_map.mp hm
    obtain ⟨he, hep⟩ := mem_membersOf.mp he
    exact (hpre e he).2 (by simp [hep])
  · exact hd.2 (by simp [hp])

/-- Whether the nodes can be built is no matter of their order. -/
theorem Proper.build_iff (h : Proper ds) :
    (∃ b, build ds = .ok b) ↔ ∀ d ∈ ds, d.Accepted := by
  refine ⟨fun ⟨b, hb⟩ d hd => (h.arrived hb).accepted h hd, fun hall => ?_⟩
  have hrun : ∃ b, ds.foldlM Building.add {} = .ok b ∧ Arrived ds b := by
    refine foldlM_prefix (fun pre d post c he hc => ?_) arrived_nil
    subst he
    obtain ⟨hids, hgroup, hself⟩ := h.turn
    obtain ⟨c', hc'⟩ := hc.exists_add (id_notMem hids) (hall d (by simp))
      fun e he => hall e (by simp [he])
    exact ⟨c', hc', hc.add hids hgroup hself hc'⟩
  obtain ⟨b, hb, -⟩ := hrun
  exact ⟨b, hb⟩

/-- When every entry has arrived, nobody waits. -/
theorem Arrived.linked (h : Arrived ds b) (hp : Proper ds) : Linked ds b := by
  have hchildren : ∀ d ∈ ds, b.children d.id = (membersOf ds d.id).map NodeData.id := by
    intro d hd
    rw [h.children, if_pos (List.mem_map_of_mem hd)]
  refine ⟨fun p => ?_, fun d hd => ?_, hchildren, fun d hd => ?_⟩
  · rw [h.queue, if_pos]
    by_contra hno
    obtain ⟨hnot, hm⟩ := not_or.mp hno
    obtain ⟨e, he⟩ := List.exists_mem_of_ne_nil _ hm
    obtain ⟨he, hep⟩ := mem_membersOf.mp he
    obtain ⟨-, g, hg, rfl, -⟩ := hp.parents e he p hep
    exact hnot (List.mem_map_of_mem hg)
  · rw [h.group d hd]
    cases hdp : d.parentId with
    | none => rfl
    | some p =>
      obtain ⟨-, g, hg, rfl, -⟩ := hp.parents d hd p hdp
      have hm : g.id ∈ ds.map NodeData.id := List.mem_map_of_mem hg
      simp [Option.filter, hm]
  · rw [hchildren d hd]
    exact hp.ids.sublist (List.filter_sublist.map _)

theorem Proper.linked (h : Proper ds) (hb : build ds = .ok b) : Linked ds b :=
  (h.arrived hb).linked h

/-- The group forest does not depend on the order of `nodeDataArray`. -/
theorem build_perm (h : Proper ds) (hp : ds.Perm es) :
    ((∃ e, build ds = .error e) ∧ ∃ e, build es = .error e) ∨
      ∃ b c, build ds = .ok b ∧ build es = .ok c ∧ Linked ds b ∧ Linked es c := by
  have hiff : (∃ b, build ds = .ok b) ↔ ∃ c, build es = .ok c := by
    rw [h.build_iff, (h.perm hp).build_iff]
    exact ⟨fun hall d hd => hall d (hp.mem_iff.mpr hd), fun hall d hd => hall d (hp.mem_iff.mp hd)⟩
  cases hb : build ds with
  | ok b =>
    obtain ⟨c, hc⟩ := hiff.mp ⟨b, hb⟩
    exact Or.inr ⟨b, c, rfl, hc, h.linked hb, (h.perm hp).linked hc⟩
  | error e =>
    cases hc : build es with
    | ok c =>
      obtain ⟨b, hb'⟩ := hiff.mpr ⟨c, hc⟩
      rw [hb] at hb'
      cases hb'
    | error e' => exact Or.inl ⟨⟨e, rfl⟩, e', rfl⟩

end Arrivals

/-- An application and the Scatter it is in. -/
def scattered : List NodeData :=
  [{ node := { id := .int 2, category := .pythonApp, categoryType := .application }
     parentId := some (.int 1) },
    { node := { id := .int 1, category := .scatter, categoryType := .construct
                isGroup := true } }]

theorem proper_scattered : Proper scattered := by
  refine ⟨by decide, fun d hd p hp => ?_⟩
  simp only [scattered, List.mem_cons, List.not_mem_nil, or_false] at hd
  rcases hd with rfl | rfl
  · obtain rfl := Option.some.inj hp
    exact ⟨by decide, _, List.getElem_mem (n := 1) (by decide), rfl, rfl⟩
  · cases hp

theorem build_perm_scattered :
    ((∃ e, build scattered = .error e) ∧ ∃ e, build scattered.reverse = .error e) ∨
      ∃ b c, build scattered = .ok b ∧ build scattered.reverse = .ok c ∧ Linked scattered b ∧
        Linked scattered.reverse c :=
  build_perm proper_scattered (List.reverse_perm scattered).symm

/-- A Scatter that names itself. -/
def ownMember : NodeData where
  node := { id := .int 1, category := .scatter, categoryType := .construct, isGroup := true }
  parentId := some (.int 1)

/-- It looks for members before it waits, so it waits for ever. -/
theorem ownMember_waits : ¬ ∀ ds es : List NodeData, ds.Perm es → (ds.map NodeData.id).Nodup →
    (∀ d ∈ ds, ∀ p, d.parentId = some p → ∃ g ∈ ds, g.id = p ∧ g.node.isGroup = true) →
    ((∃ e, build ds = .error e) ∧ ∃ e, build es = .error e) ∨
      ∃ b c, build ds = .ok b ∧ build es = .ok c ∧ Linked ds b ∧ Linked es c := by
  intro h
  have hb : build [ownMember] = .ok {
      groupQ := Function.update (Function.update (fun _ => none) (.int 1) none) (.int 1)
        (some [ownMember.node])
      done := [.int 1] } := rfl
  rcases h [ownMember] [ownMember] (.refl _) (by simp) (by simp [ownMember, NodeData.id]) with
    ⟨⟨e, he⟩, -⟩ | ⟨b, -, hb', -, hl, -⟩
  · rw [hb] at he
    cases he
  · rw [hb] at hb'
    cases hb'
    have hq := hl.queue (.int 1)
    simp at hq

/-! The forest of a logical graph, as the array its nodes stand in. -/

section Forest

variable {lg : LogicalGraph} {n : LGNode}

/-- What stands in the array for a node. -/
def LGNode.entry (n : LGNode) : NodeData := { node := n.node, parentId := n.group.map LGNode.id }

def LogicalGraph.nodeDataArray (lg : LogicalGraph) : List NodeData := lg.nodes.map LGNode.entry

theorem checkNested_eq (h : n.groups ≠ []) : n.checkNested = n.node.checkAdded := by
  have he : n.groups.isEmpty = false := by simpa using h
  rw [LGNode.checkNested, Node.checkAdded, he]
  by_cases hg : n.isGroup = true
  · have hg' : n.node.isGroup = true := hg
    rw [if_pos (by simp [hg]), if_pos hg']
    cases hh : n.node.handler with
    | error e => rfl
    | ok handler => cases handler <;> rfl
  · have hg' : ¬ n.node.isGroup = true := hg
    rw [if_neg (by simp [hg]), if_neg hg']

theorem LGNode.entry_accepted (n : LGNode) : n.entry.Accepted ↔ n.checkNested = .ok () := by
  have hjd : n.entry.jd = .ok n.node := rfl
  have hread : n.entry.read = n.node := NodeData.read_of_jd hjd
  rw [NodeData.Accepted, hjd, hread]
  cases hgroups : n.groups with
  | nil =>
    have hnone : n.entry.parentId = none := by simp [LGNode.entry, LGNode.group, hgroups]
    simp [hnone, LGNode.checkNested, hgroups]
  | cons g gs =>
    have hsome : n.entry.parentId.isSome = true := by
      simp [LGNode.entry, LGNode.group, hgroups]
    simp [hsome, checkNested_eq (n := n) (by simp [hgroups])]

theorem proper_nodeDataArray (hg : ∀ n ∈ lg.nodes, ∀ g ∈ n.groups, g.isGroup = true) :
    Proper lg.nodeDataArray := by
  refine ⟨?_, fun d hd p hp => ?_⟩
  · have he : lg.nodeDataArray.map NodeData.id = lg.nodes.map LGNode.id := by
      simp only [LogicalGraph.nodeDataArray, List.map_map]
      rfl
    rw [he]
    exact lg.ids_nodup
  · obtain ⟨n, hn, rfl⟩ := List.mem_map.mp hd
    obtain ⟨m, hm, rfl⟩ := Option.map_eq_some_iff.mp hp
    cases hgroups : n.groups with
    | nil => simp [LGNode.group, hgroups] at hm
    | cons g gs =>
      obtain rfl : ⟨g, gs⟩ = m := by simpa [LGNode.group, hgroups] using hm
      have hstart : n.groups = [] ++ g :: gs := hgroups
      have hmem : ⟨g, gs⟩ ∈ lg.nodes := mem_nodes_of_groups hn hstart List.nil_suffix
      refine ⟨fun he => ?_, _, List.mem_map_of_mem hmem, rfl, hg n hn g (by simp [hgroups])⟩
      have hsame := eq_of_id hmem hn he
      rw [← hsame] at hgroups
      simp at hgroups

/-- The nodes of a graph come together in any order, unless a group is not to be nested. -/
theorem build_nodeDataArray_iff (hg : ∀ n ∈ lg.nodes, ∀ g ∈ n.groups, g.isGroup = true)
    {ds : List NodeData} (hp : lg.nodeDataArray.Perm ds) :
    (∃ b, build ds = .ok b ∧ ∀ n ∈ lg.nodes, b.group n.id = n.group.map LGNode.id) ↔
      lg.nodes.forM LGNode.checkNested = .ok () := by
  have hproper := (proper_nodeDataArray hg).perm hp
  have haccepted : (∀ d ∈ ds, d.Accepted) ↔ ∀ n ∈ lg.nodes, n.checkNested = .ok () := by
    have hmem (d : NodeData) : d ∈ ds ↔ ∃ n ∈ lg.nodes, n.entry = d := by
      rw [← hp.mem_iff, LogicalGraph.nodeDataArray, List.mem_map]
    constructor
    · exact fun h n hn => n.entry_accepted.mp (h _ ((hmem _).mpr ⟨n, hn, rfl⟩))
    · intro h d hd
      obtain ⟨n, hn, rfl⟩ := (hmem d).mp hd
      exact n.entry_accepted.mpr (h n hn)
  rw [forM_ok, ← haccepted, ← hproper.build_iff]
  constructor
  · rintro ⟨b, hb, -⟩
    exact ⟨b, hb⟩
  · rintro ⟨b, hb⟩
    refine ⟨b, hb, fun n hn => ?_⟩
    exact (hproper.linked hb).group _ (hp.mem_iff.mp (List.mem_map_of_mem hn))

end Forest

end Daliuge.Unroll
