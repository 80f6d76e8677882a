import Mathlib.Data.List.Pairwise
import Mathlib.Order.Bounds.Defs
import Daliuge.Partition.Longest

/-!
# Placing nodes on lanes

`schedule_matrix` goes through the nodes in topological order and puts each on the first lane
that is free from its start on, or on the lane of the node placed before it when that one leads
to it. A lane is known by the end of the node put there last.
-/
namespace Daliuge.Partition

open Collect

variable {V : Type} [LinearOrder V]

/-- The matrix, the ends of the lanes, and the node placed last with its lane. A cell that is
still 0 holds no node. -/
structure Lanes (V : Type) where
  ma : Nat → Nat → Option V := fun _ _ => none
  pr : Nat → Int := fun _ => 0
  last : Option (V × Nat) := none

section Functions

variable (G : Digraph V) (W : Weights V) (maxDop : Nat)

/-- The lane of the node placed before, when that one leads here. -/
def Lanes.previous (s : Lanes V) (n : V) : Option Nat :=
  match s.last with
  | none => none
  | some (prev, pid) => if prev ∈ G.predecessors n then some pid else none

def Lanes.firstFree (s : Lanes V) (stt : Int) : Except Err Nat :=
  match (List.range maxDop).find? fun i => s.pr i ≤ stt with
  | some i => .ok i
  | none => .error (.schedulerException "Cannot find a idle PID")

def Lanes.pid (s : Lanes V) (n : V) (stt : Int) : Except Err Nat :=
  match s.previous G n with
  | some pid => .ok pid
  | none => s.firstFree maxDop stt

/-- `ma[pid, stt:edt] = n`: what lies beyond the last column is left out. -/
def Lanes.write (s : Lanes V) (columns : Int) (n : V) (l : Label) (pid : Nat) : Lanes V where
  ma i t := if i = pid ∧ l.stt ≤ t ∧ (t : Int) < l.edt ∧ (t : Int) < columns then some n
    else s.ma i t
  pr := Function.update s.pr pid l.edt
  last := some (n, pid)

/-- The body of the loop in `schedule_matrix`. -/
def placeNode (columns : Int) (labels : V → Option Label) (s : Lanes V) (n : V) :
    Except Err (Lanes V) :=
  match labels n with
  | none => .error (.schedulerException "No schedule labels found")
  | some l =>
    if l.edt = l.stt then .ok s
    else do return s.write columns n l (← s.pid G maxDop n l.stt)

/-- `schedule_matrix` of a new `Schedule`. -/
def scheduleMatrix (labelOrder pathOrder order : List V) : Except Err (Lanes V) := do
  let labels ← labelSchedule G W labelOrder
  let lpl ← getLongestPath G W 0 pathOrder
  order.foldlM (placeNode G maxDop (max lpl.2 1) labels) {}

end Functions

/-- Every node that takes time has one lane for all of its time, and shares it with none. -/
structure Feasible (nodes : List V) (stt edt : V → Int) (maxDop : Nat) (ma : Nat → Nat → Option V)
    (lane : V → Nat) : Prop where
  inRange : ∀ n ∈ nodes, stt n < edt n → lane n < maxDop
  whole : ∀ n ∈ nodes, ∀ t : Nat, stt n ≤ t → (t : Int) < edt n → ma (lane n) t = some n
  only : ∀ n i (t : Nat), ma i t = some n → i = lane n ∧ n ∈ nodes ∧ stt n ≤ t ∧ (t : Int) < edt n
  apart : ∀ n ∈ nodes, ∀ m ∈ nodes, n ≠ m → lane n = lane m → stt n < edt n → stt m < edt m →
    edt n ≤ stt m ∨ edt m ≤ stt n

/-- What is said of the matrix: nothing is raised and the placement is feasible. -/
def SchedulesAll (G : Digraph V) (W : Weights V) (maxDop : Nat)
    (labelOrder pathOrder order : List V) : Prop :=
  ∃ s stt edt lane, scheduleMatrix G W maxDop labelOrder pathOrder order = .ok s ∧
    (∃ labels, labelSchedule G W labelOrder = .ok labels ∧
      ∀ v ∈ G.nodes, labels v = some ⟨stt v, edt v⟩) ∧
    Feasible G.nodes stt edt maxDop s.ma lane

/-- The nodes that take time, of those that come before `n` in the order. -/
def placedBefore (stt edt : V → Int) (order : List V) (n : V) : List V :=
  (order.takeWhile (· ≠ n)).filter fun m => stt m < edt m

/-- First fit: `n` gets the number of the node placed just before it, when that one leads to it,
and else the least number whose nodes so far have all ended when `n` starts. -/
def FirstFit (G : Digraph V) (stt edt : V → Int) (placed : List V) (lane : V → Nat) (n : V)
    (i : Nat) : Prop :=
  (∃ prev ∈ placed.getLast?, prev ∈ G.predecessors n ∧ lane prev = i) ∨
  (∀ prev ∈ placed.getLast?, prev ∉ G.predecessors n) ∧
    IsLeast {j | ∀ m ∈ placed, lane m = j → edt m ≤ stt n} i

/-- Numbering the nodes that take time by first fit needs only numbers below `maxDop`. -/
def FewNumbers (G : Digraph V) (W : Weights V) (maxDop : Nat) (order : List V) : Prop :=
  ∃ stt edt lane, Timed G W G.nodes stt edt ∧ ∀ n ∈ G.nodes, stt n < edt n →
    FirstFit G stt edt (placedBefore stt edt order n) lane n (lane n) ∧ lane n < maxDop

section Placing

variable {G : Digraph V} {W : Weights V} {maxDop : Nat} {stt edt : V → Int} {s : Lanes V}
  {placed : List V} {n : V} {columns : Int} {lane lane' : V → Nat}

theorem FirstFit.congr {i : Nat} (h : FirstFit G stt edt placed lane n i)
    (hl : ∀ m ∈ placed, lane m = lane' m) : FirstFit G stt edt placed lane' n i := by
  rcases h with ⟨prev, hprev, hmem, hi⟩ | ⟨hprev, hleast⟩
  · exact Or.inl ⟨prev, hprev, hmem, by rw [← hl prev (List.mem_of_getLast? hprev), hi]⟩
  · have hset : {j | ∀ m ∈ placed, lane m = j → edt m ≤ stt n} =
        {j | ∀ m ∈ placed, lane' m = j → edt m ≤ stt n} := by
      ext j
      exact forall₂_congr fun m hm => by rw [hl m hm]
    exact Or.inr ⟨hprev, hset ▸ hleast⟩

/-- The placement so far of the nodes that take time. -/
structure Placed (maxDop : Nat) (columns : Int) (stt edt : V → Int) (placed : List V)
    (s : Lanes V) (lane : V → Nat) : Prop where
  inRange : ∀ n ∈ placed, lane n < maxDop
  cells : ∀ n i (t : Nat), s.ma i t = some n ↔
    n ∈ placed ∧ lane n = i ∧ stt n ≤ t ∧ (t : Int) < edt n ∧ (t : Int) < columns
  apart : placed.Pairwise fun m n => lane m = lane n → edt m ≤ stt n
  free : ∀ i t, 0 ≤ t → (s.pr i ≤ t ↔ ∀ m ∈ placed, lane m = i → edt m ≤ t)
  last : s.last = placed.getLast?.map fun m => (m, lane m)

omit [LinearOrder V] in
theorem placed_nil : Placed maxDop columns stt edt [] ({} : Lanes V) lane := by
  constructor <;> simp

omit [LinearOrder V] in
theorem Placed.congr (h : Placed maxDop columns stt edt placed s lane)
    (hl : ∀ m ∈ placed, lane m = lane' m) : Placed maxDop columns stt edt placed s lane' where
  inRange m hm := hl m hm ▸ h.inRange m hm
  cells m i t := by
    rw [h.cells]
    exact and_congr_right fun hm => by rw [hl m hm]
  apart := h.apart.imp_of_mem fun ha hb hab he => hab (by rw [hl _ ha, hl _ hb, he])
  free i t ht := by
    rw [h.free i t ht]
    exact forall₂_congr fun m hm => by rw [hl m hm]
  last := by
    rw [h.last]
    exact Option.map_congr fun m hm => by rw [hl m (List.mem_of_getLast? hm)]

omit [LinearOrder V] in
/-- A node put on a lane that ends before it starts. -/
theorem Placed.write (h : Placed maxDop columns stt edt placed s lane) (hstart : 0 ≤ stt n)
    (hpos : stt n < edt n) (hlt : lane n < maxDop)
    (hfree : ∀ m ∈ placed, lane m = lane n → edt m ≤ stt n) :
    Placed maxDop columns stt edt (placed ++ [n]) (s.write columns n ⟨stt n, edt n⟩ (lane n))
      lane where
  inRange m hm := by
    rcases List.mem_append.mp hm with hm | hm
    · exact h.inRange m hm
    · rwa [List.mem_singleton.mp hm]
  cells m i t := by
    simp only [Lanes.write, List.mem_append, List.mem_singleton]
    split
    case isTrue hcell =>
      obtain ⟨rfl, h1, h2, h3⟩ := hcell
      constructor
      · rintro ⟨rfl⟩
        exact ⟨Or.inr rfl, rfl, h1, h2, h3⟩
      · rintro ⟨hm | rfl, hl, h4, h5, -⟩
        · -- who is on the lane has ended
          have := hfree m hm hl
          omega
        · rfl
    case isFalse hcell =>
      rw [h.cells]
      constructor
      · exact fun ⟨hm, hrest⟩ => ⟨Or.inl hm, hrest⟩
      · rintro ⟨hm | rfl, hl, hrest⟩
        · exact ⟨hm, hl, hrest⟩
        · exact absurd ⟨hl.symm, hrest⟩ hcell
  apart := by
    refine List.pairwise_append.mpr ⟨h.apart, List.pairwise_singleton _ _, fun m hm b hb => ?_⟩
    rw [List.mem_singleton.mp hb]
    exact hfree m hm
  free i t ht := by
    simp only [Lanes.write, List.mem_append, List.mem_singleton]
    by_cases hi : i = lane n
    · subst hi
      rw [Function.update_self]
      constructor
      · rintro hle m (hm | rfl) hl
        · have := hfree m hm hl
          omega
        · exact hle
      · exact fun hall => hall n (Or.inr rfl) rfl
    · rw [Function.update_of_ne hi, h.free i t ht]
      constructor
      · rintro hall m (hm | rfl) hl
        · exact hall m hm hl
        · exact absurd hl.symm hi
      · exact fun hall m hm => hall m (Or.inl hm)
  last := by simp [Lanes.write]

omit [LinearOrder V] in
theorem firstFree_ok_iff {i : Nat} {t : Int} : s.firstFree maxDop t = .ok i ↔
    i < maxDop ∧ IsLeast {j | s.pr j ≤ t} i := by
  have hfind : (List.range maxDop).find? (fun j => s.pr j ≤ t) = some i ↔
      i < maxDop ∧ IsLeast {j | s.pr j ≤ t} i := by
    rw [List.find?_range_eq_some]
    simp only [decide_eq_true_eq, List.mem_range, Bool.not_eq_true', decide_eq_false_iff_not]
    constructor
    · rintro ⟨hle, hi, hbelow⟩
      exact ⟨hi, hle, fun j hj => not_lt.mp fun hlt => hbelow j hlt hj⟩
    · rintro ⟨hi, hle, hleast⟩
      exact ⟨hle, hi, fun j hj hp => absurd (hleast hp) (not_le.mpr hj)⟩
  rw [← hfind, Lanes.firstFree]
  cases (List.range maxDop).find? fun j => s.pr j ≤ t <;> simp

/-- The lane a node is given is the one of first fit, as long as there is such a lane. -/
theorem Placed.pid_ok_iff (h : Placed maxDop columns stt edt placed s lane) (hstart : 0 ≤ stt n)
    {i : Nat} : s.pid G maxDop n (stt n) = .ok i ↔
      FirstFit G stt edt placed lane n i ∧ i < maxDop := by
  have hset : {j | s.pr j ≤ stt n} = {j | ∀ m ∈ placed, lane m = j → edt m ≤ stt n} := by
    ext j
    exact h.free j _ hstart
  unfold Lanes.pid Lanes.previous FirstFit
  rw [h.last]
  cases hlast : placed.getLast? with
  | none => simp [firstFree_ok_iff, hset, and_comm]
  | some prev =>
    have hlt := h.inRange prev (List.mem_of_getLast? hlast)
    by_cases hedge : G.Edge prev n
    · have : lane prev = i → i < maxDop := fun hi => hi ▸ hlt
      simpa [hedge] using this
    · simp [hedge, firstFree_ok_iff, hset, and_comm]

/-- What leads to a node has ended before it starts. -/
theorem edt_le_stt (ht : Timed G W G.nodes stt edt) (hG : G.Dag) {u v : V}
    (h : Relation.TransGen G.Edge u v) : edt u ≤ stt v := by
  induction h with
  | @single c he =>
    have h1 := ht.after c (hG.closed u c he).2 u he
    have h2 : 0 ≤ W.ofEdge u c := ofEdge_nonneg
    omega
  | @tail b c _ he ih =>
    have h1 := ht.after c (hG.closed b c he).2 b he
    have h2 := ht.ends b (hG.closed b c he).1
    have h3 : 0 ≤ W.ofEdge b c := ofEdge_nonneg
    have h4 : 0 ≤ W.ofNode b := ofNode_nonneg
    omega

/-- Who has the number that first fit gives to a node has ended when the node starts. -/
theorem Placed.firstFit_free (h : Placed maxDop columns stt edt placed s lane)
    (ht : Timed G W G.nodes stt edt) (hG : G.Dag) (hlong : ∀ m ∈ placed, stt m < edt m) {i : Nat}
    (hi : FirstFit G stt edt placed lane n i) : ∀ m ∈ placed, lane m = i → edt m ≤ stt n := by
  rcases hi with ⟨prev, hprev, hmem, rfl⟩ | ⟨-, hleast⟩
  · intro m hm hl
    have he := edt_le_stt ht hG (.single (Digraph.mem_predecessors.mp hmem))
    -- on its lane the node placed last is the last to end
    obtain ⟨front, rfl⟩ := List.getLast?_eq_some_iff.mp hprev
    rcases List.mem_append.mp hm with hm | hm
    · have h1 := (List.pairwise_append.mp h.apart).2.2 m hm prev (by simp) hl
      have h2 := hlong prev (by simp)
      omega
    · rwa [List.mem_singleton.mp hm]
  · exact hleast.1

/-- A node put on the lane of first fit: it gets the number, the others keep theirs. -/
theorem Placed.put (h : Placed maxDop columns stt edt placed s lane)
    (ht : Timed G W G.nodes stt edt) (hG : G.Dag) (hlong : ∀ m ∈ placed, stt m < edt m)
    (hn : n ∈ G.nodes) (hnp : n ∉ placed) (hpos : stt n < edt n) {i : Nat}
    (hfit : FirstFit G stt edt placed lane n i) (hi : i < maxDop) :
    Placed maxDop columns stt edt (placed ++ [n]) (s.write columns n ⟨stt n, edt n⟩ i)
      (Function.update lane n i) := by
  have hkeep : ∀ m ∈ placed, lane m = Function.update lane n i m := fun m hm =>
    (Function.update_of_ne (ne_of_mem_of_not_mem hm hnp) ..).symm
  have hself : Function.update lane n i n = i := Function.update_self ..
  have hfree := h.firstFit_free ht hG hlong hfit
  have hwrite := (h.congr hkeep).write (ht.nonneg n hn) hpos (by rwa [hself])
    fun m hm he => hfree m hm (by rw [hkeep m hm, he, hself])
  rwa [hself] at hwrite

omit [LinearOrder V] in
/-- In a matrix with enough columns the placement of all nodes is feasible. -/
theorem Placed.feasible {nodes : List V} (h : Placed maxDop columns stt edt placed s lane)
    (hmem : ∀ n, n ∈ placed ↔ n ∈ nodes ∧ stt n < edt n) (hc : ∀ n ∈ nodes, edt n ≤ columns) :
    Feasible nodes stt edt maxDop s.ma lane where
  inRange n hn hp := h.inRange n ((hmem n).mpr ⟨hn, hp⟩)
  whole n hn t h1 h2 := by
    have := hc n hn
    exact (h.cells n _ t).mpr ⟨(hmem n).mpr ⟨hn, by omega⟩, rfl, h1, h2, by omega⟩
  only n i t hm := by
    obtain ⟨hn, hl, h1, h2, -⟩ := (h.cells n i t).mp hm
    exact ⟨hl.symm, ((hmem n).mp hn).1, h1, h2⟩
  apart a ha b hb hab hl hpa hpb := by
    have : Std.Symm fun m n => lane m = lane n → edt m ≤ stt n ∨ edt n ≤ stt m :=
      ⟨fun _ _ h he => (h he.symm).symm⟩
    have heither := h.apart.imp (S := fun m n => lane m = lane n → edt m ≤ stt n ∨ edt n ≤ stt m)
      fun h he => Or.inl (h he)
    exact heither.forall ((hmem a).mpr ⟨ha, hpa⟩) ((hmem b).mpr ⟨hb, hpb⟩) hab hl

omit [LinearOrder V] in
/-- A node whose time is in the matrix ends within the columns. -/
theorem Placed.edt_le (h : Placed maxDop columns stt edt placed s lane) (hstart : 0 ≤ stt n)
    (hpos : stt n < edt n)
    (hcell : ∀ t : Nat, stt n ≤ t → (t : Int) < edt n → ∃ i, s.ma i t = some n) :
    edt n ≤ columns := by
  obtain ⟨t, ht⟩ := Int.eq_ofNat_of_zero_le (a := edt n - 1) (by omega)
  obtain ⟨i, hi⟩ := hcell t (by omega) (by omega)
  have := ((h.cells n i t).mp hi).2.2.2.2
  omega

omit [LinearOrder V] in
theorem long_of_mem {pre : List V} {m : V} (hm : m ∈ pre.filter fun m => stt m < edt m) :
    stt m < edt m := by
  simpa using List.of_mem_filter hm

theorem placedBefore_eq {pre post : List V} (hn : n ∉ pre) :
    placedBefore stt edt (pre ++ n :: post) n = pre.filter fun m => stt m < edt m := by
  have hne : ∀ m ∈ pre, decide (m ≠ n) = true := fun m hm => by
    simpa using fun he : m = n => hn (he ▸ hm)
  rw [placedBefore, List.takeWhile_append_of_pos hne]
  simp

theorem placeNode_skip {labels : V → Option Label} (hl : labels n = some ⟨stt n, edt n⟩)
    (hz : edt n = stt n) : placeNode G maxDop columns labels s n = .ok s := by
  simp [placeNode, hl, hz]

theorem placeNode_eq {labels : V → Option Label} (hl : labels n = some ⟨stt n, edt n⟩)
    (hz : edt n ≠ stt n) : placeNode G maxDop columns labels s n =
      (s.pid G maxDop n (stt n)).bind fun i => .ok (s.write columns n ⟨stt n, edt n⟩ i) := by
  simp only [placeNode, hl, hz, if_false]
  rfl

/-- Numbered by first fit with few enough numbers, all nodes are placed as numbered. -/
theorem placeAll_ok {order : List V} {labels : V → Option Label}
    (ht : Timed G W G.nodes stt edt) (hG : G.Dag) (ho : G.TopologicalSort order)
    (hl : ∀ v ∈ G.nodes, labels v = some ⟨stt v, edt v⟩)
    (hlane : ∀ n ∈ G.nodes, stt n < edt n →
      FirstFit G stt edt (placedBefore stt edt order n) lane n (lane n) ∧ lane n < maxDop) :
    ∃ s, order.foldlM (placeNode G maxDop columns labels) {} = .ok s ∧
      Placed maxDop columns stt edt (order.filter fun m => stt m < edt m) s lane := by
  refine foldlM_prefix (I := fun pre s =>
    Placed maxDop columns stt edt (pre.filter fun m => stt m < edt m) s lane)
    (fun pre n post s he hpl => ?_) placed_nil
  have hn : n ∈ G.nodes := ho.mem_iff.mp (by simp [he])
  have hnp : n ∉ pre := ho.notMem_before hG he
  by_cases hz : edt n = stt n
  · exact ⟨s, placeNode_skip (hl n hn) hz, by simpa [hz] using hpl⟩
  · have hpos : stt n < edt n := ht.lt_of_ne hn hz
    obtain ⟨hfit, hlt⟩ := hlane n hn hpos
    rw [he, placedBefore_eq hnp] at hfit
    have hpid := (hpl.pid_ok_iff (ht.nonneg n hn)).mpr ⟨hfit, hlt⟩
    refine ⟨_, by rw [placeNode_eq (hl n hn) hz, hpid]; rfl, ?_⟩
    have hfree := hpl.firstFit_free ht hG (fun m hm => long_of_mem hm) hfit
    simpa [hpos] using hpl.write (ht.nonneg n hn) hpos hlt hfree

/-- Where nothing is raised the nodes have been numbered by first fit. -/
theorem of_placeAll {order : List V} {labels : V → Option Label}
    (ht : Timed G W G.nodes stt edt) (hG : G.Dag) (ho : G.TopologicalSort order)
    (hl : ∀ v ∈ G.nodes, labels v = some ⟨stt v, edt v⟩)
    (hrun : order.foldlM (placeNode G maxDop columns labels) {} = .ok s) :
    ∃ lane, Placed maxDop columns stt edt (order.filter fun m => stt m < edt m) s lane ∧
      ∀ n ∈ G.nodes, stt n < edt n →
        FirstFit G stt edt (placedBefore stt edt order n) lane n (lane n) ∧ lane n < maxDop := by
  suffices h : ∃ lane, Placed maxDop columns stt edt (order.filter fun m => stt m < edt m) s lane ∧
      ∀ n ∈ order, stt n < edt n →
        FirstFit G stt edt (placedBefore stt edt order n) lane n (lane n) by
    obtain ⟨lane, hpl, hfit⟩ := h
    refine ⟨lane, hpl, fun n hn hpos => ⟨hfit n (ho.mem_iff.mpr hn) hpos, ?_⟩⟩
    exact hpl.inRange n (List.mem_filter.mpr ⟨ho.mem_iff.mpr hn, by simpa using hpos⟩)
  refine foldlM_prefix_kept (I := fun pre s => ∃ lane,
    Placed maxDop columns stt edt (pre.filter fun m => stt m < edt m) s lane ∧
      ∀ n ∈ pre, stt n < edt n → FirstFit G stt edt (placedBefore stt edt order n) lane n (lane n))
    (fun pre n post s s' he hI hstep => ?_) ⟨fun _ => 0, placed_nil, by simp⟩ hrun
  obtain ⟨lane, hpl, hfits⟩ := hI
  have hn : n ∈ G.nodes := ho.mem_iff.mp (by simp [he])
  have hnp : n ∉ pre := ho.notMem_before hG he
  by_cases hz : edt n = stt n
  · rw [placeNode_skip (hl n hn) hz] at hstep
    obtain rfl := Except.ok.inj hstep
    refine ⟨lane, by simpa [hz] using hpl, fun m hm hp => ?_⟩
    rcases List.mem_append.mp hm with hm | hm
    · exact hfits m hm hp
    · rw [List.mem_singleton.mp hm, hz] at hp
      exact absurd hp (lt_irrefl _)
  · have hpos : stt n < edt n := ht.lt_of_ne hn hz
    rw [placeNode_eq (hl n hn) hz] at hstep
    obtain ⟨i, hpid, hs⟩ := bind_ok.mp hstep
    obtain rfl := Except.ok.inj hs
    obtain ⟨hfit, hlt⟩ := (hpl.pid_ok_iff (ht.nonneg n hn)).mp hpid
    have hnp' : n ∉ pre.filter fun m => stt m < edt m := fun hm =>
      hnp (List.mem_of_mem_filter hm)
    have hkeep : ∀ m ∈ pre, lane m = Function.update lane n i m := fun m hm =>
      (Function.update_of_ne (ne_of_mem_of_not_mem hm hnp) ..).symm
    refine ⟨Function.update lane n i, ?_, fun m hm hp => ?_⟩
    · simpa [hpos] using hpl.put ht hG (fun m hm => long_of_mem hm) hn hnp' hpos hfit hlt
    · rcases List.mem_append.mp hm with hm | hm
      · rw [← hkeep m hm]
        refine (hfits m hm hp).congr fun a ha => hkeep a ?_
        obtain ⟨front, back, rfl⟩ := List.append_of_mem hm
        have hsplit : order = front ++ m :: (back ++ n :: post) := by simp [he]
        rw [hsplit, placedBefore_eq (ho.notMem_before hG hsplit)] at ha
        exact List.mem_append_left _ (List.mem_of_mem_filter ha)
      · obtain rfl := List.mem_singleton.mp hm
        rw [Function.update_self, he, placedBefore_eq hnp]
        exact hfit.congr fun a ha => hkeep a (List.mem_of_mem_filter ha)

/-- Where no node placed before starts later, more lanes under way than a largest antichain has
nodes cannot be. -/
theorem exists_free (ht : Timed G W G.nodes stt edt) (hG : G.Dag)
    (hplaced : ∀ m ∈ placed, m ∈ G.nodes ∧ stt m < edt m ∧ stt m ≤ stt n) (hn : n ∈ G.nodes)
    (hnp : n ∉ placed) (hpos : stt n < edt n)
    (hwidth : ∀ ns, G.Antichain ns → ns.length ≤ maxDop) :
    ∃ i < maxDop, ∀ m ∈ placed, lane m = i → edt m ≤ stt n := by
  by_contra hbusy
  push Not at hbusy
  have : Nonempty V := ⟨n⟩
  choose! m hm hl hafter using hbusy
  have hinj : ∀ i ∈ List.range maxDop, ∀ j ∈ List.range maxDop, m i = m j → i = j := by
    intro i hi j hj he
    rw [← hl i (List.mem_range.mp hi), ← hl j (List.mem_range.mp hj), he]
  -- all of them and the node itself are under way when it starts
  have hnow : ∀ a ∈ n :: (List.range maxDop).map m, a ∈ G.nodes ∧ stt a ≤ stt n ∧
      stt n < edt a := by
    intro a ha
    rcases List.mem_cons.mp ha with rfl | ha
    · exact ⟨hn, le_rfl, hpos⟩
    · obtain ⟨i, hi, rfl⟩ := List.mem_map.mp ha
      have hi := List.mem_range.mp hi
      obtain ⟨h1, -, h2⟩ := hplaced _ (hm i hi)
      exact ⟨h1, h2, hafter i hi⟩
  have hanti : G.Antichain (n :: (List.range maxDop).map m) := by
    refine ⟨List.nodup_cons.mpr ⟨fun hmem => ?_, ?_⟩, fun a ha => (hnow a ha).1, ?_⟩
    · obtain ⟨i, hi, he⟩ := List.mem_map.mp hmem
      exact hnp (he ▸ hm i (List.mem_range.mp hi))
    · exact List.Nodup.map_on hinj List.nodup_range
    · intro a ha b hb hab
      have h1 := edt_le_stt ht hG hab
      have h2 := (hnow a ha).2.2
      have h3 := (hnow b hb).2.1
      omega
  have hlen := hwidth _ hanti
  rw [List.length_cons, List.length_map, List.length_range] at hlen
  omega

/-- First fit gives the node a lane where one is free. -/
theorem Placed.exists_firstFit (h : Placed maxDop columns stt edt placed s lane)
    (hfree : ∃ i < maxDop, ∀ m ∈ placed, lane m = i → edt m ≤ stt n) :
    ∃ i < maxDop, FirstFit G stt edt placed lane n i := by
  classical
  by_cases hprev : ∃ prev ∈ placed.getLast?, prev ∈ G.predecessors n
  · obtain ⟨prev, hlast, hmem⟩ := hprev
    exact ⟨lane prev, h.inRange prev (List.mem_of_getLast? hlast), Or.inl ⟨prev, hlast, hmem, rfl⟩⟩
  · obtain ⟨i, hi, hfree⟩ := hfree
    have hex : ∃ i, ∀ m ∈ placed, lane m = i → edt m ≤ stt n := ⟨i, hfree⟩
    refine ⟨Nat.find hex, (Nat.find_min' hex hfree).trans_lt hi, Or.inr ⟨?_, ?_⟩⟩
    · exact fun prev hlast hmem => hprev ⟨prev, hlast, hmem⟩
    · exact ⟨Nat.find_spec hex, fun j hj => Nat.find_min' hex hj⟩

/-- Where the nodes that take time come in the order of their starts, as many numbers as a
largest antichain has nodes are enough. -/
theorem fewNumbers_of_sorted {order : List V} (hG : G.Dag) (ho : G.TopologicalSort order)
    (hwidth : ∀ ns, G.Antichain ns → ns.length ≤ maxDop)
    (hsorted : ∀ stt edt, Timed G W G.nodes stt edt →
      order.Pairwise fun u v => stt u < edt u → stt v < edt v → stt u ≤ stt v) :
    FewNumbers G W maxDop order := by
  obtain ⟨stt, edt, labels, -, ht, hl⟩ := labelSchedule_ok (W := W) hG ho
  obtain ⟨s, hrun, -⟩ : ∃ s, order.foldlM (placeNode G maxDop 0 labels) {} = .ok s ∧
      ∃ lane, Placed maxDop 0 stt edt (order.filter fun m => stt m < edt m) s lane := by
    refine foldlM_prefix (I := fun pre s => ∃ lane,
      Placed maxDop 0 stt edt (pre.filter fun m => stt m < edt m) s lane)
      (fun pre n post s he ⟨lane, hpl⟩ => ?_) ⟨fun _ => 0, placed_nil⟩
    have hn : n ∈ G.nodes := ho.mem_iff.mp (by simp [he])
    have hnp : n ∉ pre := ho.notMem_before hG he
    by_cases hz : edt n = stt n
    · exact ⟨s, placeNode_skip (hl n hn) hz, lane, by simpa [hz] using hpl⟩
    · have hpos : stt n < edt n := ht.lt_of_ne hn hz
      have hplaced : ∀ m ∈ pre.filter fun m => stt m < edt m,
          m ∈ G.nodes ∧ stt m < edt m ∧ stt m ≤ stt n := by
        intro m hm
        have hmem := List.mem_of_mem_filter hm
        have hpair := he ▸ hsorted stt edt ht
        exact ⟨ho.mem_iff.mp (by simp [he, hmem]), long_of_mem hm,
          (List.pairwise_append.mp hpair).2.2 m hmem n (by simp) (long_of_mem hm) hpos⟩
      have hnp' : n ∉ pre.filter fun m => stt m < edt m := fun hm =>
        hnp (List.mem_of_mem_filter hm)
      obtain ⟨i, hi, hfit⟩ := hpl.exists_firstFit (exists_free ht hG hplaced hn hnp' hpos hwidth)
      have hpid := (hpl.pid_ok_iff (ht.nonneg n hn)).mpr ⟨hfit, hi⟩
      refine ⟨_, by rw [placeNode_eq (hl n hn) hz, hpid]; rfl, Function.update lane n i, ?_⟩
      simpa [hpos] using hpl.put ht hG (fun m hm => long_of_mem hm) hn hnp' hpos hfit hi
  obtain ⟨lane, -, hfit⟩ := of_placeAll ht hG ho hl hrun
  exact ⟨stt, edt, lane, ht, hfit⟩

end Placing

/-- Exactly when first fit needs few enough numbers, and no isolated node outlasts every path with
an edge, the schedule is found. -/
theorem schedulesAll_iff {G : Digraph V} {W : Weights V} {maxDop : Nat}
    {labelOrder pathOrder order : List V} (hG : G.Dag) (hne : G.nodes ≠ [])
    (hl : G.TopologicalSort labelOrder) (hp : G.TopologicalSort pathOrder)
    (ho : G.TopologicalSort order) :
    SchedulesAll G W maxDop labelOrder pathOrder order ↔ FewNumbers G W maxDop order ∧
      ∀ v ∈ G.nodes, G.Isolated v → 1 < W.ofNode v →
        ∃ l, G.IsPath l ∧ 2 ≤ l.length ∧ W.ofNode v ≤ W.weigh l := by
  obtain ⟨stt, edt, labels, hlabel, ht, hlab⟩ := labelSchedule_ok (W := W) hG hl
  obtain ⟨v, hv, path, hrun, hmax, hpath, hw, htwo⟩ := getLongestPath_ok ht hG hne hp
  have hmatrix : scheduleMatrix G W maxDop labelOrder pathOrder order =
      order.foldlM (placeNode G maxDop (max (stt v + tail G W v) 1) labels) {} := by
    rw [scheduleMatrix, hlabel, ok_bind, hrun, ok_bind]
  constructor
  · rintro ⟨s, stt', edt', lane, hs, ⟨labels', hlabel', hlab'⟩, hf⟩
    obtain rfl : labels' = labels := Except.ok.inj (hlabel'.symm.trans hlabel)
    rw [hmatrix] at hs
    obtain ⟨lane', hpl, hfit⟩ := of_placeAll ht hG ho hlab hs
    refine ⟨⟨stt, edt, lane', ht, hfit⟩, fun i hi hiso hpos => ?_⟩
    obtain ⟨hs, he⟩ : stt' i = stt i ∧ edt' i = edt i := by
      simpa using (hlab' i hi).symm.trans (hlab i hi)
    have hend := ht.ends i hi
    have hroot := ht.root i hi hiso.1
    have hcol := hpl.edt_le (n := i) (by omega) (by omega) fun t h1 h2 =>
      ⟨_, hf.whole i hi t (by omega) (by omega)⟩
    have htail := tail_le ht hv
    exact ⟨path, hpath, htwo (predecessors_ne_nil ht hv (by omega)), by omega⟩
  · rintro ⟨⟨stt', edt', lane, ht', hfit⟩, hlone⟩
    have htime : ∀ u ∈ G.nodes, stt u = stt' u ∧ edt u = edt' u := fun u hu =>
      ht.unique ht' hG hu
    have hlab' : ∀ u ∈ G.nodes, labels u = some ⟨stt' u, edt' u⟩ := fun u hu => by
      rw [hlab u hu, (htime u hu).1, (htime u hu).2]
    have hcols : ∀ u ∈ G.nodes, edt' u ≤ max (stt v + tail G W v) 1 := fun u hu =>
      (htime u hu).2 ▸ edt_le_max ht hG hlone hmax u hu
    obtain ⟨s, hs, hpl⟩ := placeAll_ok ht' hG ho hlab' hfit
    refine ⟨s, stt', edt', lane, hmatrix.trans hs, ⟨labels, hlabel, hlab'⟩, hpl.feasible ?_ hcols⟩
    intro n
    rw [List.mem_filter, ho.mem_iff, decide_eq_true_eq]

/-- Node 4 starts early behind nodes 1 and 3, node 5 late behind node 2, which takes ten times as
long as the others. -/
def shortAndLong : Digraph Nat := { nodes := [1, 2, 3, 4, 5], edges := [(1, 4), (3, 4), (2, 5)] }

def shortAndLongWeights : Weights Nat where
  node v := [(1, 1), (2, 10), (3, 0), (4, 1), (5, 1)].lookup v
  edge _ _ := some 0

/-- Node 5 goes on the lane of node 2. Node 4 is placed after it and starts before it, but the
lane of node 1 is free. -/
theorem shortAndLong_schedules : SchedulesAll shortAndLong shortAndLongWeights 3
    [1, 2, 3, 4, 5] [1, 2, 3, 4, 5] [1, 2, 3, 5, 4] := by
  let stt : Nat → Int := fun v => if v = 4 then 1 else if v = 5 then 10 else 0
  let edt : Nat → Int := fun v => stt v + shortAndLongWeights.ofNode v
  let lane : Nat → Nat := fun v => if v = 2 ∨ v = 5 then 1 else 0
  have hsort : shortAndLong.TopologicalSort [1, 2, 3, 4, 5] :=
    Digraph.topologicalSort_of_before (by decide) (by decide) (by decide)
  refine (schedulesAll_iff (Digraph.dag_of_lt (by decide) (by decide) (by decide)) (by decide)
    hsort hsort (Digraph.topologicalSort_of_before (by decide) (by decide) (by decide))).mpr
    ⟨⟨stt, edt, lane, ?timed, ?fits⟩, ?lone⟩
  case timed =>
    constructor
    case nonneg => decide
    case ends => exact fun _ _ => rfl
    case root => decide
    case after =>
      intro v _ u he
      simp only [Digraph.Edge, shortAndLong, List.mem_cons, Prod.mk.injEq, List.not_mem_nil,
        or_false] at he
      rcases he with ⟨rfl, rfl⟩ | ⟨rfl, rfl⟩ | ⟨rfl, rfl⟩ <;> decide
    case attained =>
      intro v hv hp
      simp only [shortAndLong, List.mem_cons, List.not_mem_nil, or_false] at hv
      rcases hv with rfl | rfl | rfl | rfl | rfl
      · exact absurd rfl hp
      · exact absurd rfl hp
      · exact absurd rfl hp
      · exact ⟨1, by decide, by decide⟩
      · exact ⟨2, by decide, by decide⟩
  case fits =>
    intro v hv hpos
    simp only [shortAndLong, List.mem_cons, List.not_mem_nil, or_false] at hv
    rcases hv with rfl | rfl | rfl | rfl | rfl
    · exact ⟨Or.inr ⟨by decide, by decide, fun j _ => Nat.zero_le j⟩, by decide⟩
    · refine ⟨Or.inr ⟨by decide, by decide, fun j hj => Nat.one_le_iff_ne_zero.mpr ?_⟩, by decide⟩
      rintro rfl
      exact absurd (hj 1 (by decide) (by decide)) (by decide)
    · exact absurd hpos (by decide)
    · exact ⟨Or.inr ⟨by decide, by decide, fun j _ => Nat.zero_le j⟩, by decide⟩
    · exact ⟨Or.inl ⟨2, by decide, by decide, by decide⟩, by decide⟩
  case lone =>
    have hnone : ∀ v ∈ shortAndLong.nodes,
        ¬ (shortAndLong.predecessors v = [] ∧ shortAndLong.successors v = []) := by decide
    exact fun v hv hi => absurd hi (hnone v hv)

/-- Two chains, 1 before 3 before 5 and 2 before 4, where node 2 takes ten times as long as the
others. -/
def twoChains : Digraph Nat := { nodes := [1, 2, 3, 4, 5], edges := [(1, 3), (2, 4), (3, 5)] }

def twoChainsWeights : Weights Nat where
  node v := some (if v = 2 then 10 else 1)
  edge _ _ := some 0

/-- In the order of the generations node 4 takes the lane that node 5 would need, and is due long
after it. -/
theorem two_lanes_too_few : ¬ ∀ (G : Digraph Nat) (W : Weights Nat) (maxDop : Nat)
    (labelOrder pathOrder order : List Nat), G.Dag → G.nodes ≠ [] →
    (∀ ns, G.Antichain ns → ns.length ≤ maxDop) → G.TopologicalSort labelOrder →
    G.TopologicalSort pathOrder → G.TopologicalSort order →
    SchedulesAll G W maxDop labelOrder pathOrder order := by
  intro h
  have hsort : twoChains.TopologicalSort [1, 2, 3, 4, 5] :=
    Digraph.topologicalSort_of_before (by decide) (by decide) (by decide)
  have hedge : ∀ u v, (u, v) ∈ twoChains.edges → Relation.TransGen twoChains.Edge u v :=
    fun u v he => .single he
  have h13 := hedge 1 3 (by decide)
  have h35 := hedge 3 5 (by decide)
  have h24 := hedge 2 4 (by decide)
  have hpath : ∀ p ∈ [(1, 3), (3, 5), (1, 5), (2, 4)],
      Relation.TransGen twoChains.Edge p.1 p.2 := by
    simp only [List.forall_mem_cons]
    exact ⟨h13, h35, h13.trans h35, h24, by simp⟩
  let chain : Nat → Fin 2 := fun v => if v = 2 ∨ v = 4 then 1 else 0
  have hchain : ∀ u ∈ twoChains.nodes, ∀ v ∈ twoChains.nodes, chain u = chain v →
      u = v ∨ (u, v) ∈ [(1, 3), (3, 5), (1, 5), (2, 4)] ∨
        (v, u) ∈ [(1, 3), (3, 5), (1, 5), (2, 4)] := by decide
  have hwidth : ∀ ns, twoChains.Antichain ns → ns.length ≤ 2 := by
    refine fun ns hns => hns.length_le chain fun u hu v hv he => ?_
    rcases hchain u hu v hv he with he | he | he
    · exact Or.inl he
    · exact Or.inr (Or.inl (hpath _ he))
    · exact Or.inr (Or.inr (hpath _ he))
  obtain ⟨s, stt, edt, lane, hrun, -⟩ := h twoChains twoChainsWeights 2 [1, 2, 3, 4, 5]
    [1, 2, 3, 4, 5] [1, 2, 3, 4, 5] (Digraph.dag_of_lt (by decide) (by decide) (by decide))
    (by decide) hwidth hsort hsort hsort
  have hfail : scheduleMatrix twoChains twoChainsWeights 2 [1, 2, 3, 4, 5] [1, 2, 3, 4, 5]
      [1, 2, 3, 4, 5] = .error (.schedulerException "Cannot find a idle PID") := rfl
  rw [hfail] at hrun
  exact absurd hrun (by simp)

end Daliuge.Partition
