import Mathlib.Data.List.ReduceOption
import Daliuge.Lib.FirstSeen
import Daliuge.Partition.Drops

/-!
# The input of METIS

`MetisPGTP.to_partition_input`: a node for every drop, numbered from 1, and an edge between two
drops when one of them names the other.
-/
namespace Daliuge.Partition

open Collect

/-- The relation keys that are looked up. -/
inductive Rel
  | consumers
  | producers
  | outputs
  | inputs
  deriving DecidableEq

/-- `drop[key]`. -/
def DropSpec.under (d : DropSpec) : Rel → List Dest
  | .consumers => d.consumers
  | .producers => d.producers
  | .outputs => d.outputs
  | .inputs => d.inputs

/-- A `networkx.Graph` with the attributes that METIS gets, and the partition it gives. -/
structure MetisGraph where
  nodes : List Int := []
  edges : List (Int × Int) := []
  weight : Int → Option Weight := fun _ => none
  size : Int → Option Weight := fun _ => none
  oid : Int → Option String := fun _ => none
  edgeWeight : Int → Int → Option Int := fun _ _ => none
  gid : Int → Option Nat := fun _ => none

namespace MetisGraph

variable (G : MetisGraph)

def Adj (a b : Int) : Prop := (a, b) ∈ G.edges ∨ (b, a) ∈ G.edges

instance {a b : Int} : Decidable (G.Adj a b) :=
  inferInstanceAs (Decidable ((a, b) ∈ G.edges ∨ (b, a) ∈ G.edges))

def touch (k : Int) : MetisGraph :=
  if k ∈ G.nodes then G else { G with nodes := G.nodes ++ [k] }

/-- `add_node`, with attributes. -/
def addNode (k : Int) (weight size : Weight) (oid : String) : MetisGraph :=
  { G.touch k with
    weight := Function.update G.weight k (some weight)
    size := Function.update G.size k (some size)
    oid := Function.update G.oid k (some oid) }

/-- `add_edge`, with a weight. -/
def addEdge (a b : Int) (w : Int) : MetisGraph :=
  { (G.touch a).touch b with
    edges := if G.Adj a b then G.edges else G.edges ++ [(a, b)]
    edgeWeight := fun x y =>
      if (x = a ∧ y = b) ∨ (x = b ∧ y = a) then some w else G.edgeWeight x y }

end MetisGraph

/-- The drops while they are numbered, and `key_dict`. -/
structure Numbering where
  drops : List (Option DropSpec)
  keys : String → Option Int := fun _ => none

/-- The turn of index `i`. The list gets shorter under the loop. -/
def Numbering.step (s : Numbering) (i : Nat) : Numbering :=
  match s.drops[i]? with
  | none => s
  | some none => { s with drops := s.drops.eraseIdx i }
  | some (some d) => { s with keys := Function.update s.keys d.oid (some ((i : Int) + 1)) }

/-- The first loop. An entry without an oid is `none`. -/
def numberDrops (drops : List (Option DropSpec)) : Numbering :=
  (List.range drops.length).foldl Numbering.step { drops }

/-- What the second loop keeps from one drop to the next. -/
structure Carry where
  tw : Weight := .num 1
  sz : Weight := .num 1
  dst : Rel := .outputs
  ust : Rel := .inputs

def Carry.next (c : Carry) (d : DropSpec) : Carry :=
  if d.categoryType.isData then
    { tw := .num 1, sz := d.weight.getD (.num 1), dst := .consumers, ust := .producers }
  else if d.categoryType.isApp then
    { tw := d.weight.getD (.num 1), sz := .num 1, dst := .outputs, ust := .inputs }
  else c

/-- `adj_drops`. -/
def Carry.adjDrops (c : Carry) (d : DropSpec) : List Dest := d.under c.dst ++ d.under c.ust

section Input

variable (s : Numbering)

/-- `self._drop_list[key - 1].get("weight", 1)`; what has a key is a drop. -/
def weightAt (key : Int) : Except DropErr Weight :=
  match s.drops[(key - 1).toNat]? with
  | some (some d) => .ok (d.weight.getD (.num 1))
  | _ => .error .indexError

/-- `lw`, before it is made positive. -/
def linkWeight (d : DropSpec) (inp : Dest) : Except DropErr Weight :=
  if d.categoryType.isData then fetch "weight" d.weight
  else if d.categoryType.isApp then do weightAt s (← fetch inp.oid (s.keys inp.oid))
  else return .num 1

/-- `if lw <= 0: lw = 1`; a text is not compared with a number. -/
def positive : Weight → Except DropErr Int
  | .num i => .ok (if i ≤ 0 then 1 else i)
  | .text _ => .error .typeError

def addNeighbour (d : DropSpec) (myk : Int) (G : MetisGraph) (inp : Dest) :
    Except DropErr MetisGraph := do
  let lw ← positive (← linkWeight s d inp)
  return G.addEdge myk (← fetch inp.oid (s.keys inp.oid)) lw

/-- The turn of one drop in the second loop. -/
def addEntry (st : Carry × MetisGraph) (p : Option DropSpec × Nat) :
    Except DropErr (Carry × MetisGraph) := do
  let d ← fetch "oid" p.1
  let myk := (p.2 : Int) + 1
  let c := st.1.next d
  let G ← (c.adjDrops d).foldlM (addNeighbour s d myk) (st.2.addNode myk c.tw c.sz d.oid)
  return (c, G)

end Input

/-- `to_partition_input`: the drops that stay and the graph. -/
def toPartitionInput (drops : List (Option DropSpec)) :
    Except DropErr (List (Option DropSpec) × MetisGraph) := do
  let s := numberDrops drops
  let (_, G) ← s.drops.zipIdx.foldlM (addEntry s) ({}, {})
  return (s.drops, G)

/-! ### The numbers -/

/-- The entries that stay, and whether the first loop looks at them: the one after an entry
without an oid is not looked at. -/
def looked : List (Option DropSpec) → List (Option DropSpec × Bool)
  | [] => []
  | some d :: l => (some d, true) :: looked l
  | [none] => []
  | none :: x :: l => (x, false) :: looked l

/-- The keys of entries from index `i` on. -/
def keysFrom (i : Nat) (keys : String → Option Int) :
    List (Option DropSpec × Bool) → String → Option Int
  | (some d, true) :: l => keysFrom (i + 1) (Function.update keys d.oid (some ((i : Int) + 1))) l
  | _ :: l => keysFrom (i + 1) keys l
  | [] => keys

section Numbers

variable {drops pre : List (Option DropSpec)} {keys : String → Option Int} {i n : Nat}
  {d : DropSpec}

theorem foldl_step_done (h : drops.length ≤ i) :
    (List.range' i n).foldl Numbering.step { drops, keys } = { drops, keys } := by
  induction n generalizing i with
  | zero => rfl
  | succ n ih =>
    rw [List.range'_succ, List.foldl_cons]
    have hs : Numbering.step { drops, keys } i = { drops, keys } := by
      simp [Numbering.step, List.getElem?_eq_none h]
    rw [hs]
    exact ih (by omega)

/-- The first loop, from index `i` on. -/
theorem foldl_step (hi : pre.length = i) (hn : drops.length ≤ n) :
    (List.range' i n).foldl Numbering.step { drops := pre ++ drops, keys } =
      { drops := pre ++ (looked drops).map Prod.fst, keys := keysFrom i keys (looked drops) } := by
  induction drops using looked.induct generalizing pre keys i n with
  | case1 =>
    rw [foldl_step_done (by simp [hi])]
    rfl
  | case2 d l ih =>
    obtain _ | n := n
    · simp at hn
    · have hs : Numbering.step { drops := pre ++ some d :: l, keys } i =
          { drops := (pre ++ [some d]) ++ l,
            keys := Function.update keys d.oid (some ((i : Int) + 1)) } := by
        subst hi
        simp [Numbering.step]
      rw [List.range'_succ, List.foldl_cons, hs, ih (by simp [hi]) (by simpa using hn)]
      simp [looked, keysFrom]
  | case3 =>
    obtain _ | n := n
    · simp at hn
    · have hs : Numbering.step { drops := pre ++ [none], keys } i = { drops := pre, keys } := by
        subst hi
        simp [Numbering.step, List.eraseIdx_append_of_length_le]
      rw [List.range'_succ, List.foldl_cons, hs, foldl_step_done (by omega)]
      simp [looked, keysFrom]
  | case4 x l ih =>
    obtain _ | n := n
    · simp at hn
    · have hs : Numbering.step { drops := pre ++ none :: x :: l, keys } i =
          { drops := (pre ++ [x]) ++ l, keys } := by
        subst hi
        simp [Numbering.step, List.eraseIdx_append_of_length_le]
      simp only [List.length_cons] at hn
      rw [List.range'_succ, List.foldl_cons, hs, ih (by simp [hi]) (by omega)]
      cases x <;> simp [looked, keysFrom]

theorem numberDrops_eq : numberDrops drops =
    { drops := (looked drops).map Prod.fst,
      keys := keysFrom 0 (fun _ => none) (looked drops) } := by
  unfold numberDrops
  rw [List.range_eq_range']
  exact foldl_step (List.length_nil (α := Option DropSpec)) (le_refl drops.length)

theorem numberDrops_drops : (numberDrops drops).drops = (looked drops).map Prod.fst := by
  rw [numberDrops_eq]

/-- An entry without an oid stays where two follow each other. -/
theorem none_mem_looked : none ∈ (looked drops).map Prod.fst ↔ [none, none] <:+: drops := by
  induction drops using looked.induct with
  | case1 => simp [looked]
  | case2 d l ih =>
    rw [List.infix_cons_iff, looked, List.map_cons, List.mem_cons, ih]
    simp
  | case3 => simp [looked, List.infix_cons_iff]
  | case4 x l ih =>
    rw [List.infix_cons_iff, List.infix_cons_iff, looked, List.map_cons, List.mem_cons, ih]
    cases x with
    | none => simp
    | some e => simp

/-- Where no two follow each other, all others stay and nothing else. -/
theorem looked_eq (h : ¬ [none, none] <:+: drops) :
    (looked drops).map Prod.fst = drops.reduceOption.map some := by
  induction drops using looked.induct with
  | case1 => rfl
  | case2 d l ih =>
    rw [List.infix_cons_iff, not_or] at h
    simp [looked, ih h.2]
  | case3 => rfl
  | case4 x l ih =>
    rw [List.infix_cons_iff, List.infix_cons_iff, not_or, not_or] at h
    cases x with
    | none => simp at h
    | some e => simp [looked, ih h.2.2]

/-- What is not looked at follows an entry without an oid. -/
theorem unlooked_iff (h : ¬ [none, none] <:+: drops) :
    (some d, false) ∈ looked drops ↔ [none, some d] <:+: drops := by
  induction drops using looked.induct with
  | case1 => simp [looked]
  | case2 e l ih =>
    rw [List.infix_cons_iff, not_or] at h
    rw [List.infix_cons_iff, looked, List.mem_cons, ih h.2]
    simp
  | case3 => simp [looked, List.infix_cons_iff]
  | case4 x l ih =>
    rw [List.infix_cons_iff, List.infix_cons_iff, not_or, not_or] at h
    rw [List.infix_cons_iff, List.infix_cons_iff, looked, List.mem_cons, ih h.2.2]
    cases x with
    | none => simp at h
    | some e => simp

variable {l : List (Option DropSpec × Bool)} {oid : String} {k : Int}

theorem keysFrom_other (h : ∀ e, (some e, true) ∈ l → e.oid ≠ oid) :
    keysFrom i keys l oid = keys oid := by
  induction l generalizing i keys with
  | nil => rfl
  | cons x l ih =>
    have hl : ∀ e, (some e, true) ∈ l → e.oid ≠ oid := fun e he => h e (by simp [he])
    rcases x with ⟨_ | e, _ | _⟩
    · exact ih hl
    · exact ih hl
    · exact ih hl
    · rw [keysFrom, ih hl, Function.update_of_ne (Ne.symm (h e (by simp)))]

theorem keysFrom_range (h : keysFrom i keys l oid = some k) :
    keys oid = some k ∨ ∃ j < l.length, k = (i : Int) + j + 1 := by
  induction l generalizing i keys with
  | nil => exact Or.inl h
  | cons x l ih =>
    have hnext : ∀ {keys'}, keysFrom (i + 1) keys' l oid = some k →
        keys' oid = some k ∨ ∃ j < (x :: l).length, k = (i : Int) + j + 1 := by
      intro keys' h
      rcases ih h with h | ⟨j, hj, rfl⟩
      · exact Or.inl h
      · exact Or.inr ⟨j + 1, by simpa using hj, by push_cast; omega⟩
    rcases x with ⟨_ | e, _ | _⟩
    · exact hnext h
    · exact hnext h
    · exact hnext h
    · rcases hnext h with h | h
      · by_cases he : oid = e.oid
        · subst he
          rw [Function.update_self] at h
          exact Or.inr ⟨0, by simp, by simpa using (Option.some.inj h).symm⟩
        · rw [Function.update_of_ne he] at h
          exact Or.inl h
      · exact Or.inr h

/-- A drop that is looked at, and alone has its oid, gets its number as key. -/
theorem keysFrom_at {j : Nat} (hj : l[j]? = some (some d, true))
    (honly : ∀ (m : Nat) (e : DropSpec), l[m]? = some (some e, true) → e.oid = d.oid → m = j) :
    keysFrom i keys l d.oid = some ((i : Int) + j + 1) := by
  induction l generalizing i keys j with
  | nil => simp at hj
  | cons x l ih =>
    cases j with
    | zero =>
      obtain rfl : x = (some d, true) := by simpa using hj
      rw [keysFrom, keysFrom_other, Function.update_self]
      · simp
      · intro e he ho
        obtain ⟨m, hm⟩ := List.mem_iff_getElem?.mp he
        have := honly (m + 1) e (by simpa using hm) ho
        omega
    | succ j =>
      have hl : ∀ keys, keysFrom (i + 1) keys l d.oid = some ((i : Int) + (j + 1 : Nat) + 1) := by
        intro keys
        have h : keysFrom (i + 1) keys l d.oid = some (((i + 1 : Nat) : Int) + j + 1) := by
          refine ih (by simpa using hj) fun m e hm ho => ?_
          have := honly (m + 1) e (by simpa using hm) ho
          omega
        rw [h]
        congr 1
        omega
      rcases x with ⟨_ | e, _ | _⟩ <;> exact hl _

/-- The drops with a key: those that do not follow an entry without an oid. -/
theorem numberDrops_keys (h : ¬ [none, none] <:+: drops)
    (hn : (drops.reduceOption.map DropSpec.oid).Nodup) :
    (numberDrops drops).keys oid = some k ↔
      ∃ (i : Nat) (d : DropSpec), drops.reduceOption[i]? = some d ∧ d.oid = oid ∧
        k = (i : Int) + 1 ∧ ¬ [none, some d] <:+: drops := by
  have hl : ∀ (m : Nat) (e : DropSpec) (b : Bool), (looked drops)[m]? = some (some e, b) →
      drops.reduceOption[m]? = some e := by
    intro m e b hm
    have hmap : ((looked drops).map Prod.fst)[m]? = some (some e) := by simp [hm]
    rw [looked_eq h] at hmap
    simpa using hmap
  have hkeys : (numberDrops drops).keys = keysFrom 0 (fun _ => none) (looked drops) := by
    rw [numberDrops_eq]
  have hat : ∀ (j : Nat) (d : DropSpec), (looked drops)[j]? = some (some d, true) →
      (numberDrops drops).keys d.oid = some ((j : Int) + 1) := by
    intro j d hj
    rw [hkeys]
    have hk : keysFrom 0 (fun _ => none) (looked drops) d.oid = some (((0 : Nat) : Int) + j + 1) :=
      keysFrom_at hj fun m e hm ho => index_unique hn (hl m e true hm) (hl j d true hj) ho
    simpa using hk
  constructor
  · intro hk
    by_cases hex : ∃ e, (some e, true) ∈ looked drops ∧ e.oid = oid
    · obtain ⟨e, he, rfl⟩ := hex
      obtain ⟨j, hj⟩ := List.mem_iff_getElem?.mp he
      refine ⟨j, e, hl j e true hj, rfl, ?_, fun hin => ?_⟩
      · exact Option.some.inj (hk.symm.trans (hat j e hj))
      · obtain ⟨m, hm⟩ := List.mem_iff_getElem?.mp ((unlooked_iff h).mpr hin)
        obtain rfl := index_unique hn (hl m e false hm) (hl j e true hj) rfl
        simp [hm] at hj
    · rw [hkeys, keysFrom_other fun e he ho => hex ⟨e, he, ho⟩] at hk
      simp at hk
  · rintro ⟨i, d, hi, rfl, rfl, hin⟩
    have hmap : ((looked drops).map Prod.fst)[i]? = some (some d) := by simp [looked_eq h, hi]
    obtain ⟨⟨x, b⟩, hx, rfl⟩ : ∃ x, (looked drops)[i]? = some x ∧ x.1 = some d := by
      simpa using hmap
    cases b with
    | true => exact hat i d hx
    | false => exact absurd ((unlooked_iff h).mp (List.mem_of_getElem? hx)) hin

end Numbers

/-! ### The graph -/

/-- What the second loop adds. -/
inductive Entry
  | node (k : Int) (weight size : Weight) (oid : String)
  | edge (a b w : Int)

/-- The nodes that an entry mentions, in order. -/
def Entry.mentions : Entry → List Int
  | .node k .. => [k]
  | .edge a b _ => [a, b]

namespace MetisGraph

def put (G : MetisGraph) : Entry → MetisGraph
  | .node k weight size oid => G.addNode k weight size oid
  | .edge a b w => G.addEdge a b w

variable {G : MetisGraph} {l : List Entry} {x : Entry} {a b k : Int} {o : String}

@[simp] theorem touch_edges : (G.touch k).edges = G.edges := by
  unfold touch
  split <;> rfl

@[simp] theorem touch_oid : (G.touch k).oid = G.oid := by
  unfold touch
  split <;> rfl

theorem adj_put : (G.put x).Adj a b ↔
    G.Adj a b ∨ ∃ w, x = .edge a b w ∨ x = .edge b a w := by
  cases x with
  | node k weight size oid => simp [put, addNode, Adj]
  | edge a' b' w =>
    have hE : (G.put (.edge a' b' w)).Adj a b ↔
        G.Adj a b ∨ (a = a' ∧ b = b') ∨ (a = b' ∧ b = a') := by
      by_cases h : G.Adj a' b'
      · have he : (G.put (.edge a' b' w)).edges = G.edges := if_pos h
        unfold Adj at h ⊢
        rw [he]
        constructor
        · exact Or.inl
        · rintro (h' | ⟨rfl, rfl⟩ | ⟨rfl, rfl⟩)
          · exact h'
          · exact h
          · exact h.symm
      · have he : (G.put (.edge a' b' w)).edges = G.edges ++ [(a', b')] := if_neg h
        unfold Adj
        rw [he]
        simp only [List.mem_append, List.mem_singleton, Prod.mk.injEq]
        tauto
    rw [hE]
    simp only [Entry.edge.injEq]
    constructor
    · rintro (h | ⟨rfl, rfl⟩ | ⟨rfl, rfl⟩)
      · exact Or.inl h
      · exact Or.inr ⟨w, Or.inl ⟨rfl, rfl, rfl⟩⟩
      · exact Or.inr ⟨w, Or.inr ⟨rfl, rfl, rfl⟩⟩
    · rintro (h | ⟨_, ⟨rfl, rfl, -⟩ | ⟨rfl, rfl, -⟩⟩)
      · exact Or.inl h
      · exact Or.inr (Or.inl ⟨rfl, rfl⟩)
      · exact Or.inr (Or.inr ⟨rfl, rfl⟩)

theorem adj_foldl_put : (l.foldl put G).Adj a b ↔
    G.Adj a b ∨ ∃ w, Entry.edge a b w ∈ l ∨ Entry.edge b a w ∈ l := by
  induction l generalizing G with
  | nil => simp
  | cons x l ih =>
    rw [List.foldl_cons, ih, adj_put, or_assoc]
    refine or_congr_right ?_
    constructor
    · rintro (⟨w, rfl | rfl⟩ | ⟨w, h | h⟩)
      · exact ⟨w, by simp⟩
      · exact ⟨w, by simp⟩
      · exact ⟨w, by simp [h]⟩
      · exact ⟨w, by simp [h]⟩
    · rintro ⟨w, h | h⟩
      · rcases List.mem_cons.mp h with h | h
        · exact Or.inl ⟨w, Or.inl h.symm⟩
        · exact Or.inr ⟨w, Or.inl h⟩
      · rcases List.mem_cons.mp h with h | h
        · exact Or.inl ⟨w, Or.inr h.symm⟩
        · exact Or.inr ⟨w, Or.inr h⟩

theorem nodes_foldl_put : (l.foldl put G).nodes =
    (l.flatMap Entry.mentions).foldl (fun ks k => if k ∈ ks then ks else ks ++ [k]) G.nodes := by
  induction l generalizing G with
  | nil => rfl
  | cons x l ih =>
    rw [List.foldl_cons, ih, List.flatMap_cons, List.foldl_append]
    congr 1
    cases x with
    | node k weight size oid =>
      simp only [put, addNode, touch, Entry.mentions, List.foldl_cons, List.foldl_nil]
      split <;> rfl
    | edge a b w =>
      simp only [put, addEdge, touch, Entry.mentions, List.foldl_cons, List.foldl_nil]
      split <;> split <;> simp_all

theorem oid_put_edge {w : Int} : (G.put (.edge a b w)).oid = G.oid := by
  simp [put, addEdge]

/-- The oid of a node that is added under one name only. -/
theorem oid_foldl_put (hk : G.oid k = some o ∨ ∃ weight size, Entry.node k weight size o ∈ l)
    (honly : ∀ weight size o', Entry.node k weight size o' ∈ l → o' = o) :
    (l.foldl put G).oid k = some o := by
  induction l generalizing G with
  | nil => simpa using hk
  | cons x l ih =>
    rw [List.foldl_cons]
    refine ih ?_ fun weight size o' h => honly weight size o' (by simp [h])
    cases x with
    | edge a b w =>
      rw [oid_put_edge]
      simpa using hk
    | node k' weight size o' =>
      simp only [put, addNode]
      by_cases he : k' = k
      · subst he
        rw [honly weight size o' (by simp), Function.update_self]
        exact Or.inl rfl
      · rw [Function.update_of_ne (Ne.symm he)]
        rcases hk with hk | ⟨weight', size', h⟩
        · exact Or.inl hk
        · rcases List.mem_cons.mp h with h | h
          · simp only [Entry.node.injEq] at h
            exact absurd h.1.symm he
          · exact Or.inr ⟨weight', size', h⟩

/-- The nodes are in the order in which they are mentioned first. -/
theorem nodes_put : (l.foldl put {}).nodes = (l.flatMap Entry.mentions).eraseDups := by
  rw [nodes_foldl_put]
  exact FirstSeen.foldl_append_new

theorem mem_nodes_put : k ∈ (l.foldl put {}).nodes ↔ ∃ x ∈ l, k ∈ x.mentions := by
  rw [nodes_put, List.mem_eraseDups, List.mem_flatMap]

end MetisGraph

section Plan

variable (s : Numbering)

/-- The edge for a neighbour. -/
def neighbourPlan (d : DropSpec) (myk : Int) (inp : Dest) : Except DropErr (List Entry) := do
  let lw ← positive (← linkWeight s d inp)
  return [.edge myk (← fetch inp.oid (s.keys inp.oid)) lw]

/-- The node of a drop and its edges. -/
def entryPlan (x : Carry × Option DropSpec × Nat) : Except DropErr (List Entry) := do
  let d ← fetch "oid" x.2.1
  let c := x.1.next d
  let es ← collect (neighbourPlan s d ((x.2.2 : Int) + 1)) (c.adjDrops d)
  return .node ((x.2.2 : Int) + 1) c.tw c.sz d.oid :: es

/-- Every entry with what the second loop carries when it comes to it. -/
def carried (c : Carry) :
    List (Option DropSpec × Nat) → List (Carry × Option DropSpec × Nat)
  | [] => []
  | (none, i) :: l => (c, none, i) :: carried c l
  | (some d, i) :: l => (c, some d, i) :: carried (c.next d) l

theorem addNeighbour_eq (d : DropSpec) (myk : Int) (G : MetisGraph) (inp : Dest) :
    addNeighbour s d myk G inp =
      (neighbourPlan s d myk inp).map fun r => r.foldl MetisGraph.put G := by
  unfold addNeighbour neighbourPlan
  cases linkWeight s d inp with
  | error e => rfl
  | ok w =>
    simp only [ok_bind]
    cases positive w with
    | error e => rfl
    | ok i =>
      simp only [ok_bind]
      cases fetch inp.oid (s.keys inp.oid) <;> rfl

theorem foldlM_addEntry (c : Carry) (G : MetisGraph) (l : List (Option DropSpec × Nat)) :
    (l.foldlM (addEntry s) (c, G)).map Prod.snd =
      (collect (entryPlan s) (carried c l)).map fun r => r.foldl MetisGraph.put G := by
  induction l generalizing c G with
  | nil => rfl
  | cons p l ih =>
    obtain ⟨x, i⟩ := p
    cases x with
    | none => rfl
    | some d =>
      have hstep : addEntry s (c, G) (some d, i) =
          (entryPlan s (c, some d, i)).map fun r => (c.next d, r.foldl MetisGraph.put G) := by
        simp only [addEntry, entryPlan, ok_bind_fetch]
        rw [foldlM_eq_map_collect (addNeighbour_eq s d ((i : Int) + 1))]
        cases collect (neighbourPlan s d ((i : Int) + 1)) ((c.next d).adjDrops d) <;> rfl
      rw [List.foldlM_cons, hstep, carried, collect]
      cases entryPlan s (c, some d, i) with
      | error e => rfl
      | ok r =>
        have hl := ih (c.next d) (r.foldl MetisGraph.put G)
        cases hr : collect (entryPlan s) (carried (c.next d) l) with
        | error e => simpa [hr, Except.map, bind, Except.bind] using hl
        | ok rs => simpa [hr, Except.map, bind, Except.bind] using hl

/-- The graph is put together from what the entries add in turn. -/
theorem toPartitionInput_ok {drops rest : List (Option DropSpec)} {G : MetisGraph} :
    toPartitionInput drops = .ok (rest, G) ↔ rest = (numberDrops drops).drops ∧
      ∃ r, collect (entryPlan (numberDrops drops)) (carried {} rest.zipIdx) = .ok r ∧
        G = r.foldl MetisGraph.put {} := by
  have hE := foldlM_addEntry (numberDrops drops) {} {} (numberDrops drops).drops.zipIdx
  unfold toPartitionInput
  constructor
  · intro h
    obtain ⟨⟨c, G'⟩, hG, h⟩ := bind_ok.mp h
    obtain ⟨rfl, rfl⟩ := Prod.mk.inj (pure_ok.mp h)
    rw [hG] at hE
    refine ⟨rfl, ?_⟩
    cases hr : collect (entryPlan (numberDrops drops))
        (carried {} (numberDrops drops).drops.zipIdx) with
    | error e => simp [hr, Except.map] at hE
    | ok r =>
      rw [hr] at hE
      exact ⟨r, rfl, Except.ok.inj hE⟩
  · rintro ⟨rfl, r, hr, rfl⟩
    rw [hr] at hE
    cases hG : (numberDrops drops).drops.zipIdx.foldlM (addEntry (numberDrops drops)) ({}, {}) with
    | error e => simp [hG, Except.map] at hE
    | ok x =>
      rw [hG] at hE
      obtain ⟨c, G'⟩ := x
      obtain rfl : G' = _ := Except.ok.inj hE
      simp [hG, bind, Except.bind, pure, Except.pure]

theorem carried_eq {ds : List DropSpec} {c : Carry} {n : Nat} :
    carried c ((ds.map some).zipIdx n) = (ds.zipIdx n).map fun p =>
      ((ds.take (p.2 - n)).foldl Carry.next c, some p.1, p.2) := by
  induction ds generalizing c n with
  | nil => rfl
  | cons d ds ih =>
    rw [List.map_cons, List.zipIdx_cons, carried, ih, List.zipIdx_cons, List.map_cons]
    congr 1
    · simp
    · refine List.map_congr_left fun p hp => ?_
      have hle := List.le_snd_of_mem_zipIdx hp
      obtain ⟨m, hm⟩ : ∃ m, p.2 - n = m + 1 := ⟨p.2 - n - 1, by omega⟩
      rw [hm, List.take_succ_cons, List.foldl_cons, show p.2 - (n + 1) = m by omega]

theorem mem_carried {ds : List DropSpec} {x : Carry × Option DropSpec × Nat} :
    x ∈ carried {} (ds.map some).zipIdx ↔ ∃ (j : Nat) (d : DropSpec), ds[j]? = some d ∧
      x = ((ds.take j).foldl Carry.next {}, some d, j) := by
  rw [carried_eq, List.mem_map]
  constructor
  · rintro ⟨⟨d, j⟩, hp, rfl⟩
    exact ⟨j, d, List.mem_zipIdx_iff_getElem?.mp hp, rfl⟩
  · rintro ⟨j, d, hj, rfl⟩
    exact ⟨(d, j), List.mem_zipIdx_iff_getElem?.mpr hj, rfl⟩

theorem exists_carried_none {c : Carry} {l : List (Option DropSpec × Nat)} {m : Nat}
    (h : (none, m) ∈ l) : ∃ c', (c', none, m) ∈ carried c l := by
  induction l generalizing c with
  | nil => simp at h
  | cons p l ih =>
    obtain ⟨x, i⟩ := p
    cases x with
    | none =>
      rcases List.mem_cons.mp h with he | hl
      · obtain ⟨-, rfl⟩ := Prod.mk.inj he
        exact ⟨c, List.mem_cons_self⟩
      · obtain ⟨c', hc⟩ := ih (c := c) hl
        exact ⟨c', List.mem_cons_of_mem _ hc⟩
    | some d =>
      obtain ⟨c', hc⟩ := ih (c := c.next d) (by simpa using h)
      exact ⟨c', List.mem_cons_of_mem _ hc⟩

end Plan

/-! ### What METIS sees -/

/-- What a drop has under all relation keys, streaming ones included. -/
def DropSpec.relations (d : DropSpec) : List Dest :=
  d.consumers ++ d.streamingConsumers ++ d.outputs ++ d.producers ++ d.inputs ++ d.streamingInputs

/-- One of two drops names the other. -/
def DropSpec.Related (d t : DropSpec) : Prop :=
  (∃ o ∈ d.relations, o.oid = t.oid) ∨ ∃ o ∈ t.relations, o.oid = d.oid

instance {d t : DropSpec} : Decidable (d.Related t) :=
  inferInstanceAs (Decidable ((∃ o ∈ d.relations, o.oid = t.oid) ∨
    ∃ o ∈ t.relations, o.oid = d.oid))

/-- What is looked up of the drop at index `i`: data has consumers and producers, an application
outputs and inputs, and any other drop what the last of these before it had. -/
def consulted (ds : List DropSpec) (i : Nat) (d : DropSpec) : List Dest :=
  (((ds.take i).foldl Carry.next {}).next d).adjDrops d

section Seen

variable {drops : List (Option DropSpec)} {d s t : DropSpec} {o : Dest} {i k : Int}
  {es : List Entry}

variable (drops) in
/-- The entries without an oid are gone, the other ones are numbered in order, and the edges are
between related drops. -/
def SeesRelations : Prop := ∃ G, toPartitionInput drops = .ok (drops.reduceOption.map some, G) ∧
  (∀ k, k ∈ G.nodes ↔ ∃ i : Nat, i < drops.reduceOption.length ∧ k = (i : Int) + 1) ∧
  (∀ (i : Nat) (d : DropSpec), drops.reduceOption[i]? = some d →
    G.oid ((i : Int) + 1) = some d.oid) ∧
  ∀ a b, G.Adj a b ↔ ∃ (i j : Nat) (s t : DropSpec), drops.reduceOption[i]? = some s ∧
    drops.reduceOption[j]? = some t ∧ s.Related t ∧ a = (i : Int) + 1 ∧ b = (j : Int) + 1

variable (drops) in
/-- No two entries without an oid follow each other; what is looked up is a drop that does not
follow one, and has a number as weight where that is read; and of two related drops one looks up
the other. -/
structure Readable : Prop where
  apart : ¬ [none, none] <:+: drops
  keyed : ∀ (i : Nat) (s : DropSpec), drops.reduceOption[i]? = some s →
    ∀ o ∈ consulted drops.reduceOption i s, ∃ t ∈ drops.reduceOption, t.oid = o.oid ∧
      ¬ [none, some t] <:+: drops ∧
      (s.categoryType.isApp → ∀ w, t.weight = some w → ∃ n, w = .num n)
  weighed : ∀ (i : Nat) (s : DropSpec), drops.reduceOption[i]? = some s →
    s.categoryType.isData → consulted drops.reduceOption i s ≠ [] →
    ∃ n, s.weight = some (.num n)
  either : ∀ (i j : Nat) (s t : DropSpec), drops.reduceOption[i]? = some s →
    drops.reduceOption[j]? = some t → s.Related t →
    (∃ o ∈ consulted drops.reduceOption i s, o.oid = t.oid) ∨
      ∃ o ∈ consulted drops.reduceOption j t, o.oid = s.oid

theorem positive_ok {w : Weight} : positive w = .ok i → ∃ n, w = .num n := by
  cases w with
  | num n => exact fun _ => ⟨n, rfl⟩
  | text sp => simp [positive]

theorem neighbourPlan_ok {N : Numbering} (h : neighbourPlan N d k o = .ok es) :
    ∃ n i key, linkWeight N d o = .ok (.num n) ∧ N.keys o.oid = some key ∧
      es = [.edge k key i] := by
  obtain ⟨w, hw, h⟩ := bind_ok.mp h
  obtain ⟨i, hi, h⟩ := bind_ok.mp h
  obtain ⟨key, hk, h⟩ := bind_ok.mp h
  obtain ⟨n, hn⟩ := positive_ok hi
  exact ⟨n, i, key, hn ▸ hw, fetch_ok.mp hk, (pure_ok.mp h).symm⟩

theorem exists_neighbourPlan {N : Numbering} {n key : Int} (hw : linkWeight N d o = .ok (.num n))
    (hk : N.keys o.oid = some key) : ∃ es, neighbourPlan N d k o = .ok es := by
  refine ⟨[.edge k key (if n ≤ 0 then 1 else n)], ?_⟩
  rw [neighbourPlan, hw, hk]
  rfl

theorem isApp_of_not_isData (h : d.categoryType.isApp) : ¬ d.categoryType.isData := by
  unfold DropType.isApp at h
  unfold DropType.isData
  intro hd
  simp only [decide_eq_true_eq] at h hd
  rcases h with h | h <;> rcases hd with hd | hd <;> simp [h] at hd

/-- The node of a drop is added under its oid. -/
theorem entryPlan_ok {N : Numbering} {c : Carry} {m : Nat} :
    entryPlan N (c, some d, m) = .ok es ↔ ∃ r,
      collect (neighbourPlan N d ((m : Int) + 1)) ((c.next d).adjDrops d) = .ok r ∧
      es = .node ((m : Int) + 1) (c.next d).tw (c.next d).sz d.oid :: r := by
  unfold entryPlan
  constructor
  · intro h
    obtain ⟨x, hx, h⟩ := bind_ok.mp h
    obtain rfl := Option.some.inj (fetch_ok.mp hx)
    obtain ⟨r, hr, h⟩ := bind_ok.mp h
    exact ⟨r, hr, (pure_ok.mp h).symm⟩
  · rintro ⟨r, hr, rfl⟩
    simp only [ok_bind_fetch, hr, ok_bind]
    rfl

/-- An edge is from the turn of a drop to the key of one that it looks up. -/
theorem edge_of_collect {N : Numbering} {ds : List DropSpec} {r : List Entry} {a b w : Int}
    (hr : collect (entryPlan N) (carried {} (ds.map some).zipIdx) = .ok r)
    (he : Entry.edge a b w ∈ r) : ∃ (j : Nat) (d : DropSpec), ds[j]? = some d ∧
      a = (j : Int) + 1 ∧ ∃ o ∈ consulted ds j d, N.keys o.oid = some b := by
  obtain ⟨x, hx, es, hes, he⟩ := exists_of_mem_collect hr he
  obtain ⟨j, d, hj, rfl⟩ := mem_carried.mp hx
  obtain ⟨r', hr', rfl⟩ := entryPlan_ok.mp hes
  have he : Entry.edge a b w ∈ r' := by simpa using he
  obtain ⟨o, ho, es', hes', he⟩ := exists_of_mem_collect hr' he
  obtain ⟨n, i, key, -, hk, rfl⟩ := neighbourPlan_ok hes'
  obtain ⟨rfl, rfl, -⟩ := Entry.edge.inj (List.mem_singleton.mp he)
  exact ⟨j, d, hj, rfl, o, ho, hk⟩

theorem exists_edge_of_collect {N : Numbering} {ds : List DropSpec} {r : List Entry} {j : Nat}
    (hr : collect (entryPlan N) (carried {} (ds.map some).zipIdx) = .ok r)
    (hj : ds[j]? = some d) (ho : o ∈ consulted ds j d) :
    ∃ n key w, linkWeight N d o = .ok (.num n) ∧ N.keys o.oid = some key ∧
      Entry.edge ((j : Int) + 1) key w ∈ r := by
  obtain ⟨es, hes⟩ := exists_collect_iff.mp ⟨r, hr⟩ _ (mem_carried.mpr ⟨j, d, hj, rfl⟩)
  obtain ⟨r', hr', rfl⟩ := entryPlan_ok.mp hes
  obtain ⟨es', hes'⟩ := exists_collect_iff.mp ⟨r', hr'⟩ o ho
  obtain ⟨n, w, key, hw, hk, rfl⟩ := neighbourPlan_ok hes'
  refine ⟨n, key, w, hw, hk, (mem_collect hr).mpr ⟨_, mem_carried.mpr ⟨j, d, hj, rfl⟩, _,
    hes, ?_⟩⟩
  exact List.mem_cons_of_mem _ ((mem_collect hr').mpr ⟨o, ho, _, hes', by simp⟩)

/-- What the drops with a key are read as. -/
theorem linkWeight_ok (h : ¬ [none, none] <:+: drops)
    (hn : (drops.reduceOption.map DropSpec.oid).Nodup) {key n : Int}
    (hk : (numberDrops drops).keys o.oid = some key) :
    linkWeight (numberDrops drops) d o = .ok (.num n) ↔
      (d.categoryType.isData ∧ d.weight = some (.num n)) ∨
      (d.categoryType.isApp ∧ ∀ t ∈ drops.reduceOption, t.oid = o.oid →
        t.weight.getD (.num 1) = .num n) ∨
      (¬ d.categoryType.isData ∧ ¬ d.categoryType.isApp ∧ n = 1) := by
  unfold linkWeight
  by_cases hd : d.categoryType.isData
  · have ha : ¬ d.categoryType.isApp := fun ha => isApp_of_not_isData ha hd
    simp [hd, ha, fetch_ok]
  · rw [if_neg hd]
    by_cases ha : d.categoryType.isApp
    · obtain ⟨j, t, hj, hto, hkj, -⟩ := (numberDrops_keys h hn).mp hk
      have hat : weightAt (numberDrops drops) key = .ok (t.weight.getD (.num 1)) := by
        have hidx : (numberDrops drops).drops[(key - 1).toNat]? = some (some t) := by
          rw [numberDrops_drops, looked_eq h, hkj]
          simpa using hj
        unfold weightAt
        rw [hidx]
      rw [if_pos ha, hk, ok_bind_fetch, hat, Except.ok.injEq]
      constructor
      · intro hw
        refine Or.inr (Or.inl ⟨ha, fun u hu huo => ?_⟩)
        obtain ⟨m, hm⟩ := List.mem_iff_getElem?.mp hu
        obtain rfl := index_unique hn hm hj (huo.trans hto.symm)
        obtain rfl := Option.some.inj (hm.symm.trans hj)
        exact hw
      · rintro (⟨hd', -⟩ | ⟨-, hw⟩ | ⟨-, ha', -⟩)
        · exact absurd hd' hd
        · exact hw t (List.mem_iff_getElem?.mpr ⟨j, hj⟩) hto
        · exact absurd ha ha'
    · simp [hd, ha, pure, Except.pure, eq_comm]

section Successful

variable {rest : List (Option DropSpec)} {G : MetisGraph} {r : List Entry}

/-- When there is an input, the entries without an oid are gone. -/
theorem apart_of_ok (h : toPartitionInput drops = .ok (rest, G)) :
    ¬ [none, none] <:+: drops ∧ rest = drops.reduceOption.map some := by
  obtain ⟨rfl, r, hr, -⟩ := toPartitionInput_ok.mp h
  have hapart : ¬ [none, none] <:+: drops := by
    rw [← none_mem_looked, ← numberDrops_drops]
    intro hmem
    obtain ⟨m, hm⟩ := List.mem_iff_getElem?.mp hmem
    obtain ⟨c, hc⟩ := exists_carried_none (c := {}) (List.mem_zipIdx_iff_getElem?.mpr hm)
    obtain ⟨es, hes⟩ := exists_collect_iff.mp ⟨r, hr⟩ _ hc
    simp [entryPlan, fetch, bind, Except.bind] at hes
  exact ⟨hapart, numberDrops_drops.trans (looked_eq hapart)⟩

theorem plan_of_ok (h : toPartitionInput drops = .ok (rest, G)) :
    ∃ r, collect (entryPlan (numberDrops drops))
      (carried {} (drops.reduceOption.map some).zipIdx) = .ok r ∧
      G = r.foldl MetisGraph.put {} := by
  obtain ⟨-, hrest⟩ := apart_of_ok h
  obtain ⟨-, r, hr, hG⟩ := toPartitionInput_ok.mp h
  exact ⟨r, hrest ▸ hr, hG⟩

theorem keys_range {oid : String} {key : Int} (hapart : ¬ [none, none] <:+: drops)
    (h : (numberDrops drops).keys oid = some key) :
    ∃ j < drops.reduceOption.length, key = (j : Int) + 1 := by
  rw [numberDrops_eq] at h
  rcases keysFrom_range h with h | ⟨j, hj, rfl⟩
  · simp at h
  · have hlen := congrArg List.length (looked_eq hapart)
    rw [List.length_map, List.length_map] at hlen
    exact ⟨j, hlen ▸ hj, by simp⟩

theorem node_of_collect {w z : Weight} {oid : String}
    (hr : collect (entryPlan (numberDrops drops))
      (carried {} (drops.reduceOption.map some).zipIdx) = .ok r) :
    Entry.node k w z oid ∈ r ↔ ∃ (j : Nat) (d : DropSpec), drops.reduceOption[j]? = some d ∧
      k = (j : Int) + 1 ∧ oid = d.oid ∧
      w = (((drops.reduceOption.take j).foldl Carry.next {}).next d).tw ∧
      z = (((drops.reduceOption.take j).foldl Carry.next {}).next d).sz := by
  constructor
  · intro he
    obtain ⟨x, hx, es, hes, he⟩ := exists_of_mem_collect hr he
    obtain ⟨j, d, hj, rfl⟩ := mem_carried.mp hx
    obtain ⟨r', hr', rfl⟩ := entryPlan_ok.mp hes
    rcases List.mem_cons.mp he with he | he
    · obtain ⟨rfl, rfl, rfl, rfl⟩ := Entry.node.inj he
      exact ⟨j, d, hj, rfl, rfl, rfl, rfl⟩
    · obtain ⟨o', -, es', hes', he⟩ := exists_of_mem_collect hr' he
      obtain ⟨n, i, key, -, -, rfl⟩ := neighbourPlan_ok hes'
      simp at he
  · rintro ⟨j, d, hj, rfl, rfl, rfl, rfl⟩
    have hx := mem_carried.mpr ⟨j, d, hj, rfl⟩
    obtain ⟨es, hes⟩ := exists_collect_iff.mp ⟨r, hr⟩ _ hx
    obtain ⟨r', -, rfl⟩ := entryPlan_ok.mp hes
    exact (mem_collect hr).mpr ⟨_, hx, _, hes, by simp⟩

/-- The nodes are the numbers of the drops. -/
theorem mem_nodes_of_ok (h : toPartitionInput drops = .ok (rest, G)) :
    k ∈ G.nodes ↔ ∃ i : Nat, i < drops.reduceOption.length ∧ k = (i : Int) + 1 := by
  obtain ⟨hapart, -⟩ := apart_of_ok h
  obtain ⟨r, hr, rfl⟩ := plan_of_ok h
  rw [MetisGraph.mem_nodes_put]
  constructor
  · rintro ⟨x, hx, hk⟩
    cases x with
    | node k' w z o =>
      obtain ⟨j, d, hj, rfl, -⟩ := (node_of_collect hr).mp hx
      exact ⟨j, (List.getElem?_eq_some_iff.mp hj).1, List.mem_singleton.mp hk⟩
    | edge a b w =>
      obtain ⟨i, s, hi, rfl, o, -, hkey⟩ := edge_of_collect hr hx
      rcases List.mem_pair.mp hk with hk | rfl
      · exact ⟨i, (List.getElem?_eq_some_iff.mp hi).1, hk⟩
      · exact keys_range hapart hkey
  · rintro ⟨i, hi, rfl⟩
    exact ⟨_, (node_of_collect hr).mpr ⟨i, _, List.getElem?_eq_getElem hi, rfl, rfl, rfl, rfl⟩,
      List.mem_singleton_self _⟩

theorem oid_of_ok (h : toPartitionInput drops = .ok (rest, G)) {i : Nat}
    (hi : drops.reduceOption[i]? = some d) : G.oid ((i : Int) + 1) = some d.oid := by
  obtain ⟨r, hr, rfl⟩ := plan_of_ok h
  refine MetisGraph.oid_foldl_put
    (Or.inr ⟨_, _, (node_of_collect hr).mpr ⟨i, d, hi, rfl, rfl, rfl, rfl⟩⟩) fun w z o' ho' => ?_
  obtain ⟨j, e, hj, hij, rfl, -⟩ := (node_of_collect hr).mp ho'
  obtain rfl : i = j := by omega
  rw [Option.some.inj (hi.symm.trans hj)]

end Successful

/-- An input that has the edges of all relations is one whose drops can be read. -/
theorem SeesRelations.readable (h : SeesRelations drops)
    (hn : (drops.reduceOption.map DropSpec.oid).Nodup) : Readable drops := by
  obtain ⟨G, hG, -, -, hE⟩ := h
  obtain ⟨hapart, -⟩ := apart_of_ok hG
  obtain ⟨r, hr, rfl⟩ := plan_of_ok hG
  -- what is looked up has a key, and a weight where one is read
  have hlook : ∀ (i : Nat) (s : DropSpec), drops.reduceOption[i]? = some s →
      ∀ o ∈ consulted drops.reduceOption i s, ∃ n key,
        linkWeight (numberDrops drops) s o = .ok (.num n) ∧
        (numberDrops drops).keys o.oid = some key := by
    intro i s hi o ho
    obtain ⟨n, key, -, hw, hk, -⟩ := exists_edge_of_collect hr hi ho
    exact ⟨n, key, hw, hk⟩
  refine ⟨hapart, fun i s hi o ho => ?_, fun i s hi hd hne => ?_, fun i j s t hi hj hst => ?_⟩
  · obtain ⟨n, key, hw, hk⟩ := hlook i s hi o ho
    obtain ⟨j, t, hj, hto, -, hin⟩ := (numberDrops_keys hapart hn).mp hk
    have ht : t ∈ drops.reduceOption := List.mem_iff_getElem?.mpr ⟨j, hj⟩
    refine ⟨t, ht, hto, hin, fun ha w htw => ?_⟩
    rcases (linkWeight_ok hapart hn hk).mp hw with ⟨hd, -⟩ | ⟨-, hw⟩ | ⟨-, ha', -⟩
    · exact absurd hd (isApp_of_not_isData ha)
    · have := hw t ht hto
      rw [htw] at this
      exact ⟨n, this⟩
    · exact absurd ha ha'
  · obtain ⟨o, l, ho⟩ := List.exists_cons_of_ne_nil hne
    obtain ⟨n, key, hw, hk⟩ := hlook i s hi o (by simp [ho])
    rcases (linkWeight_ok hapart hn hk).mp hw with ⟨-, hw⟩ | ⟨ha, -⟩ | ⟨hd', -⟩
    · exact ⟨n, hw⟩
    · exact absurd hd (isApp_of_not_isData ha)
    · exact absurd hd hd'
  · have hadj := (hE _ _).mpr ⟨i, j, s, t, hi, hj, hst, rfl, rfl⟩
    -- an edge comes from the turn of one of its ends
    have hend : ∀ (i j : Nat) (s t : DropSpec), drops.reduceOption[i]? = some s →
        drops.reduceOption[j]? = some t → (∃ w, Entry.edge ((i : Int) + 1) ((j : Int) + 1) w ∈ r) →
        ∃ o ∈ consulted drops.reduceOption i s, o.oid = t.oid := by
      rintro i j s t hi hj ⟨w, hw⟩
      obtain ⟨i', s', hi', hii, o, ho, hk⟩ := edge_of_collect hr hw
      obtain rfl : i = i' := by omega
      obtain rfl := Option.some.inj (hi.symm.trans hi')
      obtain ⟨j', t', hj', hto, hjj, -⟩ := (numberDrops_keys hapart hn).mp hk
      obtain rfl : j = j' := by omega
      obtain rfl := Option.some.inj (hj.symm.trans hj')
      exact ⟨o, ho, hto.symm⟩
    rcases MetisGraph.adj_foldl_put.mp hadj with hadj | ⟨w, hw | hw⟩
    · exact absurd hadj (by simp [MetisGraph.Adj])
    · exact Or.inl (hend i j s t hi hj ⟨w, hw⟩)
    · exact Or.inr (hend j i t s hj hi ⟨w, hw⟩)

theorem mem_relations_of_consulted {ds : List DropSpec} {j : Nat} (h : o ∈ consulted ds j d) :
    o ∈ d.relations := by
  have hu : ∀ r, o ∈ d.under r → o ∈ d.relations := by
    intro r hr
    unfold DropSpec.relations
    cases r <;> simp only [DropSpec.under] at hr <;> simp [hr]
  rcases List.mem_append.mp h with h | h
  · exact hu _ h
  · exact hu _ h

theorem Readable.seesRelations (h : Readable drops)
    (hn : (drops.reduceOption.map DropSpec.oid).Nodup) : SeesRelations drops := by
  have hrest : (numberDrops drops).drops = drops.reduceOption.map some := by
    rw [numberDrops_drops, looked_eq h.apart]
  have hkey : ∀ (j : Nat) (t : DropSpec), drops.reduceOption[j]? = some t →
      ¬ [none, some t] <:+: drops → (numberDrops drops).keys t.oid = some ((j : Int) + 1) :=
    fun j t hj hin => (numberDrops_keys h.apart hn).mpr ⟨j, t, hj, rfl, rfl, hin⟩
  have hplan : ∀ (i : Nat) (s : DropSpec), drops.reduceOption[i]? = some s →
      ∀ o ∈ consulted drops.reduceOption i s,
        ∃ es, neighbourPlan (numberDrops drops) s ((i : Int) + 1) o = .ok es := by
    intro i s hi o ho
    obtain ⟨t, ht, hto, hin, hw⟩ := h.keyed i s hi o ho
    obtain ⟨j, hj⟩ := List.mem_iff_getElem?.mp ht
    have hk := hto ▸ hkey j t hj hin
    by_cases hd : s.categoryType.isData
    · obtain ⟨n, hn'⟩ := h.weighed i s hi hd (List.ne_nil_of_mem ho)
      exact exists_neighbourPlan ((linkWeight_ok h.apart hn hk).mpr (Or.inl ⟨hd, hn'⟩)) hk
    · by_cases ha : s.categoryType.isApp
      · obtain ⟨n, hn'⟩ : ∃ n, t.weight.getD (.num 1) = .num n := by
          cases htw : t.weight with
          | none => exact ⟨1, rfl⟩
          | some w => exact hw ha w htw
        refine exists_neighbourPlan (n := n) ((linkWeight_ok h.apart hn hk).mpr
          (Or.inr (Or.inl ⟨ha, fun u hu huo => ?_⟩))) hk
        obtain ⟨m, hm⟩ := List.mem_iff_getElem?.mp hu
        obtain rfl := index_unique hn hm hj (huo.trans hto.symm)
        obtain rfl := Option.some.inj (hm.symm.trans hj)
        exact hn'
      · exact exists_neighbourPlan ((linkWeight_ok h.apart hn hk).mpr
          (Or.inr (Or.inr ⟨hd, ha, rfl⟩))) hk
  obtain ⟨r, hr⟩ : ∃ r, collect (entryPlan (numberDrops drops))
      (carried {} (drops.reduceOption.map some).zipIdx) = .ok r := by
    refine exists_collect_iff.mpr fun x hx => ?_
    obtain ⟨j, d, hj, rfl⟩ := mem_carried.mp hx
    obtain ⟨r, hr⟩ := exists_collect_iff.mpr (hplan j d hj)
    exact ⟨_, entryPlan_ok.mpr ⟨r, hr, rfl⟩⟩
  have hedge : ∀ {a b w}, Entry.edge a b w ∈ r → ∃ (i j : Nat) (s t : DropSpec),
      drops.reduceOption[i]? = some s ∧ drops.reduceOption[j]? = some t ∧
      a = (i : Int) + 1 ∧ b = (j : Int) + 1 ∧
      ∃ o ∈ consulted drops.reduceOption i s, o.oid = t.oid := by
    intro a b w he
    obtain ⟨i, s, hi, rfl, o, ho, hk⟩ := edge_of_collect hr he
    obtain ⟨j, t, hj, hto, rfl, -⟩ := (numberDrops_keys h.apart hn).mp hk
    exact ⟨i, j, s, t, hi, hj, rfl, rfl, o, ho, hto.symm⟩
  have hturn : ∀ (i j : Nat) (s t : DropSpec), drops.reduceOption[i]? = some s →
      drops.reduceOption[j]? = some t →
      (∃ o ∈ consulted drops.reduceOption i s, o.oid = t.oid) →
      ∃ w, Entry.edge ((i : Int) + 1) ((j : Int) + 1) w ∈ r := by
    rintro i j s t hi hj ⟨o, ho, hot⟩
    obtain ⟨n, key, w, -, hk, he⟩ := exists_edge_of_collect hr hi ho
    obtain ⟨j', t', hj', hto, rfl, -⟩ := (numberDrops_keys h.apart hn).mp hk
    obtain rfl := index_unique hn hj hj' (hot.symm.trans hto.symm)
    exact ⟨w, he⟩
  have hok := toPartitionInput_ok.mpr ⟨hrest.symm, r, hr, rfl⟩
  refine ⟨r.foldl MetisGraph.put {}, hok, fun k => mem_nodes_of_ok hok,
    fun i d hi => oid_of_ok hok hi, fun a b => ?_⟩
  · rw [MetisGraph.adj_foldl_put]
    constructor
    · rintro (h0 | ⟨w, he | he⟩)
      · exact absurd h0 (by simp [MetisGraph.Adj])
      · obtain ⟨i, j, s, t, hi, hj, ha, hb, o, ho, hot⟩ := hedge he
        exact ⟨i, j, s, t, hi, hj, Or.inl ⟨o, mem_relations_of_consulted ho, hot⟩, ha, hb⟩
      · obtain ⟨i, j, s, t, hi, hj, ha, hb, o, ho, hot⟩ := hedge he
        exact ⟨j, i, t, s, hj, hi, Or.inr ⟨o, mem_relations_of_consulted ho, hot⟩, hb, ha⟩
    · rintro ⟨i, j, s, t, hi, hj, hst, rfl, rfl⟩
      rcases h.either i j s t hi hj hst with hs | ht
      · obtain ⟨w, hw⟩ := hturn i j s t hi hj hs
        exact Or.inr ⟨w, Or.inl hw⟩
      · obtain ⟨w, hw⟩ := hturn j i t s hj hi ht
        exact Or.inr ⟨w, Or.inr hw⟩

/-- The METIS input is the graph of the relations exactly when the drops can be read. -/
theorem seesRelations_iff (hn : (drops.reduceOption.map DropSpec.oid).Nodup) :
    SeesRelations drops ↔ Readable drops :=
  ⟨fun h => h.readable hn, fun h => h.seesRelations hn⟩

/-- A file that is read while it is written, and its reader. -/
def streamed : List (Option DropSpec) :=
  List.map some
    [{ oid := "f", categoryType := .data, weight := some (.num 1),
       streamingConsumers := [.plain "a"] },
      { oid := "a", categoryType := .application, streamingInputs := [.plain "f"] }]

/-- The edge for the stream is missing. -/
theorem streamed_unseen : (streamed.reduceOption.map DropSpec.oid).Nodup ∧
    ¬ SeesRelations streamed := by
  refine ⟨by decide, ?_⟩
  rintro ⟨G, hG, -, -, hE⟩
  have hG : Except.ok _ = Except.ok (_, G) := hG
  obtain ⟨-, rfl⟩ := Prod.mk.inj (Except.ok.inj hG)
  have he := (hE 1 2).mpr ⟨0, 1, _, _, rfl, rfl, Or.inl ⟨.plain "a", by decide, rfl⟩, rfl, rfl⟩
  revert he
  decide

def writer : DropSpec where
  oid := "a"
  categoryType := .application
  outputs := [.named "f" "out"]

def written : DropSpec where
  oid := "f"
  categoryType := .data
  weight := some (.num 3)
  producers := [.plain "a"]

theorem writer_seen : SeesRelations [some writer, some written, none] := by
  have hcases : ∀ (i : Nat) (s : DropSpec), [writer, written][i]? = some s →
      (i = 0 ∧ s = writer) ∨ (i = 1 ∧ s = written) := by
    intro i s hi
    rcases i with _ | _ | i
    · exact Or.inl ⟨rfl, (Option.some.inj hi).symm⟩
    · exact Or.inr ⟨rfl, (Option.some.inj hi).symm⟩
    · exact absurd hi (by simp)
  refine (seesRelations_iff (by decide)).mpr ⟨by decide, ?_, ?_, ?_⟩
  · intro i s hi o ho
    rcases hcases i s hi with ⟨rfl, rfl⟩ | ⟨rfl, rfl⟩
    · obtain rfl : o = .named "f" "out" := List.mem_singleton.mp ho
      exact ⟨_, List.mem_iff_getElem?.mpr ⟨1, rfl⟩, rfl, by decide, fun _ w hw =>
        ⟨3, (Option.some.inj hw).symm⟩⟩
    · obtain rfl : o = .plain "a" := List.mem_singleton.mp ho
      exact ⟨_, List.mem_iff_getElem?.mpr ⟨0, rfl⟩, rfl, by decide, fun ha => by cases ha⟩
  · intro i s hi hd hne
    rcases hcases i s hi with ⟨rfl, rfl⟩ | ⟨rfl, rfl⟩
    · cases hd
    · exact ⟨3, rfl⟩
  · intro i j s t hi hj hst
    rcases hcases i s hi with ⟨rfl, rfl⟩ | ⟨rfl, rfl⟩ <;>
      rcases hcases j t hj with ⟨rfl, rfl⟩ | ⟨rfl, rfl⟩
    · exact absurd hst (by decide)
    · exact Or.inl ⟨.named "f" "out", List.mem_singleton_self _, rfl⟩
    · exact Or.inl ⟨.plain "a", List.mem_singleton_self _, rfl⟩
    · exact absurd hst (by decide)

end Seen

end Daliuge.Partition
