import Daliuge.Lib.Collect
import Daliuge.Partition.Digraph

/-!
# The graph of a drop list

`build_dag_from_drops`: a node for every drop, numbered from 1, and an edge for every drop that
another one names as its consumer or output.
-/
namespace Daliuge.Partition

open Collect

/-- The texts of `categoryType`; only the six that are told apart have a constructor of their
own. -/
inductive DropType
  | data
  | lowerData
  | application
  | app
  | service
  | serviceapp
  | other (text : String)
      (h : text ∉ ["Data", "data", "Application", "app", "Service", "serviceapp"])
  deriving DecidableEq

namespace DropType

/-- `tt in [CategoryType.DATA, "data"]`. -/
def isData (tt : DropType) : Bool := tt = data ∨ tt = lowerData

/-- `tt in [CategoryType.APPLICATION, "app"]`. -/
def isApp (tt : DropType) : Bool := tt = application ∨ tt = app

/-- `tt in [CategoryType.SERVICE, "serviceapp"]`. -/
def isService (tt : DropType) : Bool := tt = service ∨ tt = serviceapp

end DropType

/-- An entry of a relation list: an oid, or `{oid: name}`. -/
inductive Dest
  | plain (oid : String)
  | named (oid name : String)
  deriving DecidableEq, Repr

/-- `list(oup.keys())[0] if isinstance(oup, dict) else oup`. -/
def Dest.oid : Dest → String
  | plain oid | named oid _ => oid

/-- A weight: a whole number or a text, which may spell one. -/
inductive Weight
  | num (i : Int)
  | text (spelled : Option Int)
  deriving DecidableEq

/-- What `int` makes of it. -/
def Weight.value : Weight → Option Int
  | num i => some i
  | text spelled => spelled

/-- The keys of a drop that are read or written here. The weight may be missing. -/
structure DropSpec where
  oid : String
  categoryType : DropType
  name : String := ""
  weight : Option Weight := none
  numCpus : Int := 1
  consumers : List Dest := []
  streamingConsumers : List Dest := []
  outputs : List Dest := []
  producers : List Dest := []
  inputs : List Dest := []
  streamingInputs : List Dest := []
  deriving DecidableEq

namespace DropSpec

variable (d : DropSpec)

/-- What is under the `out_bound_keys` of a drop. -/
def outBound : List Dest := d.streamingConsumers ++ d.consumers ++ d.outputs

/-- A drop names another one. -/
def Names (oid : String) : Prop := ∃ o ∈ d.outBound, o.oid = oid

instance {oid : String} : Decidable (d.Names oid) :=
  inferInstanceAs (Decidable (∃ o ∈ d.outBound, o.oid = oid))

end DropSpec

/-- What the functions over drop lists raise. -/
inductive DropErr
  | keyError (key : String)
  | valueError
  | typeError
  | indexError
  | unsupported (tt : DropType)
  | gpgtException (text : String)
  | noNeedMerge (text : String)
  deriving DecidableEq

/-- `d[key]`. -/
def fetch {α : Type} (key : String) : Option α → Except DropErr α
  | some a => .ok a
  | none => .error (.keyError key)

/-- `int(w)`. -/
def toInt (w : Weight) : Except DropErr Int :=
  match w.value with
  | some i => .ok i
  | none => .error .valueError

/-- A graph whose nodes stand for drops, with the attributes that are read later on. A node that
an edge has brought in has none until its turn. -/
structure DropGraph where
  graph : Digraph Int := {}
  dropType : Int → Option Nat := fun _ => none
  nodeWeight : Int → Option Int := fun _ => none
  text : Int → Option String := fun _ => none
  numCpus : Int → Option Int := fun _ => none
  edgeWeight : Int → Int → Option Int := fun _ _ => none
  gid : Int → Option Int := fun _ => none

namespace DropGraph

/-- `add_node`, with attributes. -/
def addNode (G : DropGraph) (k : Int) (dropType : Nat) (weight : Int) (text : String)
    (numCpus : Int) : DropGraph :=
  { G with
    graph := G.graph.addNode k
    dropType := Function.update G.dropType k (some dropType)
    nodeWeight := Function.update G.nodeWeight k (some weight)
    text := Function.update G.text k (some text)
    numCpus := Function.update G.numCpus k (some numCpus) }

/-- `add_weighted_edges_from`, for one edge. -/
def addWeightedEdge (G : DropGraph) (a b : Int) (w : Int) : DropGraph :=
  { G with
    graph := G.graph.addEdge a b
    edgeWeight := fun x y => if x = a ∧ y = b then some w else G.edgeWeight x y }

end DropGraph

section Build

variable (drops : List DropSpec)

/-- `key_dict`: the last drop of an oid has it. -/
def keyDict (oid : String) : Option Int :=
  (drops.zipIdx.reverse.find? fun p => p.1.oid = oid).map fun p => (p.2 : Int) + 1

/-- `drop_dict`. -/
def dropDict (oid : String) : Option DropSpec := drops.reverse.find? fun d => d.oid = oid

/-- The weight of an application, where a missing or odd one counts as 1. -/
def DropSpec.taskWeight (d : DropSpec) : Int :=
  ((d.weight.bind Weight.value).getD 1)

/-- The type and the weight of the node of a drop. -/
def DropSpec.attributes (d : DropSpec) : Except DropErr (Nat × Int) :=
  if d.categoryType.isData then .ok (0, 0)
  else if d.categoryType.isApp then .ok (1, d.taskWeight)
  else if d.categoryType.isService then .ok (1, d.taskWeight)
  else .error (.unsupported d.categoryType)

/-- An entry under one of the `out_bound_keys`. -/
def addOutBound (d : DropSpec) (myk : Int) (G : DropGraph) (oup : Dest) :
    Except DropErr DropGraph :=
  if d.categoryType = .data then do
    let key ← fetch oup.oid (keyDict drops oup.oid)
    return G.addWeightedEdge myk key (← toInt (← fetch "weight" d.weight))
  else if d.categoryType = .application then do
    let key ← fetch oup.oid (keyDict drops oup.oid)
    let other ← fetch oup.oid (dropDict drops oup.oid)
    return G.addWeightedEdge myk key (← toInt (other.weight.getD (.num 5)))
  else return G

/-- The turn of one drop. -/
def addDrop (G : DropGraph) (p : DropSpec × Nat) : Except DropErr DropGraph := do
  let (d, i) := p
  let myk := (i : Int) + 1
  let (dtp, tw) ← d.attributes
  d.outBound.foldlM (addOutBound drops d myk) (G.addNode myk dtp tw d.name d.numCpus)

/-- `build_dag_from_drops`. -/
def buildDagFromDrops : Except DropErr DropGraph := drops.zipIdx.foldlM (addDrop drops) {}

end Build

/-- What the turn of a drop adds. -/
inductive Added
  | node (k : Int) (dropType : Nat) (weight : Int) (text : String) (numCpus : Int)
  | edge (a b w : Int)
  deriving DecidableEq

/-- The nodes that an action mentions. -/
def Added.mentions : Added → List Int
  | .node k .. => [k]
  | .edge a b _ => [a, b]

namespace DropGraph

def add (G : DropGraph) : Added → DropGraph
  | .node k dropType weight text numCpus => G.addNode k dropType weight text numCpus
  | .edge a b w => G.addWeightedEdge a b w

variable {G : DropGraph} {l : List Added} {a b k : Int}

theorem edge_add {x : Added} :
    (G.add x).graph.Edge a b ↔ G.graph.Edge a b ∨ ∃ w, x = .edge a b w := by
  cases x with
  | node k dropType weight text numCpus => simp [add, addNode, Digraph.Edge]
  | edge a' b' w =>
    simp only [add, addWeightedEdge, Digraph.edge_addEdge, Added.edge.injEq]
    constructor
    · rintro (h | ⟨rfl, rfl⟩)
      · exact Or.inl h
      · exact Or.inr ⟨w, rfl, rfl, rfl⟩
    · rintro (h | ⟨_, rfl, rfl, -⟩)
      · exact Or.inl h
      · exact Or.inr ⟨rfl, rfl⟩

/-- The type of a node that is added with one type only. -/
theorem dropType_foldl_add {t : Nat}
    (hk : G.dropType k = some t ∨ ∃ w text cpus, Added.node k t w text cpus ∈ l)
    (honly : ∀ t' w text cpus, Added.node k t' w text cpus ∈ l → t' = t) :
    (l.foldl add G).dropType k = some t := by
  induction l generalizing G with
  | nil => simpa using hk
  | cons x l ih =>
    rw [List.foldl_cons]
    refine ih ?_ fun t' w text cpus h => honly t' w text cpus (List.mem_cons_of_mem x h)
    cases x with
    | edge a b w => simpa [add, addWeightedEdge] using hk
    | node k' t' w text cpus =>
      by_cases he : k' = k
      · subst he
        rw [add, honly t' w text cpus List.mem_cons_self]
        exact Or.inl (Function.update_self ..)
      · rcases hk with hk | ⟨w', text', cpus', h⟩
        · exact Or.inl ((Function.update_of_ne (Ne.symm he) ..).trans hk)
        · rcases List.mem_cons.mp h with h | h
          · exact absurd (Added.node.inj h).1.symm he
          · exact Or.inr ⟨w', text', cpus', h⟩

theorem mem_foldl_add : k ∈ (l.foldl add G).graph.nodes ↔
    k ∈ G.graph.nodes ∨ ∃ x ∈ l, k ∈ x.mentions := by
  induction l generalizing G with
  | nil => simp
  | cons x l ih =>
    have hx : k ∈ (G.add x).graph.nodes ↔ k ∈ G.graph.nodes ∨ k ∈ x.mentions := by
      cases x with
      | node k' t w text cpus => simp [add, addNode, Digraph.mem_addNode, Added.mentions]
      | edge a b w => simp [add, addWeightedEdge, Digraph.mem_addEdge, Added.mentions]
    rw [List.foldl_cons, ih, hx, or_assoc]
    simp only [List.mem_cons, exists_eq_or_imp]

theorem nodup_foldl_add (h : G.graph.nodes.Nodup) : (l.foldl add G).graph.nodes.Nodup := by
  induction l generalizing G with
  | nil => exact h
  | cons x l ih =>
    refine ih ?_
    cases x with
    | node k t w text cpus => exact Digraph.nodup_addNode h
    | edge a b w => exact Digraph.nodup_addEdge h

theorem edge_foldl_add :
    (l.foldl add G).graph.Edge a b ↔ G.graph.Edge a b ∨ ∃ w, Added.edge a b w ∈ l := by
  induction l generalizing G with
  | nil => simp
  | cons x l ih =>
    rw [List.foldl_cons, ih, edge_add, or_assoc]
    refine or_congr_right ?_
    constructor
    · rintro (⟨w, rfl⟩ | ⟨w, h⟩)
      · exact ⟨w, by simp⟩
      · exact ⟨w, by simp [h]⟩
    · rintro ⟨w, h⟩
      rcases List.mem_cons.mp h with h | h
      · exact Or.inl ⟨w, h.symm⟩
      · exact Or.inr ⟨w, h⟩

end DropGraph

section Plan

variable (drops : List DropSpec)

/-- The edge for an entry under one of the `out_bound_keys`, if it gets one. -/
def ends (d : DropSpec) (myk : Int) (oup : Dest) : Except DropErr (List Added) :=
  if d.categoryType = .data then do
    let key ← fetch oup.oid (keyDict drops oup.oid)
    return [.edge myk key (← toInt (← fetch "weight" d.weight))]
  else if d.categoryType = .application then do
    let key ← fetch oup.oid (keyDict drops oup.oid)
    let other ← fetch oup.oid (dropDict drops oup.oid)
    return [.edge myk key (← toInt (other.weight.getD (.num 5)))]
  else return []

/-- The node of a drop and its edges. -/
def turn (p : DropSpec × Nat) : Except DropErr (List Added) := do
  let (dtp, tw) ← p.1.attributes
  let es ← collect (ends drops p.1 ((p.2 : Int) + 1)) p.1.outBound
  return .node ((p.2 : Int) + 1) dtp tw p.1.name p.1.numCpus :: es

theorem addOutBound_eq (d : DropSpec) (myk : Int) (G : DropGraph) (oup : Dest) :
    addOutBound drops d myk G oup =
      (ends drops d myk oup).map fun r => r.foldl DropGraph.add G := by
  unfold addOutBound ends
  split
  · cases fetch oup.oid (keyDict drops oup.oid) with
    | error e => rfl
    | ok key =>
      cases fetch "weight" d.weight with
      | error e => rfl
      | ok w =>
        simp only [ok_bind]
        cases toInt w <;> rfl
  · split
    · cases fetch oup.oid (keyDict drops oup.oid) with
      | error e => rfl
      | ok key =>
        cases fetch oup.oid (dropDict drops oup.oid) with
        | error e => rfl
        | ok t =>
          simp only [ok_bind]
          cases toInt (t.weight.getD (.num 5)) <;> rfl
    · rfl

theorem addDrop_eq (G : DropGraph) (p : DropSpec × Nat) :
    addDrop drops G p = (turn drops p).map fun r => r.foldl DropGraph.add G := by
  obtain ⟨d, i⟩ := p
  simp only [addDrop, turn]
  cases d.attributes with
  | error e => rfl
  | ok a =>
    simp only [ok_bind]
    rw [foldlM_eq_map_collect (addOutBound_eq drops d ((i : Int) + 1))]
    cases collect (ends drops d ((i : Int) + 1)) d.outBound <;> rfl

/-- The graph is put together from what the drops add in turn. -/
theorem buildDagFromDrops_eq : buildDagFromDrops drops =
    (collect (turn drops) drops.zipIdx).map fun r => r.foldl DropGraph.add {} :=
  foldlM_eq_map_collect (addDrop_eq drops) {}

variable {drops} {oid : String} {k : Int}

theorem keyDict_snoc {d : DropSpec} : keyDict (drops ++ [d]) oid =
    if d.oid = oid then some ((drops.length : Int) + 1) else keyDict drops oid := by
  unfold keyDict
  rw [List.zipIdx_append, List.reverse_append]
  by_cases hd : d.oid = oid
  · simp [hd]
  · simp [hd]

theorem getElem?_snoc {α : Type} {l : List α} {a b : α} {i : Nat} :
    (l ++ [a])[i]? = some b ↔ l[i]? = some b ∨ (i = l.length ∧ b = a) := by
  rw [List.getElem?_append]
  split
  · rename_i h
    simp [Nat.ne_of_lt h]
  · rename_i h
    have hn : l[i]? = none := List.getElem?_eq_none (by omega)
    rw [List.getElem?_singleton, hn]
    split
    · rename_i h0
      obtain rfl : i = l.length := by omega
      simp [eq_comm]
    · rename_i h0
      have hi : i ≠ l.length := by omega
      simp [hi]

/-- The key of an oid is that of the last drop with it. -/
theorem keyDict_eq_some : keyDict drops oid = some k ↔
    ∃ (i : Nat) (d : DropSpec), drops[i]? = some d ∧ d.oid = oid ∧ k = (i : Int) + 1 ∧
      ∀ (j : Nat) (t : DropSpec), i < j → drops[j]? = some t → t.oid ≠ oid := by
  induction drops using List.reverseRecOn generalizing k with
  | nil => simp [keyDict]
  | append_singleton l d ih =>
    have hlt : ∀ {i : Nat} {t : DropSpec}, l[i]? = some t → i < l.length := fun h =>
      (List.getElem?_eq_some_iff.mp h).1
    rw [keyDict_snoc]
    by_cases hd : d.oid = oid
    · rw [if_pos hd]
      constructor
      · intro h
        refine ⟨l.length, d, by simp, hd, (Option.some.inj h).symm, ?_⟩
        intro j t hj ht
        rcases getElem?_snoc.mp ht with ht | ⟨rfl, -⟩
        · have := hlt ht
          omega
        · omega
      · rintro ⟨i, d', hi, -, rfl, hlast⟩
        rcases getElem?_snoc.mp hi with hi | ⟨rfl, -⟩
        · exact absurd hd (hlast l.length d (hlt hi) (by simp))
        · rfl
    · rw [if_neg hd, ih]
      constructor
      · rintro ⟨i, d', hi, ho, hk, hlast⟩
        refine ⟨i, d', getElem?_snoc.mpr (Or.inl hi), ho, hk, fun j t hj ht => ?_⟩
        rcases getElem?_snoc.mp ht with ht | ⟨-, rfl⟩
        · exact hlast j t hj ht
        · exact hd
      · rintro ⟨i, d', hi, ho, hk, hlast⟩
        rcases getElem?_snoc.mp hi with hi | ⟨-, rfl⟩
        · exact ⟨i, d', hi, ho, hk, fun j t hj ht =>
            hlast j t hj (getElem?_snoc.mpr (Or.inl ht))⟩
        · exact absurd ho hd

/-- An oid has a key as soon as it has a drop. -/
theorem exists_keyDict {t : DropSpec} (ht : t ∈ drops) : ∃ k, keyDict drops t.oid = some k := by
  induction drops using List.reverseRecOn with
  | nil => simp at ht
  | append_singleton l d ih =>
    rw [keyDict_snoc]
    split
    · exact ⟨_, rfl⟩
    · rename_i hd
      rcases List.mem_append.mp ht with ht | ht
      · exact ih ht
      · exact absurd (List.mem_singleton.mp ht).symm (fun h => hd (h ▸ rfl))

/-- `drop_dict` and `key_dict` are of the same drops. -/
theorem dropDict_eq_some {d : DropSpec} (h : dropDict drops oid = some d) :
    d ∈ drops ∧ d.oid = oid := by
  have hf := List.find?_some h
  exact ⟨List.mem_reverse.mp (List.mem_of_find?_eq_some h), of_decide_eq_true hf⟩

theorem exists_dropDict {t : DropSpec} (ht : t ∈ drops) : ∃ d, dropDict drops t.oid = some d := by
  have h := List.find?_isSome (p := fun d : DropSpec => decide (d.oid = t.oid))
    |>.mpr ⟨t, List.mem_reverse.mpr ht, decide_eq_true rfl⟩
  exact Option.isSome_iff_exists.mp h

end Plan

theorem fetch_ok {α : Type} {key : String} {x : Option α} {a : α} :
    fetch key x = .ok a ↔ x = some a := by
  cases x <;> simp [fetch]

theorem ok_bind_fetch {α β : Type} {key : String} {a : α} {f : α → Except DropErr β} :
    (fetch key (some a) >>= f) = f a := rfl

theorem toInt_ok {w : Weight} {i : Int} : toInt w = .ok i ↔ w.value = some i := by
  unfold toInt
  cases w.value <;> simp

/-- The entries of a drop get edges. -/
def DropSpec.Drawn (d : DropSpec) : Prop :=
  d.categoryType = .data ∨ d.categoryType = .application

section Edges

variable {drops : List DropSpec} {d : DropSpec} {o : Dest} {a b k : Int} {es : List Added}

theorem mem_ends (h : ends drops d k o = .ok es) :
    (∃ w, Added.edge a b w ∈ es) ↔ d.Drawn ∧ a = k ∧ keyDict drops o.oid = some b := by
  unfold ends at h
  unfold DropSpec.Drawn
  split at h
  · rename_i hd
    obtain ⟨key, hk, h⟩ := bind_ok.mp h
    obtain ⟨x, -, h⟩ := bind_ok.mp h
    obtain ⟨w, -, h⟩ := bind_ok.mp h
    obtain rfl := pure_ok.mp h
    rw [fetch_ok.mp hk]
    simp [hd, eq_comm]
  · split at h
    · rename_i hd
      obtain ⟨key, hk, h⟩ := bind_ok.mp h
      obtain ⟨t, -, h⟩ := bind_ok.mp h
      obtain ⟨w, -, h⟩ := bind_ok.mp h
      obtain rfl := pure_ok.mp h
      rw [fetch_ok.mp hk]
      simp [hd, eq_comm]
    · rename_i hd ha
      obtain rfl := pure_ok.mp h
      simp [hd, ha]

theorem node_notMem_ends {t : Nat} {w : Int} {text : String} {cpus : Int}
    (h : ends drops d k o = .ok es) : Added.node a t w text cpus ∉ es := by
  unfold ends at h
  split at h
  · obtain ⟨_, -, h⟩ := bind_ok.mp h
    obtain ⟨_, -, h⟩ := bind_ok.mp h
    obtain ⟨_, -, h⟩ := bind_ok.mp h
    obtain rfl := pure_ok.mp h
    simp
  · split at h
    · obtain ⟨_, -, h⟩ := bind_ok.mp h
      obtain ⟨_, -, h⟩ := bind_ok.mp h
      obtain ⟨_, -, h⟩ := bind_ok.mp h
      obtain rfl := pure_ok.mp h
      simp
    · obtain rfl := pure_ok.mp h
      simp

theorem exists_ends_data (hd : d.categoryType = .data) : (∃ es, ends drops d k o = .ok es) ↔
    (∃ key, keyDict drops o.oid = some key) ∧ ∃ w, d.weight = some w ∧ w.value ≠ none := by
  unfold ends
  rw [if_pos hd]
  constructor
  · rintro ⟨es, h⟩
    obtain ⟨key, hk, h⟩ := bind_ok.mp h
    obtain ⟨x, hx, h⟩ := bind_ok.mp h
    obtain ⟨w, hw, -⟩ := bind_ok.mp h
    exact ⟨⟨key, fetch_ok.mp hk⟩, x, fetch_ok.mp hx, by simp [toInt_ok.mp hw]⟩
  · rintro ⟨⟨key, hk⟩, w, hw, hv⟩
    obtain ⟨i, hi⟩ := Option.ne_none_iff_exists'.mp hv
    refine ⟨[.edge k key i], ?_⟩
    rw [hk, hw, ok_bind_fetch, ok_bind_fetch, toInt_ok.mpr hi]
    rfl

theorem exists_ends_application (hd : d.categoryType = .application) :
    (∃ es, ends drops d k o = .ok es) ↔ (∃ key, keyDict drops o.oid = some key) ∧
      ∃ t, dropDict drops o.oid = some t ∧ ∀ w, t.weight = some w → w.value ≠ none := by
  unfold ends
  rw [if_neg (by simp [hd]), if_pos hd]
  constructor
  · rintro ⟨es, h⟩
    obtain ⟨key, hk, h⟩ := bind_ok.mp h
    obtain ⟨t, ht, h⟩ := bind_ok.mp h
    obtain ⟨w, hw, -⟩ := bind_ok.mp h
    refine ⟨⟨key, fetch_ok.mp hk⟩, t, fetch_ok.mp ht, fun x hx hn => ?_⟩
    have hv := toInt_ok.mp hw
    simp [hx, hn] at hv
  · rintro ⟨⟨key, hk⟩, t, ht, hw⟩
    obtain ⟨i, hi⟩ : ∃ i, (t.weight.getD (.num 5)).value = some i := by
      cases h : t.weight with
      | none => exact ⟨5, rfl⟩
      | some x => exact Option.ne_none_iff_exists'.mp (hw x h)
    refine ⟨[.edge k key i], ?_⟩
    rw [hk, ht, ok_bind_fetch, ok_bind_fetch, toInt_ok.mpr hi]
    rfl

theorem turn_ok {p : DropSpec × Nat} {r : List Added} : turn drops p = .ok r ↔
    ∃ x es, p.1.attributes = .ok x ∧
      collect (ends drops p.1 ((p.2 : Int) + 1)) p.1.outBound = .ok es ∧
      r = .node ((p.2 : Int) + 1) x.1 x.2 p.1.name p.1.numCpus :: es := by
  unfold turn
  constructor
  · intro h
    obtain ⟨x, hx, h⟩ := bind_ok.mp h
    obtain ⟨es, hes, h⟩ := bind_ok.mp h
    exact ⟨x, es, hx, hes, (pure_ok.mp h).symm⟩
  · rintro ⟨x, es, hx, hes, rfl⟩
    rw [hx, ok_bind, hes]
    rfl

/-- What the graph of a drop list was put together from. -/
theorem exists_of_buildDag {G : DropGraph} (h : buildDagFromDrops drops = .ok G) :
    ∃ r, collect (turn drops) drops.zipIdx = .ok r ∧ G = r.foldl DropGraph.add {} := by
  rw [buildDagFromDrops_eq] at h
  cases hr : collect (turn drops) drops.zipIdx with
  | error e => simp [hr, Except.map] at h
  | ok r =>
    rw [hr] at h
    exact ⟨r, rfl, (Except.ok.inj h).symm⟩

theorem exists_buildDag : (∃ G, buildDagFromDrops drops = .ok G) ↔
    ∀ p ∈ drops.zipIdx, (∃ x, p.1.attributes = .ok x) ∧
      ∀ o ∈ p.1.outBound, ∃ es, ends drops p.1 ((p.2 : Int) + 1) o = .ok es := by
  constructor
  · rintro ⟨G, h⟩ p hp
    obtain ⟨r, hr, -⟩ := exists_of_buildDag h
    obtain ⟨s, hs⟩ := exists_collect_iff.mp ⟨r, hr⟩ p hp
    obtain ⟨x, es, hx, hes, -⟩ := turn_ok.mp hs
    exact ⟨⟨x, hx⟩, exists_collect_iff.mp ⟨es, hes⟩⟩
  · intro h
    obtain ⟨r, hr⟩ : ∃ r, collect (turn drops) drops.zipIdx = .ok r := by
      refine exists_collect_iff.mpr fun p hp => ?_
      obtain ⟨⟨x, hx⟩, hes⟩ := h p hp
      obtain ⟨es, hes⟩ := exists_collect_iff.mpr hes
      exact ⟨_, turn_ok.mpr ⟨x, es, hx, hes, rfl⟩⟩
    exact ⟨_, by rw [buildDagFromDrops_eq, hr]; rfl⟩

/-- The edges of the graph: from a `Data` or an `Application` to what it names. -/
theorem edge_buildDag {G : DropGraph} (h : buildDagFromDrops drops = .ok G) :
    G.graph.Edge a b ↔ ∃ (i : Nat) (s : DropSpec), drops[i]? = some s ∧ s.Drawn ∧
      a = (i : Int) + 1 ∧ ∃ o ∈ s.outBound, keyDict drops o.oid = some b := by
  obtain ⟨r, hr, rfl⟩ := exists_of_buildDag h
  rw [DropGraph.edge_foldl_add]
  have hempty : ¬ ({} : DropGraph).graph.Edge a b := List.not_mem_nil
  constructor
  · rintro (h | ⟨w, hw⟩)
    · exact absurd h hempty
    · obtain ⟨⟨s, i⟩, hp, s', hs, hw⟩ := (mem_collect hr).mp hw
      obtain ⟨x, es, -, hes, rfl⟩ := turn_ok.mp hs
      have hw : Added.edge a b w ∈ es := by simpa using hw
      obtain ⟨o, ho, es', he, hw⟩ := (mem_collect hes).mp hw
      obtain ⟨hd, ha, hb⟩ := (mem_ends he).mp ⟨w, hw⟩
      exact ⟨i, s, List.mem_zipIdx_iff_getElem?.mp hp, hd, ha, o, ho, hb⟩
  · rintro ⟨i, s, hi, hd, ha, o, ho, hb⟩
    obtain ⟨r', hr'⟩ := exists_collect_iff.mp ⟨r, hr⟩ (s, i) (List.mem_zipIdx_iff_getElem?.mpr hi)
    obtain ⟨x, es, -, hes, rfl⟩ := turn_ok.mp hr'
    obtain ⟨es', he⟩ := exists_collect_iff.mp ⟨es, hes⟩ o ho
    obtain ⟨w, hw⟩ := (mem_ends he).mpr ⟨hd, ha, hb⟩
    have hmem := (mem_collect hes).mpr ⟨o, ho, es', he, hw⟩
    exact Or.inr ⟨w, (mem_collect hr).mpr ⟨(s, i), List.mem_zipIdx_iff_getElem?.mpr hi, _, hr',
      List.mem_cons_of_mem _ hmem⟩⟩

/-- The node actions are those of the drops. -/
theorem node_of_turns {r : List Added} {t : Nat} {w : Int} {text : String} {cpus : Int}
    (hr : collect (turn drops) drops.zipIdx = .ok r) (h : Added.node k t w text cpus ∈ r) :
    ∃ (i : Nat) (d : DropSpec), drops[i]? = some d ∧ k = (i : Int) + 1 ∧
      d.attributes = .ok (t, w) := by
  obtain ⟨⟨d, i⟩, hp, es, hes, hmem⟩ := exists_of_mem_collect hr h
  have hi := List.mem_zipIdx_iff_getElem?.mp hp
  obtain ⟨x, es', hx, hes', rfl⟩ := turn_ok.mp hes
  rcases List.mem_cons.mp hmem with hmem | hmem
  · obtain ⟨rfl, rfl, rfl, -, -⟩ := Added.node.inj hmem
    exact ⟨i, d, hi, rfl, hx⟩
  · obtain ⟨o, -, es'', he, hmem⟩ := exists_of_mem_collect hes' hmem
    exact absurd hmem (node_notMem_ends he)

theorem exists_node_of_turns {r : List Added} {i : Nat}
    (hr : collect (turn drops) drops.zipIdx = .ok r) (hi : drops[i]? = some d) :
    ∃ t w, d.attributes = .ok (t, w) ∧
      Added.node ((i : Int) + 1) t w d.name d.numCpus ∈ r := by
  have hp : (d, i) ∈ drops.zipIdx := List.mem_zipIdx_iff_getElem?.mpr hi
  obtain ⟨s, hs⟩ := exists_collect_iff.mp ⟨r, hr⟩ _ hp
  obtain ⟨x, es, hx, -, rfl⟩ := turn_ok.mp hs
  exact ⟨x.1, x.2, hx, (mem_collect hr).mpr ⟨_, hp, _, hs, List.mem_cons_self⟩⟩

/-- The type of the node of a drop. -/
theorem dropType_buildDag {G : DropGraph} (h : buildDagFromDrops drops = .ok G) {i : Nat}
    (hi : drops[i]? = some d) : ∃ t w, d.attributes = .ok (t, w) ∧
      G.dropType ((i : Int) + 1) = some t := by
  obtain ⟨r, hr, rfl⟩ := exists_of_buildDag h
  obtain ⟨t, w, ha, hmem⟩ := exists_node_of_turns hr hi
  refine ⟨t, w, ha, DropGraph.dropType_foldl_add (Or.inr ⟨_, _, _, hmem⟩) ?_⟩
  intro t' w' text cpus h'
  obtain ⟨j, e, hj, hij, he⟩ := node_of_turns hr h'
  obtain rfl : i = j := by omega
  obtain rfl := Option.some.inj (hi.symm.trans hj)
  exact (Prod.mk.inj (Except.ok.inj (he.symm.trans ha))).1

theorem nodup_buildDag {G : DropGraph} (h : buildDagFromDrops drops = .ok G) :
    G.graph.nodes.Nodup := by
  obtain ⟨r, -, rfl⟩ := exists_of_buildDag h
  exact DropGraph.nodup_foldl_add List.nodup_nil

/-- The nodes are the numbers of the drops. -/
theorem mem_buildDag {G : DropGraph} (h : buildDagFromDrops drops = .ok G) :
    k ∈ G.graph.nodes ↔ ∃ i : Nat, i < drops.length ∧ k = (i : Int) + 1 := by
  obtain ⟨r, hr, rfl⟩ := exists_of_buildDag h
  have hE : ∀ a b, (r.foldl DropGraph.add {}).graph.Edge a b ↔ _ := fun a b => edge_buildDag h
  rw [DropGraph.mem_foldl_add]
  constructor
  · rintro (h0 | ⟨x, hx, hk⟩)
    · simp at h0
    · cases x with
      | node k' t w text cpus =>
        obtain ⟨i, d, hi, rfl, -⟩ := node_of_turns hr hx
        exact ⟨i, (List.getElem?_eq_some_iff.mp hi).1, List.mem_singleton.mp hk⟩
      | edge a b w =>
        obtain ⟨i, s, hi, -, rfl, o, -, hb⟩ := (hE a b).mp
          (DropGraph.edge_foldl_add.mpr (Or.inr ⟨w, hx⟩))
        obtain ⟨j, t, hj, -, rfl, -⟩ := keyDict_eq_some.mp hb
        rcases List.mem_pair.mp hk with rfl | rfl
        · exact ⟨i, (List.getElem?_eq_some_iff.mp hi).1, rfl⟩
        · exact ⟨j, (List.getElem?_eq_some_iff.mp hj).1, rfl⟩
  · rintro ⟨i, hi, rfl⟩
    obtain ⟨t, w, -, hmem⟩ := exists_node_of_turns hr (List.getElem?_eq_getElem hi)
    exact Or.inr ⟨_, hmem, List.mem_singleton_self _⟩

end Edges

section Dependencies

variable {drops : List DropSpec}

variable (drops) in
/-- What a drop names is there. -/
def Resolved : Prop := ∀ s ∈ drops, ∀ o ∈ s.outBound, ∃ t ∈ drops, t.oid = o.oid

variable (drops) in
/-- The types of the drops are among those that get a node. -/
def Accepted : Prop := ∀ d ∈ drops,
  d.categoryType.isData ∨ d.categoryType.isApp ∨ d.categoryType.isService

instance : Decidable (Resolved drops) :=
  inferInstanceAs (Decidable (∀ s ∈ drops, ∀ o ∈ s.outBound, ∃ t ∈ drops, t.oid = o.oid))

instance : Decidable (Accepted drops) :=
  inferInstanceAs (Decidable (∀ d ∈ drops,
    d.categoryType.isData ∨ d.categoryType.isApp ∨ d.categoryType.isService))

variable (drops) in
/-- There is a graph, and its edges are the dependencies: from every drop to all that have an oid
that it names. -/
def SeesDependencies : Prop := ∃ G, buildDagFromDrops drops = .ok G ∧
  ∀ a b, G.graph.Edge a b ↔ ∃ (i j : Nat) (s t : DropSpec), drops[i]? = some s ∧
    drops[j]? = some t ∧ s.Names t.oid ∧ a = (i : Int) + 1 ∧ b = (j : Int) + 1

variable (drops) in
/-- A drop that names another one is `Data` with a weight or an `Application`, what an
`Application` names has a weight that can be read or none, and an oid that is named has one
drop. -/
def Drawable : Prop := ∀ s ∈ drops, ∀ o ∈ s.outBound,
  ((s.categoryType = .data ∧ ∃ w, s.weight = some w ∧ w.value ≠ none) ∨
    (s.categoryType = .application ∧
      ∀ t ∈ drops, t.oid = o.oid → ∀ w, t.weight = some w → w.value ≠ none)) ∧
  ∀ (i j : Nat) (t u : DropSpec), drops[i]? = some t → drops[j]? = some u →
    t.oid = o.oid → u.oid = o.oid → i = j

theorem attributes_of_accepted (ha : Accepted drops) {d : DropSpec} (hd : d ∈ drops) :
    ∃ x, d.attributes = .ok x := by
  unfold DropSpec.attributes
  rcases ha d hd with h | h | h
  · exact ⟨_, if_pos h⟩
  · rw [if_pos h]
    split <;> exact ⟨_, rfl⟩
  · rw [if_pos h]
    split
    · exact ⟨_, rfl⟩
    · split <;> exact ⟨_, rfl⟩

/-- The key of an oid that one drop has. -/
theorem keyDict_of_only {t : DropSpec} {j : Nat} (ht : drops[j]? = some t)
    (honly : ∀ (i : Nat) (u : DropSpec), drops[i]? = some u → u.oid = t.oid → i = j) :
    keyDict drops t.oid = some ((j : Int) + 1) := by
  refine keyDict_eq_some.mpr ⟨j, t, ht, rfl, rfl, fun i u hi hu ho => ?_⟩
  have := honly i u hu ho
  omega

/-- Where oids are told apart by their drops. -/
theorem index_unique (hn : (drops.map DropSpec.oid).Nodup) {i j : Nat} {t u : DropSpec}
    (ht : drops[i]? = some t) (hu : drops[j]? = some u) (ho : t.oid = u.oid) : i = j := by
  obtain ⟨hi, -⟩ := List.getElem?_eq_some_iff.mp ht
  refine (List.getElem?_inj (by simpa using hi) hn).mp ?_
  simp [ht, hu, ho]

/-- A graph with all dependencies tells two drops of one oid apart only if none names it, and
it leaves out what the other spellings of a type name. -/
theorem SeesDependencies.drawable (h : SeesDependencies drops) (hc : Resolved drops) :
    Drawable drops := by
  obtain ⟨G, hG, hE⟩ := h
  intro s hs o ho
  obtain ⟨i, hi⟩ := List.mem_iff_getElem?.mp hs
  have hp : (s, i) ∈ drops.zipIdx := List.mem_zipIdx_iff_getElem?.mpr hi
  -- every drop with the oid is at the end of an edge
  have hkey : ∀ (j : Nat) (t : DropSpec), drops[j]? = some t → t.oid = o.oid →
      s.Drawn ∧ ∃ o' ∈ s.outBound, keyDict drops o'.oid = some ((j : Int) + 1) := by
    intro j t hj ht
    have he : G.graph.Edge ((i : Int) + 1) ((j : Int) + 1) :=
      (hE _ _).mpr ⟨i, j, s, t, hi, hj, ⟨o, ho, ht.symm⟩, rfl, rfl⟩
    obtain ⟨i', s', hi', hd, hii, o', ho', hk⟩ := (edge_buildDag hG).mp he
    obtain rfl : i = i' := by omega
    obtain rfl : s = s' := Option.some.inj (hi.symm.trans hi')
    exact ⟨hd, o', ho', hk⟩
  have hone : ∀ (j : Nat) (t : DropSpec), drops[j]? = some t → t.oid = o.oid →
      keyDict drops o.oid = some ((j : Int) + 1) := by
    intro j t hj ht
    obtain ⟨-, o', -, hk⟩ := hkey j t hj ht
    obtain ⟨j', t', hj', ht', hjj, -⟩ := keyDict_eq_some.mp hk
    obtain rfl : j = j' := by omega
    obtain rfl : t = t' := Option.some.inj (hj.symm.trans hj')
    rw [← ht, ht']
    exact hk
  refine ⟨?_, fun j j' t u hj hj' ht hu => ?_⟩
  · obtain ⟨t, ht, hto⟩ := hc s hs o ho
    obtain ⟨j, hj⟩ := List.mem_iff_getElem?.mp ht
    have hes := ((exists_buildDag.mp ⟨G, hG⟩) (s, i) hp).2 o ho
    rcases (hkey j t hj hto).1 with hd | hd
    · exact Or.inl ⟨hd, ((exists_ends_data hd).mp hes).2⟩
    · refine Or.inr ⟨hd, fun u hu huo => ?_⟩
      obtain ⟨-, v, hv, hw⟩ := (exists_ends_application hd).mp hes
      obtain ⟨hvm, hvo⟩ := dropDict_eq_some hv
      obtain ⟨m, hm⟩ := List.mem_iff_getElem?.mp hu
      obtain ⟨m', hm'⟩ := List.mem_iff_getElem?.mp hvm
      have hmm := (hone m u hm huo).symm.trans (hone m' v hm' hvo)
      obtain rfl : m = m' := by
        have := Option.some.inj hmm
        omega
      obtain rfl : u = v := Option.some.inj (hm.symm.trans hm')
      exact hw
  · have hjj := Option.some.inj ((hone j t hj ht).symm.trans (hone j' u hj' hu))
    omega

theorem Drawable.seesDependencies (h : Drawable drops) (hc : Resolved drops) (ha : Accepted drops) :
    SeesDependencies drops := by
  obtain ⟨G, hG⟩ : ∃ G, buildDagFromDrops drops = .ok G := by
    refine exists_buildDag.mpr fun p hp => ?_
    have hm : p.1 ∈ drops := List.mem_iff_getElem?.mpr ⟨p.2, List.mem_zipIdx_iff_getElem?.mp hp⟩
    refine ⟨attributes_of_accepted ha hm, fun o ho => ?_⟩
    obtain ⟨t, ht, hto⟩ := hc p.1 hm o ho
    have hkey := hto ▸ exists_keyDict ht
    rcases (h p.1 hm o ho).1 with ⟨hd, hw⟩ | ⟨hd, hw⟩
    · exact (exists_ends_data hd).mpr ⟨hkey, hw⟩
    · obtain ⟨u, hu⟩ := hto ▸ exists_dropDict ht
      obtain ⟨hum, huo⟩ := dropDict_eq_some hu
      exact (exists_ends_application hd).mpr ⟨hkey, u, hu, hw u hum huo⟩
  refine ⟨G, hG, fun a b => ?_⟩
  rw [edge_buildDag hG]
  constructor
  · rintro ⟨i, s, hi, -, rfl, o, ho, hk⟩
    obtain ⟨j, t, hj, hto, rfl, -⟩ := keyDict_eq_some.mp hk
    exact ⟨i, j, s, t, hi, hj, ⟨o, ho, hto.symm⟩, rfl, rfl⟩
  · rintro ⟨i, j, s, t, hi, hj, ⟨o, ho, hto⟩, rfl, rfl⟩
    obtain ⟨hd, honly⟩ := h s (List.mem_iff_getElem?.mpr ⟨i, hi⟩) o ho
    refine ⟨i, s, hi, ?_, rfl, o, ho, ?_⟩
    · rcases hd with ⟨hd, -⟩ | ⟨hd, -⟩
      · exact Or.inl hd
      · exact Or.inr hd
    · rw [hto]
      exact keyDict_of_only hj fun m u hm hu => honly m j u t hm hj (hu.trans hto.symm) hto.symm

/-- The scheduler sees every dependency exactly when the drops that name others are spelled `Data`
or `Application`, with the weights that their edges need. -/
theorem seesDependencies_iff (hc : Resolved drops) (ha : Accepted drops) :
    SeesDependencies drops ↔ Drawable drops :=
  ⟨fun h => h.drawable hc, fun h => h.seesDependencies hc ha⟩

/-- A service that writes a file. -/
def served : List DropSpec :=
  [{ oid := "s", categoryType := .service, outputs := [.plain "f"] },
    { oid := "f", categoryType := .data, weight := some (.num 1),
      producers := [.plain "s"] }]

/-- The edge from the service is missing. -/
theorem served_unseen : Resolved served ∧ Accepted served ∧ ¬ SeesDependencies served := by
  refine ⟨by decide, by decide, ?_⟩
  rintro ⟨G, hG, hE⟩
  have hG : Except.ok _ = Except.ok G := hG
  obtain rfl := Except.ok.inj hG
  have he := (hE 1 2).mpr ⟨0, 1, _, _, rfl, rfl, by decide, rfl, rfl⟩
  revert he
  decide

/-- The same with an application. -/
def applied : List DropSpec :=
  [{ oid := "a", categoryType := .application, outputs := [.named "f" "out"] },
    { oid := "f", categoryType := .data, weight := some (.num 1), producers := [.plain "a"] }]

theorem applied_seen : SeesDependencies applied := by
  refine (seesDependencies_iff (by decide) (by decide)).mpr fun s hs o ho => ?_
  rcases List.mem_cons.mp hs with rfl | hs
  · obtain rfl := List.mem_singleton.mp ho
    refine ⟨Or.inr ⟨rfl, by decide⟩, fun i j t u hi hj ht hu => ?_⟩
    exact index_unique (by decide) hi hj (ht.trans hu.symm)
  · obtain rfl := List.mem_singleton.mp hs
    exact absurd ho List.not_mem_nil

end Dependencies

end Daliuge.Partition
