import Daliuge.Lib.Subdivision
import Daliuge.Lib.Text
import Daliuge.Partition.Drops

/-!
# Linearisation

`linearise`: between two drops of the same type that follow each other, a synthetic one of the
other type is put in, in the drop list and in the DAG.
-/
namespace Daliuge.Partition

open Collect Text

/-- `dropdict._addSomething`, without a name. -/
def addSomething (l : List Dest) (oid : String) : List Dest :=
  if .plain oid ∈ l then l else l ++ [.plain oid]

namespace DropSpec

variable (d : DropSpec) (oid : String)

def addConsumer : DropSpec := { d with consumers := addSomething d.consumers oid }

def addProducer : DropSpec := { d with producers := addSomething d.producers oid }

def addOutput : DropSpec := { d with outputs := addSomething d.outputs oid }

def addInput : DropSpec := { d with inputs := addSomething d.inputs oid }

/-- The type by which neighbours are compared: 0 for data. -/
def sourceType : Nat := if d.categoryType.isData then 0 else 1

end DropSpec

/-- The application between two data drops. -/
def transApp (d target : DropSpec) (index : Nat) : DropSpec :=
  let extra : DropSpec :=
    { oid := d.oid ++ "_TransApp_" ++ toString index
      categoryType := .application
      name := "go_app"
      weight := some (.num 1) }
  (extra.addInput d.oid).addOutput target.oid

/-- The data between two applications. -/
def transData (d target : DropSpec) (index : Nat) : DropSpec :=
  let extra : DropSpec :=
    { oid := d.oid ++ "_TransData_" ++ toString index
      categoryType := .data
      name := "go_data"
      weight := some (.num 1) }
  (extra.addProducer d.oid).addConsumer target.oid

/-- A node for a synthetic drop. -/
structure AddedNode where
  key : Int
  weight : Int
  dropType : Nat
  gid : Option Int

/-- What the loops have collected; `drops` are the given ones with what they have got so far. -/
structure Linearising where
  drops : List DropSpec
  extraDrops : List DropSpec := []
  links : List (Int × Int) := []
  removeEdges : List (Int × Int) := []
  addEdges : List (Int × Int) := []
  addNodes : List AddedNode := []

/-- `dag.nodes[key]["drop_spec"]`, by its place in the drop list. -/
def specAt (key : Int) : Option Nat := if 0 < key then some (key - 1).toNat else none

section Linearise

variable (dag : DropGraph)

/-- A drop of the same type as its successor: a synthetic one comes between them. -/
def Linearising.insert (s : Linearising) (d : DropSpec) (i : Nat) (sourceKey targetKey : Int)
    (target : DropSpec) (j index : Nat) : Linearising :=
  let extra := if d.sourceType = 0 then transApp d target index else transData d target index
  let extraKey : Int := -((s.extraDrops.length + 1 : Nat) : Int)
  { drops := if d.sourceType = 0 then
        (s.drops.modify i (·.addConsumer extra.oid)).modify j (·.addProducer extra.oid)
      else (s.drops.modify i (·.addOutput extra.oid)).modify j (·.addInput extra.oid)
    extraDrops := s.extraDrops ++ [extra]
    links := s.links ++ [(extraKey, targetKey), (sourceKey, extraKey)]
    removeEdges := s.removeEdges ++ [(sourceKey, targetKey)]
    addEdges := s.addEdges ++ [(sourceKey, extraKey), (extraKey, targetKey)]
    addNodes := s.addNodes ++ [
      { key := extraKey
        weight := 1
        dropType := if d.sourceType = 0 then 1 else 0
        gid := dag.gid targetKey }] }

/-- The turn of one successor. -/
def linkTarget (d : DropSpec) (i : Nat) (sourceKey : Int) (s : Linearising) (p : Int × Nat) :
    Except DropErr Linearising := do
  let (targetKey, index) := p
  let targetType ← fetch "drop_type" (dag.dropType targetKey)
  if d.sourceType = targetType then
    let j ← fetch "drop_spec" (specAt targetKey)
    let target ← fetch "drop_spec" s.drops[j]?
    return s.insert dag d i sourceKey targetKey target j index
  else return { s with links := s.links ++ [(sourceKey, targetKey)] }

/-- The turn of one drop. -/
def lineariseDrop (keys : String → Option Int) (s : Linearising) (p : DropSpec × Nat) :
    Except DropErr Linearising := do
  let sourceKey ← fetch p.1.oid (keys p.1.oid)
  (dag.graph.successors sourceKey).zipIdx.foldlM (linkTarget dag p.1 p.2 sourceKey) s

/-- `dag.add_node`, for a synthetic drop. -/
def DropGraph.addSynthetic (G : DropGraph) (x : AddedNode) : DropGraph :=
  { G with
    graph := G.graph.addNode x.key
    nodeWeight := Function.update G.nodeWeight x.key (some x.weight)
    dropType := Function.update G.dropType x.key (some x.dropType)
    gid := Function.update G.gid x.key x.gid }

/-- `dag.remove_edges_from`. -/
def DropGraph.removeEdges (G : DropGraph) (es : List (Int × Int)) : DropGraph :=
  { G with
    graph := { G.graph with edges := G.graph.edges.filter fun e => e ∉ es }
    edgeWeight := fun a b => if (a, b) ∈ es then none else G.edgeWeight a b }

/-- `dag.add_edges_from`, without weights. -/
def DropGraph.addEdges (G : DropGraph) (es : List (Int × Int)) : DropGraph :=
  { G with graph := es.foldl (fun g e => g.addEdge e.1 e.2) G.graph }

/-- The DAG after linearisation. -/
def Linearising.apply (s : Linearising) : DropGraph :=
  ((s.addNodes.foldl DropGraph.addSynthetic dag).removeEdges s.removeEdges).addEdges s.addEdges

/-- `linearise`: what was collected, and the DAG. -/
def linearise (drops : List DropSpec) (keys : String → Option Int) :
    Except DropErr (Linearising × DropGraph) := do
  let s ← drops.zipIdx.foldlM (lineariseDrop dag keys) { drops }
  return (s, s.apply dag)

end Linearise

/-! ### What is visited -/

/-- A successor in its turn. -/
structure Visit where
  source : DropSpec
  place : Nat
  targetKey : Int
  index : Nat

namespace Visit

def sourceKey (v : Visit) : Int := (v.place : Int) + 1

/-- Where the target is in the drop list. -/
def target (v : Visit) : Nat := (v.targetKey - 1).toNat

end Visit

section Visits

variable (dag : DropGraph) (drops : List DropSpec)

/-- All successors of all drops, in order. -/
def visits : List Visit := drops.zipIdx.flatMap fun p =>
  (dag.graph.successors ((p.2 : Int) + 1)).zipIdx.map fun q => ⟨p.1, p.2, q.1, q.2⟩

/-- Those of the type of the drop before them. -/
def joined (vs : List Visit) : List Visit :=
  vs.filter fun v => dag.dropType v.targetKey = some v.source.sourceType

/-- The synthetic drop for a successor with the given oid. -/
def Visit.extra (v : Visit) (target : DropSpec) : DropSpec :=
  if v.source.sourceType = 0 then transApp v.source target v.index
  else transData v.source target v.index

/-- The node of the synthetic drop. -/
def Visit.node (v : Visit) (j : Nat) : AddedNode where
  key := -((j + 1 : Nat) : Int)
  weight := 1
  dropType := if v.source.sourceType = 0 then 1 else 0
  gid := dag.gid v.targetKey

variable {dag drops}

theorem mem_visits {v : Visit} : v ∈ visits dag drops ↔ drops[v.place]? = some v.source ∧
    (dag.graph.successors v.sourceKey)[v.index]? = some v.targetKey := by
  obtain ⟨d, i, t, m⟩ := v
  unfold visits
  rw [List.mem_flatMap]
  constructor
  · rintro ⟨⟨d', i'⟩, hp, hq⟩
    obtain ⟨⟨t', m'⟩, hq', he⟩ := List.mem_map.mp hq
    have hi := List.mem_zipIdx_iff_getElem?.mp hp
    have hm := List.mem_zipIdx_iff_getElem?.mp hq'
    obtain ⟨rfl, rfl, rfl, rfl⟩ := Visit.mk.inj he
    exact ⟨hi, hm⟩
  · rintro ⟨hi, hm⟩
    exact ⟨(d, i), List.mem_zipIdx_iff_getElem?.mpr hi,
      List.mem_map.mpr ⟨(t, m), List.mem_zipIdx_iff_getElem?.mpr hm, rfl⟩⟩

/-- The place and the index tell visits. -/
theorem visit_ext {v w : Visit} (hv : v ∈ visits dag drops) (hw : w ∈ visits dag drops)
    (hp : v.place = w.place) (hi : v.index = w.index) : v = w := by
  obtain ⟨hv1, hv2⟩ := mem_visits.mp hv
  obtain ⟨hw1, hw2⟩ := mem_visits.mp hw
  obtain ⟨d, i, t, m⟩ := v
  obtain ⟨d', i', t', m'⟩ := w
  obtain rfl : i = i' := hp
  obtain rfl : m = m' := hi
  obtain rfl := Option.some.inj (hv1.symm.trans hw1)
  obtain rfl := Option.some.inj (hv2.symm.trans hw2)
  rfl

theorem nodup_visits : (visits dag drops).Nodup := by
  unfold visits
  refine List.nodup_flatMap.mpr ⟨fun p _ => ?_, ?_⟩
  · refine List.Nodup.of_map Visit.index ?_
    have hmap : ((dag.graph.successors ((p.2 : Int) + 1)).zipIdx.map fun q =>
        (⟨p.1, p.2, q.1, q.2⟩ : Visit)).map Visit.index =
        (dag.graph.successors ((p.2 : Int) + 1)).zipIdx.map Prod.snd := by
      rw [List.map_map]
      rfl
    rw [hmap, List.zipIdx_map_snd]
    exact List.nodup_range'
  · have hnd : (drops.zipIdx.map Prod.snd).Nodup := by
      rw [List.zipIdx_map_snd]
      exact List.nodup_range'
    refine (List.pairwise_map.mp hnd).imp fun hne v hv hw => hne ?_
    obtain ⟨q, -, rfl⟩ := List.mem_map.mp hv
    obtain ⟨q', -, he⟩ := List.mem_map.mp hw
    exact (congrArg Visit.place he).symm

/-- The two loops are one over all visits. -/
theorem foldlM_lineariseDrop (hn : (drops.map DropSpec.oid).Nodup) (s : Linearising) :
    drops.zipIdx.foldlM (lineariseDrop dag (keyDict drops)) s =
      (visits dag drops).foldlM (fun s v =>
        linkTarget dag v.source v.place v.sourceKey s (v.targetKey, v.index)) s := by
  have hkey : ∀ p ∈ drops.zipIdx, keyDict drops p.1.oid = some ((p.2 : Int) + 1) := by
    intro p hp
    have hi := List.mem_zipIdx_iff_getElem?.mp hp
    exact keyDict_of_only hi fun i u hu ho => index_unique hn hu hi ho
  unfold visits
  generalize drops.zipIdx = l at hkey
  induction l generalizing s with
  | nil => rfl
  | cons p l ih =>
    have hstep : lineariseDrop dag (keyDict drops) s p =
        ((dag.graph.successors ((p.2 : Int) + 1)).zipIdx.map fun q =>
          (⟨p.1, p.2, q.1, q.2⟩ : Visit)).foldlM (fun s v =>
            linkTarget dag v.source v.place v.sourceKey s (v.targetKey, v.index)) s := by
      rw [lineariseDrop, hkey p (by simp), ok_bind_fetch, List.foldlM_map]
      rfl
    rw [List.foldlM_cons, List.flatMap_cons, List.foldlM_append, hstep]
    congr 1
    funext s'
    exact ih s' fun q hq => hkey q (by simp [hq])

end Visits

/-! ### The loops -/

/-- A drop after it has got more relations. -/
structure Grown (d d' : DropSpec) : Prop where
  oid : d'.oid = d.oid
  categoryType : d'.categoryType = d.categoryType
  outBound : ∀ o ∈ d.outBound, o ∈ d'.outBound

theorem Grown.refl {d : DropSpec} : Grown d d := ⟨rfl, rfl, fun _ h => h⟩

theorem Grown.trans {d e f : DropSpec} (h : Grown d e) (h' : Grown e f) : Grown d f :=
  ⟨h'.1.trans h.1, h'.2.trans h.2, fun o ho => h'.3 o (h.3 o ho)⟩

theorem mem_addSomething {l : List Dest} {oid : String} {o : Dest} (h : o ∈ l) :
    o ∈ addSomething l oid := by
  unfold addSomething
  split
  · exact h
  · exact List.mem_append_left _ h

theorem grown_addConsumer {d : DropSpec} {oid : String} : Grown d (d.addConsumer oid) := by
  refine ⟨rfl, rfl, fun o ho => ?_⟩
  simp only [DropSpec.outBound, DropSpec.addConsumer, List.mem_append] at ho ⊢
  rcases ho with (ho | ho) | ho
  · exact Or.inl (Or.inl ho)
  · exact Or.inl (Or.inr (mem_addSomething ho))
  · exact Or.inr ho

theorem grown_addOutput {d : DropSpec} {oid : String} : Grown d (d.addOutput oid) := by
  refine ⟨rfl, rfl, fun o ho => ?_⟩
  simp only [DropSpec.outBound, DropSpec.addOutput, List.mem_append] at ho ⊢
  rcases ho with ho | ho
  · exact Or.inl ho
  · exact Or.inr (mem_addSomething ho)

theorem grown_addProducer {d : DropSpec} {oid : String} : Grown d (d.addProducer oid) :=
  ⟨rfl, rfl, fun _ ho => ho⟩

theorem grown_addInput {d : DropSpec} {oid : String} : Grown d (d.addInput oid) :=
  ⟨rfl, rfl, fun _ ho => ho⟩

/-- The same drops, each with what it has got. -/
def Extends (drops drops' : List DropSpec) : Prop := List.Forall₂ Grown drops drops'

theorem Extends.modify {drops drops' : List DropSpec} (h : Extends drops drops') (i : Nat)
    {f : DropSpec → DropSpec} (hf : ∀ d, Grown d (f d)) : Extends drops (drops'.modify i f) := by
  induction h generalizing i with
  | nil => cases i <;> exact .nil
  | cons hd hl ih =>
    cases i with
    | zero => exact .cons (hd.trans (hf _)) hl
    | succ i => exact .cons hd (ih i)

theorem Extends.refl {drops : List DropSpec} : Extends drops drops := by
  induction drops with
  | nil => exact .nil
  | cons d l ih => exact .cons Grown.refl ih

theorem Extends.getElem? {drops drops' : List DropSpec} (h : Extends drops drops') {i : Nat}
    {d : DropSpec} (hi : drops[i]? = some d) : ∃ d', drops'[i]? = some d' ∧ Grown d d' := by
  induction h generalizing i with
  | nil => simp at hi
  | cons hd hl ih =>
    cases i with
    | zero =>
      obtain rfl := Option.some.inj hi
      exact ⟨_, rfl, hd⟩
    | succ i => exact ih hi

section Loops

variable {dag : DropGraph} {drops : List DropSpec}

/-- The synthetic drop for a successor among the given drops. -/
def Visit.extraIn (drops : List DropSpec) (v : Visit) : DropSpec :=
  v.extra (drops[v.target]?.getD v.source)

/-- The edges through a synthetic drop. -/
def Visit.edges (v : Visit) (j : Nat) : List (Int × Int) :=
  [(v.sourceKey, -((j + 1 : Nat) : Int)), (-((j + 1 : Nat) : Int), v.targetKey)]

/-- What has been collected after some visits. -/
structure Collected (dag : DropGraph) (drops : List DropSpec) (pre : List Visit)
    (s : Linearising) : Prop where
  grown : Extends drops s.drops
  kept : joined dag pre = [] → s.drops = drops
  extraDrops : s.extraDrops = (joined dag pre).map (Visit.extraIn drops)
  removeEdges : s.removeEdges = (joined dag pre).map fun v => (v.sourceKey, v.targetKey)
  addEdges : s.addEdges = (joined dag pre).zipIdx.flatMap fun p => p.1.edges p.2
  addNodes : s.addNodes = (joined dag pre).zipIdx.map fun p => p.1.node dag p.2

/-- The ends of the edges are drops with a type. -/
def Targeted (dag : DropGraph) (drops : List DropSpec) : Prop :=
  ∀ v ∈ visits dag drops, (∃ t, dag.dropType v.targetKey = some t) ∧ 0 < v.targetKey ∧
    v.target < drops.length

theorem joined_snoc {pre : List Visit} {v : Visit} : joined dag (pre ++ [v]) =
    joined dag pre ++ if dag.dropType v.targetKey = some v.source.sourceType then [v] else [] := by
  unfold joined
  rw [List.filter_append]
  congr 1
  split
  · rename_i h
    simp [h]
  · rename_i h
    simp [h]

theorem extra_congr {v : Visit} {t t' : DropSpec} (h : t.oid = t'.oid) :
    v.extra t = v.extra t' := by
  unfold Visit.extra transApp transData
  simp only [h]

/-- One visit. -/
theorem collected_step (ht : Targeted dag drops) {pre post : List Visit} {v : Visit}
    (hv : visits dag drops = pre ++ v :: post) {s : Linearising} (hs : Collected dag drops pre s) :
    ∃ s', linkTarget dag v.source v.place v.sourceKey s (v.targetKey, v.index) = .ok s' ∧
      Collected dag drops (pre ++ [v]) s' := by
  obtain ⟨⟨t, htype⟩, hpos, hlt⟩ := ht v (by simp [hv])
  unfold linkTarget
  simp only [htype, ok_bind_fetch]
  obtain ⟨h1, hkept, h2, h3, h4, h5⟩ := hs
  by_cases he : v.source.sourceType = t
  · have hspec : specAt v.targetKey = some v.target := if_pos hpos
    obtain ⟨t', ht', hg⟩ := h1.getElem? (List.getElem?_eq_getElem hlt)
    rw [if_pos he, hspec, ok_bind_fetch, ht', ok_bind_fetch]
    refine ⟨_, rfl, ?_⟩
    have hj : joined dag (pre ++ [v]) = joined dag pre ++ [v] := by
      rw [joined_snoc, if_pos (by rw [htype, he])]
    have hextra : v.extra t' = v.extraIn drops := by
      refine extra_congr ?_
      rw [hg.oid, List.getElem?_eq_getElem hlt]
      rfl
    have hlen : s.extraDrops.length = (joined dag pre).length := by rw [h2, List.length_map]
    constructor
    · show Extends drops (if v.source.sourceType = 0 then _ else _)
      split
      · exact (h1.modify _ fun _ => grown_addConsumer).modify _ fun _ => grown_addProducer
      · exact (h1.modify _ fun _ => grown_addOutput).modify _ fun _ => grown_addInput
    · rw [hj]
      simp
    · rw [hj, List.map_append, List.map_singleton, ← h2, ← hextra]
      rfl
    · rw [hj, List.map_append, List.map_singleton, ← h3]
      rfl
    · rw [hj, List.zipIdx_append, List.flatMap_append, ← h4]
      simp [Linearising.insert, Visit.edges, hlen]
    · rw [hj, List.zipIdx_append, List.map_append, ← h5]
      simp [Linearising.insert, Visit.node, hlen]
  · rw [if_neg he]
    have hj : joined dag (pre ++ [v]) = joined dag pre := by
      rw [joined_snoc, if_neg, List.append_nil]
      rw [htype]
      exact fun h => he (Option.some.inj h).symm
    refine ⟨_, rfl, ?_⟩
    constructor
    · exact h1
    · rw [hj]
      exact hkept
    · rw [hj]
      exact h2
    · rw [hj]
      exact h3
    · rw [hj]
      exact h4
    · rw [hj]
      exact h5

/-- What has been collected in the end. -/
theorem linearise_ok (hn : (drops.map DropSpec.oid).Nodup) (ht : Targeted dag drops) :
    ∃ s, linearise dag drops (keyDict drops) = .ok (s, s.apply dag) ∧
      Collected dag drops (visits dag drops) s := by
  obtain ⟨s, hs, hc⟩ : ∃ s, (visits dag drops).foldlM (fun s v =>
      linkTarget dag v.source v.place v.sourceKey s (v.targetKey, v.index)) { drops } = .ok s ∧
      Collected dag drops (visits dag drops) s :=
    foldlM_prefix (fun pre v post s hv hi => collected_step ht hv hi)
      ⟨Extends.refl, fun _ => rfl, rfl, rfl, rfl, rfl⟩
  refine ⟨s, ?_, hc⟩
  unfold linearise
  rw [foldlM_lineariseDrop hn, hs]
  rfl

end Loops

/-! ### The DAG afterwards -/

namespace DropGraph

variable {G : DropGraph} {l : List AddedNode} {es : List (Int × Int)} {a b k : Int}

theorem addSynthetic_edges : (l.foldl addSynthetic G).graph.edges = G.graph.edges := by
  induction l generalizing G with
  | nil => rfl
  | cons x l ih =>
    rw [List.foldl_cons, ih]
    exact Digraph.addNode_edges

theorem addSynthetic_other (hk : k ∉ l.map AddedNode.key) :
    (l.foldl addSynthetic G).dropType k = G.dropType k ∧
      (l.foldl addSynthetic G).gid k = G.gid k := by
  induction l generalizing G with
  | nil => exact ⟨rfl, rfl⟩
  | cons x l ih =>
    rw [List.map_cons, List.mem_cons, not_or] at hk
    obtain ⟨h1, h2⟩ := ih (G := G.addSynthetic x) hk.2
    exact ⟨h1.trans (Function.update_of_ne hk.1 ..), h2.trans (Function.update_of_ne hk.1 ..)⟩

theorem addSynthetic_at (hn : (l.map AddedNode.key).Nodup) {x : AddedNode} (hx : x ∈ l) :
    (l.foldl addSynthetic G).dropType x.key = some x.dropType ∧
      (l.foldl addSynthetic G).gid x.key = x.gid := by
  induction l generalizing G with
  | nil => simp at hx
  | cons y l ih =>
    rw [List.map_cons, List.nodup_cons] at hn
    rcases List.mem_cons.mp hx with rfl | hx
    · obtain ⟨h1, h2⟩ := addSynthetic_other (G := G.addSynthetic x) hn.1
      exact ⟨h1.trans (Function.update_self ..), h2.trans (Function.update_self ..)⟩
    · exact ih hn.2 hx

theorem edge_removeEdges :
    (G.removeEdges es).graph.Edge a b ↔ G.graph.Edge a b ∧ (a, b) ∉ es := by
  simp [removeEdges, Digraph.Edge]

theorem edge_addEdges : (G.addEdges es).graph.Edge a b ↔ G.graph.Edge a b ∨ (a, b) ∈ es := by
  have h : ∀ g : Digraph Int, (es.foldl (fun g e => g.addEdge e.1 e.2) g).Edge a b ↔
      g.Edge a b ∨ (a, b) ∈ es := by
    induction es with
    | nil => simp
    | cons e es ih =>
      intro g
      rw [List.foldl_cons, ih, Digraph.edge_addEdge, List.mem_cons, Prod.ext_iff, or_assoc]
  exact h G.graph

end DropGraph

section Apply

variable {dag G : DropGraph} {drops : List DropSpec} {s : Linearising} {a b k : Int}

theorem edge_apply : (s.apply dag).graph.Edge a b ↔
    (dag.graph.Edge a b ∧ (a, b) ∉ s.removeEdges) ∨ (a, b) ∈ s.addEdges := by
  unfold Linearising.apply
  rw [DropGraph.edge_addEdges, DropGraph.edge_removeEdges, Digraph.Edge,
    DropGraph.addSynthetic_edges]
  rfl

/-- The nodes are numbered as the drops are, and have their types. -/
structure Numbered (drops : List DropSpec) (dag : DropGraph) : Prop where
  nodes : ∀ k, k ∈ dag.graph.nodes ↔ ∃ i : Nat, i < drops.length ∧ k = (i : Int) + 1
  edges : ∀ a b, dag.graph.Edge a b → a ∈ dag.graph.nodes ∧ b ∈ dag.graph.nodes
  types : ∀ (i : Nat) (d : DropSpec), drops[i]? = some d →
    dag.dropType ((i : Int) + 1) = some d.sourceType

/-- The graph of a drop list, with any partition of its nodes. -/
structure OfDrops (drops : List DropSpec) (dag : DropGraph) : Prop extends Numbered drops dag where
  oids : (drops.map DropSpec.oid).Nodup

theorem attributes_sourceType {d : DropSpec} {t : Nat} {w : Int} (h : d.attributes = .ok (t, w)) :
    t = d.sourceType := by
  unfold DropSpec.attributes at h
  unfold DropSpec.sourceType
  split at h
  · rename_i hd
    rw [if_pos hd]
    exact (Prod.mk.inj (Except.ok.inj h)).1.symm
  · rename_i hd
    rw [if_neg hd]
    split at h
    · exact (Prod.mk.inj (Except.ok.inj h)).1.symm
    · split at h
      · exact (Prod.mk.inj (Except.ok.inj h)).1.symm
      · simp at h

theorem numbered_of_build (hG : buildDagFromDrops drops = .ok G) : Numbered drops G := by
  refine ⟨fun k => mem_buildDag hG, fun a b he => ?_, fun i d hi => ?_⟩
  · obtain ⟨i, d, hi, -, rfl, o, -, hb⟩ := (edge_buildDag hG).mp he
    obtain ⟨j, t, hj, -, rfl, -⟩ := keyDict_eq_some.mp hb
    exact ⟨(mem_buildDag hG).mpr ⟨i, (List.getElem?_eq_some_iff.mp hi).1, rfl⟩,
      (mem_buildDag hG).mpr ⟨j, (List.getElem?_eq_some_iff.mp hj).1, rfl⟩⟩
  · obtain ⟨t, w, ha, ht⟩ := dropType_buildDag hG hi
    rw [← attributes_sourceType ha]
    exact ht

theorem ofDrops_of_build (hn : (drops.map DropSpec.oid).Nodup)
    (hG : buildDagFromDrops drops = .ok G) (gid : Int → Option Int) :
    OfDrops drops { G with gid } := by
  obtain ⟨h1, h2, h3⟩ := numbered_of_build hG
  exact ⟨⟨h1, h2, h3⟩, hn⟩

variable (h : OfDrops drops dag)

include h in
theorem OfDrops.targeted : Targeted dag drops := by
  intro v hv
  obtain ⟨-, hm⟩ := mem_visits.mp hv
  have he : dag.graph.Edge v.sourceKey v.targetKey :=
    Digraph.mem_successors.mp (List.mem_of_getElem? hm)
  obtain ⟨i, hi, hk⟩ := (h.nodes _).mp (h.edges _ _ he).2
  refine ⟨⟨_, hk ▸ h.types i _ (List.getElem?_eq_getElem hi)⟩, by omega, ?_⟩
  unfold Visit.target
  omega

include h in
/-- Every edge is visited. -/
theorem OfDrops.exists_visit (he : dag.graph.Edge a b) :
    ∃ v ∈ visits dag drops, v.sourceKey = a ∧ v.targetKey = b := by
  obtain ⟨i, hi, rfl⟩ := (h.nodes _).mp (h.edges _ _ he).1
  obtain ⟨m, hm⟩ := List.mem_iff_getElem?.mp (Digraph.mem_successors.mpr he)
  exact ⟨⟨drops[i], i, b, m⟩, mem_visits.mpr ⟨List.getElem?_eq_getElem hi, hm⟩, rfl, rfl⟩

include h in
theorem OfDrops.edge_of_visit {v : Visit} (hv : v ∈ visits dag drops) :
    dag.graph.Edge v.sourceKey v.targetKey ∧
      dag.dropType v.sourceKey = some v.source.sourceType := by
  obtain ⟨hi, hm⟩ := mem_visits.mp hv
  exact ⟨Digraph.mem_successors.mp (List.mem_of_getElem? hm), h.types _ _ hi⟩

/-- An edge between drops of one type. -/
def SameType (dag : DropGraph) (a b : Int) : Prop :=
  dag.graph.Edge a b ∧ dag.dropType a = dag.dropType b

include h in
/-- The visits for which a synthetic drop is put in are the edges between drops of one type. -/
theorem OfDrops.mem_joined : (∃ v ∈ joined dag (visits dag drops),
    v.sourceKey = a ∧ v.targetKey = b) ↔ SameType dag a b := by
  constructor
  · rintro ⟨v, hv, rfl, rfl⟩
    obtain ⟨hv, ht⟩ := List.mem_filter.mp hv
    obtain ⟨he, hs⟩ := h.edge_of_visit hv
    exact ⟨he, hs.trans (of_decide_eq_true ht).symm⟩
  · rintro ⟨he, ht⟩
    obtain ⟨v, hv, rfl, rfl⟩ := h.exists_visit he
    obtain ⟨-, hs⟩ := h.edge_of_visit hv
    exact ⟨v, List.mem_filter.mpr ⟨hv, decide_eq_true (ht.symm.trans hs)⟩, rfl, rfl⟩

variable (hc : Collected dag drops (visits dag drops) s)

include h hc in
theorem mem_removeEdges : (a, b) ∈ s.removeEdges ↔ SameType dag a b := by
  rw [hc.removeEdges, List.mem_map, ← h.mem_joined]
  simp only [Prod.mk.injEq]

include hc in
theorem mem_addEdges : (a, b) ∈ s.addEdges ↔ ∃ (j : Nat) (v : Visit),
    (joined dag (visits dag drops))[j]? = some v ∧
      ((a = v.sourceKey ∧ b = -((j + 1 : Nat) : Int)) ∨
        (a = -((j + 1 : Nat) : Int) ∧ b = v.targetKey)) := by
  rw [hc.addEdges, List.mem_flatMap]
  constructor
  · rintro ⟨⟨v, j⟩, hp, he⟩
    refine ⟨j, v, List.mem_zipIdx_iff_getElem?.mp hp, ?_⟩
    simpa [Visit.edges, Prod.ext_iff] using he
  · rintro ⟨j, v, hj, he⟩
    refine ⟨(v, j), List.mem_zipIdx_iff_getElem?.mpr hj, ?_⟩
    simpa [Visit.edges, Prod.ext_iff] using he

include h in
theorem OfDrops.pos_of_visit {v : Visit} (hv : v ∈ visits dag drops) :
    0 < v.sourceKey ∧ 0 < v.targetKey := by
  refine ⟨?_, (h.targeted v hv).2.1⟩
  unfold Visit.sourceKey
  omega

theorem mem_of_joined {j : Nat} {v : Visit}
    (hj : (joined dag (visits dag drops))[j]? = some v) :
    v ∈ visits dag drops ∧ dag.dropType v.targetKey = some v.source.sourceType := by
  obtain ⟨hv, ht⟩ := List.mem_filter.mp (List.mem_of_getElem? hj)
  exact ⟨hv, of_decide_eq_true ht⟩

include h hc in
/-- The DAG afterwards has the edges between drops of one type subdivided. -/
theorem subdivides : Subdivision.Subdivides dag.graph.Edge (s.apply dag).graph.Edge
    (fun k => 0 < k) := by
  have hpos : ∀ a b, dag.graph.Edge a b → 0 < a ∧ 0 < b := by
    intro a b he
    obtain ⟨v, hv, rfl, rfl⟩ := h.exists_visit he
    exact h.pos_of_visit hv
  refine ⟨hpos, fun a b he ha hb => ?_, fun a b he hb => ?_, fun a b he => ?_⟩
  · rcases edge_apply.mp he with ⟨he, -⟩ | he
    · exact he
    · obtain ⟨j, v, -, ⟨-, rfl⟩ | ⟨rfl, -⟩⟩ := (mem_addEdges hc).mp he <;> omega
  · rcases edge_apply.mp he with ⟨he, -⟩ | he
    · exact absurd (hpos a b he).2 hb
    · obtain ⟨j, v, hj, ⟨rfl, rfl⟩ | ⟨rfl, rfl⟩⟩ := (mem_addEdges hc).mp he
      · refine ⟨(h.pos_of_visit (mem_of_joined hj).1).1, fun c hbc => ?_⟩
        rcases edge_apply.mp hbc with ⟨hbc, -⟩ | hbc
        · have := (hpos _ _ hbc).1
          omega
        · obtain ⟨j', v', hj', ⟨hs, -⟩ | ⟨hk, rfl⟩⟩ := (mem_addEdges hc).mp hbc
          · have := (h.pos_of_visit (mem_of_joined hj').1).1
            omega
          · obtain rfl : j = j' := by omega
            obtain rfl := Option.some.inj (hj.symm.trans hj')
            exact ⟨(h.pos_of_visit (mem_of_joined hj).1).2,
              (h.edge_of_visit (mem_of_joined hj).1).1⟩
      · exact absurd (h.pos_of_visit (mem_of_joined hj).1).2 hb
  · by_cases hs : SameType dag a b
    · obtain ⟨v, hv, rfl, rfl⟩ := h.mem_joined.mpr hs
      obtain ⟨j, hj⟩ := List.mem_iff_getElem?.mp hv
      refine Or.inr ⟨-((j + 1 : Nat) : Int), ?_, ?_⟩
      · exact edge_apply.mpr (Or.inr ((mem_addEdges hc).mpr ⟨j, v, hj, Or.inl ⟨rfl, rfl⟩⟩))
      · exact edge_apply.mpr (Or.inr ((mem_addEdges hc).mpr ⟨j, v, hj, Or.inr ⟨rfl, rfl⟩⟩))
    · exact Or.inl (edge_apply.mpr (Or.inl ⟨he, fun hr => hs ((mem_removeEdges h hc).mp hr)⟩))

include hc in
theorem nodup_addNodes : (s.addNodes.map AddedNode.key).Nodup := by
  rw [hc.addNodes, List.map_map]
  have hmap : ((joined dag (visits dag drops)).zipIdx.map (AddedNode.key ∘ fun p =>
      p.1.node dag p.2)) = ((joined dag (visits dag drops)).zipIdx.map Prod.snd).map
        fun j : Nat => -((j + 1 : Nat) : Int) := by
    rw [List.map_map]
    rfl
  rw [hmap, List.zipIdx_map_snd]
  refine List.Nodup.map (fun a b hab => ?_) List.nodup_range'
  have hab : -((a + 1 : Nat) : Int) = -((b + 1 : Nat) : Int) := hab
  omega

include hc in
/-- The node of a synthetic drop. -/
theorem apply_synthetic {j : Nat} {v : Visit}
    (hj : (joined dag (visits dag drops))[j]? = some v) :
    (s.apply dag).dropType (-((j + 1 : Nat) : Int)) =
        some (if v.source.sourceType = 0 then 1 else 0) ∧
      (s.apply dag).gid (-((j + 1 : Nat) : Int)) = dag.gid v.targetKey := by
  have hmem : v.node dag j ∈ s.addNodes := by
    rw [hc.addNodes]
    exact List.mem_map.mpr ⟨(v, j), List.mem_zipIdx_iff_getElem?.mpr hj, rfl⟩
  exact DropGraph.addSynthetic_at (nodup_addNodes hc) hmem

include hc in
/-- The other nodes are as they were. -/
theorem apply_given (hk : 0 < k) :
    (s.apply dag).dropType k = dag.dropType k ∧ (s.apply dag).gid k = dag.gid k := by
  refine DropGraph.addSynthetic_other fun hmem => ?_
  rw [hc.addNodes, List.map_map] at hmem
  obtain ⟨⟨v, j⟩, -, rfl⟩ := List.mem_map.mp hmem
  have hk : 0 < -((j + 1 : Nat) : Int) := hk
  omega

end Apply

/-! ### The oids of the synthetic drops -/

section Oids

variable {dag : DropGraph} {drops : List DropSpec} {v w : Visit} {t u : DropSpec}

/-- What the oid of a synthetic drop says about its kind. -/
def Visit.kind (v : Visit) : List Char :=
  if v.source.sourceType = 0 then "TransApp".toList else "TransData".toList

theorem extra_oid : (v.extra t).oid.toList =
    (v.source.oid.toList ++ '_' :: v.kind) ++ '_' :: (Nat.repr v.index).toList := by
  unfold Visit.extra Visit.kind
  split
  · show (v.source.oid ++ "_TransApp_" ++ toString v.index).toList = _
    simp
  · show (v.source.oid ++ "_TransData_" ++ toString v.index).toList = _
    simp

/-- The oid of a synthetic drop tells the oid of the source and the index. -/
theorem extra_oid_inj (h : (v.extra t).oid = (w.extra u).oid) :
    v.source.oid = w.source.oid ∧ v.index = w.index := by
  have h := congrArg String.toList h
  rw [extra_oid, extra_oid] at h
  have hdigit : ∀ n : Nat, '_' ∉ (Nat.repr n).toList := by
    intro n hn
    have hd := isDigit_of_mem_repr hn
    exact absurd hd (by decide)
  have hkind : ∀ v : Visit, '_' ∉ v.kind := by
    intro v
    unfold Visit.kind
    split <;> decide
  obtain ⟨hs, hi⟩ := append_cons_inj h (hdigit _) (hdigit _)
  obtain ⟨hs, -⟩ := append_cons_inj hs (hkind v) (hkind w)
  exact ⟨String.toList_inj.mp hs, repr_inj hi⟩

theorem nodup_extra (hn : (drops.map DropSpec.oid).Nodup) :
    (((joined dag (visits dag drops)).map (Visit.extraIn drops)).map DropSpec.oid).Nodup := by
  rw [List.map_map]
  refine List.Nodup.map_on (fun v hv w hw h => ?_) (nodup_visits.filter _)
  have hv := (List.mem_filter.mp hv).1
  have hw := (List.mem_filter.mp hw).1
  obtain ⟨ho, hi⟩ := extra_oid_inj h
  exact visit_ext hv hw (index_unique hn (mem_visits.mp hv).1 (mem_visits.mp hw).1 ho) hi

end Oids

/-! ### The dependencies -/

/-- What the DAG is afterwards, beside what it was. -/
structure KeepsDependencies (dag : DropGraph) (s : Linearising) (dag' : DropGraph) : Prop where
  types : ∀ a b, dag'.graph.Edge a b →
    ∃ t t', dag'.dropType a = some t ∧ dag'.dropType b = some t' ∧ t ≠ t'
  acyclic : ∀ k, ¬ Relation.TransGen dag'.graph.Edge k k
  reaches : ∀ a ∈ dag.graph.nodes, ∀ b ∈ dag.graph.nodes,
    (Relation.TransGen dag'.graph.Edge a b ↔ Relation.TransGen dag.graph.Edge a b)
  oids : (s.extraDrops.map DropSpec.oid).Nodup
  gids : ∀ j < s.extraDrops.length, ∃ k ∈ dag.graph.nodes,
    (∀ b, dag'.graph.Edge (-((j + 1 : Nat) : Int)) b ↔ b = k) ∧ dag'.gid k = dag.gid k ∧
      dag'.gid (-((j + 1 : Nat) : Int)) = dag.gid k

section Dependencies

variable {dag : DropGraph} {drops : List DropSpec} {s : Linearising} {a b : Int}

theorem sourceType_le {d : DropSpec} : d.sourceType = 0 ∨ d.sourceType = 1 := by
  unfold DropSpec.sourceType
  split
  · exact Or.inl rfl
  · exact Or.inr rfl

variable (h : OfDrops drops dag) (hc : Collected dag drops (visits dag drops) s)

include h hc in
/-- The edges afterwards join drops of different types. -/
theorem apply_types (he : (s.apply dag).graph.Edge a b) : ∃ t t',
    (s.apply dag).dropType a = some t ∧ (s.apply dag).dropType b = some t' ∧ t ≠ t' := by
  have hother : ∀ d : DropSpec, d.sourceType ≠ if d.sourceType = 0 then 1 else 0 := by
    intro d
    rcases sourceType_le (d := d) with hd | hd <;> simp [hd]
  rcases edge_apply.mp he with ⟨he, hr⟩ | he
  · obtain ⟨v, hv, rfl, rfl⟩ := h.exists_visit he
    obtain ⟨⟨t, ht⟩, -⟩ := h.targeted v hv
    obtain ⟨-, hs⟩ := h.edge_of_visit hv
    have hpos := h.pos_of_visit hv
    refine ⟨_, t, (apply_given hc hpos.1).1.trans hs, (apply_given hc hpos.2).1.trans ht, ?_⟩
    rintro rfl
    exact hr ((mem_removeEdges h hc).mpr ⟨he, hs.trans ht.symm⟩)
  · obtain ⟨j, v, hj, ⟨rfl, rfl⟩ | ⟨rfl, rfl⟩⟩ := (mem_addEdges hc).mp he
    · obtain ⟨hv, -⟩ := mem_of_joined hj
      exact ⟨_, _, (apply_given hc (h.pos_of_visit hv).1).1.trans (h.edge_of_visit hv).2,
        (apply_synthetic hc hj).1, hother _⟩
    · obtain ⟨hv, ht⟩ := mem_of_joined hj
      exact ⟨_, _, (apply_synthetic hc hj).1,
        (apply_given hc (h.pos_of_visit hv).2).1.trans ht, (hother _).symm⟩

include h hc in
/-- A synthetic drop is in the partition of the one drop after it. -/
theorem apply_gids {j : Nat} (hj : j < s.extraDrops.length) : ∃ k ∈ dag.graph.nodes,
    (∀ b, (s.apply dag).graph.Edge (-((j + 1 : Nat) : Int)) b ↔ b = k) ∧
      (s.apply dag).gid k = dag.gid k ∧
      (s.apply dag).gid (-((j + 1 : Nat) : Int)) = dag.gid k := by
  rw [hc.extraDrops, List.length_map] at hj
  have hv := List.getElem?_eq_getElem hj
  generalize (joined dag (visits dag drops))[j] = v at hv
  obtain ⟨hmem, -⟩ := mem_of_joined hv
  have hpos := h.pos_of_visit hmem
  have hsub := subdivides h hc
  refine ⟨v.targetKey, (h.edges _ _ (h.edge_of_visit hmem).1).2, fun b => ⟨fun he => ?_, ?_⟩,
    (apply_given hc hpos.2).2, (apply_synthetic hc hv).2⟩
  · rcases edge_apply.mp he with ⟨he, -⟩ | he
    · have := (hsub.ends _ _ he).1
      omega
    · obtain ⟨j', v', hj', ⟨hs, -⟩ | ⟨hk, rfl⟩⟩ := (mem_addEdges hc).mp he
      · have := (h.pos_of_visit (mem_of_joined hj').1).1
        omega
      · obtain rfl : j = j' := by omega
        rw [Option.some.inj (hv.symm.trans hj')]
  · rintro rfl
    exact edge_apply.mpr (Or.inr ((mem_addEdges hc).mpr ⟨j, v, hv, Or.inr ⟨rfl, rfl⟩⟩))

/-- Linearisation keeps the dependencies. -/
theorem linearise_keeps {G : DropGraph} (gid : Int → Option Int)
    (hn : (drops.map DropSpec.oid).Nodup) (hG : buildDagFromDrops drops = .ok G)
    (ha : ∀ k, ¬ Relation.TransGen G.graph.Edge k k) :
    ∃ s dag', linearise { G with gid } drops (keyDict drops) = .ok (s, dag') ∧
      KeepsDependencies { G with gid } s dag' := by
  have h := ofDrops_of_build hn hG gid
  obtain ⟨s, hs, hc⟩ := linearise_ok hn h.targeted
  have hsub := subdivides h hc
  refine ⟨s, _, hs, fun a b he => apply_types h hc he, hsub.acyclic ha, fun a hna b hnb => ?_, ?_,
    fun j hj => apply_gids h hc hj⟩
  · obtain ⟨i, -, rfl⟩ := (h.nodes a).mp hna
    obtain ⟨j, -, rfl⟩ := (h.nodes b).mp hnb
    exact hsub.transGen_iff (by omega) (by omega)
  · rw [hc.extraDrops]
    exact nodup_extra hn

/-- Data after data after data. -/
def chain : List DropSpec :=
  [{ oid := "a", categoryType := .data, weight := some (.num 1), consumers := [.plain "b"] },
    { oid := "b", categoryType := .data, weight := some (.num 1), consumers := [.plain "c"] },
    { oid := "c", categoryType := .data }]

theorem exists_chain : ∃ G, buildDagFromDrops chain = .ok G ∧ G.graph.edges = [(1, 2), (2, 3)] :=
  ⟨_, rfl, rfl⟩

theorem chain_keeps : ∃ G s dag', buildDagFromDrops chain = .ok G ∧
    linearise { G with gid := some } chain (keyDict chain) = .ok (s, dag') ∧
      KeepsDependencies { G with gid := some } s dag' := by
  obtain ⟨G, hG, hedges⟩ := exists_chain
  have hlt : ∀ a b, Relation.TransGen G.graph.Edge a b → a < b := by
    intro a b hab
    refine Relation.TransGen.trans_induction_on hab (fun he => ?_) fun _ _ h h' => h.trans h'
    simp only [Digraph.Edge, hedges] at he
    simp at he
    omega
  obtain ⟨s, dag', hs, hk⟩ := linearise_keeps some (by decide) hG fun k h => lt_irrefl k (hlt k k h)
  exact ⟨G, s, dag', hG, hs, hk⟩

end Dependencies

end Daliuge.Partition
