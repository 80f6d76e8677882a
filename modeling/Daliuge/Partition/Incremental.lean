import Mathlib.Order.Bounds.Basic
import Daliuge.Partition.Paths

/-!
# The list of antichains

A part keeps a list of antichains and extends it by every node that is hung on to an old one.
While nothing else happens to the part the list is complete, so the longest antichain in it is
the widest one of the part. Linearisation puts further edges into the part after the list has
been extended.
-/
namespace Daliuge.Partition

open Collect Relation

/-! One more vertex at the end of a relation. -/

section Pendant

variable {α : Type} {r r' : α → α → Prop} {a b u w : α}

theorem transGen_sink (h : ∀ a b, r' a b ↔ r a b ∨ a = u ∧ b = w) (hw : ∀ b, ¬ r' w b)
    (hb : b ≠ w) : TransGen r' a b ↔ TransGen r a b := by
  constructor
  · intro hab
    induction hab with
    | single he =>
      rcases (h a _).mp he with he | ⟨-, rfl⟩
      · exact .single he
      · exact absurd rfl hb
    | tail _ he ih =>
      rename_i c d _
      have hc : c ≠ w := by
        rintro rfl
        exact hw d he
      rcases (h c d).mp he with he | ⟨-, rfl⟩
      · exact .tail (ih hc) he
      · exact absurd rfl hb
  · exact fun hab => TransGen.mono (fun a b he => (h a b).mpr (Or.inl he)) _ _ hab

theorem transGen_source (h : ∀ a b, r' a b ↔ r a b ∨ a = w ∧ b = u) (hw : ∀ b, ¬ r' b w)
    (ha : a ≠ w) : TransGen r' a b ↔ TransGen r a b := by
  rw [← transGen_swap, ← transGen_swap (r := r)]
  refine transGen_sink (u := u) (w := w) (fun a b => ?_) hw ha
  change r' b a ↔ r b a ∨ a = u ∧ b = w
  rw [h, and_comm (a := b = w)]

end Pendant

variable {V : Type}

namespace Digraph

variable {G H : Digraph V} {A : List V} {mas : List (List V)} {ups : List V} {a u v w : V} {d : Nat}

/-- The size of the largest antichain. -/
def Width (G : Digraph V) (d : Nat) : Prop :=
  IsGreatest {n | ∃ A, G.Antichain A ∧ A.length = n} d

/-- One more node, and the old ones it is next to. -/
structure Hung (G H : Digraph V) (w : V) (ups : List V) : Prop where
  fresh : w ∉ G.nodes
  nodes : ∀ a, a ∈ H.nodes ↔ a ∈ G.nodes ∨ a = w
  reach : ∀ a ∈ G.nodes, ∀ b ∈ G.nodes, TransGen H.Edge a b ↔ TransGen G.Edge a b
  self : ¬ TransGen H.Edge w w
  ups : ∀ a ∈ G.nodes, a ∈ ups ↔ TransGen H.Edge a w ∨ TransGen H.Edge w a

theorem Antichain.sublist {B : List V} (h : G.Antichain A) (hs : B.Sublist A) :
    G.Antichain B :=
  ⟨h.1.sublist hs, fun v hv => h.2.1 v (hs.subset hv),
    fun u hu v hv => h.2.2 u (hs.subset hu) v (hs.subset hv)⟩

theorem Width.unique {d' : Nat} (h : G.Width d) (h' : G.Width d') : d = d' := IsGreatest.unique h h'

theorem Dag.antichain_singleton (hG : G.Dag) (hv : v ∈ G.nodes) : G.Antichain [v] := by
  refine ⟨List.nodup_singleton v, by simpa using hv, fun a ha b hb => ?_⟩
  obtain rfl := List.mem_singleton.mp ha
  obtain rfl := List.mem_singleton.mp hb
  exact hG.acyclic _

/-- Antichains of the old nodes. -/
theorem Hung.antichain_old (h : Hung G H w ups) (hA : ∀ a ∈ A, a ∈ G.nodes) :
    H.Antichain A ↔ G.Antichain A := by
  constructor
  · rintro ⟨hnd, -, hr⟩
    exact ⟨hnd, hA, fun a ha b hb hab =>
      hr a ha b hb ((h.reach a (hA a ha) b (hA b hb)).mpr hab)⟩
  · rintro ⟨hnd, -, hr⟩
    exact ⟨hnd, fun a ha => (h.nodes a).mpr (Or.inl (hA a ha)), fun a ha b hb hab =>
      hr a ha b hb ((h.reach a (hA a ha) b (hA b hb)).mp hab)⟩

/-- Antichains with the new node. -/
theorem Hung.antichain_new (h : Hung G H w ups) :
    H.Antichain (A ++ [w]) ↔ G.Antichain A ∧ ∀ a ∈ A, a ∉ ups := by
  constructor
  · intro hA
    have hold : ∀ a ∈ A, a ∈ G.nodes := by
      intro a ha
      rcases (h.nodes a).mp (hA.2.1 a (by simp [ha])) with hg | rfl
      · exact hg
      · exact absurd rfl ((List.nodup_append.mp hA.1).2.2 a ha a (by simp))
    refine ⟨(h.antichain_old hold).mp (hA.sublist (List.sublist_append_left A [w])), ?_⟩
    intro a ha hu
    rcases (h.ups a (hold a ha)).mp hu with hr | hr
    · exact hA.2.2 a (by simp [ha]) w (by simp) hr
    · exact hA.2.2 w (by simp) a (by simp [ha]) hr
  · rintro ⟨hA, hups⟩
    have hno : ∀ a ∈ A, ¬ TransGen H.Edge a w ∧ ¬ TransGen H.Edge w a := by
      intro a ha
      have hn := mt (h.ups a (hA.2.1 a ha)).mpr (hups a ha)
      exact not_or.mp hn
    have hH := (h.antichain_old hA.2.1).mpr hA
    refine ⟨List.nodup_append.mpr ⟨hA.1, List.nodup_singleton w, ?_⟩, ?_, ?_⟩
    · intro a ha b hb hab
      obtain rfl := List.mem_singleton.mp hb
      exact h.fresh (hab ▸ hA.2.1 a ha)
    · intro a ha
      rcases List.mem_append.mp ha with ha | ha
      · exact hH.2.1 a ha
      · exact (h.nodes a).mpr (Or.inr (List.mem_singleton.mp ha))
    · intro a ha b hb hab
      rcases List.mem_append.mp ha with hA' | hA' <;>
        rcases List.mem_append.mp hb with hB' | hB'
      · exact hH.2.2 a hA' b hB' hab
      · rw [List.mem_singleton.mp hB'] at hab
        exact (hno a hA').1 hab
      · rw [List.mem_singleton.mp hA'] at hab
        exact (hno b hB').2 hab
      · rw [List.mem_singleton.mp hA', List.mem_singleton.mp hB'] at hab
        exact h.self hab

end Digraph

/-! Extending the list. -/

section Extend

variable [DecidableEq V] {G H : Digraph V} {mas : List (List V)} {ups : List V} {u v w : V}
  {d : Nat}

/-- The list with the new node added wherever it can be. -/
def extendAll (ups : List V) (w : V) (mas : List (List V)) : List (List V) :=
  mas.flatMap fun ma => if ma.any (· ∈ ups) then [ma] else [ma ++ [w], ma]

/-- The length of the longest antichain of a list, 1 at least. -/
def longest (mas : List (List V)) : Nat := (mas.map List.length).foldl max 1

theorem foldl_extend (c : List (List V) × Nat) :
    mas.foldl (Partition.extend ups w) c =
      (c.1 ++ extendAll ups w mas, ((extendAll ups w mas).map List.length).foldl max c.2) := by
  induction mas generalizing c with
  | nil => simp [extendAll]
  | cons ma mas ih =>
    have hcons : extendAll ups w (ma :: mas) =
        (if ma.any (· ∈ ups) then [ma] else [ma ++ [w], ma]) ++ extendAll ups w mas := rfl
    rw [List.foldl_cons, ih, hcons]
    unfold Partition.extend
    split
    · simp
    · simp

theorem mem_extendAll {B : List V} :
    B ∈ extendAll ups w mas ↔ B ∈ mas ∨ ∃ A ∈ mas, (∀ a ∈ A, a ∉ ups) ∧ B = A ++ [w] := by
  have hif : ∀ ma : List V, B ∈ (if ma.any (· ∈ ups) then [ma] else [ma ++ [w], ma]) ↔
      B = ma ∨ (∀ a ∈ ma, a ∉ ups) ∧ B = ma ++ [w] := by
    intro ma
    by_cases h : ma.any (· ∈ ups) = true
    · rw [if_pos h]
      have hn : ¬ ∀ a ∈ ma, a ∉ ups := by simpa using h
      simp [hn]
    · rw [if_neg h]
      have hn : ∀ a ∈ ma, a ∉ ups := by simpa using h
      rw [List.mem_cons, List.mem_singleton, or_comm, and_iff_right hn]
  unfold extendAll
  rw [List.mem_flatMap]
  constructor
  · rintro ⟨A, hA, hB⟩
    rcases (hif A).mp hB with rfl | h
    · exact Or.inl hA
    · exact Or.inr ⟨A, hA, h⟩
  · rintro (hB | ⟨A, hA, h⟩)
    · exact ⟨B, hB, (hif B).mpr (Or.inl rfl)⟩
    · exact ⟨A, hA, (hif A).mpr (Or.inr h)⟩

/-- With the new node added wherever it can be, the list has every antichain again. -/
theorem Digraph.Hung.lists (h : G.Hung H w ups) (hl : G.Lists mas) :
    H.Lists (extendAll ups w mas) := by
  constructor
  · intro B hB
    rcases mem_extendAll.mp hB with hB | ⟨A, hA, hups, rfl⟩
    · have hG := hl.sound B hB
      exact (h.antichain_old hG.2.1).mpr hG
    · exact h.antichain_new.mpr ⟨hl.sound A hA, hups⟩
  · intro A hA
    by_cases hw : w ∈ A
    · have hp : A.Perm (A.erase w ++ [w]) :=
        (List.perm_cons_erase hw).trans (List.perm_append_singleton w (A.erase w)).symm
      obtain ⟨hG, hups⟩ := h.antichain_new.mp (hA.perm hp)
      obtain ⟨B, hB, hperm⟩ := hl.complete _ hG
      refine ⟨B ++ [w], mem_extendAll.mpr (Or.inr ⟨B, hB, ?_, rfl⟩), ?_⟩
      · intro b hb
        exact hups b (hperm.mem_iff.mpr hb)
      · exact hp.trans (hperm.append_right [w])
    · have hold : ∀ a ∈ A, a ∈ G.nodes := by
        intro a ha
        rcases (h.nodes a).mp (hA.2.1 a ha) with hg | rfl
        · exact hg
        · exact absurd ha hw
      obtain ⟨B, hB, hperm⟩ := hl.complete A ((h.antichain_old hold).mp hA)
      exact ⟨B, mem_extendAll.mpr (Or.inl hB), hperm⟩

omit [DecidableEq V] in
theorem length_le_longest {A : List V} (h : A ∈ mas) : A.length ≤ longest mas := by
  have hle : ∀ (l : List Nat) (m n : Nat), n ∈ l ∨ n ≤ m → n ≤ l.foldl max m := by
    intro l
    induction l with
    | nil => simp
    | cons k l ih =>
      intro m n hn
      refine ih (max m k) n ?_
      rcases hn with hn | hn
      · rcases List.mem_cons.mp hn with rfl | hn
        · exact Or.inr (by omega)
        · exact Or.inl hn
      · exact Or.inr (by omega)
  exact hle _ 1 _ (Or.inl (List.mem_map_of_mem h))

omit [DecidableEq V] in
theorem longest_eq (mas : List (List V)) : longest mas = 1 ∨ ∃ A ∈ mas, A.length = longest mas := by
  have hmem : ∀ (l : List Nat) (m : Nat), l.foldl max m = m ∨ l.foldl max m ∈ l := by
    intro l
    induction l with
    | nil => simp
    | cons k l ih =>
      intro m
      rcases ih (max m k) with h | h
      · rw [List.foldl_cons, h]
        rcases Nat.le_total m k with hk | hk
        · exact Or.inr (by simp [hk])
        · exact Or.inl (by omega)
      · exact Or.inr (by simp [h])
  rcases hmem (mas.map List.length) 1 with h | h
  · exact Or.inl h
  · obtain ⟨A, hA, he⟩ := List.mem_map.mp h
    exact Or.inr ⟨A, hA, he⟩

omit [DecidableEq V] in
/-- Of a complete list the longest one is the widest antichain. -/
theorem Digraph.Lists.width (h : G.Lists mas) (hG : G.Dag) (hv : v ∈ G.nodes) :
    G.Width (longest mas) := by
  constructor
  · rcases longest_eq mas with he | ⟨A, hA, he⟩
    · exact ⟨[v], hG.antichain_singleton hv, he.symm⟩
    · exact ⟨A, h.sound A hA, he⟩
  · rintro n ⟨A, hA, rfl⟩
    obtain ⟨B, hB, hp⟩ := h.complete A hA
    rw [hp.length_eq]
    exact length_le_longest hB

end Extend

/-! One edge between an old node and a new one. -/

section OneNew

variable [DecidableEq V] {G : Digraph V} {nx : DagTools V} {u v : V}

theorem addEdge_sink_out (hG : G.Dag) (hu : u ∈ G.nodes) (hv : v ∉ G.nodes) (b : V) :
    ¬ (G.addEdge u v).Edge v b := by
  intro he
  rcases Digraph.edge_addEdge.mp he with he | ⟨rfl, -⟩
  · exact hv (hG.closed v b he).1
  · exact hv hu

theorem addEdge_source_in (hG : G.Dag) (hu : u ∉ G.nodes) (hv : v ∈ G.nodes) (b : V) :
    ¬ (G.addEdge u v).Edge b u := by
  intro he
  rcases Digraph.edge_addEdge.mp he with he | ⟨-, rfl⟩
  · exact hu (hG.closed b u he).2
  · exact hu hv

theorem closed_addEdge (hG : G.Dag) (a b : V) (he : (G.addEdge u v).Edge a b) :
    a ∈ (G.addEdge u v).nodes ∧ b ∈ (G.addEdge u v).nodes := by
  rw [Digraph.mem_addEdge, Digraph.mem_addEdge]
  rcases Digraph.edge_addEdge.mp he with he | ⟨rfl, rfl⟩
  · exact ⟨Or.inl (hG.closed a b he).1, Or.inl (hG.closed a b he).2⟩
  · exact ⟨Or.inr (Or.inl rfl), Or.inr (Or.inr rfl)⟩

theorem dag_sink (hG : G.Dag) (hu : u ∈ G.nodes) (hv : v ∉ G.nodes) : (G.addEdge u v).Dag := by
  refine ⟨Digraph.nodup_addEdge hG.nodup, closed_addEdge hG, fun a ha => ?_⟩
  have hout := addEdge_sink_out hG hu hv
  by_cases hav : a = v
  · subst hav
    obtain ⟨b, he, -⟩ := TransGen.head'_iff.mp ha
    exact hout b he
  · exact hG.acyclic a ((transGen_sink (fun a b => Digraph.edge_addEdge) hout hav).mp ha)

theorem dag_source (hG : G.Dag) (hu : u ∉ G.nodes) (hv : v ∈ G.nodes) :
    (G.addEdge u v).Dag := by
  refine ⟨Digraph.nodup_addEdge hG.nodup, closed_addEdge hG, fun a ha => ?_⟩
  have hin := addEdge_source_in hG hu hv
  by_cases hau : a = u
  · subst hau
    obtain ⟨b, -, he⟩ := TransGen.tail'_iff.mp ha
    exact hin b he
  · exact hG.acyclic a ((transGen_source (fun a b => Digraph.edge_addEdge) hin hau).mp ha)

theorem hung_sink (hnx : nx.Faithful) (hG : G.Dag) (hu : u ∈ G.nodes) (hv : v ∉ G.nodes) :
    G.Hung (G.addEdge u v) v (nx.ancestors (G.addEdge u v) v) := by
  have hH := dag_sink hG hu hv
  have hout := addEdge_sink_out hG hu hv
  refine ⟨hv, fun a => ?_, fun a ha b hb => ?_, hH.acyclic v, fun a ha => ?_⟩
  · rw [Digraph.mem_addEdge]
    constructor
    · rintro (h | rfl | rfl)
      · exact Or.inl h
      · exact Or.inl hu
      · exact Or.inr rfl
    · rintro (h | rfl)
      · exact Or.inl h
      · exact Or.inr (Or.inr rfl)
  · refine transGen_sink (fun a b => Digraph.edge_addEdge) hout ?_
    rintro rfl
    exact hv hb
  · rw [hnx.ancestors _ hH v (Digraph.mem_addEdge.mpr (Or.inr (Or.inr rfl)))]
    constructor
    · exact Or.inl
    · rintro (h | h)
      · exact h
      · obtain ⟨b, he, -⟩ := TransGen.head'_iff.mp h
        exact absurd he (hout b)

theorem hung_source (hnx : nx.Faithful) (hG : G.Dag) (hu : u ∉ G.nodes) (hv : v ∈ G.nodes) :
    G.Hung (G.addEdge u v) u (nx.descendants (G.addEdge u v) u) := by
  have hH := dag_source hG hu hv
  have hin := addEdge_source_in hG hu hv
  refine ⟨hu, fun a => ?_, fun a ha b hb => ?_, hH.acyclic u, fun a ha => ?_⟩
  · rw [Digraph.mem_addEdge]
    constructor
    · rintro (h | rfl | rfl)
      · exact Or.inl h
      · exact Or.inr rfl
      · exact Or.inl hv
    · rintro (h | rfl)
      · exact Or.inl h
      · exact Or.inr (Or.inl rfl)
  · refine transGen_source (fun a b => Digraph.edge_addEdge) hin ?_
    rintro rfl
    exact hu ha
  · rw [hnx.descendants _ hH u (Digraph.mem_addEdge.mpr (Or.inr (Or.inl rfl)))]
    constructor
    · exact Or.inr
    · rintro (h | h)
      · obtain ⟨b, -, he⟩ := TransGen.tail'_iff.mp h
        exact absurd he (hin b)
      · exact h

/-- What a probe puts in it takes out again. -/
theorem removeNode_added {e : V × V} {w : V} (hG : G.Dag) (hw : w ∉ G.nodes)
    (he : e.1 = w ∨ e.2 = w) :
    Digraph.removeNode { nodes := G.nodes ++ [w], edges := G.edges ++ [e] } w = G := by
  have hedges : G.edges.filter (fun e => e.1 ≠ w ∧ e.2 ≠ w) = G.edges := by
    refine List.filter_eq_self.mpr fun e hm => ?_
    obtain ⟨h1, h2⟩ := hG.closed e.1 e.2 hm
    have h1' : e.1 ≠ w := fun h => hw (h ▸ h1)
    have h2' : e.2 ≠ w := fun h => hw (h ▸ h2)
    simp [h1', h2']
  have hnodes : G.nodes.filter (· ≠ w) = G.nodes := by
    refine List.filter_eq_self.mpr fun a ha => ?_
    have hne : a ≠ w := fun h => hw (h ▸ ha)
    simp [hne]
  have hne : ¬ (e.1 ≠ w ∧ e.2 ≠ w) := by
    rintro ⟨h1, h2⟩
    rcases he with he | he
    · exact h1 he
    · exact h2 he
  rw [Digraph.removeNode, List.filter_append, List.filter_append, hedges, hnodes]
  simp [hne]

theorem addEdge_sink (hG : G.Dag) (hu : u ∈ G.nodes) (hv : v ∉ G.nodes) :
    G.addEdge u v = { nodes := G.nodes ++ [v], edges := G.edges ++ [(u, v)] } := by
  have hadd : G.addNode u = G := if_pos hu
  have hfresh : G.addNode v = { G with nodes := G.nodes ++ [v] } := if_neg hv
  have he : (u, v) ∉ G.edges := fun he => hv (hG.closed u v he).2
  simp only [Digraph.addEdge, hadd, hfresh, if_neg he]

theorem addEdge_source (hG : G.Dag) (hu : u ∉ G.nodes) (hv : v ∈ G.nodes) :
    G.addEdge u v = { nodes := G.nodes ++ [u], edges := G.edges ++ [(u, v)] } := by
  have hfresh : G.addNode u = { G with nodes := G.nodes ++ [u] } := if_neg hu
  have hadd : Digraph.addNode { G with nodes := G.nodes ++ [u] } v =
      { G with nodes := G.nodes ++ [u] } := if_pos (by simp [hv])
  have he : (u, v) ∉ G.edges := fun he => hu (hG.closed u v he).1
  simp only [Digraph.addEdge, hfresh, hadd, if_neg he]

end OneNew

/-! What the calls do to a part whose list is complete. -/

section Calls

variable [DecidableEq V] {nx : DagTools V} {P : Problem V} {p q : Partition V} {u v : V}
  {E E' : Edges V}

/-- The part knows its antichains and how many nodes are side by side in it. -/
structure Partition.Exact (p : Partition V) : Prop where
  dag : p.dag.Dag
  nonempty : p.dag.nodes ≠ []
  lists : ∃ mas, p.maxAntichains = some mas ∧ p.dag.Lists mas
  dop : ∃ d, p.maxDop = some d ∧ p.dag.Width d

/-- The edge joins a node of the part and a new one. -/
def Partition.OneInside (p : Partition V) (u v : V) : Prop :=
  u ∈ p.dag.nodes ∧ v ∉ p.dag.nodes ∨ u ∉ p.dag.nodes ∧ v ∈ p.dag.nodes

/-- The part with the edge in it, as it is while it is probed. -/
def Partition.withEdge (p : Partition V) (u v : V) : Partition V :=
  { p with dag := p.dag.addEdge u v }

/-- What `probe_max_dop` finds for the edge. -/
structure Partition.Found (p : Partition V) (u v : V) (newAc : List (List V)) (d : Nat) :
    Prop where
  dag : (p.dag.addEdge u v).Dag
  lists : (p.dag.addEdge u v).Lists newAc
  width : (p.dag.addEdge u v).Width d

theorem Partition.Found.nonempty {newAc : List (List V)} {d : Nat} (h : p.Found u v newAc d) :
    newAc ≠ [] := by
  have hu : u ∈ (p.dag.addEdge u v).nodes := Digraph.mem_addEdge.mpr (Or.inr (Or.inl rfl))
  obtain ⟨B, hB, -⟩ := h.lists.complete [u] (h.dag.antichain_singleton hu)
  exact List.ne_nil_of_mem hB

/-- A part that has taken over what was found. -/
theorem Partition.Found.exact {newAc : List (List V)} {d : Nat} (h : p.Found u v newAc d) :
    Partition.Exact { p with
      dag := p.dag.addEdge u v
      maxAntichains := some newAc
      tmpNewAc := none
      maxDop := some d } := by
  have hu : u ∈ (p.dag.addEdge u v).nodes := Digraph.mem_addEdge.mpr (Or.inr (Or.inl rfl))
  exact ⟨h.dag, List.ne_nil_of_mem hu, ⟨newAc, rfl, h.lists⟩, ⟨d, rfl, h.width⟩⟩

/-- The new node and what it is next to, whichever end it is. -/
theorem Partition.OneInside.related (hnx : nx.Faithful) (hG : p.dag.Dag) (ho : p.OneInside u v) :
    ∃ ups w, (p.withEdge u v).related nx u v (decide (u ∉ p.dag.nodes)) (decide (v ∉ p.dag.nodes)) =
        .ok (ups, w) ∧ (w = u ∨ w = v) ∧ p.dag.Hung (p.dag.addEdge u v) w ups ∧
      (p.dag.addEdge u v).Dag ∧
      p.dag.addEdge u v = { nodes := p.dag.nodes ++ [w], edges := p.dag.edges ++ [(u, v)] } := by
  rcases ho with ⟨hu, hv⟩ | ⟨hu, hv⟩
  · exact ⟨_, v, by simp [Partition.related, Partition.withEdge, hu, hv], Or.inr rfl,
      hung_sink hnx hG hu hv, dag_sink hG hu hv, addEdge_sink hG hu hv⟩
  · exact ⟨_, u, by simp [Partition.related, Partition.withEdge, hu], Or.inl rfl,
      hung_source hnx hG hu hv, dag_source hG hu hv, addEdge_source hG hu hv⟩

/-- `probe_max_dop` finds every antichain. -/
theorem Partition.Exact.probe (hnx : nx.Faithful) (h : p.Exact) (ho : p.OneInside u v) :
    ∃ newAc d, p.Found u v newAc d ∧
      (p.withEdge u v).probeMaxDop nx u v (decide (u ∉ p.dag.nodes))
        (decide (v ∉ p.dag.nodes)) false =
        .ok (d, { p.withEdge u v with tmpNewAc := some (newAc, d) }) := by
  obtain ⟨mas, hm, hl⟩ := h.lists
  obtain ⟨ups, w, hrel, -, hhung, hdag, -⟩ := ho.related hnx h.dag
  have hlists := hhung.lists hl
  have hw : w ∈ (p.dag.addEdge u v).nodes := (hhung.nodes w).mpr (Or.inr rfl)
  have hfound : p.Found u v (extendAll ups w mas) (longest (extendAll ups w mas)) :=
    ⟨hdag, hlists, hlists.width hdag hw⟩
  refine ⟨_, _, hfound, ?_⟩
  have hmas : (p.withEdge u v).maxAntichains = some mas := hm
  unfold Partition.probeMaxDop
  simp only [hmas, hrel, ok_bind, foldl_extend, List.nil_append]
  obtain ⟨a, l, hal⟩ := List.exists_cons_of_ne_nil hfound.nonempty
  rw [hal]
  simp [pure, Except.pure, longest]

/-- `can_add` leaves the part as it was, but for what the probe has found. -/
theorem Partition.Exact.canAdd (hnx : nx.Faithful) (h : p.Exact) (ho : p.OneInside u v)
    {ca : Bool} (hc : p.canAdd nx P u v = .ok (ca, q)) :
    ∃ newAc d ask, p.Found u v newAc d ∧ P.askNumCpus = .ok ask ∧ ca = decide (d ≤ ask) ∧
      q = { p with tmpNewAc := some (newAc, d) } := by
  obtain ⟨newAc, d, hfound, hprobe⟩ := h.probe hnx ho
  unfold Partition.canAdd at hc
  obtain ⟨_, -, hc⟩ := bind_ok.mp hc
  obtain ⟨_, -, hc⟩ := bind_ok.mp hc
  rw [if_neg h.nonempty] at hc
  have hnot : (decide (u ∉ p.dag.nodes) && decide (v ∉ p.dag.nodes)) = false := by
    rcases ho with ⟨hu, -⟩ | ⟨-, hv⟩
    · simp [hu]
    · simp [hv]
  have hdop : (p.withEdge u v).dopWith nx u v (decide (u ∉ p.dag.nodes))
      (decide (v ∉ p.dag.nodes)) =
        .ok (d, { p.withEdge u v with tmpNewAc := some (newAc, d) }) := by
    unfold Partition.dopWith
    rw [hnot]
    exact hprobe
  obtain ⟨⟨mydop, r⟩, hr, hc⟩ := bind_ok.mp hc
  obtain ⟨rfl, rfl⟩ := Prod.mk.inj (Except.ok.inj (hdop.symm.trans hr))
  obtain ⟨ask, hask, hc⟩ := bind_ok.mp hc
  obtain ⟨rfl, rfl⟩ := Prod.mk.inj (pure_ok.mp hc)
  refine ⟨newAc, d, ask, hfound, hask, rfl, ?_⟩
  rcases ho with ⟨hu, hv⟩ | ⟨hu, hv⟩
  · have hrem : (p.dag.addEdge u v).removeNode v = p.dag := by
      rw [addEdge_sink h.dag hu hv]
      exact removeNode_added h.dag hv (Or.inr rfl)
    simp [Partition.removeIf, Partition.withEdge, hu, hv, hrem]
  · have hrem : (p.dag.addEdge u v).removeNode u = p.dag := by
      rw [addEdge_source h.dag hu hv]
      exact removeNode_added h.dag hu (Or.inl rfl)
    simp [Partition.removeIf, Partition.withEdge, hu, hv, hrem]

omit [DecidableEq V] in
theorem Partition.Exact.tmp (h : p.Exact) {t : Option (List (List V) × Nat)} :
    Partition.Exact { p with tmpNewAc := t } := ⟨h.dag, h.nonempty, h.lists, h.dop⟩

/-- `add`, after the probe of the same edge, takes over what that has found. -/
theorem Partition.Exact.add_ok (h : p.Exact) (ho : p.OneInside u v) {newAc : List (List V)}
    {d : Nat} {sequential : Bool}
    (ha : Partition.add nx P { p with tmpNewAc := some (newAc, d) } u v sequential E =
      .ok (q, E')) :
    ∃ dag, (dag, E') = (if sequential then
        Partition.linearise nx (decide (u ∉ p.dag.nodes)) u v (p.dag.addEdge u v) E
      else (p.dag.addEdge u v, E)) ∧
      q = { p with
        dag := dag, maxAntichains := some newAc, tmpNewAc := none, maxDop := some d } := by
  obtain ⟨mas, hm, -⟩ := h.lists
  have hnot : (decide (u ∉ p.dag.nodes) && decide (v ∉ p.dag.nodes)) = false := by
    rcases ho with ⟨hu, -⟩ | ⟨-, hv⟩
    · simp [hu]
    · simp [hv]
  unfold Partition.add at ha
  obtain ⟨_, -, ha⟩ := bind_ok.mp ha
  obtain ⟨_, -, ha⟩ := bind_ok.mp ha
  obtain ⟨_, -, ha⟩ := bind_ok.mp ha
  obtain ⟨_, -, ha⟩ := bind_ok.mp ha
  simp only [hnot, Bool.false_eq_true, if_false] at ha
  cases sequential with
  | false =>
    simp only [Bool.false_eq_true, if_false, Partition.probeMaxDop, hm, ok_bind] at ha
    obtain ⟨rfl, rfl⟩ := Prod.mk.inj (pure_ok.mp ha)
    exact ⟨_, rfl, rfl⟩
  | true =>
    simp only [if_true, Partition.probeMaxDop, hm, ok_bind] at ha
    obtain ⟨rfl, rfl⟩ := Prod.mk.inj (pure_ok.mp ha)
    exact ⟨_, rfl, rfl⟩

/-- A part without nodes takes everything. -/
theorem canAdd_empty (hp : p.dag = {}) {ca : Bool} (hc : p.canAdd nx P u v = .ok (ca, q)) :
    ca = true ∧ q = p := by
  have hnil : p.dag.nodes = [] := by rw [hp]
  unfold Partition.canAdd at hc
  obtain ⟨_, -, hc⟩ := bind_ok.mp hc
  obtain ⟨_, -, hc⟩ := bind_ok.mp hc
  rw [if_pos hnil] at hc
  obtain ⟨rfl, rfl⟩ := Prod.mk.inj (pure_ok.mp hc)
  exact ⟨rfl, rfl⟩

/-- The first edge of a part. -/
theorem addEdge_first (huv : u ≠ v) (hl : ∀ G : Digraph V, G.Dag → G.Lists (nx.antichains G)) :
    (Digraph.addEdge {} u v).Dag ∧
      (Digraph.addEdge {} u v).Lists (getMaxAntichains nx (Digraph.addEdge {} u v)) ∧
      (Digraph.addEdge {} u v).Width 1 := by
  have hpoint : Digraph.Dag { nodes := [u], edges := [] } :=
    ⟨List.nodup_singleton u, fun a b he => by simp [Digraph.Edge] at he, fun a ha => by
      obtain ⟨b, he, -⟩ := TransGen.head'_iff.mp ha
      simp [Digraph.Edge] at he⟩
  have hv : v ∉ [u] := by simpa using huv.symm
  have heq : Digraph.addEdge {} u v = Digraph.addEdge { nodes := [u], edges := [] } u v := by
    simp [Digraph.addEdge, Digraph.addNode]
  rw [heq]
  have hu : u ∈ (Digraph.mk [u] []).nodes := List.mem_singleton.mpr rfl
  have hdag := dag_sink hpoint hu hv
  have hnodes : ∀ a, a ∈ (Digraph.addEdge { nodes := [u], edges := [] } u v).nodes →
      a = u ∨ a = v := by
    intro a ha
    simpa [Digraph.mem_addEdge] using ha
  have hedge : TransGen (Digraph.addEdge { nodes := [u], edges := [] } u v).Edge u v :=
    .single (Digraph.edge_addEdge.mpr (Or.inr ⟨rfl, rfl⟩))
  have hfull := hl _ hdag
  refine ⟨hdag, ⟨fun A hA => hfull.sound A ((List.mem_insertionSort _).mp hA), fun A hA => ?_⟩,
    ⟨[u], hdag.antichain_singleton (Digraph.mem_addEdge.mpr (Or.inr (Or.inl rfl))), rfl⟩, ?_⟩
  · obtain ⟨B, hB, hp⟩ := hfull.complete A hA
    exact ⟨B, (List.mem_insertionSort _).mpr hB, hp⟩
  · rintro n ⟨A, hA, rfl⟩
    by_contra hlt
    -- two members are the two ends of the edge
    rcases A with _ | ⟨a, _ | ⟨b, A⟩⟩
    · exact hlt (Nat.zero_le 1)
    · exact hlt (Nat.le_refl 1)
    · have hab : a ≠ b := by
        rintro rfl
        exact (List.nodup_cons.mp hA.1).1 (by simp)
      rcases hnodes a (hA.2.1 a (by simp)) with rfl | rfl <;>
        rcases hnodes b (hA.2.1 b (by simp)) with rfl | rfl
      · exact hab rfl
      · exact hA.2.2 a (by simp) b (by simp) hedge
      · exact hA.2.2 b (by simp) a (by simp) hedge
      · exact hab rfl

/-- `add` on a part without nodes. -/
theorem add_first (hnx : nx.Faithful) (hp : p.dag = {}) (huv : u ≠ v) {sequential : Bool}
    (ha : p.add nx P u v sequential E = .ok (q, E')) :
    q.Exact ∧ q.dag = Digraph.addEdge {} u v ∧ q.maxDop = some 1 ∧ E' = E := by
  unfold Partition.add at ha
  obtain ⟨_, -, ha⟩ := bind_ok.mp ha
  obtain ⟨_, -, ha⟩ := bind_ok.mp ha
  obtain ⟨_, -, ha⟩ := bind_ok.mp ha
  obtain ⟨_, -, ha⟩ := bind_ok.mp ha
  simp only [hp, List.not_mem_nil, not_false_eq_true, decide_true, Bool.and_self, if_true] at ha
  obtain ⟨rfl, rfl⟩ := Prod.mk.inj (pure_ok.mp ha)
  obtain ⟨hdag, hlists, hwidth⟩ := addEdge_first huv hnx.antichains
  have hu : u ∈ (Digraph.addEdge {} u v).nodes := Digraph.mem_addEdge.mpr (Or.inr (Or.inl rfl))
  exact ⟨⟨hdag, List.ne_nil_of_mem hu, ⟨_, rfl, hlists⟩, ⟨1, rfl, hwidth⟩⟩, rfl, rfl, rfl⟩

end Calls

/-! Runs of calls. -/

/-- What `_partition_G` does with a part: it probes an edge, adds it when the probe accepts it, or
adds it with linearisation when the probe does not. -/
inductive Call (V : Type)
  | probe (u v : V)
  | join (u v : V)
  | linearise (u v : V)
  | elsewhere

section Runs

variable [DecidableEq V] (nx : DagTools V) (P : Problem V)

/-- The edges a part is asked about: between nodes that are new to an empty part, and afterwards
between one of its nodes and a new one. -/
def Partition.Asked (p : Partition V) (E : Edges V) (u v : V) : Prop :=
  E.graph.Edge u v ∧ if p.dag.nodes = [] then u ≠ v else p.OneInside u v

instance {p : Partition V} {E : Edges V} {u v : V} : Decidable (p.Asked E u v) := by
  unfold Partition.Asked Partition.OneInside Digraph.Edge
  infer_instance

/-- One call, on the part and the global graph; that graph may also get edges elsewhere. -/
inductive Step : Partition V × Edges V → Call V → Partition V × Edges V → Prop
  | probe {p q : Partition V} {E : Edges V} {u v : V} {ca : Bool} (hp : p.Asked E u v)
      (hc : p.canAdd nx P u v = .ok (ca, q)) : Step (p, E) (.probe u v) (q, E)
  | join {p q r : Partition V} {E E' : Edges V} {u v : V} (hp : p.Asked E u v)
      (hc : p.canAdd nx P u v = .ok (true, q)) (ha : q.add nx P u v false E = .ok (r, E')) :
      Step (p, E) (.join u v) (r, E')
  | linearise {p q r : Partition V} {E E' : Edges V} {u v : V} (hp : p.Asked E u v)
      (hc : p.canAdd nx P u v = .ok (false, q)) (ha : q.add nx P u v true E = .ok (r, E')) :
      Step (p, E) (.linearise u v) (r, E')
  | elsewhere {p : Partition V} {E E' : Edges V}
      (hE : ∀ a b, E.graph.Edge a b → E'.graph.Edge a b) : Step (p, E) .elsewhere (p, E')

/-- Calls one after the other, each with what it leaves. -/
def IsRun : Partition V × Edges V → List (Call V × (Partition V × Edges V)) → Prop
  | _, [] => True
  | s, (c, t) :: l => Step nx P s c t ∧ IsRun t l

variable {nx P} {s t : Partition V × Edges V} {c : Call V}
  {l : List (Call V × (Partition V × Edges V))}

/-- Without linearisation a part is empty or knows its antichains. -/
theorem Step.exact (hnx : nx.Faithful) (h : Step nx P s c t) (hc : ∀ u v, c ≠ .linearise u v)
    (hs : s.1.dag = {} ∨ s.1.Exact) : t.1.dag = {} ∨ t.1.Exact := by
  cases h with
  | elsewhere => exact hs
  | linearise => exact absurd rfl (hc _ _)
  | @probe p q E u v ca hp hcan =>
    rcases hs with he | he
    · left
      obtain ⟨-, rfl⟩ := canAdd_empty he hcan
      exact he
    · right
      have ho : p.OneInside u v := by simpa [he.nonempty] using hp.2
      obtain ⟨newAc, d, ask, -, -, -, rfl⟩ := he.canAdd hnx ho hcan
      exact he.tmp
  | @join p q r E E' u v hp hcan ha =>
    right
    rcases hs with he | he
    · have huv : u ≠ v := by simpa [show p.dag = {} from he] using hp.2
      obtain ⟨-, rfl⟩ := canAdd_empty he hcan
      exact (add_first hnx he huv ha).1
    · have ho : p.OneInside u v := by simpa [he.nonempty] using hp.2
      obtain ⟨newAc, d, ask, hf, -, -, rfl⟩ := he.canAdd hnx ho hcan
      obtain ⟨dag, hd, rfl⟩ := he.add_ok ho ha
      obtain ⟨rfl, -⟩ := Prod.mk.inj hd
      exact hf.exact

/-- The incremental antichains are as good as those from scratch: between any two calls the part
records the size of its largest antichain, and a probe finds the size of the largest one with the
probed edge in the part. -/
theorem maxDop_incremental (hnx : nx.Faithful) (h : IsRun nx P s l) (hs : s.1.dag = {})
    (hl : ∀ x ∈ l, ∀ u v, x.1 ≠ .linearise u v) :
    ∀ c p E, (c, p, E) ∈ l → p.dag.nodes ≠ [] →
      (∃ d, p.maxDop = some d ∧ p.dag.Width d) ∧
      ∀ u v, p.OneInside u v → ∃ d q, (p.withEdge u v).probeMaxDop nx u v
          (decide (u ∉ p.dag.nodes)) (decide (v ∉ p.dag.nodes)) false = .ok (d, q) ∧
        (p.dag.addEdge u v).Width d := by
  have hall : ∀ (l : List (Call V × (Partition V × Edges V))) s, IsRun nx P s l →
      (s.1.dag = {} ∨ s.1.Exact) → (∀ x ∈ l, ∀ u v, x.1 ≠ .linearise u v) →
      ∀ x ∈ l, x.2.1.dag = {} ∨ x.2.1.Exact := by
    intro l
    induction l with
    | nil => simp
    | cons y l ih =>
      obtain ⟨c, t⟩ := y
      intro s hr he hl x hx
      have ht := hr.1.exact hnx (hl (c, t) (by simp)) he
      rcases List.mem_cons.mp hx with rfl | hx
      · exact ht
      · exact ih t hr.2 ht (fun x hx => hl x (by simp [hx])) x hx
  intro c p E hx hne
  rcases hall l s h (Or.inl hs) hl _ hx with he | he
  · exact absurd (by rw [he]) hne
  · refine ⟨he.dop, fun u v ho => ?_⟩
    obtain ⟨newAc, d, hf, hprobe⟩ := he.probe hnx ho
    exact ⟨d, _, hprobe, hf.width⟩

/-- Three nodes one after the other, and an edge past the second one. -/
def threeNodes : Problem Nat where
  dag := { nodes := [1, 2, 3], edges := [(1, 2), (1, 3), (2, 3)] }
  nodeWeight _ := some 1
  edgeWeight _ _ := 5
  resource _ _ := some 1
  dropCount := 3
  maxDop := .dict [("num_cpus", some 1)]

/-- Before its first edge. -/
def unplaced : Partition Nat × Edges Nat :=
  ({ partitionId := 4 }, { graph := threeNodes.dag, weight := threeNodes.edgeWeight })

/-- The edge past the second node is refused, and what its probe has found is not used. -/
theorem threeNodes_incremental : ∃ l, IsRun pathTools threeNodes unplaced l ∧
    l.map Prod.fst = [.join 1 2, .probe 1 3, .join 2 3] ∧
    ∀ c p E, (c, p, E) ∈ l → p.dag.nodes ≠ [] → ∃ d, p.maxDop = some d ∧ p.dag.Width d := by
  have hrun : ∃ s₁ s₂ s₃, IsRun pathTools threeNodes unplaced
      [(.join 1 2, s₁), (.probe 1 3, s₂), (.join 2 3, s₃)] :=
    ⟨_, _, _, .join (by decide) rfl rfl,
      .probe (by decide) rfl,
      .join (by decide) rfl rfl, trivial⟩
  obtain ⟨s₁, s₂, s₃, hrun⟩ := hrun
  refine ⟨_, hrun, rfl, fun c p E hx hne => ?_⟩
  have hl : ∀ x ∈ [(Call.join 1 2, s₁), (.probe 1 3, s₂), (.join 2 3, s₃)],
      ∀ u v, x.1 ≠ .linearise u v := by simp
  exact (maxDop_incremental pathTools_faithful hrun rfl hl c p E hx hne).1

end Runs

end Daliuge.Partition
