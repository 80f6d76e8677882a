import Daliuge.Partition.Antichains
import Daliuge.Partition.Dense

/-!
# Capacity of the parts

No part needs more of a resource at a time than the capacity recorded for it, and no more is
recorded than was asked for, or than its heaviest node needs alone. `can_merge` records the
capacity of the removed part where that is above what was asked, so the second half is not for
free.
-/
namespace Daliuge.Partition

open Collect

variable {V : Type} {G H : Digraph V} {u v : V}

/-- Some of the nodes of a graph, with some of the edges between them. -/
structure Digraph.Sub (G H : Digraph V) : Prop where
  nodup : G.nodes.Nodup
  nodes : ∀ v ∈ G.nodes, v ∈ H.nodes
  edges : ∀ u v, G.Edge u v → H.Edge u v
  closed : ∀ u v, G.Edge u v → u ∈ G.nodes ∧ v ∈ G.nodes

/-- The greatest weight of an antichain. -/
def IsWidth (G : Digraph V) (w : V → Nat) (k : Nat) : Prop :=
  (∃ ns, G.Antichain ns ∧ (ns.map w).sum = k) ∧ ∀ ns, G.Antichain ns → (ns.map w).sum ≤ k

theorem Digraph.Sub.dag (h : G.Sub H) (hH : H.Dag) : G.Dag where
  nodup := h.nodup
  closed := h.closed
  acyclic v hv := hH.acyclic v (hv.lift id h.edges)

section Parts

variable [DecidableEq V] {P : Problem V} {width : Digraph V → (V → Nat) → Nat} {s s' : State V}
  {p that : KFamilyPartition V} {uv : Option (V × V)} {tmp : String → Nat} {a : String}

theorem joined_sub (hp : p.dag.Sub P.dag) (ht : that.dag.Sub P.dag)
    (huv : ∀ u v, uv = some (u, v) → P.dag.Edge u v ∧
      (u ∈ p.dag.nodes ∨ u ∈ that.dag.nodes) ∧ (v ∈ p.dag.nodes ∨ v ∈ that.dag.nodes)) :
    (p.joined that uv).Sub P.dag := by
  have hmem : ∀ v, v ∈ (p.joined that uv).nodes ↔ v ∈ p.dag.nodes ∨ v ∈ that.dag.nodes :=
    fun v => mem_joined fun u w h => (huv u w h).2
  have hedge : ∀ x y, (p.joined that uv).Edge x y →
      p.dag.Edge x y ∨ that.dag.Edge x y ∨ uv = some (x, y) := by
    intro x y h
    unfold KFamilyPartition.joined at h
    cases uv with
    | none =>
      rcases Digraph.edge_compose.mp h with h | h
      · exact Or.inl h
      · exact Or.inr (Or.inl h)
    | some e =>
      rcases Digraph.edge_addEdge.mp h with h | ⟨rfl, rfl⟩
      · rcases Digraph.edge_compose.mp h with h | h
        · exact Or.inl h
        · exact Or.inr (Or.inl h)
      · exact Or.inr (Or.inr rfl)
  constructor
  case nodup =>
    unfold KFamilyPartition.joined
    cases uv with
    | none => exact Digraph.nodup_compose hp.nodup ht.nodup
    | some e => exact Digraph.nodup_addEdge (Digraph.nodup_compose hp.nodup ht.nodup)
  case nodes =>
    intro v hv
    rcases (hmem v).mp hv with hv | hv
    · exact hp.nodes v hv
    · exact ht.nodes v hv
  case edges =>
    intro x y h
    rcases hedge x y h with h | h | h
    · exact hp.edges x y h
    · exact ht.edges x y h
    · exact (huv x y h).1
  case closed =>
    intro x y h
    rw [hmem, hmem]
    rcases hedge x y h with h | h | h
    · exact (hp.closed x y h).imp Or.inl Or.inl
    · exact (ht.closed x y h).imp Or.inr Or.inr
    · exact (huv x y h).2

/-- What `can_merge` records when it agrees: the capacity asked for, or that of the other part
where it is above, and the joined graph is no wider than that. -/
theorem canMerge_spec (h : P.canMerge width p that uv = some tmp) : ∀ a ∈ P.attrs,
    tmp a = max (P.ask a) (that.maxDop a) ∧ width (p.joined that uv) (P.load a) ≤ tmp a := by
  suffices hgen : ∀ (attrs : List String) (t₀ : String → Nat),
      attrs.foldlM (P.probeAttr width that (p.joined that uv)) t₀ = some tmp →
      (∀ a ∈ attrs, tmp a = max (P.ask a) (that.maxDop a) ∧
        width (p.joined that uv) (P.load a) ≤ tmp a) ∧ ∀ a ∉ attrs, tmp a = t₀ a from
    (hgen P.attrs p.tmpMaxDop h).1
  intro attrs
  induction attrs with
  | nil =>
    intro t₀ h
    obtain rfl : t₀ = tmp := by simpa using h
    exact ⟨by simp, fun _ _ => rfl⟩
  | cons b attrs ih =>
    intro t₀ h
    rw [List.foldlM_cons] at h
    obtain ⟨t₁, hb, hrest⟩ := Option.bind_eq_some_iff.mp h
    obtain ⟨hin, hout⟩ := ih t₁ hrest
    -- the last branch is never taken: its condition is the negation of both before
    have hstep : width (p.joined that uv) (P.load b) ≤ max (P.ask b) (that.maxDop b) ∧
        t₁ = Function.update t₀ b (max (P.ask b) (that.maxDop b)) := by
      unfold Problem.probeAttr at hb
      dsimp only at hb
      split_ifs at hb with h1 h2
      · exact ⟨h1, (Option.some.inj hb).symm⟩
      · omega
    obtain ⟨hle, rfl⟩ := hstep
    constructor
    · intro a ha
      by_cases hm : a ∈ attrs
      · exact hin a hm
      · obtain rfl : a = b := by simpa [hm] using ha
        rw [hout a hm, Function.update_self]
        exact ⟨rfl, hle⟩
    · intro a ha
      have hne : a ≠ b ∧ a ∉ attrs := by simpa using ha
      rw [hout a hne.2, Function.update_of_ne hne.1]

/-- A part keeps to its capacity: no antichain of its nodes needs more than what is recorded,
which is no more than was asked for or one of its nodes needs alone. -/
def WithinCapacity (P : Problem V) (p : KFamilyPartition V) : Prop :=
  ∀ a ∈ P.attrs, (∀ ns, p.dag.Antichain ns → (ns.map (P.load a)).sum ≤ p.maxDop a) ∧
    ∃ v ∈ p.dag.nodes, p.maxDop a ≤ max (P.ask a) (P.load a v)

/-- The part is a part of the graph and keeps to its capacity. -/
structure Fits (P : Problem V) (p : KFamilyPartition V) : Prop where
  sub : p.dag.Sub P.dag
  nonempty : p.dag.nodes ≠ []
  within : WithinCapacity P p

section Kept

variable (hw : ∀ G : Digraph V, G.Sub P.dag → G.nodes ≠ [] → ∀ a ∈ P.attrs,
  IsWidth G (P.load a) (width G (P.load a)))

include hw

/-- A node alone. -/
theorem single_fits (gid : Nat) (hu : u ∈ P.dag.nodes) : Fits P (P.single width gid u) := by
  have hdag : (P.single width gid u).dag = { nodes := [u] } := by
    simp [Problem.single, Digraph.addNode]
  have hsub : (P.single width gid u).dag.Sub P.dag := by
    rw [hdag]
    constructor <;> simp [Digraph.Edge, hu]
  have hne : (P.single width gid u).dag.nodes ≠ [] := by simp [hdag]
  refine ⟨hsub, hne, fun a ha => ?_⟩
  obtain ⟨⟨ns, hns, hsum⟩, hle⟩ := hw _ hsub hne a ha
  have hdop : (P.single width gid u).maxDop a = width (P.single width gid u).dag (P.load a) :=
    if_pos ha
  rw [hdop]
  refine ⟨hle, u, by simp [hdag], ?_⟩
  rw [← hsum]
  -- an antichain of one node
  have hsubset : ∀ v ∈ ns, v ∈ [u] := fun v hv => by simpa [hdag] using hns.2.1 v hv
  have hone := sum_le_of_subset (w := P.load a) hns.1 hsubset
  simp only [List.map_cons, List.map_nil, List.sum_cons, List.sum_nil, add_zero] at hone
  omega

/-- Two parts that `can_merge` lets be merged. -/
theorem merge_fits (hp : Fits P p) (ht : Fits P that)
    (huv : ∀ u v, uv = some (u, v) → P.dag.Edge u v ∧
      (u ∈ p.dag.nodes ∨ u ∈ that.dag.nodes) ∧ (v ∈ p.dag.nodes ∨ v ∈ that.dag.nodes))
    (h : P.canMerge width p that uv = some tmp) : Fits P (p.merge that uv tmp) := by
  have hsub : (p.joined that uv).Sub P.dag := joined_sub hp.sub ht.sub huv
  have hmem : ∀ v, v ∈ (p.joined that uv).nodes ↔ v ∈ p.dag.nodes ∨ v ∈ that.dag.nodes :=
    fun v => mem_joined fun u w h => (huv u w h).2
  have hne : (p.joined that uv).nodes ≠ [] := by
    obtain ⟨v, hv⟩ := List.exists_mem_of_ne_nil _ hp.nonempty
    exact List.ne_nil_of_mem ((hmem v).mpr (Or.inl hv))
  refine ⟨hsub, hne, fun a ha => ?_⟩
  obtain ⟨hrec, hwide⟩ := canMerge_spec h a ha
  constructor
  · intro ns hns
    exact ((hw _ hsub hne a ha).2 ns hns).trans hwide
  · obtain ⟨v, hv, hcap⟩ := (ht.within a ha).2
    refine ⟨v, (hmem v).mpr (Or.inr hv), ?_⟩
    change tmp a ≤ _
    omega

/-- A merge of two parts of the list. -/
theorem Merged.fits {new removed : Nat} {pre post : List Nat}
    (h : Merged new removed uv tmp pre post s s') (hd : s.parts.Nodup) (hnew : new ∈ s.parts)
    (hrem : removed ∈ s.parts) (hs : ∀ ref ∈ s.parts, Fits P (s.heap ref))
    (huv : ∀ u v, uv = some (u, v) → P.dag.Edge u v ∧
      (u ∈ s.nodesOf new ∨ u ∈ s.nodesOf removed) ∧ (v ∈ s.nodesOf new ∨ v ∈ s.nodesOf removed))
    (hc : P.canMerge width (s.heap new) (s.heap removed) uv = some tmp) :
    ∀ ref ∈ s'.parts, Fits P (s'.heap ref) := by
  intro ref hm
  obtain ⟨hm, -⟩ := (h.mem_parts hd).mp hm
  rw [h.heap ref hm]
  split
  · obtain ⟨h1, h2, h3⟩ := merge_fits hw (hs new hnew) (hs removed hrem) huv hc
    exact ⟨h1, h2, h3⟩
  · obtain ⟨h1, h2, h3⟩ := hs ref hm
    exact ⟨h1, h2, h3⟩

/-! The phases. -/

/-- Every node in a part of its own. -/
theorem singles_fits : ∀ ref ∈ (P.singles width).parts, Fits P ((P.singles width).heap ref) := by
  suffices hgen : ∀ (ns : List V) (s : State V), (∀ v ∈ ns, v ∈ P.dag.nodes) →
      (∀ ref ∈ s.parts, Fits P (s.heap ref)) → ∀ ref ∈ (ns.foldl (P.place width) s).parts,
        Fits P ((ns.foldl (P.place width) s).heap ref) from
    hgen P.dag.nodes P.blank (fun _ h => h) (by simp [Problem.blank])
  intro ns
  induction ns with
  | nil => exact fun s _ h => h
  | cons n ns ih =>
    intro s hns h
    refine ih (P.place width s n) (fun v hv => hns v (by simp [hv])) fun ref hm => ?_
    by_cases hr : ref = s.stGid
    · subst hr
      simpa [Problem.place] using single_fits hw s.stGid (hns n (by simp))
    · have hm : ref ∈ s.parts := by simpa [Problem.place, hr] using hm
      simpa [Problem.place, hr] using h ref hm

/-- One edge. -/
theorem zeroEdge_fits {e : V × V} (hG : P.dag.Dag) (hl : Listed P s)
    (hs : ∀ ref ∈ s.parts, Fits P (s.heap ref)) (he : e ∈ P.dag.edges) :
    ∃ s', P.zeroEdge width s e = .ok s' ∧ ∀ ref ∈ s'.parts, Fits P (s'.heap ref) := by
  obtain ⟨s', hok, ⟨hh, -, hp, -⟩ |
    ⟨new, removed, pre, post, tmp, t, hnew, hrem, -, hc, hends, hm, rfl⟩⟩ :=
    zeroEdge_cases width hl (hG.closed e.1 e.2 he)
  · refine ⟨s', hok, fun ref hm => ?_⟩
    rw [hh]
    exact hs ref (hp ▸ hm)
  · have hfit := hm.fits hw hl.dense.nodup hnew hrem hs (fun u v huv => ?_) hc
    · exact ⟨_, hok, hfit⟩
    · obtain rfl : e = (u, v) := Option.some.inj huv
      exact ⟨he, hends u (Or.inl rfl), hends v (Or.inr rfl)⟩

/-- The first phase, however far it has come. -/
theorem edges_fits (hG : P.dag.Dag) (k : Nat) :
    ∃ s, (P.sortedEdges.take k).foldlM (P.zeroEdge width) (P.singles width) = .ok s ∧
      Listed P s ∧ ∀ ref ∈ s.parts, Fits P (s.heap ref) := by
  have hcl : ∀ e ∈ P.dag.edges, e.1 ∈ P.dag.nodes ∧ e.2 ∈ P.dag.nodes :=
    fun e he => hG.closed e.1 e.2 he
  refine foldlM_prefix (I := fun _ s => Listed P s ∧ ∀ ref ∈ s.parts, Fits P (s.heap ref))
    (fun pre e post s hsplit h => ?_) ⟨(singles_single hG.nodup).listed, singles_fits hw⟩
  have he : e ∈ P.dag.edges := by
    have hm : e ∈ P.sortedEdges := List.mem_of_mem_take (i := k) (by simp [hsplit])
    exact (List.perm_insertionSort _ _).mem_iff.mp hm
  obtain ⟨s', hok, hs'⟩ := zeroEdge_fits hw hG h.1 h.2 he
  obtain ⟨s'', hok', hl'⟩ := zeroEdge_listed width h.1 (hcl e he)
  obtain rfl := Except.ok.inj (hok.symm.trans hok')
  exact ⟨s', hok, hl', hs'⟩

/-- The second phase. -/
theorem reducing_fits {s₀ : State V} {i : Nat} (hd : Dense P s₀) (hl : Looks s₀)
    (hs : ∀ ref ∈ s₀.parts, Fits P (s₀.heap ref)) (h : Reducing P width s₀ i s) :
    ∀ ref ∈ s.parts, Fits P (s.heap ref) := by
  induction h with
  | start => exact hs
  | turn hr ht ih =>
    obtain ⟨hd, hl⟩ := reducing_dense hd hl hr
    rcases reduceStep_cases hd hl ht with rfl |
      ⟨a, b, new, removed, pre, post, tmp, -, -, -, hnew, hrem, -, hc, hm⟩
    · exact ih
    · exact hm.fits hw hd.nodup hnew hrem ih (by simp) hc

theorem visited_fits (hG : P.dag.Dag) (h : Visited P width s) :
    ∀ ref ∈ s.parts, Fits P (s.heap ref) := by
  rcases h with ⟨k, hk⟩ | ⟨s₁, s₂, i, hz, hsort, hr⟩
  · obtain ⟨t, ht, -, hfit⟩ := edges_fits hw hG k
    obtain rfl := Except.ok.inj (ht.symm.trans hk)
    exact hfit
  · obtain ⟨t, ht, hl, hfit⟩ := edges_fits hw hG P.sortedEdges.length
    rw [List.take_length] at ht
    obtain rfl := Except.ok.inj (ht.symm.trans hz)
    obtain ⟨parts, hp, rfl⟩ := sortParts_cases hsort
    exact reducing_fits hw (hl.dense.perm hp)
      (fun ref hm => hl.table.looks ref (hp.mem_iff.mp hm))
      (fun ref hm => hfit ref (hp.mem_iff.mp hm)) hr

end Kept

end Parts

section Results

variable [LinearOrder V] {P : Problem V} {width : Digraph V → (V → Nat) → Nat}

/-- Between any two merges, and in what is returned, every part keeps to its capacity. -/
theorem parts_withinCapacity (hG : P.dag.Dag)
    (hw : ∀ G : Digraph V, G.Sub P.dag → G.nodes ≠ [] → ∀ a ∈ P.attrs,
      IsWidth G (P.load a) (width G (P.load a))) :
    (∀ s, Visited P width s → ∀ ref ∈ s.parts, WithinCapacity P (s.heap ref)) ∧
    ∀ topoSorted fuel n lpl t, P.partitionDag width topoSorted fuel = some (.ok (n, lpl, t)) →
      ∀ ref ∈ t.parts, WithinCapacity P (t.heap ref) := by
  constructor
  · intro s hs ref hm
    exact (visited_fits hw hG hs ref hm).within
  · intro topoSorted fuel n lpl t h ref hm
    exact (visited_fits hw hG (visited_of_partitionDag h) ref hm).within

/-- `get_max_weighted_antichain` measures every part, when all nodes together are below
`sys.maxsize`. -/
theorem isWidth_getMaxWeightedAntichain {nx : Networkx V} (hnx : nx.Correct) (hG : P.dag.Dag)
    (hsum : ∀ a ∈ P.attrs, (P.dag.nodes.map (P.load a)).sum < maxsize) (G : Digraph V)
    (hsub : G.Sub P.dag) (hne : G.nodes ≠ []) (a : String) (ha : a ∈ P.attrs) :
    IsWidth G (P.load a) (getMaxWeightedAntichain nx (fun v => some (P.load a v)) G).1 := by
  have hdag := hsub.dag hG
  have hle := sum_le_of_subset (w := P.load a) hsub.nodup hsub.nodes
  have hless : (G.nodes.map (weightOf fun v => some (P.load a v))).sum < maxsize :=
    lt_of_le_of_lt hle (hsum a ha)
  obtain ⟨ns, -, hnd, hmem, hweight⟩ := names_spec (fun v => some (P.load a v)) hnx hdag hne
  rw [hweight]
  exact ⟨⟨ns, chosen_antichain hnx hdag hne hless hnd hmem, rfl⟩,
    fun ms hms => chosen_heaviest hnx hdag hne hless hnd hmem hms⟩

/-- Three nodes, two of them after the first, that need one, two and five CPUs, and a capacity
of four. -/
def fork : Problem Int where
  dag := { nodes := [1, 2, 3], edges := [(1, 2), (1, 3)] }
  edgeWeight _ v := v.toNat
  resource v _ := [(1, 1), (2, 2), (3, 5)].lookup v
  dropCount := 3
  maxDop := .dict [("num_cpus", some 4), ("mem", none)]

/-- The width as `networkx` finds it. -/
noncomputable def forkWidth (G : Digraph Int) (w : Int → Nat) : Nat :=
  (getMaxWeightedAntichain documented (fun v => some (w v)) G).1

theorem isWidth_fork (G : Digraph Int) (hsub : G.Sub fork.dag) (hne : G.nodes ≠ []) (a : String)
    (ha : a ∈ fork.attrs) : IsWidth G (fork.load a) (forkWidth G (fork.load a)) :=
  isWidth_getMaxWeightedAntichain documented_correct
    (Digraph.dag_of_lt (by decide) (by decide) (by decide)) (by decide) G hsub hne a ha

/-- The first and the third node need no more together than the third one alone. -/
theorem fork_canMerge : ∃ tmp, fork.canMerge forkWidth ((fork.singles forkWidth).heap 4)
    ((fork.singles forkWidth).heap 6) (some (1, 3)) = some tmp := by
  have hload : ∀ a, fork.load a 1 = 1 ∧ fork.load a 3 = 5 := fun a => ⟨rfl, rfl⟩
  -- what is recorded for the third node
  have hthird : ∀ a ∈ fork.attrs, 5 ≤ ((fork.singles forkWidth).heap 6).maxDop a := by
    intro a ha
    have hdop : ((fork.singles forkWidth).heap 6).maxDop a =
        forkWidth { nodes := [3], edges := [] } (fork.load a) := if_pos ha
    have hw := isWidth_fork { nodes := [3], edges := [] }
      ⟨by decide, by decide, fun u v h => absurd h List.not_mem_nil,
        fun u v h => absurd h List.not_mem_nil⟩ (by decide) a ha
    have hle := hw.2 [3] ⟨by decide, by decide, fun u _ v _ h => by
      obtain ⟨b, hb, -⟩ := Relation.TransGen.head'_iff.mp h
      exact absurd hb List.not_mem_nil⟩
    rw [hdop]
    simpa [(hload a).2] using hle
  -- the two nodes are in no antichain together
  have hboth : ∀ a ∈ fork.attrs,
      forkWidth { nodes := [1, 3], edges := [(1, 3)] } (fork.load a) ≤ 5 := by
    intro a ha
    have hw := isWidth_fork { nodes := [1, 3], edges := [(1, 3)] } ⟨by decide, by decide,
      fun u v h => by
        obtain ⟨rfl, rfl⟩ := Prod.mk.inj (List.mem_singleton.mp h)
        decide,
      fun u v h => by
        obtain ⟨rfl, rfl⟩ := Prod.mk.inj (List.mem_singleton.mp h)
        decide⟩ (by decide) a ha
    obtain ⟨ns, ⟨hnd, hmem, hno⟩, hsum⟩ := hw.1
    rw [← hsum]
    have hapart : ¬ ((1 : Int) ∈ ns ∧ (3 : Int) ∈ ns) := fun h =>
      hno 1 h.1 3 h.2 (.single (List.mem_singleton.mpr rfl))
    rcases ns with _ | ⟨u, _ | ⟨v, ns⟩⟩
    · simp
    · have hu := hmem u (by simp)
      rcases List.mem_pair.mp hu with rfl | rfl
      · simp [(hload a).1]
      · simp [(hload a).2]
    · have hu := List.mem_pair.mp (hmem u (by simp))
      have hv := List.mem_pair.mp (hmem v (by simp))
      have huv : u ≠ v := by
        rintro rfl
        simp at hnd
      rcases hu with rfl | rfl <;> rcases hv with rfl | rfl
      · exact absurd rfl huv
      · exact absurd ⟨by simp, by simp⟩ hapart
      · exact absurd ⟨by simp, by simp⟩ hapart
      · exact absurd rfl huv
  have hprobe : ∀ a ∈ fork.attrs, ∀ tmp, ∃ tmp', fork.probeAttr forkWidth
      ((fork.singles forkWidth).heap 6) { nodes := [1, 3], edges := [(1, 3)] } tmp a =
        some tmp' := fun a ha tmp =>
    ⟨_, if_pos (((hboth a ha).trans (hthird a ha)).trans (le_max_right _ _))⟩
  obtain ⟨tmp₁, h₁⟩ := hprobe "num_cpus" (by decide) ((fork.singles forkWidth).heap 4).tmpMaxDop
  obtain ⟨tmp₂, h₂⟩ := hprobe "mem" (by decide) tmp₁
  refine ⟨tmp₂, ?_⟩
  have hattrs : fork.attrs = ["num_cpus", "mem"] := rfl
  have hjoined : ((fork.singles forkWidth).heap 4).joined ((fork.singles forkWidth).heap 6)
      (some (1, 3)) = { nodes := [1, 3], edges := [(1, 3)] } := rfl
  rw [Problem.canMerge, hattrs, hjoined]
  simp [List.foldlM_cons, h₁, h₂]

/-- Zeroing the heaviest edge merges two parts, and both that are left keep to their capacity. -/
theorem fork_withinCapacity : ∃ s,
    (fork.sortedEdges.take 1).foldlM (fork.zeroEdge forkWidth) (fork.singles forkWidth) = .ok s ∧
      s.parts.length = 2 ∧ ∀ ref ∈ s.parts, WithinCapacity fork (s.heap ref) := by
  have hG : fork.dag.Dag := Digraph.dag_of_lt (by decide) (by decide) (by decide)
  obtain ⟨tmp, hc⟩ := fork_canMerge
  have hl : Listed fork (fork.singles forkWidth) := (singles_single hG.nodup).listed
  have hs : Separate ((fork.singles forkWidth).setEdge (1, 3) 0) :=
    ⟨hl.dense.separate.nodup, hl.dense.separate.ids, hl.dense.separate.nodes⟩
  have hrem : 6 ∈ ((fork.singles forkWidth).setEdge (1, 3) 0).parts := by decide
  have hlt : ((fork.singles forkWidth).setEdge (1, 3) 0).idOf 4 <
      ((fork.singles forkWidth).setEdge (1, 3) 0).idOf 6 := by decide
  obtain ⟨pre, post, t, hok, hm⟩ := mergeInto_ok (some (1, 3)) tmp hs hrem hlt (by decide)
  have hzero : fork.zeroEdge forkWidth (fork.singles forkWidth) (1, 3) =
      .ok { t with stGid := t.stGid - 1 } := by
    have hmerge : fork.mergeTwoParts forkWidth 4 6 (some (1, 3))
        ((fork.singles forkWidth).setEdge (1, 3) 0) = .ok (some 4, t) := by
      have hnew : ((fork.singles forkWidth).setEdge (1, 3) 0).partDict (min 4 6) = some 4 := rfl
      have hremoved : ((fork.singles forkWidth).setEdge (1, 3) 0).partDict (max 4 6) = some 6 := rfl
      have hprobe : fork.canMerge forkWidth (((fork.singles forkWidth).setEdge (1, 3) 0).heap 4)
          (((fork.singles forkWidth).setEdge (1, 3) 0).heap 6) (some (1, 3)) = some tmp := hc
      have hinto : ((fork.singles forkWidth).setEdge (1, 3) 0).mergeInto 4 6 (some (1, 3)) tmp
          (min 4 6) (max 4 6) = .ok t := hok
      rw [Problem.mergeTwoParts, hnew, hremoved]
      simp only [look, ok_bind, hprobe, hinto]
      rfl
    have hu : ((fork.singles forkWidth).setEdge (1, 3) 0).gid 1 = some 4 := rfl
    have hv : ((fork.singles forkWidth).setEdge (1, 3) 0).gid 3 = some 6 := rfl
    have hne : ¬ (4 = 6) := by decide
    simp only [Problem.zeroEdge, hu, hv, if_neg hne, hmerge, ok_bind]
    rfl
  have hrun : (fork.sortedEdges.take 1).foldlM (fork.zeroEdge forkWidth)
      (fork.singles forkWidth) = .ok { t with stGid := t.stGid - 1 } := by
    have hsorted : fork.sortedEdges.take 1 = [(1, 3)] := by decide
    rw [hsorted, List.foldlM_cons, hzero]
    rfl
  refine ⟨_, hrun, ?_, (parts_withinCapacity hG isWidth_fork).1 _ (Or.inl ⟨1, hrun⟩)⟩
  have hbefore : [4, 5, 6] = pre ++ 6 :: post := hm.before
  have hlength := congrArg List.length hbefore
  have hparts : t.parts = pre ++ post := hm.parts
  simp only [List.length_append, List.length_cons, List.length_nil] at hlength
  show t.parts.length = 2
  rw [hparts, List.length_append]
  omega

end Results

end Daliuge.Partition
