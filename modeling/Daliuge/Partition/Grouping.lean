import Daliuge.Partition.Swarm

/-!
# Parts of the nodes left over

While edges are placed every node of a part knows its id and no id is given twice. The loop over
the nodes that are left over counts its parts but keeps their id, so with two such nodes there are
two parts of one id.
-/
namespace Daliuge.Partition

open Collect

section Places

variable {V : Type} [DecidableEq V] {nx : DagTools V} {P : Problem V} {p q : Partition V}
  {u v w : V} {E E' : Edges V}

theorem addEdge_nodes_of_mem {G : Digraph V} (hu : u ∈ G.nodes) (hv : v ∈ G.nodes) :
    (G.addEdge u v).nodes = G.nodes := by
  have hadd : G.addNode u = G := if_pos hu
  rw [Digraph.addEdge_nodes, hadd, Digraph.addNode, if_pos hv]

/-! What the operations of a part do to its nodes. -/

theorem probeMaxDop_spec {unew vnew update : Bool} {d : Nat}
    (h : p.probeMaxDop nx u v unew vnew update = .ok (d, q)) :
    q.partitionId = p.partitionId ∧ q.dag = p.dag := by
  unfold Partition.probeMaxDop at h
  split at h
  · split at h
    · obtain ⟨-, rfl⟩ := Prod.mk.inj (Except.ok.inj h)
      exact ⟨rfl, rfl⟩
    · obtain ⟨-, rfl⟩ := Prod.mk.inj (Except.ok.inj h)
      split
      · exact ⟨rfl, rfl⟩
      · exact ⟨rfl, rfl⟩
  · obtain ⟨-, rfl⟩ := Prod.mk.inj (Except.ok.inj h)
    exact ⟨rfl, rfl⟩
  · obtain ⟨⟨ups, n⟩, -, h⟩ := bind_ok.mp h
    dsimp only at h
    split at h
    · exact absurd h (by simp)
    · obtain ⟨-, rfl⟩ := Prod.mk.inj (Except.ok.inj h)
      exact ⟨rfl, rfl⟩

theorem mem_removeIf {new : Bool} :
    w ∈ (p.removeIf new u).dag.nodes ↔ w ∈ p.dag.nodes ∧ (new = true → w ≠ u) := by
  cases new <;> simp [Partition.removeIf, Digraph.removeNode]

/-- `can_add` leaves the nodes of the part as they were, and an empty part takes everything. -/
theorem canAdd_spec {ca : Bool} (h : p.canAdd nx P u v = .ok (ca, q)) :
    q.partitionId = p.partitionId ∧ (∀ w, w ∈ q.dag.nodes ↔ w ∈ p.dag.nodes) ∧
      (p.dag.nodes = [] → ca = true) := by
  unfold Partition.canAdd at h
  obtain ⟨_, -, h⟩ := bind_ok.mp h
  obtain ⟨_, -, h⟩ := bind_ok.mp h
  split at h
  · obtain ⟨rfl, rfl⟩ := Prod.mk.inj (pure_ok.mp h)
    exact ⟨rfl, fun _ => Iff.rfl, fun _ => rfl⟩
  · rename_i hne
    obtain ⟨⟨mydop, r⟩, hr, h⟩ := bind_ok.mp h
    obtain ⟨ask, -, h⟩ := bind_ok.mp h
    obtain ⟨-, rfl⟩ := Prod.mk.inj (pure_ok.mp h)
    have hkept : r.partitionId = p.partitionId ∧ r.dag = p.dag.addEdge u v := by
      unfold Partition.dopWith at hr
      split at hr
      · obtain ⟨d, -, hr⟩ := bind_ok.mp hr
        obtain ⟨-, rfl⟩ := Prod.mk.inj (pure_ok.mp hr)
        exact ⟨rfl, rfl⟩
      · exact probeMaxDop_spec hr
    refine ⟨?_, fun w => ?_, fun he => absurd he hne⟩
    · rw [← hkept.1]
      unfold Partition.removeIf
      split <;> split <;> rfl
    · rw [mem_removeIf, mem_removeIf, hkept.2, Digraph.mem_addEdge]
      simp only [decide_eq_true_eq]
      constructor
      · rintro ⟨⟨hw | rfl | rfl, hu⟩, hv⟩
        · exact hw
        · by_contra hn
          exact hu hn rfl
        · by_contra hn
          exact hv hn rfl
      · intro hw
        exact ⟨⟨Or.inl hw, fun hn he => hn (he ▸ hw)⟩, fun hn he => hn (he ▸ hw)⟩

variable (nx) in
/-- Linking two nodes that are there adds no node. -/
theorem link_spec {c : Digraph V × Edges V} {ns : List V} (hu : u ∈ c.1.nodes) (hv : v ∈ c.1.nodes)
    (hns : c.2.graph.nodes = ns) (hsub : ∀ w ∈ c.1.nodes, w ∈ ns) :
    (Partition.link nx c u v).1.nodes = c.1.nodes ∧
      (Partition.link nx c u v).2.graph.nodes = ns := by
  have hg : (c.2.graph.addEdge u v).nodes = c.2.graph.nodes :=
    addEdge_nodes_of_mem (hns ▸ hsub u hu) (hns ▸ hsub v hv)
  refine ⟨addEdge_nodes_of_mem hu hv, ?_⟩
  unfold Partition.link
  dsimp only
  split
  · exact hg.trans hns
  · exact hg.trans hns

/-- Breaking antichains adds no node, to the part or to the graph. -/
theorem linearise_spec (hnx : nx.Sound) {unew : Bool} {dag : Digraph V} (hu : u ∈ dag.nodes)
    (hv : v ∈ dag.nodes) (hsub : ∀ w ∈ dag.nodes, w ∈ E.graph.nodes) :
    (Partition.linearise nx unew u v dag E).1.nodes = dag.nodes ∧
      (Partition.linearise nx unew u v dag E).2.graph.nodes = E.graph.nodes := by
  have hfold : ∀ (f : Digraph V × Edges V → V → Digraph V × Edges V) (l : List V)
      (c : Digraph V × Edges V), (∀ c w, w ∈ l → c.1.nodes = dag.nodes →
        c.2.graph.nodes = E.graph.nodes → (f c w).1.nodes = dag.nodes ∧
        (f c w).2.graph.nodes = E.graph.nodes) → c.1.nodes = dag.nodes →
      c.2.graph.nodes = E.graph.nodes → (l.foldl f c).1.nodes = dag.nodes ∧
        (l.foldl f c).2.graph.nodes = E.graph.nodes := by
    intro f l
    induction l with
    | nil => exact fun c _ h1 h2 => ⟨h1, h2⟩
    | cons w l ih =>
      intro c hf h1 h2
      obtain ⟨h1, h2⟩ := hf c w (by simp) h1 h2
      exact ih (f c w) (fun c x hx => hf c x (by simp [hx])) h1 h2
  have hlink : ∀ (c : Digraph V × Edges V) a b, a ∈ dag.nodes → b ∈ dag.nodes →
      c.1.nodes = dag.nodes → c.2.graph.nodes = E.graph.nodes →
      (Partition.link nx c a b).1.nodes = dag.nodes ∧
        (Partition.link nx c a b).2.graph.nodes = E.graph.nodes := by
    intro c a b ha hb h1 h2
    obtain ⟨h3, h4⟩ := link_spec nx (h1 ▸ ha) (h1 ▸ hb) h2 (h1 ▸ hsub)
    exact ⟨h3.trans h1, h4⟩
  unfold Partition.linearise
  split
  · refine hfold _ _ _ (fun c w hw h1 h2 => ?_) rfl rfl
    split
    · exact ⟨h1, h2⟩
    · split
      · exact hlink c u w hu (hnx.ancestors dag v w hw) h1 h2
      · exact ⟨h1, h2⟩
  · refine hfold _ _ _ (fun c w hw h1 h2 => ?_) rfl rfl
    split
    · exact ⟨h1, h2⟩
    · split
      · exact hlink c w v (hnx.descendants dag u w hw) hv h1 h2
      · exact ⟨h1, h2⟩

/-- `add` adds the two nodes to the part, and none to the graph. -/
theorem add_spec (hnx : nx.Sound) {sequential : Bool}
    (h : p.add nx P u v sequential E = .ok (q, E')) (hu : u ∈ E.graph.nodes)
    (hv : v ∈ E.graph.nodes) (hsub : ∀ w ∈ p.dag.nodes, w ∈ E.graph.nodes) :
    q.partitionId = p.partitionId ∧
      (∀ w, w ∈ q.dag.nodes ↔ w ∈ p.dag.nodes ∨ w = u ∨ w = v) ∧
      E'.graph.nodes = E.graph.nodes := by
  unfold Partition.add at h
  obtain ⟨_, -, h⟩ := bind_ok.mp h
  obtain ⟨_, -, h⟩ := bind_ok.mp h
  obtain ⟨_, -, h⟩ := bind_ok.mp h
  obtain ⟨_, -, h⟩ := bind_ok.mp h
  split at h
  · obtain ⟨rfl, rfl⟩ := Prod.mk.inj (pure_ok.mp h)
    exact ⟨rfl, fun w => Digraph.mem_addEdge, rfl⟩
  · obtain ⟨⟨md, r⟩, hr, h⟩ := bind_ok.mp h
    obtain ⟨rfl, rfl⟩ := Prod.mk.inj (pure_ok.mp h)
    obtain ⟨hid, hdag⟩ := probeMaxDop_spec hr
    have hkept : (if sequential then Partition.linearise nx (decide (u ∉ p.dag.nodes)) u v
          (p.dag.addEdge u v) E else (p.dag.addEdge u v, E)).1.nodes = (p.dag.addEdge u v).nodes ∧
        (if sequential then Partition.linearise nx (decide (u ∉ p.dag.nodes)) u v
          (p.dag.addEdge u v) E else (p.dag.addEdge u v, E)).2.graph.nodes = E.graph.nodes := by
      split
      · refine linearise_spec hnx ?_ ?_ fun w hw => ?_
        · exact Digraph.mem_addEdge.mpr (Or.inr (Or.inl rfl))
        · exact Digraph.mem_addEdge.mpr (Or.inr (Or.inr rfl))
        · rcases Digraph.mem_addEdge.mp hw with hw | rfl | rfl
          · exact hsub w hw
          · exact hu
          · exact hv
      · exact ⟨rfl, rfl⟩
    refine ⟨hid, fun w => ?_, hkept.2⟩
    change w ∈ r.dag.nodes ↔ _
    rw [hdag, ← Digraph.mem_addEdge]
    exact iff_of_eq (congrArg (w ∈ ·) hkept.1)

end Places

/-! Placing the edges. -/

section Steps

variable {V : Type} [DecidableEq V] {nx : DagTools V} {P : Problem V} {s s' : Swarm V}
  {e : V × V} {ref : Nat}

/-- The parts have consecutive ids, are found under them, and have the nodes that name them. -/
structure Grouped (P : Problem V) (s : Swarm V) : Prop where
  nodes : s.edges.graph.nodes = P.dag.nodes
  parts : s.parts = List.range s.parts.length
  ids : ∀ i < s.parts.length, (s.heap i).partitionId = P.dropCount + 1 + i
  dict : ∀ i < s.parts.length, s.gDict (P.dropCount + 1 + i) = some i
  members : ∀ i < s.parts.length, ∀ v,
    v ∈ (s.heap i).dag.nodes ↔ s.gid v = some (P.dropCount + 1 + i)
  known : ∀ v g, s.gid v = some g → v ∈ P.dag.nodes ∧
    ∃ i < s.parts.length, g = P.dropCount + 1 + i

/-- Between two edges: no part is empty, and the counter is ahead of all ids. -/
structure Between (P : Problem V) (s : Swarm V) : Prop where
  grouped : Grouped P s
  inhabited : ∀ i < s.parts.length, (s.heap i).dag.nodes ≠ []
  count : s.stGid = P.dropCount + 1 + s.parts.length

omit [DecidableEq V] in
/-- Nothing in it is about the weights or the rejected edges. -/
theorem Grouped.congr (h : Grouped P s) (hn : s'.edges.graph.nodes = s.edges.graph.nodes)
    (hh : s'.heap = s.heap) (hd : s'.gDict = s.gDict) (hp : s'.parts = s.parts)
    (hg : s'.gid = s.gid) : Grouped P s' := by
  obtain ⟨h1, h2, h3, h4, h5, h6⟩ := h
  refine ⟨hn.trans h1, ?_, ?_, ?_, ?_, ?_⟩
  · rw [hp]
    exact h2
  · rw [hp, hh]
    exact h3
  · rw [hp, hd]
    exact h4
  · rw [hp, hh, hg]
    exact h5
  · rw [hp, hg]
    exact h6

omit [DecidableEq V] in
/-- A part that keeps its id and its nodes. -/
theorem Grouped.update {q : Partition V} (h : Grouped P s)
    (hid : q.partitionId = (s.heap ref).partitionId)
    (hq : ∀ w, w ∈ q.dag.nodes ↔ w ∈ (s.heap ref).dag.nodes) :
    Grouped P { s with heap := Function.update s.heap ref q } := by
  refine ⟨h.nodes, h.parts, fun i hi => ?_, h.dict, fun i hi v => ?_, h.known⟩
  · by_cases he : i = ref
    · subst he
      simpa [hid] using h.ids i hi
    · simpa [he] using h.ids i hi
  · by_cases he : i = ref
    · subst he
      simpa [hq] using h.members i hi v
    · simpa [he] using h.members i hi v

/-- The part of an edge: the ends are in it or in none. -/
theorem Grouped.joined {q : Partition V} {E : Edges V} (h : Grouped P s)
    (hr : ref < s.parts.length) (hid : q.partitionId = (s.heap ref).partitionId)
    (hq : ∀ w, w ∈ q.dag.nodes ↔ w ∈ (s.heap ref).dag.nodes ∨ w = e.1 ∨ w = e.2)
    (hE : E.graph.nodes = s.edges.graph.nodes)
    (he : ∀ v, v = e.1 ∨ v = e.2 → v ∈ P.dag.nodes ∧
      (s.gid v = none ∨ s.gid v = some (P.dropCount + 1 + ref))) :
    Grouped P (s.joined ref q E e) := by
  have hname : q.partitionId = P.dropCount + 1 + ref := hid.trans (h.ids ref hr)
  refine ⟨hE.trans h.nodes, h.parts, fun i hi => ?_, h.dict, fun i hi v => ?_, fun v g hg => ?_⟩
  · by_cases hir : i = ref
    · subst hir
      simpa [Swarm.joined] using hname
    · simpa [Swarm.joined, hir] using h.ids i hi
  · have hold := h.members i hi v
    by_cases hend : v = e.1 ∨ v = e.2
    · have hgid : (s.joined ref q E e).gid v = some (P.dropCount + 1 + ref) := by
        simp [Swarm.joined, hend, hname]
      rw [hgid]
      by_cases hir : i = ref
      · subst hir
        have hin : v ∈ q.dag.nodes := (hq v).mpr (Or.inr hend)
        simpa [Swarm.joined] using hin
      · have hout : v ∉ (s.heap i).dag.nodes := by
          rw [hold]
          rcases (he v hend).2 with hg | hg <;> rw [hg] <;> simp
          omega
        have hne : ref ≠ i := Ne.symm hir
        simpa [Swarm.joined, hir, hne] using hout
    · have hgid : (s.joined ref q E e).gid v = s.gid v := by simp [Swarm.joined, hend]
      rw [hgid, ← hold]
      by_cases hir : i = ref
      · subst hir
        simp [Swarm.joined, hq v, hend]
      · simp [Swarm.joined, hir]
  · by_cases hend : v = e.1 ∨ v = e.2
    · have hgid : (s.joined ref q E e).gid v = some (P.dropCount + 1 + ref) := by
        simp [Swarm.joined, hend, hname]
      rw [hgid] at hg
      exact ⟨(he v hend).1, ref, hr, (Option.some.inj hg).symm⟩
    · have hgid : (s.joined ref q E e).gid v = s.gid v := by simp [Swarm.joined, hend]
      rw [hgid] at hg
      exact h.known v g hg

/-- An edge meets a part: only that part may be empty before, and none is afterwards. -/
theorem meet_between (hnx : nx.Sound) {ow : Nat} {linear : Bool} (h : Grouped P s)
    (hc : s.stGid = P.dropCount + 1 + s.parts.length) (hr : ref < s.parts.length)
    (hin : ∀ i < s.parts.length, i ≠ ref → (s.heap i).dag.nodes ≠ [])
    (he : ∀ v, v = e.1 ∨ v = e.2 → v ∈ P.dag.nodes ∧
      (s.gid v = none ∨ s.gid v = some (P.dropCount + 1 + ref)))
    (hm : s.meet nx P ref e ow linear = .ok s') : Between P s' := by
  unfold Swarm.meet at hm
  obtain ⟨⟨ca, p⟩, hca, hm⟩ := bind_ok.mp hm
  obtain ⟨hid, hmem, hempty⟩ := canAdd_spec hca
  dsimp only at hm
  split at hm
  · obtain ⟨⟨q, E⟩, hadd, hm⟩ := bind_ok.mp hm
    obtain rfl := pure_ok.mp hm
    have hsub : ∀ w ∈ p.dag.nodes, w ∈ s.edges.graph.nodes := by
      intro w hw
      rw [h.nodes]
      exact (h.known w _ ((h.members ref hr w).mp ((hmem w).mp hw))).1
    obtain ⟨hid', hmem', hE⟩ := add_spec hnx hadd (h.nodes ▸ (he e.1 (Or.inl rfl)).1)
      (h.nodes ▸ (he e.2 (Or.inr rfl)).1) hsub
    have hq : ∀ w, w ∈ q.dag.nodes ↔ w ∈ (s.heap ref).dag.nodes ∨ w = e.1 ∨ w = e.2 := by
      intro w
      rw [hmem', hmem]
    refine ⟨h.joined hr (hid'.trans hid) hq hE he, fun i hi => ?_, hc⟩
    by_cases hir : i = ref
    · subst hir
      have hin : e.1 ∈ q.dag.nodes := (hq e.1).mpr (Or.inr (Or.inl rfl))
      simpa [Swarm.joined] using List.ne_nil_of_mem hin
    · simpa [Swarm.joined, hir] using hin i hi hir
  · rename_i hno
    obtain rfl := pure_ok.mp hm
    have hg : Grouped P { s with heap := Function.update s.heap ref p } := h.update hid hmem
    refine ⟨hg.congr rfl rfl rfl rfl rfl, fun i hi => ?_, hc⟩
    by_cases hir : i = ref
    · subst hir
      -- an empty part would have taken the edge
      have hne : (s.heap i).dag.nodes ≠ [] := by
        intro hnil
        exact hno (by simp [hempty hnil])
      obtain ⟨w, hw⟩ := List.exists_mem_of_ne_nil _ hne
      have hin : w ∈ p.dag.nodes := (hmem w).mpr hw
      simpa [Swarm.recover] using List.ne_nil_of_mem hin
    · simpa [Swarm.recover, hir] using hin i hi hir

theorem newPart_grouped (h : Between P s) : Grouped P s.newPart := by
  have hlen : s.newPart.parts.length = s.parts.length + 1 := by simp [Swarm.newPart]
  have hold : ∀ i < s.parts.length, s.newPart.heap i = s.heap i := by
    intro i hi
    have hne : i ≠ s.parts.length := by omega
    simp [Swarm.newPart, hne]
  have hnew : s.newPart.heap s.parts.length = { partitionId := s.stGid } := by
    simp [Swarm.newPart]
  refine ⟨h.grouped.nodes, ?_, fun i hi => ?_, fun i hi => ?_, fun i hi v => ?_, fun v g hg => ?_⟩
  · rw [hlen, List.range_succ, ← h.grouped.parts]
    rfl
  · rcases Nat.lt_succ_iff_lt_or_eq.mp (hlen ▸ hi) with hi | rfl
    · rw [hold i hi]
      exact h.grouped.ids i hi
    · rw [hnew]
      exact h.count
  · rcases Nat.lt_succ_iff_lt_or_eq.mp (hlen ▸ hi) with hi | rfl
    · have hne : P.dropCount + 1 + i ≠ s.stGid := by
        rw [h.count]
        omega
      simpa [Swarm.newPart, hne] using h.grouped.dict i hi
    · rw [← h.count]
      simp [Swarm.newPart]
  · rcases Nat.lt_succ_iff_lt_or_eq.mp (hlen ▸ hi) with hi | rfl
    · rw [hold i hi]
      exact h.grouped.members i hi v
    · rw [hnew]
      constructor
      · exact fun hv => absurd hv (by simp)
      · intro hg
        obtain ⟨-, j, hj, hgj⟩ := h.grouped.known v _ hg
        omega
  · obtain ⟨hv, i, hi, rfl⟩ := h.grouped.known v g hg
    exact ⟨hv, i, by omega, rfl⟩

/-- An edge that is zeroed. -/
theorem zeroEdge_between (hnx : nx.Sound) {linear : Bool} (h : Between P s)
    (he : e.1 ∈ P.dag.nodes ∧ e.2 ∈ P.dag.nodes) (hz : s.zeroEdge nx P e linear = .ok s') :
    Between P s' := by
  have hzero : Between P (s.zero e) :=
    ⟨h.grouped.congr rfl rfl rfl rfl rfl, h.inhabited, h.count⟩
  have hend : ∀ v, v = e.1 ∨ v = e.2 → v ∈ P.dag.nodes := by
    rintro v (rfl | rfl)
    · exact he.1
    · exact he.2
  -- one end is in a part, the other in none
  have hone : ∀ g ref, (s.zero e).gDict g = some ref →
      (∀ v, v = e.1 ∨ v = e.2 → s.gid v = none ∨ s.gid v = some g) →
      (∃ v, (v = e.1 ∨ v = e.2) ∧ s.gid v = some g) →
      (s.zero e).meet nx P ref e (s.edges.weight e.1 e.2) linear = .ok s' → Between P s' := by
    rintro g ref hd hgid ⟨v, -, hv⟩ hm
    obtain ⟨-, i, hi, rfl⟩ := h.grouped.known v g hv
    obtain rfl : i = ref := Option.some.inj ((h.grouped.dict i hi).symm.trans hd)
    exact meet_between hnx hzero.grouped hzero.count hi (fun j hj _ => hzero.inhabited j hj)
      (fun w hw => ⟨hend w hw, hgid w hw⟩) hm
  unfold Swarm.zeroEdge at hz
  dsimp only at hz
  split at hz
  · rename_i ugid hu hv
    obtain ⟨ref, hd, hz⟩ := bind_ok.mp hz
    refine hone ugid ref (look_ok.mp hd) ?_ ⟨e.1, Or.inl rfl, hu⟩ hz
    rintro w (rfl | rfl)
    · exact Or.inr hu
    · exact Or.inl hv
  · rename_i vgid hu hv
    obtain ⟨ref, hd, hz⟩ := bind_ok.mp hz
    refine hone vgid ref (look_ok.mp hd) ?_ ⟨e.2, Or.inr rfl, hv⟩ hz
    rintro w (rfl | rfl)
    · exact Or.inl hu
    · exact Or.inr hv
  · rename_i hu hv
    have hlen : (s.zero e).newPart.parts.length = s.parts.length + 1 := by
      simp [Swarm.newPart, Swarm.zero]
    have hlast : (s.zero e).parts.length < (s.zero e).newPart.parts.length := by
      rw [hlen]
      exact Nat.lt_succ_self _
    refine meet_between hnx (newPart_grouped hzero) ?_ hlast (fun i hi hne => ?_)
      (fun w hw => ⟨hend w hw, Or.inl ?_⟩) hz
    · rw [hlen]
      change s.stGid + 1 = _
      rw [h.count]
      omega
    · have hi' : i < s.parts.length := by
        change i ≠ s.parts.length at hne
        omega
      have hne' : i ≠ (s.zero e).parts.length := hne
      simpa [Swarm.newPart, hne'] using hzero.inhabited i hi'
    · rcases hw with rfl | rfl
      · exact hu
      · exact hv
  · obtain rfl := Except.ok.inj hz
    exact ⟨hzero.grouped.congr rfl rfl rfl rfl rfl, hzero.inhabited, hzero.count⟩

/-- All edges. -/
theorem placeAll_between (hnx : nx.Sound) {x : Nat → Int}
    (hcl : ∀ e ∈ P.dag.edges, e.1 ∈ P.dag.nodes ∧ e.2 ∈ P.dag.nodes)
    (h : Swarm.placeAll nx P x = .ok s) : Between P s := by
  have hstart : Between P (Swarm.blank P) := by
    refine ⟨⟨rfl, rfl, ?_, ?_, ?_, ?_⟩, ?_, rfl⟩ <;> simp [Swarm.blank]
  have hedges : ∀ e ∈ P.sortedEdges.zipIdx, e.1.1 ∈ P.dag.nodes ∧ e.1.2 ∈ P.dag.nodes := by
    intro e hm
    have hm : e.1 ∈ P.sortedEdges := List.fst_mem_of_mem_zipIdx hm
    exact hcl e.1 ((List.perm_insertionSort _ _).mem_iff.mp hm)
  refine foldlM_kept (I := Between P) (fun e he s s' hs hstep => ?_) hstart h
  have he := hedges e he
  unfold Swarm.place at hstep
  split at hstep
  · obtain rfl := Except.ok.inj hstep
    exact hs
  · exact zeroEdge_between hnx hs he hstep
  · exact zeroEdge_between hnx hs he hstep
  · exact absurd hstep (by simp)

end Steps

/-! The nodes left over. -/

section Rest

variable {V : Type} [DecidableEq V] {nx : DagTools V} {P : Problem V} {s t : Swarm V} {n : Nat}

/-- The nodes that are in no part. -/
def Swarm.leftOver (s : Swarm V) (ns : List V) : List V := ns.filter fun v => s.gid v = none

/-- The nodes so far that were left over have parts of their own, all under one id. -/
structure Owned (s : Swarm V) (gid : Nat) (ns : List V) (c : Swarm V × Nat) : Prop where
  gids : ∀ v, c.1.gid v = if v ∈ ns ∧ s.gid v = none then some gid else s.gid v
  parts : c.1.parts = s.parts ++ List.range' s.parts.length (s.leftOver ns).length
  old : ∀ i < s.parts.length, c.1.heap i = s.heap i
  new : ∀ j v, (s.leftOver ns)[j]? = some v →
    (c.1.heap (s.parts.length + j)).partitionId = gid ∧
    (c.1.heap (s.parts.length + j)).dag.nodes = [v]
  entry : s.leftOver ns ≠ [] → ∃ j, j < (s.leftOver ns).length ∧
    c.1.gDict gid = some (s.parts.length + j)
  entries : ∀ g, g ≠ gid → c.1.gDict g = s.gDict g
  number : c.2 = s.parts.length + (s.leftOver ns).length
  graph : c.1.edges = s.edges

theorem Owned.ownPart {gid : Nat} {ns : List V} {c : Swarm V × Nat} {v : V}
    (h : Owned s gid ns c) (hv : v ∉ ns) : Owned s gid (ns ++ [v]) (Swarm.ownPart gid c v) := by
  have hgv : c.1.gid v = s.gid v := by simp [h.gids v, hv]
  have hlen : c.1.parts.length = s.parts.length + (s.leftOver ns).length := by simp [h.parts]
  by_cases hnone : s.gid v = none
  · have hleft : s.leftOver (ns ++ [v]) = s.leftOver ns ++ [v] := by
      simp [Swarm.leftOver, hnone]
    have hown : Swarm.ownPart gid c v = ({ c.1 with
        gid := Function.update c.1.gid v (some gid)
        heap := Function.update c.1.heap c.1.parts.length
          { partitionId := gid, dag := Digraph.addNode {} v, maxDop := some 1 }
        gDict := Function.update c.1.gDict gid (some c.1.parts.length)
        parts := c.1.parts ++ [c.1.parts.length] }, c.2 + 1) := by
      simp [Swarm.ownPart, hgv, hnone]
    rw [hown]
    constructor
    case gids =>
      intro w
      by_cases hw : w = v
      · subst hw
        simp [hnone]
      · simp [hw, h.gids w]
    case parts =>
      rw [hleft, List.length_append, List.length_singleton, List.range'_concat]
      simp [h.parts]
    case old =>
      intro i hi
      have hne : i ≠ c.1.parts.length := by omega
      simpa [hne] using h.old i hi
    case new =>
      intro j w hw
      rw [hleft] at hw
      rcases Nat.lt_or_ge j (s.leftOver ns).length with hj | hj
      · rw [List.getElem?_append_left hj] at hw
        have hne : s.parts.length + j ≠ c.1.parts.length := by omega
        simpa [hne] using h.new j w hw
      · rw [List.getElem?_append_right hj] at hw
        have hj' : j = (s.leftOver ns).length := by
          by_contra hne
          rw [List.getElem?_eq_none (by simp; omega)] at hw
          simp at hw
        subst hj'
        obtain rfl : v = w := by simpa using hw
        rw [← hlen]
        simp [Digraph.addNode]
    case entry =>
      intro _
      refine ⟨(s.leftOver ns).length, by simp [hleft], ?_⟩
      simp [hlen]
    case entries =>
      intro g hg
      simpa [hg] using h.entries g hg
    case number =>
      rw [hleft, List.length_append, List.length_singleton, h.number]
      omega
    case graph => exact h.graph
  · have hleft : s.leftOver (ns ++ [v]) = s.leftOver ns := by simp [Swarm.leftOver, hnone]
    have hown : Swarm.ownPart gid c v = c := by simp [Swarm.ownPart, hgv, hnone]
    rw [hown]
    obtain ⟨h1, h2, h3, h4, h5, h6, h7, h8⟩ := h
    rw [← hleft] at h2 h4 h5 h7
    refine ⟨fun w => ?_, h2, h3, h4, h5, h6, h7, h8⟩
    rw [h1 w]
    by_cases hw : w = v
    · subst hw
      simp [hnone]
    · simp [hw]

theorem ownParts_owned (hnd : s.edges.graph.nodes.Nodup) :
    Owned s (P.dropCount + 1 + s.parts.length) s.edges.graph.nodes (s.ownParts P) := by
  suffices hgen : ∀ (post pre : List V) (c : Swarm V × Nat), s.edges.graph.nodes = pre ++ post →
      Owned s (P.dropCount + 1 + s.parts.length) pre c →
      Owned s (P.dropCount + 1 + s.parts.length) s.edges.graph.nodes
        (post.foldl (Swarm.ownPart (P.dropCount + 1 + s.parts.length)) c) by
    refine hgen _ [] (s, s.parts.length) rfl ?_
    constructor <;> simp [Swarm.leftOver]
  intro post
  induction post with
  | nil =>
    intro pre c he h
    rw [he, List.append_nil]
    exact h
  | cons v post ih =>
    intro pre c he h
    have hv : v ∉ pre := by
      rw [he] at hnd
      exact fun hm => List.disjoint_of_nodup_append hnd hm (by simp)
    exact ih (pre ++ [v]) _ (by simp [he]) (h.ownPart hv)

/-- The ids are distinct, every node names one part, which has it, and the number of parts is
that of the list and that of the ids. -/
structure ProperPartition (P : Problem V) (n : Nat) (t : Swarm V) : Prop where
  ids : (t.parts.map fun ref => (t.heap ref).partitionId).Nodup
  named : ∀ v ∈ P.dag.nodes, ∃ ref ∈ t.parts, t.gid v = some (t.heap ref).partitionId ∧
    v ∈ (t.heap ref).dag.nodes ∧
    ∀ ref' ∈ t.parts, t.gid v = some (t.heap ref').partitionId → ref' = ref
  listed : n = t.parts.length
  distinct : n = (P.dag.nodes.map t.gid).dedup.length

omit [DecidableEq V] in
/-- Parts that are grouped and not empty, and have all nodes. -/
theorem Grouped.proper (h : Grouped P t) (hin : ∀ i < t.parts.length, (t.heap i).dag.nodes ≠ [])
    (hall : ∀ v ∈ P.dag.nodes, t.gid v ≠ none) : ProperPartition P t.parts.length t := by
  have hmem : ∀ ref, ref ∈ t.parts ↔ ref < t.parts.length := by
    intro ref
    have hp := h.parts
    constructor
    · intro hm
      rw [hp] at hm
      exact List.mem_range.mp hm
    · intro hlt
      rw [hp]
      exact List.mem_range.mpr hlt
  have hids : (t.parts.map fun ref => (t.heap ref).partitionId).Nodup := by
    refine List.Nodup.map_on (fun a ha b hb he => ?_) (h.parts ▸ List.nodup_range)
    rw [h.ids a ((hmem a).mp ha), h.ids b ((hmem b).mp hb)] at he
    omega
  constructor
  case ids => exact hids
  case named =>
    intro v hv
    obtain ⟨g, hg⟩ := Option.ne_none_iff_exists'.mp (hall v hv)
    obtain ⟨-, i, hi, rfl⟩ := h.known v g hg
    refine ⟨i, (hmem i).mpr hi, ?_, (h.members i hi v).mpr hg, fun j hj hgj => ?_⟩
    · rw [hg, h.ids i hi]
    · have hj := (hmem j).mp hj
      rw [hg, h.ids j hj] at hgj
      have := Option.some.inj hgj
      omega
  case listed => rfl
  case distinct =>
    have hperm : (P.dag.nodes.map t.gid).dedup.Perm
        ((List.range t.parts.length).map fun i => some (P.dropCount + 1 + i)) := by
      refine (List.perm_ext_iff_of_nodup (List.nodup_dedup _) ?_).mpr fun g => ?_
      · exact List.nodup_range.map fun a b he => by simpa using he
      · rw [List.mem_dedup, List.mem_map, List.mem_map]
        constructor
        · rintro ⟨v, hv, rfl⟩
          obtain ⟨g, hg⟩ := Option.ne_none_iff_exists'.mp (hall v hv)
          obtain ⟨-, i, hi, rfl⟩ := h.known v g hg
          exact ⟨i, List.mem_range.mpr hi, hg.symm⟩
        · rintro ⟨i, hi, rfl⟩
          have hi := List.mem_range.mp hi
          obtain ⟨v, hv⟩ := List.exists_mem_of_ne_nil _ (hin i hi)
          have hg := (h.members i hi v).mp hv
          exact ⟨v, (h.known v _ hg).1, hg⟩
    rw [hperm.length_eq]
    simp

/-- With at most one node left over its part is the next one. -/
theorem Owned.grouped {c : Swarm V × Nat} (h : Between P s)
    (ho : Owned s (P.dropCount + 1 + s.parts.length) P.dag.nodes c)
    (hone : (s.leftOver P.dag.nodes).length ≤ 1) : Grouped P c.1 ∧
      (∀ i < c.1.parts.length, (c.1.heap i).dag.nodes ≠ []) ∧
      ∀ v ∈ P.dag.nodes, c.1.gid v ≠ none := by
  have hlen : c.1.parts.length = s.parts.length + (s.leftOver P.dag.nodes).length := by
    simp [ho.parts]
  have hleft : ∀ v, v ∈ s.leftOver P.dag.nodes ↔ v ∈ P.dag.nodes ∧ s.gid v = none := by
    simp [Swarm.leftOver]
  have hgids : ∀ v, c.1.gid v = if v ∈ s.leftOver P.dag.nodes then
      some (P.dropCount + 1 + s.parts.length) else s.gid v := by
    intro v
    rw [ho.gids v]
    simp only [hleft]
  -- a part beyond the old ones is the one of the only node left over
  have hnew : ∀ i < c.1.parts.length, ¬ i < s.parts.length → ∃ v, i = s.parts.length ∧
      s.leftOver P.dag.nodes = [v] ∧ (c.1.heap i).partitionId = P.dropCount + 1 + i ∧
      (c.1.heap i).dag.nodes = [v] := by
    intro i hi hge
    obtain ⟨v, hv⟩ := List.length_eq_one_iff.mp (by omega : (s.leftOver P.dag.nodes).length = 1)
    have hil : i = s.parts.length + 0 := by omega
    obtain ⟨h1, h2⟩ := ho.new 0 v (by simp [hv])
    rw [← hil] at h1 h2
    exact ⟨v, by omega, hv, by rw [h1]; omega, h2⟩
  refine ⟨⟨?_, ?_, ?_, ?_, ?_, ?_⟩, ?_, ?_⟩
  · rw [ho.graph]
    exact h.grouped.nodes
  · rw [hlen, List.range_eq_range', ← List.range'_append_1, ← List.range_eq_range', zero_add,
      ← h.grouped.parts]
    exact ho.parts
  · intro i hi
    by_cases hlt : i < s.parts.length
    · rw [ho.old i hlt]
      exact h.grouped.ids i hlt
    · obtain ⟨v, -, -, hid, -⟩ := hnew i hi hlt
      exact hid
  · intro i hi
    by_cases hlt : i < s.parts.length
    · rw [ho.entries _ (by omega)]
      exact h.grouped.dict i hlt
    · obtain ⟨v, rfl, hv, -⟩ := hnew i hi hlt
      obtain ⟨j, hj, he⟩ := ho.entry (by simp [hv])
      have hj0 : j = 0 := by
        rw [hv] at hj
        simpa using hj
      rw [he, hj0]
      rfl
  · intro i hi v
    rw [hgids v]
    by_cases hlt : i < s.parts.length
    · rw [ho.old i hlt, h.grouped.members i hlt v]
      by_cases hv : v ∈ s.leftOver P.dag.nodes
      · simp only [hv, if_true, Option.some.injEq, ((hleft v).mp hv).2]
        constructor
        · exact fun hg => absurd hg (by simp)
        · intro hg
          omega
      · simp only [hv, if_false]
    · obtain ⟨w, rfl, hw, -, hd⟩ := hnew i hi hlt
      rw [hd, hw]
      by_cases hv : v = w
      · simp [hv]
      · simp only [List.mem_singleton, hv, if_false, false_iff]
        intro hg
        obtain ⟨-, j, hj, he⟩ := h.grouped.known v _ hg
        omega
  · intro v g hg
    rw [hgids v] at hg
    by_cases hv : v ∈ s.leftOver P.dag.nodes
    · have hpos := List.length_pos_of_mem hv
      rw [if_pos hv] at hg
      exact ⟨((hleft v).mp hv).1, s.parts.length, by omega, (Option.some.inj hg).symm⟩
    · rw [if_neg hv] at hg
      obtain ⟨hvn, i, hi, rfl⟩ := h.grouped.known v g hg
      exact ⟨hvn, i, by omega, rfl⟩
  · intro i hi
    by_cases hlt : i < s.parts.length
    · rw [ho.old i hlt]
      exact h.inhabited i hlt
    · obtain ⟨v, -, -, -, hd⟩ := hnew i hi hlt
      simp [hd]
  · intro v hv
    rw [ho.gids v]
    split
    · simp
    · rename_i hno
      exact fun hg => hno ⟨hv, hg⟩

end Rest

section Results

variable {V : Type} [LinearOrder V] {nx : DagTools V} {P : Problem V} {x : Nat → Int} {n : Nat}
  {lpl : Int} {t : Swarm V}

theorem partitionDagPso_cases (h : P.partitionDagPso nx x = .ok (n, lpl, t)) :
    ∃ s, Swarm.placeAll nx P x = .ok s ∧ s.ownParts P = (t, n) := by
  unfold Problem.partitionDagPso at h
  obtain ⟨s, hs, h⟩ := bind_ok.mp h
  obtain ⟨⟨path, lp⟩, -, h⟩ := bind_ok.mp h
  refine ⟨s, hs, ?_⟩
  have hret := pure_ok.mp h
  simp only [Prod.mk.injEq] at hret
  exact Prod.ext hret.2.2 hret.1

/-- `partition_dag` returns a proper partition exactly when at most one node is in no part after
the edges have been placed. -/
theorem properPartition_iff (hnx : nx.Sound) (hnd : P.dag.nodes.Nodup)
    (hcl : ∀ e ∈ P.dag.edges, e.1 ∈ P.dag.nodes ∧ e.2 ∈ P.dag.nodes)
    (h : P.partitionDagPso nx x = .ok (n, lpl, t)) : ProperPartition P n t ↔
      ∀ s, Swarm.placeAll nx P x = .ok s → (s.leftOver P.dag.nodes).length ≤ 1 := by
  obtain ⟨s, hs, hown⟩ := partitionDagPso_cases h
  have hb := placeAll_between hnx hcl hs
  have ho := ownParts_owned (P := P) (hb.grouped.nodes ▸ hnd)
  rw [hb.grouped.nodes, hown] at ho
  constructor
  · intro hp s' hs'
    obtain rfl := Except.ok.inj (hs.symm.trans hs')
    by_contra hmany
    -- the first two nodes left over have parts of one id
    have h0 : 0 < (s.leftOver P.dag.nodes).length := by omega
    have h1 : 1 < (s.leftOver P.dag.nodes).length := by omega
    have hid0 := (ho.new 0 _ (List.getElem?_eq_getElem h0)).1
    have hid1 := (ho.new 1 _ (List.getElem?_eq_getElem h1)).1
    have hmem : ∀ j < (s.leftOver P.dag.nodes).length, s.parts.length + j ∈ t.parts := by
      intro j hj
      rw [ho.parts]
      refine List.mem_append_right _ (List.mem_range'_1.mpr ?_)
      omega
    have heq := List.inj_on_of_nodup_map hp.ids (hmem 0 h0) (hmem 1 h1) (hid0.trans hid1.symm)
    omega
  · intro hone
    obtain ⟨hg, hin, hall⟩ := ho.grouped hb (hone s hs)
    have hn : n = t.parts.length := by
      rw [ho.parts, List.length_append, List.length_range']
      exact ho.number
    rw [hn]
    exact hg.proper hin hall

/-- `networkx` on a chain of at most two nodes. -/
def shortChains : DagTools Nat where
  antichains G := [] :: G.nodes.map fun v => [v]
  ancestors G v := (G.predecessors v).filter (· ∈ G.nodes)
  descendants G v := (G.successors v).filter (· ∈ G.nodes)
  isDirectedAcyclicGraph _ := true
  topologicalSort G := G.nodes

theorem shortChains_sound : shortChains.Sound := by
  constructor <;> simp [shortChains]

/-- Two nodes with an edge between them, and a lone one. -/
def edgeAndLoner : Problem Nat where
  dag := { nodes := [1, 2, 3], edges := [(1, 2)] }
  nodeWeight _ := some 1
  edgeWeight _ _ := 5
  resource _ _ := some 1
  dropCount := 3
  maxDop := .dict [("num_cpus", some 8)]

/-- The edge is zeroed, and one node is left over. -/
theorem edgeAndLoner_proper : ∃ n lpl t,
    edgeAndLoner.partitionDagPso shortChains (fun _ => 1) = .ok (n, lpl, t) ∧
      ProperPartition edgeAndLoner n t := by
  have hrun : (edgeAndLoner.partitionDagPso shortChains fun _ => 1).map (fun r => r.1) = .ok 2 := by
    decide +kernel
  have hleft : (Swarm.placeAll shortChains edgeAndLoner fun _ => 1).map
      (fun s => (s.leftOver edgeAndLoner.dag.nodes).length) = .ok 1 := by
    decide +kernel
  cases hp : edgeAndLoner.partitionDagPso shortChains fun _ => 1 with
  | error e => simp [hp, Except.map] at hrun
  | ok r =>
    obtain ⟨n, lpl, t⟩ := r
    refine ⟨n, lpl, t, rfl, ?_⟩
    refine (properPartition_iff shortChains_sound (by decide) (by decide) hp).mpr fun s hs => ?_
    rw [hs] at hleft
    exact (Except.ok.inj hleft).le

/-- The two nodes alone. -/
def edgeAlone : Problem Nat :=
  { edgeAndLoner with dag := { nodes := [1, 2], edges := [(1, 2)] }, dropCount := 2 }

/-- An edge that is not zeroed leaves two nodes over, which get parts of one id. -/
theorem unzeroed_edge_one_id : ¬ ∀ (P : Problem Nat) (nx : DagTools Nat) (x : Nat → Int)
    (n : Nat) (lpl : Int) (t : Swarm Nat), nx.Sound → P.dag.Dag → (∀ i, 1 ≤ x i ∧ x i ≤ 3) →
    P.partitionDagPso nx x = .ok (n, lpl, t) → ProperPartition P n t := by
  intro h
  have hrun : (edgeAlone.partitionDagPso shortChains fun _ => 3).map
      (fun r => r.2.2.parts.map fun ref => (r.2.2.heap ref).partitionId) = .ok [3, 3] := by
    decide +kernel
  cases hp : edgeAlone.partitionDagPso shortChains fun _ => 3 with
  | error e => simp [hp, Except.map] at hrun
  | ok r =>
    obtain ⟨n, lpl, t⟩ := r
    have hG : edgeAlone.dag.Dag := Digraph.dag_of_lt (by decide) (by decide) (by decide)
    have hids := (h edgeAlone shortChains (fun _ => 3) n lpl t shortChains_sound hG
        (by simp) hp).ids
    rw [hp] at hrun
    have hsame : (t.parts.map fun ref => (t.heap ref).partitionId) = [3, 3] :=
      Except.ok.inj hrun
    rw [hsame] at hids
    simp at hids

end Results

end Daliuge.Partition
