import Daliuge.Partition.Linearise

/-!
# The graph rebuilt after linearisation

Linearisation changes the drop list and the DAG side by side. The DAG that `build_dag_from_drops`
makes of the drop list afterwards is compared with the one that was changed.
-/
namespace Daliuge.Partition

/-- The number of a node of the changed DAG in the drop list with the synthetic drops at its end,
after `n` given ones. -/
def renumber (n : Nat) (k : Int) : Int := if 0 ≤ k then k else n - k

/-- After linearisation the drops have the edges of the DAG. -/
def InStep (dag : DropGraph) (drops : List DropSpec) : Prop :=
  ∃ s dag' G, linearise dag drops (keyDict drops) = .ok (s, dag') ∧
    buildDagFromDrops (s.drops ++ s.extraDrops) = .ok G ∧
    ∀ x y, G.graph.Edge x y ↔ ∃ a b, dag'.graph.Edge a b ∧ renumber drops.length a = x ∧
      renumber drops.length b = y

section

variable {dag G : DropGraph} {drops : List DropSpec} {s : Linearising} {a b : Int}

theorem renumber_of_nonneg {n : Nat} (h : 0 ≤ a) : renumber n a = a := if_pos h

/-- Only the given nodes have the numbers of given drops. -/
theorem eq_of_renumber_le {n : Nat} (h : renumber n a = b) (hb : b ≤ n) : a = b := by
  unfold renumber at h
  split at h <;> omega

/-- Without an edge between drops of one type nothing happens. -/
theorem inStep_of_none (hn : (drops.map DropSpec.oid).Nodup) (hG : buildDagFromDrops drops = .ok G)
    (gid : Int → Option Int) (hnone : ∀ a b, ¬ SameType { G with gid } a b) :
    InStep { G with gid } drops := by
  have h := ofDrops_of_build hn hG gid
  obtain ⟨s, hs, hc⟩ := linearise_ok hn h.targeted
  have hj : joined { G with gid } (visits { G with gid } drops) = [] := by
    refine List.eq_nil_iff_forall_not_mem.mpr fun v hv => ?_
    exact hnone _ _ (h.mem_joined.mp ⟨v, hv, rfl, rfl⟩)
  have hextra : s.extraDrops = [] := by rw [hc.extraDrops, hj, List.map_nil]
  refine ⟨s, _, G, hs, ?_, fun x y => ?_⟩
  · rw [hc.kept hj, hextra, List.append_nil]
    exact hG
  · have he : ∀ a b, (s.apply { G with gid }).graph.Edge a b ↔ G.graph.Edge a b := by
      intro a b
      rw [edge_apply, hc.removeEdges, hc.addEdges, hj]
      simp
    have hpos : ∀ {a b}, G.graph.Edge a b → 0 < a ∧ 0 < b := fun hab =>
      (subdivides h hc).ends _ _ hab
    simp only [he]
    constructor
    · intro hxy
      exact ⟨x, y, hxy, renumber_of_nonneg (hpos hxy).1.le, renumber_of_nonneg (hpos hxy).2.le⟩
    · rintro ⟨a, b, hab, rfl, rfl⟩
      rwa [renumber_of_nonneg (hpos hab).1.le, renumber_of_nonneg (hpos hab).2.le]

theorem extra_outBound {v : Visit} {t : DropSpec} {o : Dest} (ho : o ∈ (v.extra t).outBound) :
    o.oid = t.oid := by
  revert ho
  unfold Visit.extra
  split
  · simp [transApp, DropSpec.outBound, DropSpec.addInput, DropSpec.addOutput, addSomething]
    rintro rfl
    rfl
  · simp [transData, DropSpec.outBound, DropSpec.addProducer, DropSpec.addConsumer, addSomething]
    rintro rfl
    rfl

/-- An edge between drops of one type is still in the drop list. -/
theorem sameType_of_inStep (hn : (drops.map DropSpec.oid).Nodup)
    (hG : buildDagFromDrops drops = .ok G) (gid : Int → Option Int)
    (hin : InStep { G with gid } drops) : ¬ SameType { G with gid } a b := by
  intro hsame
  have h := ofDrops_of_build hn hG gid
  obtain ⟨s, hs, hc⟩ := linearise_ok hn h.targeted
  obtain ⟨s', dag', G', hs', hG', hedges⟩ := hin
  obtain ⟨rfl, rfl⟩ := Prod.mk.inj (Except.ok.inj (hs'.symm.trans hs))
  have hlen : s'.drops.length = drops.length := (List.Forall₂.length_eq hc.grown).symm
  obtain ⟨v, hv, rfl, rfl⟩ := h.mem_joined.mpr hsame
  obtain ⟨j, hj⟩ := List.mem_iff_getElem?.mp hv
  obtain ⟨hvis, -⟩ := mem_of_joined hj
  have hpos := h.pos_of_visit hvis
  -- the edge to the target stays where the synthetic drop is, so the target's oid is its own
  have hnew : (s'.apply { G with gid }).graph.Edge (-((j + 1 : Nat) : Int)) v.targetKey :=
    edge_apply.mpr (Or.inr ((mem_addEdges hc).mpr ⟨j, v, hj, Or.inr ⟨rfl, rfl⟩⟩))
  have hnew := (hedges _ _).mpr ⟨_, _, hnew, rfl, rfl⟩
  obtain ⟨i, d, hi, -, hik, o, ho, hkey⟩ := (edge_buildDag hG').mp hnew
  obtain ⟨t, ht⟩ : ∃ t, drops[v.target]? = some t :=
    ⟨_, List.getElem?_eq_getElem (h.targeted v hvis).2.2⟩
  have hoid : o.oid = t.oid := by
    have hi' : i = drops.length + j := by
      unfold renumber at hik
      split at hik <;> omega
    have hjs : s'.extraDrops[j]? = some (v.extra t) := by
      rw [hc.extraDrops, List.getElem?_map, hj]
      simp [Visit.extraIn, ht]
    rw [hi', ← hlen, List.getElem?_append_right (Nat.le_add_right _ _), Nat.add_sub_cancel_left,
      hjs] at hi
    obtain rfl := Option.some.inj hi
    exact extra_outBound ho
  rw [hoid, renumber_of_nonneg hpos.2.le] at hkey
  -- the source names that oid, before and after
  obtain ⟨i', d, hi', hd, hsource, o', ho', hkey'⟩ := (edge_buildDag hG).mp hsame.1
  obtain ⟨j', t', hj', ht', htarget, -⟩ := keyDict_eq_some.mp hkey'
  have hj'' : j' = v.target := by
    unfold Visit.target
    omega
  obtain rfl := Option.some.inj (ht.symm.trans (hj'' ▸ hj'))
  obtain ⟨d', hd', hgrown⟩ := hc.grown.getElem? hi'
  have hold : G'.graph.Edge v.sourceKey v.targetKey := by
    refine (edge_buildDag hG').mpr ⟨i', d', ?_, ?_, hsource, o', hgrown.outBound o' ho', ht' ▸ hkey⟩
    · rw [List.getElem?_append_left (List.getElem?_eq_some_iff.mp hd').1]
      exact hd'
    · unfold DropSpec.Drawn
      rwa [hgrown.categoryType]
  -- but the DAG has lost that edge
  obtain ⟨a, b, hab, ha, hb⟩ := (hedges _ _).mp hold
  have hle : ∀ {k : Int}, k ∈ G.graph.nodes → k ≤ drops.length := by
    intro k hk
    obtain ⟨i, hi, rfl⟩ := (h.nodes k).mp hk
    omega
  have hends := h.edges _ _ hsame.1
  obtain rfl := eq_of_renumber_le ha (hle hends.1)
  obtain rfl := eq_of_renumber_le hb (hle hends.2)
  rcases edge_apply.mp hab with ⟨-, hr⟩ | hadd
  · exact hr ((mem_removeEdges h hc).mpr hsame)
  · obtain ⟨_, _, -, ⟨-, hk⟩ | ⟨hk, -⟩⟩ := (mem_addEdges hc).mp hadd <;> omega

/-- The drops keep in step with the DAG exactly where linearisation has nothing to do: what it
takes out of the DAG stays in the drops. -/
theorem inStep_iff (hn : (drops.map DropSpec.oid).Nodup) (hG : buildDagFromDrops drops = .ok G)
    (gid : Int → Option Int) : InStep { G with gid } drops ↔
      ∀ a b, G.graph.Edge a b → G.dropType a ≠ G.dropType b := by
  constructor
  · intro hin a b he ht
    exact sameType_of_inStep hn hG gid hin ⟨he, ht⟩
  · intro hne
    refine inStep_of_none hn hG gid fun a b hs => ?_
    exact hne a b hs.1 hs.2

/-- Of data after data, both the old edge and the way through the new application are in the
drops. -/
theorem chain_outOfStep : ∃ G, buildDagFromDrops chain = .ok G ∧
    ¬ InStep { G with gid := some } chain := by
  refine ⟨_, rfl, fun hin => ?_⟩
  exact sameType_of_inStep (a := 1) (b := 2) (by decide) rfl some hin ⟨by decide, by decide⟩

theorem applied_inStep : ∃ G, buildDagFromDrops applied = .ok G ∧
    InStep { G with gid := some } applied := by
  obtain ⟨G, hG, he, ht⟩ : ∃ G, buildDagFromDrops applied = .ok G ∧ G.graph.edges = [(1, 2)] ∧
      G.dropType 1 ≠ G.dropType 2 := ⟨_, rfl, rfl, by decide⟩
  refine ⟨G, hG, (inStep_iff (by decide) hG some).mpr fun a b hab => ?_⟩
  simp only [Digraph.Edge, he, List.mem_singleton, Prod.mk.injEq] at hab
  obtain ⟨rfl, rfl⟩ := hab
  exact ht

end

end Daliuge.Partition
