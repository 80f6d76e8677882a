import Daliuge.Unroll.Ends

/-!
# Both ends of a relation

Every relation is told to its two drops, under their oids. The oid of a drop of a node is its
own; that of a stream bridge need not be, and then one end of a relation can be read on the
other bridge only.
-/
namespace Daliuge.Unroll

/-- Whether a relation list of one drop holds the oid of another. -/
def Template.Names (tpl : Template) (s : Drop) (key : RelationKey) (t : Drop) : Prop :=
  ∃ e ∈ tpl.relations.of s key, e.oid = t.oid

/-- What one end of a relation says, the other end says too. -/
def Template.BothEnds (tpl : Template) : Prop :=
  ∀ s ∈ tpl.drops, ∀ t ∈ tpl.drops,
    (tpl.Names s .consumers t ↔ tpl.Names t .inputs s) ∧
    (tpl.Names s .outputs t ↔ tpl.Names t .producers s) ∧
    (tpl.Names s .streamingConsumers t ↔ tpl.Names t .streamingInputs s)

/-- Bridges of the same oid are between the same drops, as far as these drops stay. -/
def LogicalGraph.BridgesDistinct (g : LogicalGraph) : Prop :=
  ∀ lg placed xs, g.built = .ok (lg, placed) → plan lg placed = .ok xs →
    ∀ s t s' t', .bridge s t ∈ xs → .bridge s' t' ∈ xs →
      bridgeOid g.sessionId s.oid t.oid = bridgeOid g.sessionId s'.oid t'.oid →
      (Stays lg placed s.oid → s.oid = s'.oid) ∧ (Stays lg placed t.oid → t.oid = t'.oid)

section

variable {g : LogicalGraph} {tpl : Template} {lg : LG} {placed : List Placed} {xs : List Write}
  {deleted : List NodeId} {a b : Drop} {kind : Kind}

theorem lists_iff_of (tpl : Template) {key : RelationKey} {oid : String} :
    tpl.relations.Lists a.ident key oid ↔ ∃ e ∈ tpl.relations.of a key, e.oid = oid := by
  constructor
  · rintro ⟨e, he, ho⟩
    exact ⟨e, List.mem_map.mpr ⟨_, List.mem_filter.mpr ⟨he, by simp⟩, rfl⟩, ho⟩
  · rintro ⟨e, he, ho⟩
    obtain ⟨⟨i, key', e'⟩, hf, rfl⟩ := List.mem_map.mp he
    obtain ⟨hx, hk⟩ := List.mem_filter.mp hf
    simp only [Bool.and_eq_true, beq_iff_eq] at hk
    exact ⟨e', hk.1 ▸ hk.2 ▸ hx, ho⟩

theorem names_iff {key : RelationKey} :
    tpl.Names a key b ↔ tpl.relations.Lists a.ident key b.oid := (lists_iff_of tpl).symm

theorem bothEnds_iff : tpl.BothEnds ↔ ∀ s ∈ tpl.drops, ∀ t ∈ tpl.drops, ∀ kind : Kind,
    (tpl.relations.Lists s.ident kind.forward t.oid ↔
      tpl.relations.Lists t.ident kind.backward s.oid) := by
  constructor
  · intro h s hs t ht kind
    obtain ⟨hc, ho, hst⟩ := h s hs t ht
    simp only [names_iff] at hc ho hst
    cases kind with
    | output => exact ho
    | consumer => exact hc
    | streaming => exact hst
  · intro h s hs t ht
    simp only [names_iff]
    exact ⟨h s hs t ht .consumer, h s hs t ht .output, h s hs t ht .streaming⟩

theorem Kind.forward_ne_backward (k k' : Kind) : k.forward ≠ k'.backward := by
  cases k <;> cases k' <;> decide

theorem Kind.forward_inj {k k' : Kind} (h : k.forward = k'.forward) : k = k' := by
  cases k <;> cases k' <;> first | rfl | simp [Kind.forward] at h

theorem Kind.backward_inj {k k' : Kind} (h : k.backward = k'.backward) : k = k' := by
  cases k <;> cases k' <;> first | rfl | simp [Kind.backward] at h

theorem Kind.ne_ports (k : Kind) : k.forward ≠ .ports ∧ k.backward ≠ .ports := by
  cases k <;> decide

theorem tells_forward {e : Relation} {i : Ident} {oid : String} :
    e.Tells i kind.forward oid ↔ i = e.source.ident ∧ kind = e.kind ∧ oid = e.target.oid := by
  constructor
  · rintro (⟨hi, hk, ho⟩ | ⟨-, hk, -⟩)
    · exact ⟨hi, Kind.forward_inj hk, ho⟩
    · exact absurd hk (Kind.forward_ne_backward _ _)
  · rintro ⟨hi, rfl, ho⟩
    exact Or.inl ⟨hi, rfl, ho⟩

theorem tells_backward {e : Relation} {i : Ident} {oid : String} :
    e.Tells i kind.backward oid ↔ i = e.target.ident ∧ kind = e.kind ∧ oid = e.source.oid := by
  constructor
  · rintro (⟨-, hk, -⟩ | ⟨hi, hk, ho⟩)
    · exact absurd hk.symm (Kind.forward_ne_backward _ _)
    · exact ⟨hi, Kind.backward_inj hk, ho⟩
  · rintro ⟨hi, rfl, ho⟩
    exact Or.inr ⟨hi, rfl, ho⟩

/-- Without Start nodes there are no listeners. -/
theorem not_ownListener (hn : ∀ n ∈ g.nodes, n.node.isStartNode = false) (hg : lg.graph = g)
    {socket main : Drop} : ¬ OwnListener lg placed socket main := by
  rintro ⟨p, -, n, c, name, hc, -, hl, -⟩
  have hs := hn n (hg ▸ mem_nodes_of_started hc.1)
  simp only [Node.isStartNode] at hs
  simp [isStartListener, hs] at hl

theorem lists_kind (hu : Unrolled g tpl lg placed xs deleted)
    (hn : ∀ n ∈ g.nodes, n.node.isStartNode = false) {i : Ident} {oid : String} :
    (tpl.relations.Lists i kind.forward oid ↔ ∃ e, Told lg placed xs e ∧
      i = e.source.ident ∧ kind = e.kind ∧ oid = e.target.oid) ∧
    (tpl.relations.Lists i kind.backward oid ↔ ∃ e, Told lg placed xs e ∧
      i = e.target.ident ∧ kind = e.kind ∧ oid = e.source.oid) := by
  obtain ⟨hf, hb⟩ := kind.ne_ports
  rw [lists_template hu hf, lists_template hu hb]
  simp only [tells_forward, tells_backward, not_ownListener hn hu.graph, false_and, exists_false,
    or_false, and_self]

/-- A drop of a template is one of a node that stays, or a bridge. -/
theorem made_or_bridge (hu : Unrolled g tpl lg placed xs deleted) (h : a ∈ tpl.drops) :
    IsMade lg a ∧ Stays lg placed a.oid ∨ ∃ s t n, .bridge s t ∈ xs ∧
      a = bridgeDrop lg.graph.sessionId s t n ∧
        ∀ e ∈ bridgeRelations s t a, Told lg placed xs e := by
  rcases (mem_drops hu).mp h with ⟨p, hp, rfl, hk⟩ | hb
  · obtain ⟨n, c, part, hc, hpart⟩ := isPart_of_mem_placed hu.instantiated hp
    exact Or.inl ⟨⟨n, c, part, hc, hpart.drop⟩, p, hp, rfl, hk⟩
  · exact Or.inr (mem_bridges_final hb)

/-- The relations of the bridge between two drops. -/
theorem told_bridge (lg : LG) (placed : List Placed) (h : .bridge a b ∈ xs) : ∃ n,
    bridgeDrop lg.graph.sessionId a b n ∈ (finalLedger lg placed xs).bridges ∧
      ∀ e ∈ bridgeRelations a b (bridgeDrop lg.graph.sessionId a b n), Told lg placed xs e := by
  obtain ⟨n, hn, hs⟩ := exists_bridge (w := startLedger placed) h
  exact ⟨n, hn, fun e he => Or.inr (hs he)⟩

/-! Finding the drop of a template that is meant. -/

theorem drop_of_ident (hu : Unrolled g tpl lg placed xs deleted) (h : a ∈ tpl.drops)
    (hb : IsMade lg b) (hi : a.ident = b.ident) : a.oid = b.oid ∧ Stays lg placed b.oid := by
  rcases made_or_bridge hu h with ⟨hm, hs⟩ | ⟨s, t, n, -, rfl, -⟩
  · have ho := hm.oid_eq hb hi
    exact ⟨ho, ho ▸ hs⟩
  · obtain ⟨m, c, part, -, hpart⟩ := hb
    simp [hpart.ident, bridgeDrop] at hi

theorem Unrolled.textsApart (hu : Unrolled g tpl lg placed xs deleted) (hx : g.TextsApart) :
    lg.graph.TextsApart := hu.graph ▸ hx

theorem drop_of_oid (hx : g.TextsApart) (hu : Unrolled g tpl lg placed xs deleted)
    (h : a ∈ tpl.drops) (hb : IsMade lg b) (ho : a.oid = b.oid) : a.ident = b.ident := by
  rcases made_or_bridge hu h with ⟨hm, -⟩ | ⟨s, t, n, -, rfl, -⟩
  · exact hm.ident_eq (hu.textsApart hx) hb ho
  · exact absurd ho.symm (hb.oid_ne_bridge _ _ _)

theorem bridge_of_ident (hu : Unrolled g tpl lg placed xs deleted) (h : a ∈ tpl.drops)
    {s t : Drop} {n : Nat} (hi : a.ident = (bridgeDrop lg.graph.sessionId s t n).ident) :
    a.oid = (bridgeDrop lg.graph.sessionId s t n).oid := by
  rcases made_or_bridge hu h with ⟨⟨m, c, part, -, hpart⟩, -⟩ | ⟨s', t', n', -, rfl, -⟩
  · simp [hpart.ident, bridgeDrop] at hi
  · obtain ⟨hs, ht, -⟩ := Ident.bridge.inj hi
    simp [bridgeDrop, hs, ht]

theorem bridge_of_oid (hu : Unrolled g tpl lg placed xs deleted) (h : a ∈ tpl.drops)
    {s t : Drop} {n : Nat} (ho : a.oid = (bridgeDrop lg.graph.sessionId s t n).oid) :
    ∃ s' t' n', .bridge s' t' ∈ xs ∧ a = bridgeDrop lg.graph.sessionId s' t' n' ∧
      ∀ e ∈ bridgeRelations s' t' a, Told lg placed xs e := by
  rcases made_or_bridge hu h with ⟨hm, -⟩ | hb
  · exact absurd ho (hm.oid_ne_bridge _ _ _)
  · exact hb

/-- A relation told to a bridge is one of its own two. -/
theorem source_of_bridge (hu : Unrolled g tpl lg placed xs deleted) {s t : Drop} {n : Nat}
    {e : Relation}
    (he : Told lg placed xs e) (hi : (bridgeDrop lg.graph.sessionId s t n).ident = e.target.ident) :
    e.source.oid = s.oid := by
  rcases told_cases hu he with ⟨-, m, c, part, -, hpart⟩ | ⟨s', t', n', -, -, ht, -, hrel⟩
  · simp [hpart.ident, bridgeDrop] at hi
  · rcases mem_bridgeRelations.mp hrel with rfl | rfl
    · exact (Ident.bridge.inj hi).1.symm
    · obtain ⟨m, c, part, -, hpart⟩ := ht
      simp [outOfBridge, hpart.ident, bridgeDrop] at hi

theorem target_of_bridge (hu : Unrolled g tpl lg placed xs deleted) {s t : Drop} {n : Nat}
    {e : Relation}
    (he : Told lg placed xs e) (hi : (bridgeDrop lg.graph.sessionId s t n).ident = e.source.ident) :
    e.target.oid = t.oid := by
  rcases told_cases hu he with ⟨⟨m, c, part, -, hpart⟩, -⟩ | ⟨s', t', n', -, hs, -, -, hrel⟩
  · simp [hpart.ident, bridgeDrop] at hi
  · rcases mem_bridgeRelations.mp hrel with rfl | rfl
    · obtain ⟨m, c, part, -, hpart⟩ := hs
      simp [intoBridge, hpart.ident, bridgeDrop] at hi
    · exact (Ident.bridge.inj hi).2.1.symm

section Distinct

variable (hx : g.TextsApart) (hu : Unrolled g tpl lg placed xs deleted)
  (hb : g.built = .ok (lg, placed)) (hn : ∀ n ∈ g.nodes, n.node.isStartNode = false)

include hx hu hb hn

theorem backward_of_distinct (hd : g.BridgesDistinct) (ha : a ∈ tpl.drops) (hbt : b ∈ tpl.drops)
    (h : tpl.relations.Lists a.ident kind.forward b.oid) :
    tpl.relations.Lists b.ident kind.backward a.oid := by
  obtain ⟨e, he, hae, rfl, hbe⟩ := (lists_kind hu hn).1.mp h
  refine (lists_kind hu hn).2.mpr ?_
  rcases told_cases hu he with ⟨hs, ht⟩ | ⟨s, t, n, hm, hs, ht, -, hrel⟩
  · exact ⟨e, he, drop_of_oid hx hu hbt ht hbe, rfl, (drop_of_ident hu ha hs hae).1⟩
  · rcases mem_bridgeRelations.mp hrel with rfl | rfl
    · -- into a bridge: another one of the same oid has the same source
      obtain ⟨hao, hst⟩ := drop_of_ident hu ha hs hae
      obtain ⟨s', t', n', hm', rfl, hrel⟩ := bridge_of_oid hu hbt hbe
      have hso := (hd lg placed xs hb hu.planned s t s' t' hm hm' (hu.graph ▸ hbe.symm)).1 hst
      have hinto := hrel (intoBridge s' _) (mem_bridgeRelations.mpr (Or.inl rfl))
      exact ⟨_, hinto, rfl, rfl, hao.trans hso⟩
    · exact ⟨_, he, drop_of_oid hx hu hbt ht hbe, rfl, bridge_of_ident hu ha hae⟩

theorem forward_of_distinct (hd : g.BridgesDistinct) (ha : a ∈ tpl.drops) (hbt : b ∈ tpl.drops)
    (h : tpl.relations.Lists b.ident kind.backward a.oid) :
    tpl.relations.Lists a.ident kind.forward b.oid := by
  obtain ⟨e, he, hbe, rfl, hae⟩ := (lists_kind hu hn).2.mp h
  refine (lists_kind hu hn).1.mpr ?_
  rcases told_cases hu he with ⟨hs, ht⟩ | ⟨s, t, n, hm, hs, ht, -, hrel⟩
  · exact ⟨e, he, drop_of_oid hx hu ha hs hae, rfl, (drop_of_ident hu hbt ht hbe).1⟩
  · rcases mem_bridgeRelations.mp hrel with rfl | rfl
    · exact ⟨_, he, drop_of_oid hx hu ha hs hae, rfl, bridge_of_ident hu hbt hbe⟩
    · -- out of a bridge: another one of the same oid has the same target
      obtain ⟨hbo, hst⟩ := drop_of_ident hu hbt ht hbe
      obtain ⟨s', t', n', hm', rfl, hrel⟩ := bridge_of_oid hu ha hae
      have hto := (hd lg placed xs hb hu.planned s t s' t' hm hm' (hu.graph ▸ hae.symm)).2 hst
      have hout := hrel (outOfBridge _ t') (mem_bridgeRelations.mpr (Or.inr rfl))
      exact ⟨_, hout, rfl, rfl, hbo.trans hto⟩

theorem distinct_of_bothEnds (h : tpl.BothEnds) : g.BridgesDistinct := by
  intro lg' placed' xs' hb' hp' s t s' t' hm hm' ho
  obtain ⟨rfl, rfl⟩ : lg' = lg ∧ placed' = placed := by
    rw [hb] at hb'
    cases hb'
    exact ⟨rfl, rfl⟩
  obtain rfl : xs' = xs := by
    have := hp'.symm.trans hu.planned
    cases this
    rfl
  rw [bothEnds_iff] at h
  obtain ⟨n, -, hrel⟩ := told_bridge lg' placed' hm
  obtain ⟨n', hbm', -⟩ := told_bridge lg' placed' hm'
  have hbridge := (mem_drops hu).mpr (Or.inr hbm')
  obtain ⟨⟨ns, hs⟩, nt, ht⟩ := plan_ends hu.instantiated hp' hm
  rw [← hu.graph] at ho
  constructor
  · -- the other bridge is listed by the source, so it has to list the source
    rintro ⟨p, hp, hpo, hk⟩
    have hpt := (mem_drops hu).mpr (Or.inl ⟨p, hp, rfl, hk⟩)
    have hpi := drop_of_oid hx hu hpt hs.isMade hpo
    have hl := (h _ hpt _ hbridge .output).mp ((lists_kind hu hn).1.mpr
      ⟨_, hrel (intoBridge s _) (mem_bridgeRelations.mpr (Or.inl rfl)), hpi, rfl, ho.symm⟩)
    obtain ⟨e, he, hi, -, hso⟩ := (lists_kind hu hn).2.mp hl
    rw [← hpo, hso]
    exact source_of_bridge hu he hi
  · rintro ⟨p, hp, hpo, hk⟩
    have hpt := (mem_drops hu).mpr (Or.inl ⟨p, hp, rfl, hk⟩)
    have hpi := drop_of_oid hx hu hpt ht.isMade hpo
    have hl := (h _ hbridge _ hpt .streaming).mpr ((lists_kind hu hn).2.mpr
      ⟨_, hrel (outOfBridge _ t) (mem_bridgeRelations.mpr (Or.inr rfl)), hpi, rfl, ho.symm⟩)
    obtain ⟨e, he, hi, -, hto⟩ := (lists_kind hu hn).1.mp hl
    rw [← hpo, hto]
    exact target_of_bridge hu he hi

end Distinct

end

instance {tpl : Template} {s t : Drop} {key : RelationKey} : Decidable (tpl.Names s key t) :=
  inferInstanceAs (Decidable (∃ e ∈ tpl.relations.of s key, e.oid = t.oid))

instance {tpl : Template} : Decidable tpl.BothEnds :=
  inferInstanceAs (Decidable (∀ s ∈ tpl.drops, ∀ t ∈ tpl.drops, _ ∧ _ ∧ _))

/-- One application that streams to two others. -/
def streams (sessionId : String) : LogicalGraph where
  sessionId := sessionId
  forest :=
    .cons { id := .int 5, category := .pythonApp, categoryType := .pythonApp } .nil
      (.cons { id := .int 2, category := .pythonApp, categoryType := .pythonApp } .nil
        (.cons { id := .int 21, category := .pythonApp, categoryType := .pythonApp } .nil .nil))
  links := [{ source := .int 5, target := .int 2 }, { source := .int 5, target := .int 21 }]
  ids_nodup := by decide
  ids_ne_newAdded := by decide

end Daliuge.Unroll
