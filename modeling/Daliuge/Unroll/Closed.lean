import Daliuge.Unroll.BothEnds

/-!
# Referential closure

The clean-up deletes the drops of Start nodes, Gathers and SubGraph constructs and leaves the
relation lists of the other drops as they are. Gathers are never written into a list; the two
others are, whenever something that is wired joins one of them with a node that stays.
-/
namespace Daliuge.Unroll

/-- Every oid in a relation list of a drop is the oid of a drop. -/
def Template.Closed (tpl : Template) : Prop :=
  ∀ d ∈ tpl.drops, ∀ key, key ≠ .ports → ∀ e ∈ tpl.relations.of d key, ∃ t ∈ tpl.drops,
    t.oid = e.oid

/-- A Start node whose listener becomes a drop of its own. -/
def leavesListener (lg : LG) (n : LGNode) : Bool :=
  isStartListener lg n && !n.isGroup && n.node.isSubGraphApp != some true

/-- A GroupBy that is not a group: the data drop it holds is put nowhere. -/
def straysData (n : LGNode) : Bool :=
  n.isConstruct .groupBy && !n.isGroup && !n.node.isData && !n.node.isApp

/-- What a write may join: for a bridge two nodes that stay, for a relation two that stay or
two placeholders. -/
def Write.Joins (a b : LGNode) : Write → Prop
  | .relate _ => a.isPlaceholder = b.isPlaceholder
  | .bridge _ _ => a.isPlaceholder = false ∧ b.isPlaceholder = false

/-- No Start node leaves a listener behind, no GroupBy strays from its data, and nothing wired
joins a placeholder with a node that stays. -/
def LogicalGraph.NothingDangles (g : LogicalGraph) : Prop :=
  ∀ lg placed xs, g.built = .ok (lg, placed) → plan lg placed = .ok xs →
    (∀ n ∈ g.nodes, dropsOf placed n.id ≠ [] →
      leavesListener lg n = false ∧ straysData n = false) ∧
    ∀ x ∈ xs, ∀ a b, Stands lg placed a x.ends.1 → IsMain lg placed b x.ends.2 → x.Joins a b

section

variable {g : LogicalGraph} {tpl : Template} {lg : LG} {placed : List Placed} {xs : List Write}
  {deleted : List NodeId} {n : LGNode} {c : InstanceId} {part : Part} {p : Placed} {d : Drop}

theorem closed_iff_lists : tpl.Closed ↔ ∀ d ∈ tpl.drops, ∀ key, key ≠ .ports → ∀ oid,
    tpl.relations.Lists d.ident key oid → ∃ t ∈ tpl.drops, t.oid = oid := by
  constructor
  · intro h d hd key hk oid hl
    obtain ⟨e, he, rfl⟩ := (lists_iff_of tpl).mp hl
    exact h d hd key hk e he
  · intro h d hd key hk e he
    exact h d hd key hk e.oid ((lists_iff_of tpl).mpr ⟨e, he, rfl⟩)

/-! What is placed beside what. -/

/-- An instance is known by the ident of its drops. -/
theorem instance_of_ident {n' : LGNode} {c' : InstanceId} {part' : Part} (hc : IsInstance lg n c)
    (hc' : IsInstance lg n' c') (h : d.IsPart lg n c part) (h' : d.IsPart lg n' c' part') :
    n' = n ∧ c' = c ∧ part' = part := by
  have he := h'.ident.symm.trans h.ident
  obtain ⟨hid, rfl, rfl⟩ := Ident.made.inj he
  exact ⟨eq_of_id (mem_nodes_of_started hc'.1) (mem_nodes_of_started hc.1) hid, rfl, rfl⟩

theorem placed_main (hi : instantiate lg = .ok placed) (hp : p ∈ placed) (hc : IsInstance lg n c)
    (h : p.IsPart lg n c .main) : ∃ m : Made, m.From lg n c ∧
      p = { key := n.id, drop := m.drop, grpData := m.grpData, relations := m.relations } ∧
      ∀ d, m.generated n = some d → { key := newAdded, drop := d } ∈ placed := by
  obtain ⟨n', c', hc', m, hm, hpm, hs⟩ := placing_of_mem_placed hi hp
  rcases List.mem_cons.mp hpm with rfl | hpm
  · obtain ⟨rfl, rfl, -⟩ := instance_of_ident hc hc' h.drop hm.main
    exact ⟨m, hm, rfl, fun d hd => hs (by simp [Made.place, hd])⟩
  · cases hg : m.generated n' with
    | none => simp [hg] at hpm
    | some d =>
      obtain rfl : p = { key := newAdded, drop := d } := by simpa [hg] using hpm
      obtain ⟨part, hne, hd⟩ := generated_isPart hm hg
      exact absurd (instance_of_ident hc hc' h.drop hd).2.2 hne

theorem placed_generated (hi : instantiate lg = .ok placed) (hp : p ∈ placed)
    (hc : IsInstance lg n c) (h : p.IsPart lg n c part) (hne : part ≠ .main) :
    ∃ m : Made, m.From lg n c ∧ m.generated n = some p.drop := by
  obtain ⟨n', c', hc', m, hm, hpm, -⟩ := placing_of_mem_placed hi hp
  rcases List.mem_cons.mp hpm with rfl | hpm
  · exact absurd (instance_of_ident hc hc' h.drop hm.main).2.2.symm hne
  · cases hg : m.generated n' with
    | none => simp [hg] at hpm
    | some d =>
      obtain rfl : p = { key := newAdded, drop := d } := by simpa [hg] using hpm
      obtain ⟨part', -, hd⟩ := generated_isPart hm hg
      obtain ⟨rfl, rfl, -⟩ := instance_of_ident hc hc' h.drop hd
      exact ⟨m, hm, hg⟩

/-- A generated drop that is placed: the data of a group, or a listener that is left. -/
theorem generated_cases {m : Made} (hm : m.From lg n c) (h : m.generated n = some d) :
    d.IsPart lg n c .grpData ∧ n.isGroup = true ∨
      d.IsPart lg n c .listener ∧ leavesListener lg n = true := by
  unfold Made.generated at h
  cases hm.beside with
  | nothing hs hn hg hl => simp [hg, hl] at h
  | listener socket name hn hs hg hl =>
    simp only [hg, hl, Option.ite_none_left_eq_some] at h
    obtain ⟨hgroup, hsub, he⟩ := h
    cases he
    exact Or.inr ⟨hs, by simp [leavesListener, hn, hgroup, hsub]⟩
  | grpData data name hn hs hg hl =>
    simp only [hg, hl, ite_self] at h
    split at h
    · rename_i hgroup
      cases h
      exact Or.inl ⟨hs, hgroup⟩
    · simp at h
  | gatherData data name hn hs hg hl => simp [hg, hl] at h

/-! Which oids are still there. -/

theorem mem_oids_iff (hu : Unrolled g tpl lg placed xs deleted) (hd : IsMade lg d) :
    (∃ t ∈ tpl.drops, t.oid = d.oid) ↔ Stays lg placed d.oid := by
  constructor
  · rintro ⟨t, ht, ho⟩
    rcases made_or_bridge hu ht with ⟨-, hs⟩ | ⟨s, t', n, -, rfl, -⟩
    · exact ho ▸ hs
    · exact absurd ho.symm (hd.oid_ne_bridge _ _ _)
  · rintro ⟨p, hp, ho, hk⟩
    exact ⟨p.drop, (mem_drops hu).mpr (Or.inl ⟨p, hp, rfl, hk⟩), ho⟩

/-- The drop of an oid that is still there, in its place. -/
theorem placed_of_stays (hap : lg.graph.TextsApart) (hi : instantiate lg = .ok placed)
    (hc : IsInstance lg n c) (hd : d.IsPart lg n c part) (h : Stays lg placed d.oid) :
    ∃ p ∈ placed, p.IsPart lg n c part ∧ ∀ n ∈ lg.graph.nodes, n.id = p.key →
      n.isPlaceholder = false := by
  obtain ⟨p, hp, ho, hk⟩ := h
  obtain ⟨n', c', part', hc', hpart⟩ := isPart_of_mem_placed hi hp
  obtain ⟨rfl, rfl, rfl⟩ := part_eq_of_oid_eq hap hc' hc hpart.drop hd ho
  exact ⟨p, hp, hpart, hk⟩

theorem stays_main (hap : lg.graph.TextsApart) (hi : instantiate lg = .ok placed)
    (h : IsMain lg placed n d) :
    Stays lg placed d.oid ↔ n.isPlaceholder = false := by
  obtain ⟨p, hp, c, hc, hpart, rfl⟩ := h
  constructor
  · intro hs
    obtain ⟨q, hq, hqp, hk⟩ := placed_of_stays hap hi hc hpart.drop hs
    exact hk n (mem_nodes_of_started hc.1) (hqp.main rfl).1.symm
  · intro hn
    refine ⟨p, hp, rfl, fun m hm ht => ?_⟩
    have he := eq_of_id hm (mem_nodes_of_started hc.1) (ht.trans (hpart.main rfl).1)
    rw [he]
    exact hn

theorem stays_generated (h : { key := newAdded, drop := d } ∈ placed) :
    Stays lg placed d.oid :=
  ⟨_, h, rfl, fun n hn ht => absurd ht (lg.graph.ids_ne_newAdded n hn)⟩

theorem placeholder_groupBy (h : n.isConstruct .groupBy = true) : n.isPlaceholder = false := by
  have hc : n.node.category = .groupBy := by
    simpa [LGNode.isConstruct, Node.isConstruct] using h
  simp [LGNode.isPlaceholder, h, Node.isStartNode, hc]

theorem placeholder_gather (h : n.isConstruct .gather = true) : n.isPlaceholder = true := by
  have hc : n.node.category = .gather := by
    simpa [LGNode.isConstruct, Node.isConstruct] using h
  have hb : n.isConstruct .groupBy = false := by simp [LGNode.isConstruct, Node.isConstruct, hc]
  simp [LGNode.isPlaceholder, h, hb]

/-- The data drop of a GroupBy is there when the GroupBy is a group. -/
theorem stays_grpData (hap : lg.graph.TextsApart) (hi : instantiate lg = .ok placed)
    (hp : p ∈ placed) (hc : IsInstance lg n c) (hpart : p.IsPart lg n c .main)
    (hd : d.IsPart lg n c .grpData) (hg : p.grpData = some d) :
    Stays lg placed d.oid ↔ n.isGroup = true := by
  constructor
  · intro hs
    obtain ⟨q, hq, hqp, -⟩ := placed_of_stays hap hi hc hd hs
    obtain ⟨m, hm, hgen⟩ := placed_generated hi hq hc hqp (by decide)
    rcases generated_cases hm hgen with ⟨-, hgroup⟩ | ⟨hl, -⟩
    · exact hgroup
    · exact absurd (instance_of_ident hc hc hqp.drop hl).2.2 (by decide)
  · intro hgroup
    obtain ⟨m, hm, rfl, hgen⟩ := placed_main hi hp hc hpart
    exact stays_generated (hgen d (by simpa [Made.generated, hgroup] using hg))

/-- A node is read through a drop that stays when the node itself stays. -/
theorem stays_source (hap : lg.graph.TextsApart) (hi : instantiate lg = .ok placed)
    (h : Stands lg placed n d) (hn : straysData n = false) :
    Stays lg placed d.oid ↔ n.isPlaceholder = false := by
  obtain ⟨p, hp, c, hc, hpart, hd⟩ := h
  split at hd
  · rename_i hgb
    obtain ⟨m, hm, hpm, -⟩ := placed_main hi hp hc hpart
    rw [hpm] at hd
    cases hm.beside with
    | nothing hs hn' hg => simp [hg] at hd
    | listener socket name hn' hs hg => simp [hg] at hd
    | gatherData data name hn' hs hg => simp [hg] at hd
    | grpData data name hn' hs hg =>
      obtain rfl : data = d := by simpa [hg] using hd
      have hgroup : n.isGroup = true := by
        simpa [straysData, hn'.1, hn'.2.1, hn'.2.2] using hn
      rw [stays_grpData hap hi hp hc hpart hs (by rw [hpm]; exact hg), hgroup,
        placeholder_groupBy hgb]
      simp
  · exact stays_main hap hi ⟨p, hp, c, hc, hpart, hd⟩

/-! The two directions. -/

section Dangling

variable (hap : g.TextsApart) (hu : Unrolled g tpl lg placed xs deleted)

include hap hu

/-- In a closed template a relation whose source is there has its target there. -/
theorem Template.Closed.target_stays (h : tpl.Closed) {e : Relation} (he : Told lg placed xs e)
    (hs : IsMade lg e.source) (ht : IsMade lg e.target) (hst : Stays lg placed e.source.oid) :
    Stays lg placed e.target.oid := by
  obtain ⟨s, hsm, hso⟩ := (mem_oids_iff hu hs).mpr hst
  refine (mem_oids_iff hu ht).mp (closed_iff_lists.mp h s hsm _ e.kind.ne_ports.1 _ ?_)
  refine (lists_template hu e.kind.ne_ports.1).mpr (Or.inl ⟨e, he, ?_⟩)
  exact tells_forward.mpr ⟨drop_of_oid hap hu hsm hs hso, rfl, rfl⟩

theorem Template.Closed.source_stays (h : tpl.Closed) {e : Relation} (he : Told lg placed xs e)
    (hs : IsMade lg e.source) (ht : IsMade lg e.target) (hst : Stays lg placed e.target.oid) :
    Stays lg placed e.source.oid := by
  obtain ⟨t, htm, hto⟩ := (mem_oids_iff hu ht).mpr hst
  refine (mem_oids_iff hu hs).mp (closed_iff_lists.mp h t htm _ e.kind.ne_ports.2 _ ?_)
  refine (lists_template hu e.kind.ne_ports.2).mpr (Or.inl ⟨e, he, ?_⟩)
  exact tells_backward.mpr ⟨drop_of_oid hap hu htm ht hto, rfl, rfl⟩

theorem Template.Closed.not_strays (h : tpl.Closed) (hn : IsMain lg placed n d) :
    straysData n = false := by
  obtain ⟨p, hp, c, hc, hpart, rfl⟩ := hn
  by_contra hstray
  simp only [straysData, Bool.not_eq_false, Bool.and_eq_true, Bool.not_eq_true'] at hstray
  obtain ⟨⟨⟨hgb, hgroup⟩, hdata⟩, happ⟩ := hstray
  have hcat : n.node.category = .groupBy := by
    simpa [LGNode.isConstruct, Node.isConstruct] using hgb
  obtain ⟨m, hm, hpm, -⟩ := placed_main hu.instantiated hp hc hpart
  cases hm.beside with
  | nothing hs hn => simpa [hdata, happ] using hn hgb
  | listener socket name hl => simp [isStartListener, hcat] at hl
  | gatherData data name hga =>
    simp [LGNode.isConstruct, Node.isConstruct, hcat] at hga
  | grpData data name hn hd hg hl hr =>
    -- its own relation leads to the data drop, which is not there
    have hpd : p.grpData = some data := by rw [hpm]; exact hg
    have hrel : p.relations = Relations.relate [] ⟨.output, p.drop, data, name, name⟩ := by
      rw [hpm]; exact hr
    have htold : Told lg placed xs ⟨.output, p.drop, data, name, name⟩ :=
      Or.inl ⟨p, hp, n, c, .grpData, hc, hpart, rfl, rfl, hd, Or.inl ⟨rfl, hgb, hpd⟩, hrel⟩
    have hmain : IsMain lg placed n p.drop := ⟨p, hp, c, hc, hpart, rfl⟩
    have hstay := h.target_stays hap hu htold hmain.isMade ⟨n, c, .grpData, hc, hd⟩
      ((stays_main (hu.textsApart hap) hu.instantiated hmain).mpr (placeholder_groupBy hgb))
    have := (stays_grpData (hu.textsApart hap) hu.instantiated hp hc hpart hd hpd).mp hstay
    simp [hgroup] at this

theorem Template.Closed.no_listener (h : tpl.Closed) (hn : IsMain lg placed n d) :
    leavesListener lg n = false := by
  obtain ⟨p, hp, c, hc, hpart, rfl⟩ := hn
  by_contra hleaves
  simp only [leavesListener, Bool.not_eq_false, Bool.and_eq_true, Bool.not_eq_true',
    bne_iff_ne] at hleaves
  obtain ⟨⟨hlis, hgroup⟩, hsub⟩ := hleaves
  have hcat : n.node.category = .start := by
    simp only [isStartListener, Bool.and_eq_true, beq_iff_eq] at hlis
    exact hlis.1.2
  obtain ⟨m, hm, hpm, hgen⟩ := placed_main hu.instantiated hp hc hpart
  cases hm.beside with
  | nothing hs => simp [hs] at hlis
  | gatherData data name hga => simp [LGNode.isConstruct, Node.isConstruct, hcat] at hga
  | grpData data name hgb => simp [LGNode.isConstruct, Node.isConstruct, hcat] at hgb
  | listener socket name hl hs hg hml hr =>
    -- the listener is there, the drop it lists is not
    have hplaced := hgen socket (by simp [Made.generated, hgroup, hsub, hml])
    obtain ⟨s, hsm, hso⟩ := (mem_oids_iff hu ⟨n, c, .listener, hc, hs⟩).mpr
      (stays_generated hplaced)
    have hrel : p.relations = Relations.addOutput [] socket p.drop name := by
      rw [hpm]; exact hr
    have hown : OwnListener lg placed socket p.drop :=
      ⟨p, hp, n, c, name, hc, hpart, hl, hs, rfl, hrel⟩
    have hident := drop_of_oid hap hu hsm ⟨n, c, .listener, hc, hs⟩ hso
    have hlist := (lists_template hu (k := .outputs) (by decide)).mpr
      (Or.inr ⟨socket, p.drop, hown, hident, rfl, rfl⟩)
    have hmain : IsMain lg placed n p.drop := ⟨p, hp, c, hc, hpart, rfl⟩
    have hstay := (mem_oids_iff hu hmain.isMade).mp
      (closed_iff_lists.mp h s hsm _ (by decide) _ hlist)
    have hph := (stays_main (hu.textsApart hap) hu.instantiated hmain).mp hstay
    simp [LGNode.isPlaceholder, Node.isStartNode, hcat] at hph

theorem Template.Closed.joins (h : tpl.Closed) {x : Write} (hx : x ∈ xs) {a b : LGNode}
    (ha : Stands lg placed a x.ends.1) (hb : IsMain lg placed b x.ends.2) : x.Joins a b := by
  have hamain : ∃ d, IsMain lg placed a d := by
    obtain ⟨p, hp, c, hc, hpart, -⟩ := ha
    exact ⟨p.drop, p, hp, c, hc, hpart, rfl⟩
  obtain ⟨d, hd⟩ := hamain
  have hsource := stays_source (hu.textsApart hap) hu.instantiated ha (h.not_strays hap hu hd)
  have htarget := stays_main (hu.textsApart hap) hu.instantiated hb
  cases x with
  | relate e =>
    have htold : Told lg placed xs e := Or.inr (relate_mem_expand hx)
    have hiff : a.isPlaceholder = false ↔ b.isPlaceholder = false := by
      rw [← hsource, ← htarget]
      exact ⟨h.target_stays hap hu htold ha.isMade hb.isMade,
        h.source_stays hap hu htold ha.isMade hb.isMade⟩
    exact Bool.eq_iff_iff.mpr (by simpa using not_congr hiff)
  | bridge s t =>
    -- the bridge is there, so both drops it lists are
    obtain ⟨k, hk, hrel⟩ := told_bridge lg placed hx
    have hbridge := (mem_drops hu).mpr (Or.inr hk)
    have hinto := hrel (intoBridge s _) (mem_bridgeRelations.mpr (Or.inl rfl))
    have hout := hrel (outOfBridge _ t) (mem_bridgeRelations.mpr (Or.inr rfl))
    refine ⟨hsource.mp ?_, htarget.mp ?_⟩
    · refine (mem_oids_iff hu ha.isMade).mp (closed_iff_lists.mp h _ hbridge .producers
        (by decide) _ ((lists_template hu (by decide)).mpr (Or.inl ⟨_, hinto, ?_⟩)))
      exact Or.inr ⟨rfl, rfl, rfl⟩
    · refine (mem_oids_iff hu hb.isMade).mp (closed_iff_lists.mp h _ hbridge .streamingConsumers
        (by decide) _ ((lists_template hu (by decide)).mpr (Or.inl ⟨_, hout, ?_⟩)))
      exact Or.inl ⟨rfl, rfl, rfl⟩

section Sufficient

variable (hkept : ∀ n ∈ g.nodes, dropsOf placed n.id ≠ [] →
    leavesListener lg n = false ∧ straysData n = false)
  (hjoins : ∀ x ∈ xs, ∀ a b, Stands lg placed a x.ends.1 → IsMain lg placed b x.ends.2 →
    x.Joins a b)

include hkept

omit hap in
theorem kept_of_isMain (h : IsMain lg placed n d) :
    leavesListener lg n = false ∧ straysData n = false := by
  obtain ⟨p, hp, c, hc, hpart, rfl⟩ := h
  refine hkept n (hu.graph ▸ mem_nodes_of_started hc.1) (List.ne_nil_of_mem (a := p.drop) ?_)
  exact List.mem_map.mpr ⟨p, List.mem_filter.mpr ⟨hp, by simp [(hpart.main rfl).1]⟩, rfl⟩

/-- The relation a drop is made with leads from what is there to what is there. -/
theorem own_closed {e : Relation} (he : OwnRelation lg placed e) (hd : d ∈ tpl.drops) :
    (d.ident = e.source.ident → Stays lg placed e.target.oid) ∧
      (d.ident = e.target.ident → Stays lg placed e.source.oid) := by
  obtain ⟨p, hp, n, c, part, hc, hpart, -, hs, ht, hcase, -⟩ := he
  have hmain : IsMain lg placed n e.source := ⟨p, hp, c, hc, hpart, hs.symm⟩
  rcases hcase with ⟨rfl, hgb, hg⟩ | ⟨rfl, hga⟩
  · have hstands : Stands lg placed n e.target := ⟨p, hp, c, hc, hpart, by simpa [hgb] using hg⟩
    have hph := placeholder_groupBy hgb
    have hstray := (kept_of_isMain hu hkept hmain).2
    exact ⟨fun _ => (stays_source (hu.textsApart hap) hu.instantiated hstands hstray).mpr hph,
      fun _ => (stays_main (hu.textsApart hap) hu.instantiated hmain).mpr hph⟩
  · -- neither the Gather's drop nor its data drop is there
    constructor
    · intro hi
      have hst := (drop_of_ident hu hd hmain.isMade hi).2
      have hph := (stays_main (hu.textsApart hap) hu.instantiated hmain).mp hst
      simp [placeholder_gather hga] at hph
    · intro hi
      have hst := (drop_of_ident hu hd ⟨n, c, .gatherData, hc, ht⟩ hi).2
      obtain ⟨q, hq, hqp, -⟩ := placed_of_stays (hu.textsApart hap) hu.instantiated hc ht hst
      obtain ⟨m, hm, hgen⟩ := placed_generated hu.instantiated hq hc hqp (by decide)
      rcases generated_cases hm hgen with ⟨hl, -⟩ | ⟨hl, -⟩
      · exact absurd (instance_of_ident hc hc hqp.drop hl).2.2 (by decide)
      · exact absurd (instance_of_ident hc hc hqp.drop hl).2.2 (by decide)

include hjoins

theorem told_closed {e : Relation} (he : Told lg placed xs e) (hd : d ∈ tpl.drops) :
    (d.ident = e.source.ident → ∃ t ∈ tpl.drops, t.oid = e.target.oid) ∧
      (d.ident = e.target.ident → ∃ t ∈ tpl.drops, t.oid = e.source.oid) := by
  have main : ∀ {a : LGNode} {s : Drop}, Stands lg placed a s →
      (Stays lg placed s.oid ↔ a.isPlaceholder = false) := by
    intro a s ha
    have ham : ∃ d, IsMain lg placed a d := by
      obtain ⟨p, hp, c, hc, hpart, -⟩ := ha
      exact ⟨p.drop, p, hp, c, hc, hpart, rfl⟩
    obtain ⟨d, hd⟩ := ham
    exact stays_source (hu.textsApart hap) hu.instantiated ha (kept_of_isMain hu hkept hd).2
  rcases he with hown | he
  · have hclosed := own_closed hap hu hkept hown hd
    obtain ⟨p, hp, n, c, part, hc, hpart, -, hs, ht, -⟩ := hown
    have hmade : IsMade lg e.source := ⟨n, c, .main, hc, hs ▸ hpart.drop⟩
    exact ⟨fun hi => (mem_oids_iff hu ⟨n, c, part, hc, ht⟩).mpr (hclosed.1 hi),
      fun hi => (mem_oids_iff hu hmade).mpr (hclosed.2 hi)⟩
  · rcases mem_expand (w := startLedger placed) he with hx | ⟨s, t, k, hx, hb, hrel⟩
    · obtain ⟨⟨a, ha⟩, b, hb⟩ := plan_ends hu.instantiated hu.planned hx
      have hab : a.isPlaceholder = b.isPlaceholder := hjoins _ hx a b ha hb
      have htarget := stays_main (hu.textsApart hap) hu.instantiated hb
      constructor
      · intro hi
        refine (mem_oids_iff hu hb.isMade).mpr (htarget.mpr (hab ▸ (main ha).mp ?_))
        exact (drop_of_ident hu hd ha.isMade hi).2
      · intro hi
        refine (mem_oids_iff hu ha.isMade).mpr ((main ha).mpr (hab ▸ htarget.mp ?_))
        exact (drop_of_ident hu hd hb.isMade hi).2
    · obtain ⟨⟨a, ha⟩, b, hbm⟩ := plan_ends hu.instantiated hu.planned hx
      obtain ⟨hpa, hpb⟩ := hjoins _ hx a b ha hbm
      have hbridge := (mem_drops hu).mpr (Or.inr hb)
      have hs := (mem_oids_iff hu ha.isMade).mpr ((main ha).mpr hpa)
      have ht := (mem_oids_iff hu hbm.isMade).mpr 
        ((stays_main (hu.textsApart hap) hu.instantiated hbm).mpr hpb)
      rcases mem_bridgeRelations.mp hrel with rfl | rfl
      · exact ⟨fun _ => ⟨_, hbridge, rfl⟩, fun _ => hs⟩
      · exact ⟨fun _ => ht, fun _ => ⟨_, hbridge, rfl⟩⟩

theorem closed_of_nothingDangles : tpl.Closed := by
  refine closed_iff_lists.mpr fun d hd key hk oid hl => ?_
  rcases (lists_template hu hk).mp hl with ⟨e, he, ⟨hi, -, rfl⟩ | ⟨hi, -, rfl⟩⟩ |
      ⟨socket, main, ⟨p, hp, n, c, name, hc, hpart, -, hs, rfl, -⟩, hi, -, rfl⟩
  · exact (told_closed hap hu hkept hjoins he hd).1 hi
  · exact (told_closed hap hu hkept hjoins he hd).2 hi
  · -- a listener that is there was left by its node
    have hst := (drop_of_ident hu hd ⟨n, c, .listener, hc, hs⟩ hi).2
    obtain ⟨q, hq, hqp, -⟩ := placed_of_stays (hu.textsApart hap) hu.instantiated hc hs hst
    obtain ⟨m, hm, hgen⟩ := placed_generated hu.instantiated hq hc hqp (by decide)
    rcases generated_cases hm hgen with ⟨hl, -⟩ | ⟨-, hl⟩
    · exact absurd (instance_of_ident hc hc hqp.drop hl).2.2 (by decide)
    · simp [(kept_of_isMain hu hkept ⟨p, hp, c, hc, hpart, rfl⟩).1] at hl

end Sufficient

end Dangling

end

/-- An application that writes to a listening Start node. -/
def listening : LogicalGraph where
  sessionId := "s"
  forest :=
    .cons { id := .int 1, category := .pythonApp, categoryType := .application
            fields := [{ id := "o", name := "out", usage := .outputPort }] } .nil
      (.cons { id := .int 2, category := .start, categoryType := .data
               fields := [{ id := "i", name := "in", usage := .inputPort }]
               keys := [("dropclass", .text "dlg.data.drops.memory.InMemoryDROP")] } .nil .nil)
  links := [{ source := .int 1, target := .int 2, fromPort := some "o", toPort := some "i" }]
  ids_nodup := by decide
  ids_ne_newAdded := by decide

end Daliuge.Unroll
