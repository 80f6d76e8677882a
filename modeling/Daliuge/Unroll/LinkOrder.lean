import Daliuge.Lib.Association
import Daliuge.Unroll.Admission
import Daliuge.Unroll.WriteOrder

/-!
# The order of the links

Whether the order of `linkDataArray` shows in the physical graph template. It does where a link
leaves a Gather, which has to have an input by then, where a Gather or a GroupBy says something
else with another first input, and where two links meet in a relation list, a port map or a splice
that keeps the first or the last of them.
-/
namespace Daliuge.Unroll

open Collect

/-- The relation a link leaves, unless it is a stream between applications, with its names. -/
def linkNames (s t : Node) (lk : Link) : Kind × Option String × Option String :=
  if s.wiredType = .application ∨ s.wiredType = .control then
    (.output, lk.fromPort.bind fun p => (s.portNames .outputPort).lookup p,
      lk.toPort.bind fun p => (t.portNames .inputPort).lookup p)
  else (if lk.isStream then .streaming else .consumer, s.portName .outputPort lk.fromPort,
    t.portName .inputPort lk.toPort)

/-- Two links that leave the same relation both name their ports, or both do not. -/
def SameNaming (a b : Kind × Option String × Option String) : Prop :=
  a.1 = b.1 → isPlain a.2.1 = isPlain b.2.1 ∧ isPlain a.2.2 = isPlain b.2.2

/-- Two links that set the same port of a drop set it to the same. -/
def SamePort (a b : Kind × Option String × Option String) : Prop :=
  a.1 = .output → b.1 = .output → a.2.2.getD "" = b.2.2.getD "" → a.2.1.getD "" = b.2.1.getD ""

section Writes

variable {lg : LG} {placed : List Placed} {s t s' t' n m : LGNode} {src tgt d d' : Drop}
  {lk lk' : Link} {x y : Write} {sid : String}

theorem namedPort_ok {names : List (String × String)} {port : Option String} {name : String}
    (h : namedPort names port = .ok name) : (port.bind fun p => names.lookup p) = some name := by
  unfold namedPort at h
  split at h
  · rename_i hn
    exact hn.trans (congrArg some (Except.ok.inj h))
  · simp at h

/-- What a link writes: a bridge, or the relation it names. -/
theorem linkWrite_cases (h : linkWrite placed s t src tgt lk = .ok x) :
    (∃ a b, x = .bridge a b) ∨ ∃ e, x = .relate e ∧
      isStreamLink s.node.wiredType t.node.wiredType = false ∧
      (e.kind, e.sourceName, e.targetName) = linkNames s.node t.node lk := by
  obtain ⟨sdrop, -, h⟩ := bind_ok.mp h
  cases sdrop with
  | none => simp at h
  | some sdrop =>
    simp only at h
    split at h
    · exact Or.inl ⟨_, _, (pure_ok.mp h).symm⟩
    rename_i hstream
    refine Or.inr ?_
    split at h
    · rename_i htype
      obtain ⟨output, ho, h⟩ := bind_ok.mp h
      obtain ⟨input, hi, h⟩ := bind_ok.mp h
      refine ⟨_, (pure_ok.mp h).symm, by simpa using hstream, ?_⟩
      rw [linkNames, if_pos htype, namedPort_ok ho, namedPort_ok hi]
    split at h
    · simp at h
    · rename_i htype _
      refine ⟨_, (pure_ok.mp h).symm, by simpa using hstream, ?_⟩
      rw [linkNames, if_neg htype]

/-- The drop that stands for a node is told by its oid. -/
theorem stands_eq (hap : lg.graph.TextsApart) (hi : instantiate lg = .ok placed)
    (h : Stands lg placed n d) (h' : Stands lg placed m d') (ho : d.oid = d'.oid) :
    n = m ∧ d = d' := by
  obtain ⟨p, hp, c, part, hc, hpart, hd, hstand⟩ := h.exists_part
  obtain ⟨p', hp', c', part', hc', hpart', hd', hstand'⟩ := h'.exists_part
  obtain ⟨rfl, rfl, rfl⟩ := part_eq_of_oid_eq hap hc hc' hd hd' ho
  have hpp : p.drop.oid = p'.drop.oid := by rw [hpart.drop.oid, hpart'.drop.oid]
  obtain rfl : p = p' := List.inj_on_of_nodup_map (nodup_oids hap hi) hp hp' hpp
  refine ⟨rfl, ?_⟩
  split at hstand
  · rename_i hg
    rw [if_pos hg, hstand] at hstand'
    exact Option.some.inj hstand'
  · rename_i hg
    rw [if_neg hg, hstand] at hstand'
    exact hstand'

theorem isMain_eq (hap : lg.graph.TextsApart) (hi : instantiate lg = .ok placed)
    (h : IsMain lg placed n d) (h' : IsMain lg placed m d') (ho : d.oid = d'.oid) :
    n = m ∧ d = d' := by
  obtain ⟨p, hp, c, hc, hpart, rfl⟩ := h
  obtain ⟨p', hp', c', hc', hpart', rfl⟩ := h'
  obtain ⟨rfl, rfl, -⟩ := part_eq_of_oid_eq hap hc hc' hpart.drop hpart'.drop ho
  obtain rfl : p = p' := List.inj_on_of_nodup_map (nodup_oids hap hi) hp hp' ho
  exact ⟨rfl, rfl⟩

/-- What a bridge adds, to its own lists or under its own oid. -/
theorem bridge_additions {a b : Drop} {k : Nat} {c : Addition}
    (h : c ∈ (Write.bridge a b).additions sid k) :
    c.owner.isBridge = true ∨ c.oid = bridgeOid sid a.oid b.oid := by
  rw [bridge_additions_eq] at h
  simp only [List.mem_cons, List.not_mem_nil, or_false] at h
  rcases h with rfl | rfl | rfl | rfl <;> simp [Ident.isBridge]

/-- What a relation adds: at the source, or at the target. -/
theorem relate_additions {e : Relation} {k : Nat} {c : Addition}
    (h : c ∈ (Write.relate e).additions sid k) :
    c = ⟨e.source.ident, e.kind.forward, e.target.oid, e.sourceName, false⟩ ∨
      c = ⟨e.target.ident, e.kind.backward, e.source.oid, e.targetName, true⟩ := by
  simpa [Write.additions, Write.relations, Relation.additions] using h

theorem forward_inj {k k' : Kind} (h : k.forward = k'.forward) : k = k' := by
  cases k <;> cases k' <;> simp_all [Kind.forward]

theorem backward_inj {k k' : Kind} (h : k.backward = k'.backward) : k = k' := by
  cases k <;> cases k' <;> simp_all [Kind.backward]

theorem forward_ne_backward {k k' : Kind} : k.forward ≠ k'.backward := by
  cases k <;> cases k' <;> simp [Kind.forward, Kind.backward]

theorem IsMade.not_bridge (h : IsMade lg d) : d.ident.isBridge = false := by
  obtain ⟨n, c, part, -, hd⟩ := h
  rw [hd.ident]
  rfl

/-- Bridges and relations never meet in a list. -/
theorem bridge_compatible {a b : Drop} {e : Relation} (hs : IsMade lg e.source)
    (ht : IsMade lg e.target) : (Write.bridge a b).Compatible sid (.relate e) where
  additions k l c hc c' hc' ho hk hid := by
    rcases relate_additions hc' with rfl | rfl
    · rcases bridge_additions hc with hb | hb
      · simp [ho, hs.not_bridge] at hb
      · exact absurd (hid.symm.trans hb) (ht.oid_ne_bridge _ _ _)
    · rcases bridge_additions hc with hb | hb
      · simp [ho, ht.not_bridge] at hb
      · exact absurd (hid.symm.trans hb) (hs.oid_ne_bridge _ _ _)
  ports p q hp := by simp [Write.port] at hp

theorem bridges_compatible {a b a' b' : Drop} :
    (Write.bridge a b).Compatible sid (.bridge a' b') where
  additions k l c hc c' hc' _ _ _ := by rw [isPlain_bridge hc, isPlain_bridge hc']
  ports p q hp := by simp [Write.port] at hp

def Relation.names (e : Relation) : Kind × Option String × Option String :=
  (e.kind, e.sourceName, e.targetName)

theorem relations_compatible {e e' : Relation}
    (hn : e.source.oid = e'.source.oid → e.target.oid = e'.target.oid → SameNaming e.names e'.names)
    (hp : e.target.oid = e'.target.oid → SamePort e.names e'.names)
    (hs : e.source.ident = e'.source.ident → e.source.oid = e'.source.oid)
    (ht : e.target.ident = e'.target.ident → e.target.oid = e'.target.oid) :
    (Write.relate e).Compatible sid (.relate e') where
  additions k l c hc c' hc' ho hk hid := by
    rcases relate_additions hc with rfl | rfl <;> rcases relate_additions hc' with rfl | rfl
    · exact (hn (hs ho) hid (forward_inj hk)).1
    · exact absurd hk forward_ne_backward
    · exact absurd hk.symm forward_ne_backward
    · exact (hn hid (ht ho) (backward_inj hk)).2
  ports p q hx hy h₁ h₂ := by
    obtain ⟨kind, s, t, sname, tname⟩ := e
    obtain ⟨kind', s', t', sname', tname'⟩ := e'
    cases kind <;> cases kind' <;> simp only [Write.port, reduceCtorEq] at hx hy
    obtain rfl := Option.some.inj hx
    obtain rfl := Option.some.inj hy
    have ho : sname.getD "" = sname'.getD "" := hp (ht h₁) rfl rfl h₂
    simp only at h₁ h₂
    rw [h₁, h₂, ho]

end Writes

/-- The two nodes a link relates, unless it is a stream between applications. -/
def LogicalGraph.related (g : LogicalGraph) (lk : Link) : Option (LGNode × LGNode) :=
  match g.node lk.source, g.node lk.target with
  | .ok s, .ok t =>
    if isStreamLink s.node.wiredType t.node.wiredType then none else some (s, t)
  | _, _ => none

/-- The links with their stamps. -/
def LogicalGraph.stampedLinks (g : LogicalGraph) : List Link :=
  g.links.map (Link.stamped (streamOutputPorts g.nodes))

/-- What any two links write can be exchanged. -/
def WritesApart (lg : LG) (placed : List Placed) : Prop :=
  ∀ a ∈ lg.graph.stampedLinks, ∀ b ∈ lg.graph.stampedLinks, ∀ as bs,
    linkActions lg placed a = .ok as → linkActions lg placed b = .ok bs →
      ∀ x y, .write x ∈ as → .write y ∈ bs → x.Compatible lg.graph.sessionId y

/-- Where a Gather drop hands its inputs on, all links that bring it some are streams or none. -/
def StreamsAlike (lg : LG) (placed : List Placed) : Prop :=
  ∀ a ∈ lg.graph.stampedLinks, ∀ b ∈ lg.graph.stampedLinks, ∀ as bs,
    linkActions lg placed a = .ok as → linkActions lg placed b = .ok bs →
      ∀ oid s t d e, .gatherInput oid s d ∈ as → .gatherInput oid t e ∈ bs →
        (∃ lk ∈ lg.links, ∃ cs, linkActions lg placed lk = .ok cs ∧
          ∃ target l, .gatherOutput oid target l ∈ cs) → s.link.isStream = t.link.isStream

/-- Nothing that comes out depends on what is seen first or last. -/
structure OrderFree (g : LogicalGraph) : Prop where
  gathersLast : ∀ lk ∈ g.links, g.leavesGather lk = false
  settled : Settled g
  writes : ∀ lg placed, g.built = .ok (lg, placed) → WritesApart lg placed
  streams : ∀ lg placed, g.built = .ok (lg, placed) → StreamsAlike lg placed

/-- Whether two links may meet, as their nodes and ports tell. -/
structure NamesApart (g : LogicalGraph) : Prop where
  texts : g.TextsApart
  names : ∀ a ∈ g.stampedLinks, ∀ b ∈ g.stampedLinks, ∀ p ∈ g.related a, ∀ q ∈ g.related b,
    p = q → SameNaming (linkNames p.1.node p.2.node a) (linkNames q.1.node q.2.node b)
  ports : ∀ a ∈ g.stampedLinks, ∀ b ∈ g.stampedLinks, ∀ p ∈ g.related a, ∀ q ∈ g.related b,
    p.2 = q.2 → SamePort (linkNames p.1.node p.2.node a) (linkNames q.1.node q.2.node b)

/-! What the links come to. -/

section Actions

variable {lg : LG} {placed : List Placed} {lk lk' : Link} {as as' : List Action} {a : Action}
  {x y : Write}

/-- A link that does not leave a Gather writes something, or holds an input back. -/
theorem linkActions_cases (hi : instantiate lg = .ok placed)
    (hout : lg.graph.leavesGather lk = false) (h : linkActions lg placed lk = .ok as)
    (ha : a ∈ as) :
    ∃ s t src tgt, lg.graph.node lk.source = .ok s ∧ lg.graph.node lk.target = .ok t ∧
      IsMain lg placed s src ∧ IsMain lg placed t tgt ∧
      ((∃ x, a = .write x ∧ linkWrite placed s t src tgt lk = .ok x) ∨
        t.isConstruct .gather = true ∧ ∃ source data, source.link = lk ∧
          a = .gatherInput tgt.oid source data) := by
  obtain ⟨s, hs, h⟩ := bind_ok.mp h
  obtain ⟨t, ht, h⟩ := bind_ok.mp h
  have hgather := not_gather_of_node hout hs
  rw [if_neg (by simp [isSequential, hgather])] at h
  obtain ⟨edges, hedges, h⟩ := bind_ok.mp h
  obtain ⟨e, he, as', has, ha⟩ := exists_of_mem_collect h ha
  obtain ⟨a', ha', has⟩ := bind_ok.mp has
  obtain rfl := pure_ok.mp has
  obtain rfl := List.mem_singleton.mp ha
  obtain ⟨h₁, h₂⟩ := resolveEdges_within hedges e he
  refine ⟨s, t, e.1, e.2, hs, ht, isMain_of_mem_dropsOf hi (mem_nodes_of_node hs).1 h₁,
    isMain_of_mem_dropsOf hi (mem_nodes_of_node ht).1 h₂, ?_⟩
  unfold edgeAction at ha'
  split at ha'
  · rename_i hg
    refine Or.inr ⟨hg, ?_⟩
    cases hd : sourceDrop placed s e.1 with
    | error err => simp [hd, Except.map] at ha'
    | ok data =>
      rw [hd] at ha'
      exact ⟨_, _, rfl, (Except.ok.inj ha').symm⟩
  · rw [if_neg (by simp [hgather])] at ha'
    refine Or.inl ?_
    cases hx : linkWrite placed s t e.1 e.2 lk with
    | error err => simp [hx, Except.map] at ha'
    | ok x =>
      rw [hx] at ha'
      exact ⟨x, (Except.ok.inj ha').symm, rfl⟩

theorem leavesGather_stamped (ho : ∀ lk ∈ lg.graph.links, lg.graph.leavesGather lk = false)
    (h : lk ∈ lg.graph.stampedLinks) : lg.graph.leavesGather lk = false := by
  obtain ⟨l, hl, rfl⟩ := List.mem_map.mp h
  exact ho l hl

/-- Links that do not meet as far as their nodes and ports tell do not meet. -/
theorem NamesApart.writesApart (hn : NamesApart lg.graph)
    (ho : ∀ lk ∈ lg.graph.links, lg.graph.leavesGather lk = false)
    (hi : instantiate lg = .ok placed) : WritesApart lg placed := by
  intro lk hlk lk' hlk' as as' h h' x y hx hy
  obtain ⟨s, t, src, tgt, hs, ht, hsrc, htgt, hw⟩ :=
    linkActions_cases hi (leavesGather_stamped ho hlk) h hx
  obtain ⟨s', t', src', tgt', hs', ht', hsrc', htgt', hw'⟩ :=
    linkActions_cases hi (leavesGather_stamped ho hlk') h' hy
  obtain ⟨x, hxe, hwx⟩ : ∃ x', Action.write x = .write x' ∧ _ := by simpa using hw
  obtain ⟨y, hye, hwy⟩ : ∃ y', Action.write y = .write y' ∧ _ := by simpa using hw'
  obtain rfl := Action.write.inj hxe
  obtain rfl := Action.write.inj hye
  obtain ⟨hst, hend⟩ := linkWrite_ends hi hsrc hwx
  obtain ⟨hst', hend'⟩ := linkWrite_ends hi hsrc' hwy
  rw [← hend] at htgt
  rw [← hend'] at htgt'
  rcases linkWrite_cases hwx with ⟨a, b, rfl⟩ | ⟨e, rfl, hstream, hnames⟩
  · rcases linkWrite_cases hwy with ⟨a', b', rfl⟩ | ⟨e', rfl, -, -⟩
    · exact bridges_compatible
    · exact bridge_compatible hst'.isMade htgt'.isMade
  · rcases linkWrite_cases hwy with ⟨a', b', rfl⟩ | ⟨e', rfl, hstream', hnames'⟩
    · exact (bridge_compatible hst.isMade htgt.isMade).symm
    · have hrel : (s, t) ∈ lg.graph.related lk := by
        simp [LogicalGraph.related, hs, ht, hstream]
      have hrel' : (s', t') ∈ lg.graph.related lk' := by
        simp [LogicalGraph.related, hs', ht', hstream']
      refine relations_compatible (fun ha hb => ?_) (fun hb => ?_)
        (hst.isMade.oid_eq hst'.isMade) (htgt.isMade.oid_eq htgt'.isMade)
      · rw [Relation.names, Relation.names, hnames, hnames']
        refine hn.names lk hlk lk' hlk' _ hrel _ hrel' ?_
        rw [(stands_eq hn.texts hi hst hst' ha).1, (isMain_eq hn.texts hi htgt htgt' hb).1]
      · rw [Relation.names, Relation.names, hnames, hnames']
        exact hn.ports lk hlk lk' hlk' _ hrel _ hrel' (isMain_eq hn.texts hi htgt htgt' hb).1

/-- Links that are all streams, or none. -/
theorem streamsAlike_of_same (ho : ∀ lk ∈ lg.graph.links, lg.graph.leavesGather lk = false)
    (hi : instantiate lg = .ok placed)
    (h : ∀ a ∈ lg.graph.stampedLinks, ∀ b ∈ lg.graph.stampedLinks, a.isStream = b.isStream) :
    StreamsAlike lg placed := by
  have hlink : ∀ lk ∈ lg.graph.stampedLinks, ∀ as, linkActions lg placed lk = .ok as →
      ∀ oid s d, .gatherInput oid s d ∈ as → s.link = lk := by
    intro lk hlk as has oid s d hd
    obtain ⟨_, _, _, _, -, -, -, -, ⟨x, hx, -⟩ | ⟨-, source, data, hs, ha⟩⟩ :=
      linkActions_cases hi (leavesGather_stamped ho hlk) has hd
    · simp at hx
    · obtain ⟨-, rfl, -⟩ := Action.gatherInput.inj ha
      exact hs
  intro a ha b hb as bs has hbs oid s t d e hd he _
  rw [hlink a ha as has oid s d hd, hlink b hb bs hbs oid t e he]
  exact h a ha b hb

end Actions

/-! What is held back for the Gathers. -/

/-- The Gather drop an action is about. -/
def Action.gatherOid : Action → Option String
  | .gatherInput oid _ _ | .gatherOutput oid _ _ => some oid
  | .write _ | .hold _ => none

section Gathers

variable {as as' : List Action} {gs : List (String × Gathered)} {oid key : String} {lk : Link}
  {f : Gathered → Gathered}

theorem lookup_changed : (gs.map fun g => if g.1 = oid then (g.1, f g.2) else g).lookup key =
    if key = oid then (gs.lookup oid).map f else gs.lookup key := by
  induction gs with
  | nil => simp
  | cons g gs ih =>
    obtain ⟨k, g⟩ := g
    rw [List.map_cons, List.lookup_cons]
    by_cases hk : k = oid
    · subst hk
      by_cases hkey : key = k
      · simp [hkey]
      · have hb : (key == k) = false := beq_eq_false_iff_ne.mpr hkey
        simp [List.lookup_cons, hkey, ih, hb]
    · have ho : (oid == k) = false := beq_eq_false_iff_ne.mpr fun he => hk he.symm
      by_cases hkey : key = k
      · subst hkey
        simp [hk]
      · have hb : (key == k) = false := beq_eq_false_iff_ne.mpr hkey
        simp [List.lookup_cons, hk, ih, ho, hb]

theorem lookup_onGather : (onGather gs oid lk f).lookup key =
    if key = oid then some (f ((gs.lookup oid).getD ⟨[], [], lk⟩)) else gs.lookup key := by
  unfold onGather
  split
  · rename_i hany
    obtain ⟨p, hp, hpo⟩ := List.any_eq_true.mp hany
    have hsome : (gs.lookup oid).isSome = true := by
      rw [List.lookup_isSome_iff]
      exact ⟨p, hp, BEq.symm hpo⟩
    obtain ⟨g, hg⟩ := Option.isSome_iff_exists.mp hsome
    rw [lookup_changed, hg]
    rfl
  · rename_i hany
    have hnone : gs.lookup oid = none := by
      rw [List.lookup_eq_none_iff]
      intro p hp
      by_contra hc
      exact hany (List.any_eq_true.mpr ⟨p, hp, BEq.symm (by simpa using hc)⟩)
    rw [List.lookup_append]
    by_cases hk : key = oid
    · subst hk
      simp [hnone]
    · have hb : (key == oid) = false := beq_eq_false_iff_ne.mpr hk
      simp [hk, hb, List.lookup_cons]

theorem keys_onGather (h : (gs.map Prod.fst).Nodup) :
    ((onGather gs oid lk f).map Prod.fst).Nodup := by
  unfold onGather
  split
  · have hk : (gs.map fun g => if g.1 = oid then (g.1, f g.2) else g).map Prod.fst =
        gs.map Prod.fst := by
      rw [List.map_map]
      refine List.map_congr_left fun g _ => ?_
      simp only [Function.comp_apply]
      split <;> rfl
    rwa [hk]
  · rename_i hn
    rw [List.map_append]
    refine List.Nodup.append h (by simp) ?_
    simpa using hn

theorem gatherStep_keys {a : Action} (h : (gs.map Prod.fst).Nodup) :
    ((gatherStep gs a).map Prod.fst).Nodup := by
  cases a with
  | gatherInput oid source data =>
    rw [gatherStep]
    exact keys_onGather h
  | gatherOutput oid target lk =>
    rw [gatherStep]
    exact keys_onGather h
  | write x => exact h
  | hold lk => exact h

theorem gathers_keys (h : (gs.map Prod.fst).Nodup) :
    ((as.foldl gatherStep gs).map Prod.fst).Nodup := by
  induction as generalizing gs with
  | nil => exact h
  | cons a as ih => exact ih (gatherStep_keys h)

theorem gathers_nodup : ((as.foldl gatherStep []).map Prod.fst).Nodup := gathers_keys List.nodup_nil

variable (as) in
/-- The entry of a Gather drop comes from the actions about it. -/
theorem lookup_gathers : (as.foldl gatherStep gs).lookup oid =
    ((as.filter fun a => a.gatherOid == some oid).foldl gatherStep gs).lookup oid := by
  refine Exchange.view_foldl_filter (fun gs => List.lookup oid gs) (fun gs a ha => ?_)
    (fun gs gs' a h => ?_) gs
  · cases a with
    | gatherInput o source data =>
      have hne : oid ≠ o := fun he => by simp [Action.gatherOid, he] at ha
      simp [gatherStep, lookup_onGather, hne]
    | gatherOutput o target lk =>
      have hne : oid ≠ o := fun he => by simp [Action.gatherOid, he] at ha
      simp [gatherStep, lookup_onGather, hne]
    | write x => rfl
    | hold lk => rfl
  · cases a with
    | gatherInput o source data =>
      by_cases ho : oid = o
      · subst ho
        simp [gatherStep, lookup_onGather, h]
      · simp [gatherStep, lookup_onGather, ho, h]
    | gatherOutput o target lk =>
      by_cases ho : oid = o
      · subst ho
        simp [gatherStep, lookup_onGather, h]
      · simp [gatherStep, lookup_onGather, ho, h]
    | write x => exact h
    | hold lk => exact h

/-- The inputs some actions hold back. -/
def inputsOf (as : List Action) : List (Option Drop) :=
  as.filterMap fun
    | .gatherInput _ _ data => some data
    | _ => none

/-- The outputs some actions hold back. -/
def outputsOf (as : List Action) : List Drop :=
  as.filterMap fun
    | .gatherOutput _ target _ => some target
    | _ => none

/-- The link an action about a Gather drop came on. -/
def Action.link : Action → Option Link
  | .gatherInput _ source _ => some source.link
  | .gatherOutput _ _ lk => some lk
  | .write _ | .hold _ => none

theorem lookup_gathers_about {g : Gathered} (h : ∀ a ∈ as, a.gatherOid = some oid)
    (hg : gs.lookup oid = some g) : (as.foldl gatherStep gs).lookup oid =
      some ⟨g.inputs ++ inputsOf as, g.outputs ++ outputsOf as, g.link⟩ := by
  induction as generalizing gs g with
  | nil => simpa [inputsOf, outputsOf] using hg
  | cons a as ih =>
    have ha := h a (by simp)
    have hrest := fun b hb => h b (List.mem_cons_of_mem a hb)
    cases a with
    | gatherInput o source data =>
      obtain rfl : o = oid := by simpa [Action.gatherOid] using ha
      have hstep : (gatherStep gs (.gatherInput o source data)).lookup o =
          some { g with inputs := g.inputs ++ [data] } := by
        rw [gatherStep, lookup_onGather, if_pos rfl, hg]
        rfl
      rw [List.foldl_cons, ih hrest hstep]
      simp [inputsOf, outputsOf]
    | gatherOutput o target lk =>
      obtain rfl : o = oid := by simpa [Action.gatherOid] using ha
      have hstep : (gatherStep gs (.gatherOutput o target lk)).lookup o =
          some { g with outputs := g.outputs ++ [target] } := by
        rw [gatherStep, lookup_onGather, if_pos rfl, hg]
        rfl
      rw [List.foldl_cons, ih hrest hstep]
      simp [inputsOf, outputsOf]
    | write x => simp [Action.gatherOid] at ha
    | hold lk => simp [Action.gatherOid] at ha

/-- What is held back for a Gather drop: all its inputs and outputs, with the first link. -/
theorem lookup_gathers_eq (h : ∀ a ∈ as, a.gatherOid = some oid) :
    (as.foldl gatherStep []).lookup oid =
      (as.head?.bind Action.link).map fun lk => ⟨inputsOf as, outputsOf as, lk⟩ := by
  cases as with
  | nil => rfl
  | cons a as =>
    have ha := h a (by simp)
    have hrest := fun b hb => h b (List.mem_cons_of_mem a hb)
    cases a with
    | gatherInput o source data =>
      obtain rfl : o = oid := by simpa [Action.gatherOid] using ha
      have hstep : (gatherStep [] (.gatherInput o source data)).lookup o =
          some ⟨[data], [], source.link⟩ := by
        rw [gatherStep, lookup_onGather, if_pos rfl]
        rfl
      rw [List.foldl_cons, lookup_gathers_about hrest hstep]
      simp [inputsOf, outputsOf, Action.link]
    | gatherOutput o target lk =>
      obtain rfl : o = oid := by simpa [Action.gatherOid] using ha
      have hstep : (gatherStep [] (.gatherOutput o target lk)).lookup o =
          some ⟨[], [target], lk⟩ := by
        rw [gatherStep, lookup_onGather, if_pos rfl]
        rfl
      rw [List.foldl_cons, lookup_gathers_about hrest hstep]
      simp [inputsOf, outputsOf, Action.link]
    | write x => simp [Action.gatherOid] at ha
    | hold lk => simp [Action.gatherOid] at ha

/-- Held back in another order, to the same effect. -/
structure Gathered.Same (g g' : Gathered) : Prop where
  inputs : g'.inputs.Perm g.inputs
  outputs : g'.outputs = g.outputs
  stream : g.outputs ≠ [] → g'.link.isStream = g.link.isStream

theorem splicedWrites_same {last : Option LGNode} {g g' : Gathered} {xs : List Write}
    (h : g.Same g') (hx : splicedWrites last g = .ok xs) :
    ∃ xs', splicedWrites last g' = .ok xs' ∧ xs'.Perm xs := by
  unfold splicedWrites at hx ⊢
  rw [h.outputs]
  cases ho : g.outputs with
  | nil =>
    rw [ho] at hx
    exact ⟨xs, hx, List.Perm.refl _⟩
  | cons output rest =>
    rw [ho] at hx
    rw [h.stream (by simp [ho])]
    exact collect_perm hx h.inputs

/-- The inputs of a Gather drop in another order, before all of its outputs. -/
theorem lookup_gathers_same {bs bs' ds : List Action} (hp : bs'.Perm bs)
    (hb : ∀ a ∈ bs, ∃ s d, a = .gatherInput oid s d)
    (hd : ∀ a ∈ ds, a.gatherOid = some oid)
    (hs : outputsOf ds ≠ [] → ∀ s t d e, .gatherInput oid s d ∈ bs →
      .gatherInput oid t e ∈ bs → s.link.isStream = t.link.isStream) :
    ((bs' ++ ds).foldl gatherStep []).lookup oid = ((bs ++ ds).foldl gatherStep []).lookup oid ∨
      ∃ g g', ((bs ++ ds).foldl gatherStep []).lookup oid = some g ∧
        ((bs' ++ ds).foldl gatherStep []).lookup oid = some g' ∧ g.Same g' := by
  have habout : ∀ cs : List Action, cs ⊆ bs → ∀ a ∈ cs ++ ds, a.gatherOid = some oid := by
    intro cs hcs a ha
    rcases List.mem_append.mp ha with ha | ha
    · obtain ⟨s, d, rfl⟩ := hb a (hcs ha)
      rfl
    · exact hd a ha
  have hout : ∀ cs : List Action, cs ⊆ bs → outputsOf (cs ++ ds) = outputsOf ds := by
    intro cs hcs
    have hnone : outputsOf cs = [] := by
      refine List.filterMap_eq_nil_iff.mpr fun a ha => ?_
      obtain ⟨s, d, rfl⟩ := hb a (hcs ha)
      rfl
    rw [outputsOf, List.filterMap_append, ← outputsOf, ← outputsOf, hnone, List.nil_append]
  rw [lookup_gathers_eq (habout bs (List.Subset.refl _)), lookup_gathers_eq (habout bs' hp.subset),
    hout bs (List.Subset.refl _), hout bs' hp.subset]
  cases bs with
  | nil => exact Or.inl (by rw [hp.eq_nil])
  | cons a bs =>
    cases bs' with
    | nil => exact absurd hp.symm.eq_nil (by simp)
    | cons a' bs' =>
      -- the first links, if not the same one, are both streams or both are not
      obtain ⟨s, d, rfl⟩ := hb a (by simp)
      obtain ⟨s', d', rfl⟩ := hb a' (hp.subset (by simp))
      refine Or.inr ⟨_, _, rfl, rfl, ?_, rfl, fun ho => ?_⟩
      · have hin : ∀ l l' : List Action, l.Perm l' → (inputsOf l).Perm (inputsOf l') :=
          fun _ _ h => h.filterMap _
        exact hin _ _ (hp.append_right ds)
      · exact hs ho s' s d' d (hp.subset (by simp)) (by simp)

/-- The splices of all Gather drops, each of which may have its inputs in another order. -/
theorem collect_spliced {last : Option LGNode} {gs gs' : List (String × Gathered)}
    {xs : List Write} (hn : (gs.map Prod.fst).Nodup) (hn' : (gs'.map Prod.fst).Nodup)
    (h : ∀ oid, gs'.lookup oid = gs.lookup oid ∨
      ∃ g g', gs.lookup oid = some g ∧ gs'.lookup oid = some g' ∧ g.Same g')
    (hx : collect (fun g => splicedWrites last g.2) gs = .ok xs) :
    ∃ xs', collect (fun g => splicedWrites last g.2) gs' = .ok xs' ∧ xs'.Perm xs := by
  obtain ⟨ys, hys, hyx⟩ := collect_related
    (fun g : String × Gathered => splicedWrites last ((gs'.lookup g.1).getD g.2))
    (fun p hp r hr => by
      have hlook := (Association.mem_iff_lookup hn).mp hp
      rcases h p.1 with he | ⟨g, g', hg, hg', hsame⟩
      · exact ⟨r, by simpa [he, hlook] using hr, List.Perm.refl _⟩
      · obtain rfl : p.2 = g := Option.some.inj (hlook.symm.trans hg)
        simpa [hg'] using splicedWrites_same hsame hr) hx
  have hkeys : ∀ oid, (gs'.lookup oid).isSome = (gs.lookup oid).isSome := by
    intro oid
    rcases h oid with he | ⟨g, g', hg, hg', -⟩
    · rw [he]
    · rw [hg, hg']
      rfl
  have hmap : collect (fun g : String × Gathered => splicedWrites last g.2)
      (gs.map fun p => (p.1, (gs'.lookup p.1).getD p.2)) = .ok ys := by
    rw [collect_map]
    exact hys
  obtain ⟨xs', hxs', hp⟩ := collect_perm hmap (Association.perm_updated hn hn' hkeys).symm
  exact ⟨xs', hxs', hp.trans hyx⟩

end Gathers

/-! The plan with the links in another order. -/

section Reordering

variable {lg lg' : LG} {placed : List Placed} {lk : Link} {added : List Link} {xs : List Write}

/-- A graph built with its links in two orders. -/
structure Rebuilt (lg lg' : LG) (placed : List Placed) (added : List Link) : Prop where
  alike : Alike lg.graph lg'.graph lg.inputs lg'.inputs
  loopAware : ∀ pair, lg'.loopAwareSet.contains pair = lg.loopAwareSet.contains pair
  gathersLast : ∀ lk ∈ lg.graph.links, lg.graph.leavesGather lk = false
  instantiated : instantiate lg = .ok placed
  stamped : lg'.graph.stampedLinks.Perm lg.graph.stampedLinks
  links : lg.links = lg.graph.stampedLinks ++ added
  links' : lg'.links = lg'.graph.stampedLinks ++ added
  unheld : ∀ lk ∈ added, ∀ s t, lg.graph.node lk.source = .ok s → lg.graph.node lk.target = .ok t →
    isSequential s t = false

variable (h : Rebuilt lg lg' placed added)

include h

theorem Rebuilt.perm : lg'.links.Perm lg.links := by
  rw [h.links, h.links']
  exact h.stamped.append_right added

theorem Rebuilt.linkActions_eq : linkActions lg' placed lk = linkActions lg placed lk := by
  rw [linkActions, linkActions, h.alike.node]
  cases hs : lg.graph.node lk.source with
  | error e => rw [error_bind, error_bind]
  | ok s =>
    cases ht : lg.graph.node lk.target with
    | error e => rw [ok_bind, ok_bind, error_bind, error_bind]
    | ok t =>
      rw [ok_bind, ok_bind, ok_bind, ok_bind, resolveEdges_eq h.alike h.loopAware
        (mem_nodes_of_node hs).1 (mem_nodes_of_node ht).1]

theorem Rebuilt.cleanUp_same {n : LGNode} : cleanUp lg' placed n = cleanUp lg placed n := by
  have hk : hasKey lg' placed n = hasKey lg placed n := by
    rw [hasKey, hasKey, h.perm.any_eq]
  rw [cleanUp, cleanUp, hk, isStartListener_eq h.alike]

theorem Rebuilt.deletedKeys_eq : deletedKeys lg' placed = deletedKeys lg placed := by
  rw [deletedKeys, h.alike.nodes]
  refine collect_congr fun n _ => ?_
  rw [h.cleanUp_same]

theorem Rebuilt.writesApart (hw : WritesApart lg placed) : WritesApart lg' placed := by
  intro a ha b hb as bs has hbs x y hx hy
  rw [h.linkActions_eq] at has hbs
  rw [h.alike.sessionId]
  exact hw a (h.stamped.subset ha) b (h.stamped.subset hb) as bs has hbs x y hx hy

theorem Rebuilt.streamsAlike (hs : StreamsAlike lg placed) : StreamsAlike lg' placed := by
  rintro a ha b hb as bs has hbs oid s t d e hd he ⟨lk, hlk, cs, hcs, hout⟩
  rw [h.linkActions_eq] at has hbs hcs
  exact hs a (h.stamped.subset ha) b (h.stamped.subset hb) as bs has hbs oid s t d e hd he
    ⟨lk, h.perm.subset hlk, cs, hcs, hout⟩

/-- The actions of the graph's own links write, or hold inputs of Gathers back. -/
theorem Rebuilt.action_cases {as : List Action} {a : Action} (hlk : lk ∈ lg.graph.stampedLinks)
    (has : linkActions lg placed lk = .ok as) (ha : a ∈ as) :
    (∃ x, a = .write x) ∨ ∃ oid source data, a = .gatherInput oid source data := by
  obtain ⟨-, -, -, tgt, -, -, -, -, ⟨x, rfl, -⟩ | ⟨-, source, data, -, rfl⟩⟩ :=
    linkActions_cases h.instantiated (leavesGather_stamped h.gathersLast hlk) has ha
  · exact Or.inl ⟨x, rfl⟩
  · exact Or.inr ⟨tgt.oid, source, data, rfl⟩

/-- No link is held back: the graph's own leave no Gather, and the artificial ones stay within
a group. -/
theorem Rebuilt.heldOf_eq_nil {acts : Link → List Action}
    (hacts : ∀ lk ∈ lg.links, linkActions lg placed lk = .ok (acts lk)) :
    heldOf (lg.links.flatMap acts) = [] := by
  refine List.filterMap_eq_nil_iff.mpr fun a ha => ?_
  obtain ⟨lk, hlk, ha⟩ := List.mem_flatMap.mp ha
  have has := hacts lk hlk
  rcases List.mem_append.mp (h.links ▸ hlk) with hown | hadded
  · rcases h.action_cases hown has ha with ⟨x, rfl⟩ | ⟨oid, source, data, rfl⟩ <;> rfl
  · obtain ⟨s, hs, has⟩ := bind_ok.mp has
    obtain ⟨t, ht, has⟩ := bind_ok.mp has
    rw [if_neg (by simp [h.unheld lk hadded s t hs ht])] at has
    obtain ⟨edges, -, has⟩ := bind_ok.mp has
    obtain ⟨e, -, as', has, ha⟩ := exists_of_mem_collect has ha
    obtain ⟨a', ha', has⟩ := bind_ok.mp has
    obtain rfl := pure_ok.mp has
    obtain rfl := List.mem_singleton.mp ha
    unfold edgeAction at ha'
    split at ha'
    · cases hd : sourceDrop placed s e.1 with
      | error err => simp [hd, Except.map] at ha'
      | ok data =>
        rw [hd] at ha'
        rw [← Except.ok.inj ha']
    split at ha'
    · split at ha'
      · simp at ha'
      · rw [← Except.ok.inj ha']
    · cases hx : linkWrite placed s t e.1 e.2 lk with
      | error err => simp [hx, Except.map] at ha'
      | ok x =>
        rw [hx] at ha'
        rw [← Except.ok.inj ha']

/-- Every Gather drop has the same held back, in another order. -/
theorem Rebuilt.lookup_same (hs : StreamsAlike lg placed) {acts : Link → List Action}
    (hacts : ∀ lk ∈ lg.links, linkActions lg placed lk = .ok (acts lk)) (oid : String) :
    ((lg'.links.flatMap acts).foldl gatherStep []).lookup oid =
        ((lg.links.flatMap acts).foldl gatherStep []).lookup oid ∨
      ∃ g g', ((lg.links.flatMap acts).foldl gatherStep []).lookup oid = some g ∧
        ((lg'.links.flatMap acts).foldl gatherStep []).lookup oid = some g' ∧ g.Same g' := by
  rw [lookup_gathers, lookup_gathers (lg.links.flatMap acts), h.links, h.links',
    List.flatMap_append, List.flatMap_append, List.filter_append, List.filter_append]
  have hown : ∀ lk ∈ lg.graph.stampedLinks, lk ∈ lg.links := fun lk hlk => by simp [h.links, hlk]
  have hinput : ∀ a ∈ (lg.graph.stampedLinks.flatMap acts).filter (·.gatherOid == some oid),
      ∃ s d, a = .gatherInput oid s d := by
    intro a ha
    obtain ⟨ha, hoid⟩ := List.mem_filter.mp ha
    obtain ⟨lk, hlk, ha⟩ := List.mem_flatMap.mp ha
    rcases h.action_cases hlk (hacts lk (hown lk hlk)) ha with ⟨x, rfl⟩ | ⟨o, s, d, rfl⟩
    · simp [Action.gatherOid] at hoid
    · obtain rfl : o = oid := by simpa [Action.gatherOid] using hoid
      exact ⟨s, d, rfl⟩
  refine lookup_gathers_same ((h.stamped.flatMap_right acts).filter _) hinput
    (fun a ha => by simpa using (List.mem_filter.mp ha).2) fun hne s t d e hd he => ?_
  obtain ⟨a, hd⟩ := List.mem_flatMap.mp (List.mem_of_mem_filter hd)
  obtain ⟨b, he⟩ := List.mem_flatMap.mp (List.mem_of_mem_filter he)
  refine hs a hd.1 b he.1 _ _ (hacts a (hown a hd.1)) (hacts b (hown b he.1)) oid s t d e hd.2
    he.2 ?_
  -- an output that an artificial link gives it
  obtain ⟨target, hmem⟩ := List.exists_mem_of_ne_nil _ hne
  obtain ⟨c, hfilter, hct⟩ := List.mem_filterMap.mp hmem
  obtain ⟨hflat, hoid⟩ := List.mem_filter.mp hfilter
  obtain ⟨lk, hlk, hc⟩ := List.mem_flatMap.mp hflat
  have hlinks : lk ∈ lg.links := by simp [h.links, hlk]
  refine ⟨lk, hlinks, _, hacts lk hlinks, ?_⟩
  cases c with
  | gatherOutput o target l =>
    obtain rfl : o = oid := by simpa [Action.gatherOid] using hoid
    exact ⟨target, l, hc⟩
  | gatherInput o source data => simp at hct
  | write x => simp at hct
  | hold l => simp at hct

/-- The splices read the source of the last link, which is an artificial one where they splice. -/
theorem Rebuilt.splicedWrites_eq {acts : Link → List Action}
    (hacts : ∀ lk ∈ lg.links, linkActions lg placed lk = .ok (acts lk)) :
    ∀ g ∈ (lg'.links.flatMap acts).foldl gatherStep [],
      splicedWrites (lastSource lg' []) g.2 = splicedWrites (lastSource lg []) g.2 := by
  intro g hg
  by_cases hadded : added = []
  · have hout : g.2.outputs = [] := by
      have hlook := (Association.mem_iff_lookup gathers_nodup).mp hg
      rw [lookup_gathers, lookup_gathers_eq fun a ha => by simpa using (List.mem_filter.mp ha).2]
        at hlook
      obtain ⟨lk, -, hgd⟩ := Option.map_eq_some_iff.mp hlook
      rw [← hgd]
      refine List.filterMap_eq_nil_iff.mpr fun a ha => ?_
      obtain ⟨l, hl, ha⟩ := List.mem_flatMap.mp (List.mem_of_mem_filter ha)
      rw [h.links', hadded, List.append_nil] at hl
      have hl := h.stamped.subset hl
      rcases h.action_cases hl (hacts l (by simp [h.links, hl])) ha with ⟨x, rfl⟩ | ⟨o, s, d, rfl⟩
      · rfl
      · rfl
    simp [splicedWrites, hout]
  · have hlast : lg'.links.getLast? = lg.links.getLast? := by
      rw [h.links, h.links', List.getLast?_append_of_ne_nil _ hadded,
        List.getLast?_append_of_ne_nil _ hadded]
    simp only [lastSource, hlast, h.alike.node]

omit h in
/-- The splices all use one port name. -/
theorem spliced_compatible {last : Option LGNode} {gs : List (String × Gathered)} {x y : Write}
    {sid : String} (h : collect (fun g => splicedWrites last g.2) gs = .ok xs) (hx : x ∈ xs)
    (hy : y ∈ xs) : x.Compatible sid y := by
  have hspliced : ∀ z ∈ xs, ∃ e : Relation, z = .relate e ∧ e.kind ≠ .output ∧
      e.sourceName = (last.bind fun n => n.node.portName .outputPort none) ∧
      e.targetName = (last.bind fun n => n.node.portName .outputPort none) := by
    intro z hz
    obtain ⟨g, -, r, hr, hz⟩ := exists_of_mem_collect h hz
    unfold splicedWrites at hr
    split at hr
    · obtain rfl := Except.ok.inj hr
      simp at hz
    · obtain ⟨input, -, r', hr', hz⟩ := exists_of_mem_collect hr hz
      cases input with
      | none => simp at hr'
      | some data =>
        obtain rfl := Except.ok.inj hr'
        refine ⟨_, List.mem_singleton.mp hz, ?_, rfl, rfl⟩
        cases g.2.link.isStream <;> simp
  obtain ⟨e, rfl, hk, hs, ht⟩ := hspliced x hx
  obtain ⟨e', rfl, hk', hs', ht'⟩ := hspliced y hy
  refine ⟨fun k l c hc c' hc' _ _ _ => ?_, fun p q hp => ?_⟩
  · rcases relate_additions hc with rfl | rfl <;> rcases relate_additions hc' with rfl | rfl <;>
      simp [hs, ht, hs', ht']
  · simp only [Write.port] at hp
    split at hp
    · rename_i he
      exact absurd he hk
    · simp at hp
    · simp at hp

/-- The plan leaves the same behind. -/
theorem Rebuilt.plan (hw : WritesApart lg placed) (hs : StreamsAlike lg placed)
    (hp : plan lg placed = .ok xs) : ∃ xs', Unroll.plan lg' placed = .ok xs' ∧
      (finalLedger lg' placed xs').tally = (finalLedger lg placed xs).tally := by
  obtain ⟨as, has, hp⟩ := bind_ok.mp hp
  obtain ⟨chained, hchained, hp⟩ := bind_ok.mp hp
  obtain ⟨spliced, hspliced, hp⟩ := bind_ok.mp hp
  obtain rfl := pure_ok.mp hp
  obtain ⟨acts, hacts, rfl⟩ := exists_of_collect has
  have has' : collect (linkActions lg' placed) lg'.links = .ok (lg'.links.flatMap acts) :=
    collect_eq_flatMap fun lk hlk => h.linkActions_eq.trans (hacts lk (h.perm.subset hlk))
  have hheld := h.heldOf_eq_nil hacts
  have hheld' : heldOf (lg'.links.flatMap acts) = [] := by
    have hperm : (heldOf (lg'.links.flatMap acts)).Perm (heldOf (lg.links.flatMap acts)) :=
      (h.perm.flatMap_right acts).filterMap _
    exact (hperm.trans (List.Perm.of_eq hheld)).eq_nil
  rw [hheld] at hchained hspliced
  obtain rfl : chained = [] := (Except.ok.inj hchained).symm
  obtain ⟨spliced', hspliced', hperm⟩ := collect_spliced gathers_nodup gathers_nodup
    (h.lookup_same hs hacts) hspliced
  rw [← collect_congr (h.splicedWrites_eq hacts)] at hspliced'
  refine ⟨_, bind_ok.mpr ⟨_, has', bind_ok.mpr ⟨[], by rw [hheld']; rfl, bind_ok.mpr ⟨spliced', ?_,
    rfl⟩⟩⟩, ?_⟩
  · rw [hheld']
    exact hspliced'
  -- what the links write, then what the Gathers add
  have hwrites : ∀ ls : List Link,
      writesOf (ls.flatMap acts) = ls.flatMap fun lk => writesOf (acts lk) :=
    fun ls => List.filterMap_flatMap
  have hmem : ∀ x lk, x ∈ writesOf (acts lk) → .write x ∈ acts lk := by
    intro x lk hx
    obtain ⟨a, ha, hax⟩ := List.mem_filterMap.mp hx
    cases a <;> simp_all
  have hcompat : ∀ x ∈ lg.graph.stampedLinks.flatMap (fun lk => writesOf (acts lk)),
      ∀ y ∈ lg.graph.stampedLinks.flatMap (fun lk => writesOf (acts lk)),
        x.Compatible lg.graph.sessionId y := by
    intro x hx y hy
    obtain ⟨lk, hlk, hx⟩ := List.mem_flatMap.mp hx
    obtain ⟨lk', hlk', hy⟩ := List.mem_flatMap.mp hy
    have hown : ∀ l ∈ lg.graph.stampedLinks, linkActions lg placed l = .ok (acts l) :=
      fun l hl => hacts l (by simp [h.links, hl])
    exact hw lk hlk lk' hlk' _ _ (hown lk hlk) (hown lk' hlk') x y (hmem x lk hx) (hmem y lk' hy)
  simp only [finalLedger, tally_foldl_write, h.alike.sessionId, h.links, h.links',
    List.foldl_append, List.foldl_nil]
  rw [hwrites, hwrites, List.flatMap_append, List.flatMap_append, List.foldl_append,
    List.foldl_append, ← foldl_write_perm (h.stamped.flatMap_right _).symm hcompat]
  refine foldl_write_perm hperm fun x hx y hy => ?_
  exact spliced_compatible hspliced (hperm.subset hx) (hperm.subset hy)

end Reordering

/-! Unrolling. -/

/-- Templates with the same drops, relations and port maps. -/
structure Template.Same (tpl tpl' : Template) : Prop where
  drops : tpl'.drops.Perm tpl.drops
  relations : tpl'.relations.Perm tpl.relations
  portMaps : tpl'.portMaps.Perm tpl.portMaps

/-- Two runs that both fail, or come to the same template. -/
def Agree : Except Err Template → Except Err Template → Prop
  | .ok tpl, .ok tpl' => tpl.Same tpl'
  | .error _, .error _ => True
  | _, _ => False

section Unroll

variable {g : LogicalGraph} {tpl : Template} {links : List Link} {lg : LG} {placed : List Placed}

/-- From the stages to the whole. -/
theorem unroll_of_built {xs : List Write} {deleted : List NodeId} (hb : g.built = .ok (lg, placed))
    (hp : plan lg placed = .ok xs) (hd : deletedKeys lg placed = .ok deleted) :
    g.unroll = .ok {
      drops := (placed.filter fun p => !deleted.contains p.key).map (·.drop) ++
        (finalLedger lg placed xs).bridges
      relations := (finalLedger lg placed xs).relations
      portMaps := (finalLedger lg placed xs).portMaps } := by
  obtain ⟨lg₀, hinit, hsyn, hinst, -⟩ := built_ok hb
  have hwire : wire lg placed = .ok (finalLedger lg placed xs) := by
    rw [wire_eq_plan, hp]
    rfl
  exact bind_ok.mpr ⟨lg₀, hinit, bind_ok.mpr ⟨lg, hsyn, bind_ok.mpr ⟨placed, hinst,
    bind_ok.mpr ⟨_, hwire, bind_ok.mpr ⟨deleted, hd, rfl⟩⟩⟩⟩⟩

/-! The conditions do not depend on the order either. -/

theorem entering_perm (hl : links.Perm g.links) (id : NodeId) :
    ((g.withLinks links).entering id).Perm (g.entering id) := (hl.filter _).map _

theorem Choices.of_withLinks {i i' : Inputs} (hl : links.Perm g.links)
    (h : Choices (g.withLinks links) i i') : Choices g i i' where
  linked n hn ha he := by
    have hp := entering_perm hl n.id
    obtain ⟨⟨x, hx, hi⟩, y, hy, hi'⟩ := h.linked n hn ha fun hnil => he (hnil ▸ hp).symm.eq_nil
    exact ⟨⟨x, hp.subset hx, hi⟩, y, hp.subset hy, hi'⟩
  others n hn ha he := h.others n hn ha (he ▸ entering_perm hl n.id).eq_nil

theorem SameAnswers.withLinks {i i' : Inputs} (h : SameAnswers g i i') :
    SameAnswers (g.withLinks links) i i' := by
  have hf : (g.withLinks links).forest = g.forest := rfl
  constructor
  · intro n hn ha
    rw [dop_forest hf, dop_forest hf]
    exact h.dop n hn ha
  · intro n hn hg made
    rw [scatterLayers_forest hf, scatterLayers_forest hf]
    exact h.layers n hn hg made
  · intro n hn hg
    rw [groupByWidth_forest hf, groupByWidth_forest hf]
    exact h.width n hn hg
  · intro n hn hg
    rw [firstInput_forest hf, firstInput_forest hf]
    exact h.input n hn hg
  · intro lg hlg n hn hg iid
    have hsame : ∀ j, gatherWeight { lg with inputs := j } n iid =
        gatherWeight { lg with graph := g, inputs := j } n iid := fun j =>
      gatherWeight_forest (by simp only [hlg, hf]) rfl
    rw [hsame, hsame]
    exact h.volume { lg with graph := g } rfl n hn hg iid

theorem Settled.withLinks (hl : links.Perm g.links) (hs : Settled g) :
    Settled (g.withLinks links) := fun i i' hc => (hs i i' (hc.of_withLinks hl)).withLinks

theorem init_ok {lg₀ : LG} (h : g.init = .ok lg₀) :
    g.nodes.forM LGNode.checkNested = .ok () ∧ lg₀.graph = g ∧ lg₀.links = g.stampedLinks := by
  obtain ⟨u, hu, h⟩ := bind_ok.mp h
  obtain ⟨inputs, -, h⟩ := bind_ok.mp h
  obtain rfl := pure_ok.mp h
  exact ⟨hu, rfl, rfl⟩

/-- A Gather that is a group is not nested. -/
theorem not_nested {n : LGNode} (h : n.checkNested = .ok ()) (hn : n.groups ≠ [])
    (hg : n.isGroup = true) (hc : n.isConstruct .gather = true) : False := by
  have hcat : n.node.category = .gather := by
    simpa [LGNode.isConstruct, Node.isConstruct] using hc
  have hhandler : n.node.handler = .ok .gather := by
    have hgroup : n.node.isGroup = true := hg
    simp [Node.handler, hgroup, hcat]
  simp [LGNode.checkNested, hg, hn, hhandler, bind, Except.bind] at h

/-- An artificial link is not held back. -/
theorem Artificial.unheld {s t : LGNode} {lk : Link} (h : Artificial g lk)
    (hc : g.nodes.forM LGNode.checkNested = .ok ()) (hs : g.node lk.source = .ok s)
    (ht : g.node lk.target = .ok t) : isSequential s t = false := by
  obtain ⟨hsn, hsid⟩ := mem_nodes_of_node hs
  obtain ⟨htn, htid⟩ := mem_nodes_of_node ht
  obtain ⟨t', ht', hid, hsource⟩ := h
  obtain rfl : t' = t := eq_of_id ht' htn (hid.trans htid.symm)
  rcases hsource with hgid | ⟨s', hs', hid', hgroups⟩
  · -- the group has the link
    simp [isSequential, hgid, hsid]
  · obtain rfl : s' = s := eq_of_id hs' hsn (hid'.trans hsid.symm)
    by_contra hseq
    obtain ⟨hg, -, hga, -⟩ : s'.isGroup = true ∧ t'.isGroup = false ∧
        s'.isConstruct .gather = true ∧ ¬ t'.gid = s'.id := by
      simpa [isSequential] using hseq
    exact not_nested (forM_ok.mp hc s' hs') hgroups hg hga

/-- The graph builds with its links in any order, and comes to the same drops. -/
theorem built_reordered (hout : ∀ lk ∈ g.links, g.leavesGather lk = false) (hs : Settled g)
    (hl : links.Perm g.links) (h : g.built = .ok (lg, placed)) :
    ∃ lg' added, (g.withLinks links).built = .ok (lg', placed) ∧
      lg.graph = g ∧ lg'.graph = g.withLinks links ∧ Rebuilt lg lg' placed added := by
  obtain ⟨lg₀, hinit, hsyn, hinst, rfl⟩ := built_ok h
  obtain ⟨hnested, hg₀, hlinks₀⟩ := init_ok hinit
  obtain ⟨lg₀', hinit', hre₀⟩ := init_reordered hl hout hinit
  obtain ⟨-, hg₀', hlinks₀'⟩ := init_ok hinit'
  obtain ⟨lg', added, hsyn', hre, -, hgraph', hadded, hlinks, hlinks'⟩ :=
    synthesiseLinks_reordered hre₀ (hg₀.symm ▸ hs) hsyn
  have halike := hre.exchanged.alike hs
  refine ⟨lg', added, bind_ok.mpr ⟨lg₀', hinit', bind_ok.mpr ⟨lg', hsyn', bind_ok.mpr
    ⟨placed, by rw [instantiate_eq halike, hinst], rfl⟩⟩⟩, rfl, hgraph'.trans hg₀', ?_⟩
  exact {
    alike := halike
    loopAware := hre.loopAware
    gathersLast := hout
    instantiated := hinst
    stamped := by
      rw [hgraph', hg₀']
      exact hl.map _
    links := by rw [hlinks, hlinks₀]
    links' := by rw [hlinks', hlinks₀', hgraph', hg₀']
    unheld := fun lk hlk s t => (hadded lk hlk).unheld hnested }

theorem OrderFree.withLinks (ho : OrderFree g) (hl : links.Perm g.links) :
    OrderFree (g.withLinks links) := by
  have hout : ∀ lk ∈ (g.withLinks links).links, (g.withLinks links).leavesGather lk = false :=
    fun lk hlk => ho.gathersLast lk (hl.subset hlk)
  -- what is built from the links in the other order is built from those in this one
  have hback : ∀ lg placed, (g.withLinks links).built = .ok (lg, placed) →
      ∃ lg' added, g.built = .ok (lg', placed) ∧ Rebuilt lg' lg placed added := by
    intro lg placed h
    obtain ⟨lg', added, hb, -⟩ := built_reordered hout (ho.settled.withLinks hl) hl.symm h
    obtain ⟨lg'', added', hb', -, -, hr⟩ := built_reordered ho.gathersLast ho.settled hl hb
    obtain rfl : lg'' = lg := by simpa using hb'.symm.trans h
    exact ⟨lg', added', hb, hr⟩
  refine ⟨hout, ho.settled.withLinks hl, fun lg placed h => ?_, fun lg placed h => ?_⟩
  · obtain ⟨lg', added, hb, hr⟩ := hback lg placed h
    exact hr.writesApart (ho.writes lg' placed hb)
  · obtain ⟨lg', added, hb, hr⟩ := hback lg placed h
    exact hr.streamsAlike (ho.streams lg' placed hb)

theorem unroll_reordered (ho : OrderFree g) (hl : links.Perm g.links) (h : g.unroll = .ok tpl) :
    ∃ tpl', (g.withLinks links).unroll = .ok tpl' ∧ tpl.Same tpl' := by
  obtain ⟨lg, placed, xs, deleted, hb, hu⟩ := unroll_ok h
  obtain ⟨lg', added, hb', hg, hg', hr⟩ := built_reordered ho.gathersLast ho.settled hl hb
  obtain ⟨xs', hplan', htally⟩ := hr.plan (ho.writes lg placed hb) (ho.streams lg placed hb)
    hu.planned
  obtain ⟨hrel, hports, hbridges⟩ := Tally.mk.inj htally
  refine ⟨_, unroll_of_built hb' hplan' (hr.deletedKeys_eq.trans hu.cleaned), ?_, ?_, ?_⟩
  · rw [hu.drops]
    exact (Multiset.coe_eq_coe.mp hbridges).append_left _
  · rw [hu.relations]
    exact Multiset.coe_eq_coe.mp hrel
  · rw [hu.portMaps]
    exact Multiset.coe_eq_coe.mp hports

/-- A link out of a Gather is refused while the Gather has no input. -/
theorem validateLink_gather {s t : LGNode} (hg : s.isGroup = true)
    (hc : s.isConstruct .gather = true) : validateLink g [] s t ≠ .ok () := by
  intro h
  have hcat : s.node.category = .gather := by
    simpa [LGNode.isConstruct, Node.isConstruct] using hc
  have hhandler : s.node.handler = .ok .gather := by
    have hgroup : s.node.isGroup = true := hg
    simp [Node.handler, hgroup, hcat]
  obtain ⟨k, hk, h⟩ := bind_ok.mp h
  obtain rfl : k = .gather := by simpa [hhandler] using hk.symm
  obtain ⟨u, hv, -⟩ := bind_ok.mp h
  have hv : validateGather g [] s t = .ok u := hv
  unfold validateGather at hv
  simp only [hc, if_true] at hv
  split at hv
  · obtain ⟨m, hm, -⟩ := bind_ok.mp hv
    simp [LogicalGraph.firstInput, Inputs.of] at hm
  · obtain ⟨v, hv, -⟩ := bind_ok.mp hv
    cases hv

/-- Where a link leaves a Gather, not all orders unroll alike, unless none unrolls. -/
theorem source_ne_gather_of_agrees
    (h : ∀ links, links.Perm g.links → Agree g.unroll (g.withLinks links).unroll)
    (hu : g.unroll = .ok tpl) {n : LGNode} (hn : n ∈ g.nodes) (hg : n.isGroup = true)
    (hc : n.isConstruct .gather = true) : ∀ lk ∈ g.links, lk.source ≠ n.id := by
  intro lk hlk hsource
  -- the order that begins with the link
  have hagree := h _ (List.perm_cons_erase hlk).symm
  rw [hu] at hagree
  cases hu' : (g.withLinks (lk :: g.links.erase lk)).unroll with
  | error e =>
    rw [hu'] at hagree
    exact hagree
  | ok tpl' =>
    obtain ⟨lg₀, hinit, -⟩ := bind_ok.mp hu'
    obtain ⟨u, -, hinit⟩ := bind_ok.mp hinit
    obtain ⟨inputs, hloop, -⟩ := bind_ok.mp hinit
    rw [LogicalGraph.withLinks, List.foldlM_cons] at hloop
    obtain ⟨i, hi, -⟩ := bind_ok.mp hloop
    obtain ⟨s, t, hs, -, hv, -⟩ := addLink_ok.mp hi
    obtain ⟨hsn, hsid⟩ := mem_nodes_of_node hs
    obtain rfl : s = n := eq_of_id hsn hn (hsid.trans hsource)
    exact validateLink_gather hg hc hv

end Unroll

/-- Two data nodes that an application in a Scatter writes, and that both enter a Gather. -/
def gatheredTwice : LogicalGraph where
  sessionId := "s"
  forest :=
    .cons { id := .int 1, category := .scatter, categoryType := .construct, isGroup := true
            keys := [("num_of_copies", .int 2)] }
      (.cons { id := .int 2, category := .file, categoryType := .data
               fields := [{ id := "d", name := "data", usage := .inputPort }] } .nil
        (.cons { id := .int 4, category := .pythonApp, categoryType := .application
                 fields := [{ id := "r", name := "result", usage := .outputPort }] } .nil
          (.cons { id := .int 5, category := .file, categoryType := .data
                   fields := [{ id := "e", name := "data", usage := .inputPort }] } .nil .nil)))
      (.cons { id := .int 3, category := .gather, categoryType := .construct, isGroup := true
               keys := [("num_of_inputs", .int 2)] } .nil .nil)
  links := [{ source := .int 4, target := .int 2, fromPort := some "r", toPort := some "d" },
    { source := .int 4, target := .int 5, fromPort := some "r", toPort := some "e" },
    { source := .int 2, target := .int 3 }, { source := .int 5, target := .int 3 }]
  ids_nodup := by decide
  ids_ne_newAdded := by decide

instance {a b : Kind × Option String × Option String} : Decidable (SameNaming a b) :=
  inferInstanceAs (Decidable (_ → _))

instance {a b : Kind × Option String × Option String} : Decidable (SamePort a b) :=
  inferInstanceAs (Decidable (_ → _ → _ → _))

/-- Either of its inputs makes the Gather say the same. -/
theorem settled_gatheredTwice : Settled gatheredTwice := by
  intro i i' h
  have hnone : ∀ n ∈ gatheredTwice.nodes, n.isConstruct .groupBy = false := by decide
  have hgather : ∀ n ∈ gatheredTwice.nodes, n.asksInput = true →
      n = ⟨{ id := .int 3, category := .gather, categoryType := .construct, isGroup := true
             keys := [("num_of_inputs", .int 2)] }, []⟩ := by decide
  have hfirst : ∀ n ∈ gatheredTwice.nodes, n.asksInput = true →
      ∀ m ∈ gatheredTwice.entering n.id, m = .int 2 ∨ m = .int 5 := by decide
  have hentered : ∀ n ∈ gatheredTwice.nodes, n.asksInput = true →
      gatheredTwice.entering n.id ≠ [] := by decide
  -- the answers with one or the other input in front
  have hdop : ∀ j : Inputs, ∀ m ∈ gatheredTwice.nodes, m.asksInput = true →
      ((∃ l, j.of m.id = .int 2 :: l) ∨ ∃ l, j.of m.id = .int 5 :: l) →
        gatheredTwice.dop j m = .ok 1 := by
    rintro j m hm ha hj
    obtain rfl := hgather m hm ha
    rw [LogicalGraph.dop, dopAt]
    rcases hj with ⟨l, hl⟩ | ⟨l, hl⟩
    · simp only [hl]
      rfl
    · simp only [hl]
      rfl
  have hvolume : ∀ (j : Inputs) (lg : LG), lg.graph = gatheredTwice → ∀ m ∈ gatheredTwice.nodes,
      m.asksInput = true → ((∃ l, j.of m.id = .int 2 :: l) ∨ ∃ l, j.of m.id = .int 5 :: l) →
        ∀ iid, gatherWeight { lg with inputs := j } m iid = .ok 2 := by
    rintro j ⟨_, inputs, links, pairs⟩ rfl m hm ha hj iid
    obtain rfl := hgather m hm ha
    rw [gatherWeight, LogicalGraph.firstInput]
    rcases hj with ⟨l, hl⟩ | ⟨l, hl⟩
    · simp only [hl]
      rfl
    · simp only [hl]
      rfl
  have hcase : ∀ n ∈ gatheredTwice.nodes, n.asksInput = true →
      ((∃ l, i.of n.id = .int 2 :: l) ∨ ∃ l, i.of n.id = .int 5 :: l) ∧
        ((∃ l, i'.of n.id = .int 2 :: l) ∨ ∃ l, i'.of n.id = .int 5 :: l) := by
    intro n hn ha
    have hcons : ∀ (j : Inputs), ∀ z ∈ gatheredTwice.entering n.id, (j.of n.id).head? = some z →
        (∃ l, j.of n.id = .int 2 :: l) ∨ ∃ l, j.of n.id = .int 5 :: l := by
      intro j z hz hj
      rcases hfirst n hn ha z hz with rfl | rfl
      · exact Or.inl (List.head?_eq_some_iff.mp hj)
      · exact Or.inr (List.head?_eq_some_iff.mp hj)
    obtain ⟨⟨x, hx, hi⟩, y, hy, hi'⟩ := h.linked n hn ha (hentered n hn ha)
    exact ⟨hcons i x hx hi, hcons i' y hy hi'⟩
  constructor
  case dop =>
    intro n hn ha
    rw [hdop i n hn ha (hcase n hn ha).1, hdop i' n hn ha (hcase n hn ha).2]
  case layers => exact fun n hn hg => absurd hg (by simp [hnone n hn])
  case width => exact fun n hn hg => absurd hg (by simp [hnone n hn])
  case input => exact fun n hn hg => absurd hg (by simp [hnone n hn])
  case volume =>
    intro lg hlg n hn hg iid
    have ha : n.asksInput = true := by simp [LGNode.asksInput, hg]
    rw [hvolume i lg hlg n hn ha (hcase n hn ha).1, hvolume i' lg hlg n hn ha (hcase n hn ha).2]

theorem orderFree_gatheredTwice : OrderFree gatheredTwice := by
  have hout : ∀ lk ∈ gatheredTwice.links, gatheredTwice.leavesGather lk = false := by decide
  have hnames : NamesApart gatheredTwice :=
    { texts := by decide, names := by decide +kernel, ports := by decide +kernel }
  refine ⟨hout, settled_gatheredTwice, fun lg placed h => ?_, fun lg placed h => ?_⟩
  · obtain ⟨-, -, -, hi, hg⟩ := built_ok h
    exact NamesApart.writesApart (hg.symm ▸ hnames) (hg.symm ▸ hout) hi
  · obtain ⟨-, -, -, hi, hg⟩ := built_ok h
    exact streamsAlike_of_same (hg.symm ▸ hout) hi (hg.symm ▸ by decide)

/-- A Gather between the data of a Scatter and an application that starts it. -/
def gatheredData : LogicalGraph where
  sessionId := "s"
  forest :=
    .cons { id := .int 1, category := .scatter, categoryType := .construct, isGroup := true
            keys := [("num_of_copies", .int 2)] }
      (.cons { id := .int 2, category := .file, categoryType := .data } .nil
        (.cons { id := .int 4, category := .pythonApp, categoryType := .application
                 keys := [("group_start", .bool true)] } .nil .nil))
      (.cons { id := .int 3, category := .gather, categoryType := .construct, isGroup := true
               keys := [("num_of_inputs", .int 1)] } .nil .nil)
  links := [{ source := .int 2, target := .int 3 }, { source := .int 3, target := .int 4 }]
  ids_nodup := by decide
  ids_ne_newAdded := by decide

end Daliuge.Unroll
