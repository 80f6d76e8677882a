import Daliuge.Unroll.Edges
import Daliuge.Unroll.Oids

/-!
# The relations of a template

Which drops the planned relations are between, what the relation lists of a template hold, and
which of its drops the clean-up leaves.
-/
namespace Daliuge.Unroll

open Collect

/-! The drops a node is wired by. -/

/-- A main drop of a node. -/
def IsMain (lg : LG) (placed : List Placed) (n : LGNode) (d : Drop) : Prop :=
  ∃ p ∈ placed, ∃ c, IsInstance lg n c ∧ p.IsPart lg n c .main ∧ p.drop = d

/-- The drop a node is read through: the data drop of a GroupBy, else a main one. -/
def Stands (lg : LG) (placed : List Placed) (n : LGNode) (d : Drop) : Prop :=
  ∃ p ∈ placed, ∃ c, IsInstance lg n c ∧ p.IsPart lg n c .main ∧
    if n.isConstruct .groupBy then p.grpData = some d else p.drop = d

section Ends

variable {lg : LG} {placed : List Placed} {slgn tlgn n : LGNode} {src tgt d s : Drop} {lk : Link}
  {x : Write} {a : Action} {as : List Action} {xs : List Write} {e : Drop × Drop}

theorem mem_nodes_of_node {g : LogicalGraph} {id : NodeId} (h : g.node id = .ok n) :
    n ∈ g.nodes ∧ n.id = id := by
  unfold LogicalGraph.node at h
  split at h
  · rename_i m hm
    cases h
    exact ⟨List.mem_of_find?_eq_some hm, by simpa using List.find?_some hm⟩
  · simp at h

theorem isMain_of_mem_dropsOf (hi : instantiate lg = .ok placed) (hn : n ∈ lg.graph.nodes)
    (h : d ∈ dropsOf placed n.id) : IsMain lg placed n d := by
  obtain ⟨p, hf, rfl⟩ := List.mem_map.mp h
  obtain ⟨hp, hk⟩ := List.mem_filter.mp hf
  obtain ⟨m, c, part, hm, hpart⟩ := isPart_of_mem_placed hi hp
  have hkey : p.key = n.id := by simpa using hk
  by_cases hmain : part = .main
  · subst hmain
    have hid : m.id = n.id := (hpart.main rfl).1.symm.trans hkey
    obtain rfl := eq_of_id (mem_nodes_of_started hm.1) hn hid
    exact ⟨p, hp, c, hm, hpart, rfl⟩
  · have hnew := (hpart.generated hmain).1
    exact absurd (hkey.symm.trans hnew) (lg.graph.ids_ne_newAdded n hn)

theorem node_of_isMain {m : LGNode} (h : IsMain lg placed n d) (h' : IsMain lg placed m s)
    (he : d.ident = s.ident) : n = m := by
  obtain ⟨p, -, c, hc, hpart, rfl⟩ := h
  obtain ⟨q, -, c', hc', hpart', rfl⟩ := h'
  rw [hpart.drop.ident, hpart'.drop.ident] at he
  exact eq_of_id (mem_nodes_of_started hc.1) (mem_nodes_of_started hc'.1)
    (Ident.made.inj he).1

/-- What stands for the source of an edge. -/
theorem sourceDrop_stands (hi : instantiate lg = .ok placed) (hd : IsMain lg placed n d)
    (h : sourceDrop placed n d = .ok (some s)) : Stands lg placed n s := by
  obtain ⟨p, hp, c, hc, hpart, rfl⟩ := hd
  unfold sourceDrop at h
  split at h
  · simp at h
  split at h
  · rename_i hg
    unfold grpDataDrop at h
    cases hf : (placed.find? fun q => q.drop.ident == p.drop.ident).bind (·.grpData) with
    | none => simp [hf, Except.map] at h
    | some g =>
      obtain rfl : g = s := by simpa [hf, Except.map] using h
      obtain ⟨q, hq, hqg⟩ := Option.bind_eq_some_iff.mp hf
      have hident : q.drop.ident = p.drop.ident := by simpa using List.find?_some hq
      obtain ⟨m, c', part, hc', hpart'⟩ := isPart_of_mem_placed hi (List.mem_of_find?_eq_some hq)
      rw [hpart'.drop.ident, hpart.drop.ident] at hident
      obtain ⟨hid, rfl, rfl⟩ := Ident.made.inj hident
      obtain rfl := eq_of_id (mem_nodes_of_started hc'.1) (mem_nodes_of_started hc.1) hid
      exact ⟨q, List.mem_of_find?_eq_some hq, c', hc', hpart', by simpa [hg] using hqg⟩
  · rename_i hg
    exact ⟨p, hp, c, hc, hpart, by simpa [hg] using h⟩

/-- The ends of what a link writes: the drop that stands for the source, and the target's. -/
theorem linkWrite_ends (hi : instantiate lg = .ok placed) (hs : IsMain lg placed slgn src)
    (h : linkWrite placed slgn tlgn src tgt lk = .ok x) :
    Stands lg placed slgn x.ends.1 ∧ x.ends.2 = tgt := by
  obtain ⟨sdrop, hsd, h⟩ := bind_ok.mp h
  cases sdrop with
  | none => simp at h
  | some sdrop =>
    have hst := sourceDrop_stands hi hs hsd
    simp only at h
    split at h
    · obtain rfl := pure_ok.mp h
      exact ⟨hst, rfl⟩
    split at h
    · obtain ⟨output, -, h⟩ := bind_ok.mp h
      obtain ⟨input, -, h⟩ := bind_ok.mp h
      obtain rfl := pure_ok.mp h
      exact ⟨hst, rfl⟩
    split at h
    · simp at h
    · obtain rfl := pure_ok.mp h
      exact ⟨hst, rfl⟩

/-- What an action holds is made of drops of the graph. -/
def Action.Sound (lg : LG) (placed : List Placed) : Action → Prop
  | .write x => (∃ n, Stands lg placed n x.ends.1) ∧ ∃ n, IsMain lg placed n x.ends.2
  | .gatherInput _ source data => IsMain lg placed source.node source.drop ∧
      ∀ d, data = some d → Stands lg placed source.node d
  | .gatherOutput _ target _ => ∃ n, IsMain lg placed n target
  | .hold _ => True

theorem edgeAction_sound (hi : instantiate lg = .ok placed) (hs : IsMain lg placed slgn e.1)
    (ht : IsMain lg placed tlgn e.2) (h : edgeAction placed slgn tlgn lk e = .ok a) :
    a.Sound lg placed := by
  unfold edgeAction at h
  split at h
  · cases hd : sourceDrop placed slgn e.1 with
    | error err => simp [hd, Except.map] at h
    | ok data =>
      rw [hd] at h
      cases h
      exact ⟨hs, fun d he => sourceDrop_stands hi hs (he ▸ hd)⟩
  split at h
  · split at h
    · simp at h
    · cases h
      exact ⟨tlgn, ht⟩
  · cases hx : linkWrite placed slgn tlgn e.1 e.2 lk with
    | error err => simp [hx, Except.map] at h
    | ok x =>
      rw [hx] at h
      cases h
      obtain ⟨hst, he⟩ := linkWrite_ends hi hs hx
      exact ⟨⟨slgn, hst⟩, tlgn, he ▸ ht⟩

theorem linkActions_sound (hi : instantiate lg = .ok placed)
    (h : linkActions lg placed lk = .ok as) (ha : a ∈ as) : a.Sound lg placed := by
  obtain ⟨slgn, hs, h⟩ := bind_ok.mp h
  obtain ⟨tlgn, ht, h⟩ := bind_ok.mp h
  split at h
  · obtain rfl := pure_ok.mp h
    obtain rfl := List.mem_singleton.mp ha
    trivial
  · obtain ⟨edges, hedges, h⟩ := bind_ok.mp h
    obtain ⟨e, he, as', has, ha⟩ := exists_of_mem_collect h ha
    obtain ⟨a', ha', has⟩ := bind_ok.mp has
    obtain rfl := pure_ok.mp has
    obtain rfl := List.mem_singleton.mp ha
    obtain ⟨h1, h2⟩ := resolveEdges_within hedges e he
    exact edgeAction_sound hi (isMain_of_mem_dropsOf hi (mem_nodes_of_node hs).1 h1)
      (isMain_of_mem_dropsOf hi (mem_nodes_of_node ht).1 h2) ha'

/-- What is held back for a Gather drop is made of drops of the graph. -/
def Gathered.Sound (lg : LG) (placed : List Placed) (g : Gathered) : Prop :=
  (∀ d, some d ∈ g.inputs → ∃ n, Stands lg placed n d) ∧
    ∀ d ∈ g.outputs, ∃ n, IsMain lg placed n d

theorem onGather_sound {gathers : List (String × Gathered)} {oid : String}
    {f : Gathered → Gathered} (h : ∀ g ∈ gathers, g.2.Sound lg placed)
    (hf : ∀ g : Gathered, g.Sound lg placed → (f g).Sound lg placed) :
    ∀ g ∈ onGather gathers oid lk f, g.2.Sound lg placed := by
  intro g hg
  unfold onGather at hg
  split at hg
  · obtain ⟨g', hg', rfl⟩ := List.mem_map.mp hg
    split
    · exact hf _ (h g' hg')
    · exact h g' hg'
  · rcases List.mem_append.mp hg with hg | hg
    · exact h g hg
    · obtain rfl := List.mem_singleton.mp hg
      exact hf _ ⟨by simp, by simp⟩

theorem gatherStep_sound {gathers : List (String × Gathered)} (ha : a.Sound lg placed)
    (h : ∀ g ∈ gathers, g.2.Sound lg placed) : ∀ g ∈ gatherStep gathers a, g.2.Sound lg placed := by
  cases a with
  | write x => exact h
  | hold lk => exact h
  | gatherInput oid source data =>
    refine onGather_sound (f := fun g => { g with inputs := g.inputs ++ [data] }) h
      fun g hg => ⟨fun d hd => ?_, hg.2⟩
    rcases List.mem_append.mp hd with hd | hd
    · exact hg.1 d hd
    · exact ⟨_, ha.2 d (List.mem_singleton.mp hd).symm⟩
  | gatherOutput oid target lk =>
    refine onGather_sound (f := fun g => { g with outputs := g.outputs ++ [target] }) h
      fun g hg => ⟨hg.1, fun d hd => ?_⟩
    rcases List.mem_append.mp hd with hd | hd
    · exact hg.2 d hd
    · exact List.mem_singleton.mp hd ▸ ha

theorem gathers_sound {gathers : List (String × Gathered)} (ha : ∀ a ∈ as, a.Sound lg placed)
    (h : ∀ g ∈ gathers, g.2.Sound lg placed) :
    ∀ g ∈ as.foldl gatherStep gathers, g.2.Sound lg placed := by
  induction as generalizing gathers with
  | nil => exact h
  | cons a as ih =>
    exact ih (fun b hb => ha b (by simp [hb])) (gatherStep_sound (ha a (by simp)) h)

theorem splicedWrites_ends {last : Option LGNode} {g : Gathered} (hg : g.Sound lg placed)
    (h : splicedWrites last g = .ok xs) (hx : x ∈ xs) :
    (∃ n, Stands lg placed n x.ends.1) ∧ ∃ n, IsMain lg placed n x.ends.2 := by
  unfold splicedWrites at h
  split at h
  · cases h
    simp at hx
  · rename_i output rest ho
    obtain ⟨input, hin, ys, hys, hx⟩ := exists_of_mem_collect h hx
    cases input with
    | none => simp at hys
    | some data =>
      cases hys
      obtain rfl := List.mem_singleton.mp hx
      exact ⟨hg.1 data hin, hg.2 output (by simp [ho])⟩

theorem mem_window {chainable targets : List Drop} {first last : Nat}
    (h : e ∈ window chainable targets first last) : e.1 ∈ chainable ∧ e.2 ∈ targets := by
  obtain ⟨⟨t, k⟩, ht, he⟩ := List.mem_filterMap.mp h
  obtain ⟨d, hd, rfl⟩ := Option.map_eq_some_iff.mp he
  have hm := List.mem_of_mem_drop (List.fst_mem_of_mem_zipIdx ht)
  exact ⟨List.mem_of_getElem? hd, List.mem_of_mem_take hm⟩

theorem mem_sequentialEdges {gather target : LGNode} {targets : List Drop} {index : Nat}
    {ins : List (Option Drop)} {edges : List (Drop × Drop)}
    (h : sequentialEdges lg gather target targets index ins = .ok edges) (he : e ∈ edges) :
    some e.1 ∈ ins ∧ e.2 ∈ targets := by
  unfold sequentialEdges at h
  simp only at h
  split at h
  · obtain rfl := pure_ok.mp h
    simp at he
  obtain ⟨width, -, h⟩ := bind_ok.mp h
  obtain ⟨dop, -, h⟩ := bind_ok.mp h
  split at h
  · obtain rfl := pure_ok.mp h
    simp at he
  split at h
  · simp at h
  split at h
  · obtain rfl := pure_ok.mp h
    simp at he
  · obtain rfl := pure_ok.mp h
    obtain ⟨h1, h2⟩ := mem_window he
    exact ⟨by simpa using h1, h2⟩

theorem chainedWrites_ends (hi : instantiate lg = .ok placed)
    (ha : ∀ a ∈ as, a.Sound lg placed) (h : chainedWrites lg placed (sourcesOf as) lk = .ok xs)
    (hx : x ∈ xs) : (∃ n, Stands lg placed n x.ends.1) ∧ ∃ n, IsMain lg placed n x.ends.2 := by
  obtain ⟨slgn, hs, h⟩ := bind_ok.mp h
  obtain ⟨tlgn, ht, h⟩ := bind_ok.mp h
  obtain ⟨edges, hedges, h⟩ := bind_ok.mp h
  obtain ⟨e, he, ys, hys, hx⟩ := exists_of_mem_collect h hx
  split at hys
  · simp at hys
  rename_i source hf
  obtain ⟨y, hy, hys⟩ := bind_ok.mp hys
  obtain rfl := pure_ok.mp hys
  obtain rfl := List.mem_singleton.mp hx
  have hmain : ∀ s ∈ (sourcesByDrop (sourcesOf as) (dropsOf placed slgn.id)).flatten,
      IsMain lg placed s.node s.drop := by
    intro s hs
    obtain ⟨l, hl, hs⟩ := List.mem_flatten.mp hs
    obtain ⟨ga, -, rfl⟩ := List.mem_map.mp hl
    obtain ⟨⟨oid, s'⟩, hs', rfl⟩ := List.mem_map.mp hs
    obtain ⟨a, ham, hsome⟩ := List.mem_filterMap.mp (List.mem_filter.mp hs').1
    cases a with
    | gatherInput oid' source data =>
      cases hsome
      exact (ha _ ham).1
    | write x => simp at hsome
    | gatherOutput oid' target lk' => simp at hsome
    | hold lk' => simp at hsome
  have hident : source.drop.ident = e.1.ident := by simpa using List.find?_some hf
  obtain ⟨⟨ss, index⟩, hm, es, hes, he⟩ := exists_of_mem_collect hedges he
  obtain ⟨h1, h2⟩ := mem_sequentialEdges hes he
  have htm := isMain_of_mem_dropsOf hi (mem_nodes_of_node ht).1 h2
  -- the input of the edge is the drop of one of the sources, found again by its ident
  obtain ⟨s', hs', he1⟩ := List.mem_map.mp h1
  have hflat : s' ∈ (sourcesByDrop (sourcesOf as) (dropsOf placed slgn.id)).flatten :=
    List.mem_flatten.mpr ⟨ss, List.fst_mem_of_mem_zipIdx hm, hs'⟩
  have hdrop : s'.drop = e.1 := by
    split at he1
    · simp at he1
    · simpa using he1
  have hsm := hmain s' hflat
  rw [hdrop] at hsm
  have hsource := hmain source (List.mem_reverse.mp (List.mem_of_find?_eq_some hf))
  rw [node_of_isMain hsm hsource hident.symm] at hsm
  obtain ⟨hst, hend⟩ := linkWrite_ends hi hsm hy
  exact ⟨⟨_, hst⟩, tlgn, hend ▸ htm⟩

/-- Everything planned joins drops of the graph. -/
theorem plan_ends (hi : instantiate lg = .ok placed) (h : plan lg placed = .ok xs) (hx : x ∈ xs) :
    (∃ n, Stands lg placed n x.ends.1) ∧ ∃ n, IsMain lg placed n x.ends.2 := by
  obtain ⟨as, has, h⟩ := bind_ok.mp h
  obtain ⟨chained, hchained, h⟩ := bind_ok.mp h
  obtain ⟨spliced, hspliced, h⟩ := bind_ok.mp h
  obtain rfl := pure_ok.mp h
  have hsound : ∀ a ∈ as, a.Sound lg placed := by
    intro a ha
    obtain ⟨lk, -, as', has', ha⟩ := exists_of_mem_collect has ha
    exact linkActions_sound hi has' ha
  rcases List.mem_append.mp hx with hx | hx
  · rcases List.mem_append.mp hx with hx | hx
    · obtain ⟨a, ha, hsome⟩ := List.mem_filterMap.mp hx
      cases a with
      | write y =>
        cases hsome
        exact hsound _ ha
      | gatherInput oid source data => simp at hsome
      | gatherOutput oid target lk => simp at hsome
      | hold lk => simp at hsome
    · obtain ⟨lk, -, ys, hys, hx⟩ := exists_of_mem_collect hchained hx
      exact chainedWrites_ends hi hsound hys hx
  · obtain ⟨g, hg, ys, hys, hx⟩ := exists_of_mem_collect hspliced hx
    exact splicedWrites_ends (gathers_sound hsound (by simp) g hg) hys hx

end Ends

/-! The relations of a template. -/

/-- The relation a GroupBy or Gather drop is made with. -/
def OwnRelation (lg : LG) (placed : List Placed) (e : Relation) : Prop :=
  ∃ p ∈ placed, ∃ n c part, IsInstance lg n c ∧ p.IsPart lg n c .main ∧
    e.kind = .output ∧ e.source = p.drop ∧ e.target.IsPart lg n c part ∧
    (part = .grpData ∧ n.isConstruct .groupBy = true ∧ p.grpData = some e.target ∨
      part = .gatherData ∧ n.isConstruct .gather = true) ∧
    p.relations = Relations.relate [] e

/-- A listener made beside the drop of a Start node, which it alone knows of. -/
def OwnListener (lg : LG) (placed : List Placed) (socket main : Drop) : Prop :=
  ∃ p ∈ placed, ∃ n c name, IsInstance lg n c ∧ p.IsPart lg n c .main ∧
    isStartListener lg n = true ∧ socket.IsPart lg n c .listener ∧ main = p.drop ∧
    p.relations = Relations.addOutput [] socket p.drop name

/-- The relations that are told to both of their drops. -/
def Told (lg : LG) (placed : List Placed) (xs : List Write) (e : Relation) : Prop :=
  OwnRelation lg placed e ∨ e ∈ expand lg.graph.sessionId [] xs

section Relations

variable {g : LogicalGraph} {tpl : Template} {lg : LG} {placed : List Placed} {xs : List Write}
  {deleted : List NodeId} {i : Ident} {k : RelationKey} {oid : String} {e : Relation}

theorem lists_flatMap {l : List Placed} : Relations.Lists (l.flatMap (·.relations)) i k oid ↔
    ∃ p ∈ l, Relations.Lists p.relations i k oid := by
  simp only [Relations.Lists, List.mem_flatMap]
  constructor
  · rintro ⟨e, ⟨p, hp, he⟩, ho⟩
    exact ⟨p, hp, e, he, ho⟩
  · rintro ⟨p, hp, e, he, ho⟩
    exact ⟨e, ⟨p, hp, he⟩, ho⟩

theorem lists_nil : ¬ Relations.Lists [] i k oid := by simp [Relations.Lists]

theorem lists_start (hi : instantiate lg = .ok placed) (hk : k ≠ .ports) :
    (startLedger placed).relations.Lists i k oid ↔
      (∃ e, OwnRelation lg placed e ∧ e.Tells i k oid) ∨ ∃ socket main,
        OwnListener lg placed socket main ∧ i = socket.ident ∧ k = .outputs ∧ oid = main.oid := by
  rw [startLedger, lists_flatMap]
  constructor
  · rintro ⟨p, hp, hl⟩
    obtain ⟨n, c, part, hc, hpart⟩ := isPart_of_mem_placed hi hp
    by_cases hmain : part = .main
    · subst hmain
      obtain ⟨-, m, hm, hd, hg, hr⟩ := hpart.main rfl
      rw [hr] at hl
      cases hm.beside with
      | nothing hs' hn' hg' hl' hr' =>
        rw [hr'] at hl
        exact absurd hl lists_nil
      | listener socket name hn hs hg' hl' hr' =>
        rw [hr', Relations.addOutput, lists_add hk] at hl
        refine Or.inr ⟨socket, p.drop, ⟨p, hp, n, c, name, hc, hpart, hn, hs, rfl, ?_⟩, ?_⟩
        · rw [hr, hr', hd]
        · simpa [lists_nil, hd] using hl
      | grpData data name hn hs hg' hl' hr' =>
        have hrel : m.relations = Relations.relate [] ⟨.output, m.drop, data, name, name⟩ := hr'
        rw [hrel, lists_relate hk] at hl
        refine Or.inl ⟨⟨.output, m.drop, data, name, name⟩, ?_, by simpa [lists_nil] using hl⟩
        exact ⟨p, hp, n, c, .grpData, hc, hpart, rfl, hd.symm, hs,
          Or.inl ⟨rfl, hn.1, hg.trans hg'⟩, hr.trans hrel⟩
      | gatherData data name hn hs hg' hl' hr' =>
        have hrel : m.relations = Relations.relate [] ⟨.output, m.drop, data, name, name⟩ := hr'
        rw [hrel, lists_relate hk] at hl
        refine Or.inl ⟨⟨.output, m.drop, data, name, name⟩, ?_, by simpa [lists_nil] using hl⟩
        exact ⟨p, hp, n, c, .gatherData, hc, hpart, rfl, hd.symm, hs, Or.inr ⟨rfl, hn⟩,
          hr.trans hrel⟩
    · rw [(hpart.generated hmain).2.2] at hl
      exact absurd hl lists_nil
  · rintro (⟨e, ⟨p, hp, n, c, part, -, -, -, -, -, -, hr⟩, ht⟩ |
      ⟨socket, main, ⟨p, hp, n, c, name, -, -, -, -, rfl, hr⟩, rfl, rfl, rfl⟩)
    · refine ⟨p, hp, ?_⟩
      rw [hr, lists_relate hk]
      exact Or.inr ht
    · refine ⟨p, hp, ?_⟩
      rw [hr, Relations.addOutput, lists_add hk]
      exact Or.inr ⟨rfl, rfl, rfl⟩

/-- What the relation lists of a template hold. -/
theorem lists_template (hu : Unrolled g tpl lg placed xs deleted) (hk : k ≠ .ports) :
    tpl.relations.Lists i k oid ↔ (∃ e, Told lg placed xs e ∧ e.Tells i k oid) ∨
      ∃ socket main, OwnListener lg placed socket main ∧ i = socket.ident ∧ k = .outputs ∧
        oid = main.oid := by
  rw [hu.relations, finalLedger, relations_foldl_write, lists_foldl_relate hk,
    lists_start hu.instantiated hk]
  have hb : (startLedger placed).bridges = [] := rfl
  rw [hb]
  simp only [Told, or_and_right, exists_or]
  exact or_right_comm

/-! Which drop an oid stands for. -/

/-- A drop of a node. -/
def IsMade (lg : LG) (d : Drop) : Prop := ∃ n c part, IsInstance lg n c ∧ d.IsPart lg n c part

theorem IsMain.isMade {n : LGNode} {d : Drop} (h : IsMain lg placed n d) : IsMade lg d := by
  obtain ⟨p, -, c, hc, hpart, rfl⟩ := h
  exact ⟨n, c, .main, hc, hpart.drop⟩

/-- What stands for a node is one of its own drops. -/
theorem Stands.exists_part {n : LGNode} {d : Drop} (h : Stands lg placed n d) :
    ∃ p ∈ placed, ∃ c part, IsInstance lg n c ∧ p.IsPart lg n c .main ∧ d.IsPart lg n c part ∧
      if n.isConstruct .groupBy then p.grpData = some d else p.drop = d := by
  obtain ⟨p, hp, c, hc, hpart, hd⟩ := h
  have hd' := hd
  split at hd'
  · obtain ⟨-, m, hm, -, hg, -⟩ := hpart.main rfl
    rw [hg] at hd'
    cases hm.beside with
    | nothing hs hn hg' => simp [hg'] at hd'
    | listener socket name hn hs hg' => simp [hg'] at hd'
    | grpData data name hn hs hg' =>
      obtain rfl : data = d := by simpa [hg'] using hd'
      exact ⟨p, hp, c, .grpData, hc, hpart, hs, hd⟩
    | gatherData data name hn hs hg' => simp [hg'] at hd'
  · subst hd'
    exact ⟨p, hp, c, .main, hc, hpart, hpart.drop, hd⟩

theorem Stands.isMade {n : LGNode} {d : Drop} (h : Stands lg placed n d) : IsMade lg d := by
  obtain ⟨p, -, c, part, hc, -, hd, -⟩ := h.exists_part
  exact ⟨n, c, part, hc, hd⟩

theorem IsMade.ident_eq {d d' : Drop} (hx : lg.graph.TextsApart) (h : IsMade lg d)
    (h' : IsMade lg d') (ho : d.oid = d'.oid) : d.ident = d'.ident := by
  obtain ⟨n, c, part, hc, hd⟩ := h
  obtain ⟨m, c', part', hc', hd'⟩ := h'
  obtain ⟨rfl, rfl, rfl⟩ := part_eq_of_oid_eq hx hc hc' hd hd' ho
  rw [hd.ident, hd'.ident]

theorem IsMade.oid_eq {d d' : Drop} (h : IsMade lg d) (h' : IsMade lg d')
    (hi : d.ident = d'.ident) : d.oid = d'.oid := by
  obtain ⟨n, c, part, hc, hd⟩ := h
  obtain ⟨m, c', part', hc', hd'⟩ := h'
  rw [hd.ident, hd'.ident] at hi
  obtain ⟨hid, rfl, rfl⟩ := Ident.made.inj hi
  rw [hd.oid, hd'.oid, hid]

/-- The oid of a bridge ends in a letter no oid of a node's drop ends in. -/
theorem IsMade.oid_ne_bridge {d : Drop} (h : IsMade lg d) (sid s t : String) :
    d.oid ≠ bridgeOid sid s t := by
  obtain ⟨n, c, part, ⟨-, is, -, hc⟩, hd⟩ := h
  have hw := wireChars_ownCoords (wireChars_descend wireChars_root) hc
  intro he
  rw [hd.oid] at he
  have hl := congrArg (fun o : String => o.toList.getLast?) he
  have hstream : (bridgeOid sid s t).toList.getLast? = some 'm' := by
    rw [bridgeOid, String.toList_append, List.getLast?_append]
    rfl
  simp only [hstream] at hl
  cases part with
  | main =>
    have hsplit : (lg.graph.makeOid n.id c ++ Part.main.ending).toList =
        (lg.graph.sessionId ++ "_" ++ n.id.text).toList ++ '_' :: c.wire.toList := by
      simp [Part.ending, LogicalGraph.makeOid]
    have hm : ('_' :: c.wire.toList).getLast? = some 'm' := by
      rw [hsplit, List.getLast?_append_of_ne_nil _ (by simp)] at hl
      exact hl
    rcases List.mem_cons.mp (List.mem_of_getLast? hm) with hu | hx
    · exact absurd hu (by decide)
    · exact absurd (hw _ hx) (by decide)
  | grpData => simp [Part.ending] at hl
  | gatherData => simp [Part.ending] at hl
  | listener => simp [Part.ending] at hl

/-- A relation joins two drops of nodes, or a bridge with one of the drops it is between. -/
theorem told_cases (hu : Unrolled g tpl lg placed xs deleted) (h : Told lg placed xs e) :
    IsMade lg e.source ∧ IsMade lg e.target ∨
    ∃ s t n, .bridge s t ∈ xs ∧ IsMade lg s ∧ IsMade lg t ∧
      bridgeDrop lg.graph.sessionId s t n ∈ (finalLedger lg placed xs).bridges ∧
      e ∈ bridgeRelations s t (bridgeDrop lg.graph.sessionId s t n) := by
  rcases h with ⟨p, hp, n, c, part, hc, hpart, -, hs, ht, -⟩ | h
  · exact Or.inl ⟨⟨n, c, .main, hc, hs ▸ hpart.drop⟩, n, c, part, hc, ht⟩
  · rcases mem_expand (w := startLedger placed) h with h | ⟨s, t, n, hm, hb, he⟩
    · obtain ⟨⟨n, hs⟩, m, ht⟩ := plan_ends hu.instantiated hu.planned h
      exact Or.inl ⟨hs.isMade, ht.isMade⟩
    · obtain ⟨⟨n', hs⟩, m, ht⟩ := plan_ends hu.instantiated hu.planned hm
      exact Or.inr ⟨s, t, n, hm, hs.isMade, ht.isMade, hb, he⟩

theorem mem_bridges_final {b : Drop} (h : b ∈ (finalLedger lg placed xs).bridges) :
    ∃ s t n, .bridge s t ∈ xs ∧ b = bridgeDrop lg.graph.sessionId s t n ∧
      ∀ e ∈ bridgeRelations s t b, Told lg placed xs e := by
  rcases mem_bridges h with h | ⟨s, t, n, hm, hb, hs⟩
  · simp [startLedger] at h
  · exact ⟨s, t, n, hm, hb, fun e he => Or.inr (hs he)⟩

end Relations

/-! What the clean-up leaves. -/

/-- The nodes whose drops only held a place: Start nodes, Gathers and SubGraph constructs. -/
def LGNode.isPlaceholder (n : LGNode) : Bool :=
  n.node.isStartNode || (!n.isConstruct .groupBy && (n.isConstruct .gather ||
    (n.isConstruct .subGraph && n.node.isSubGraphConstruct == some true)))

/-- Whether a drop of this oid is still there after the clean-up. -/
def Stays (lg : LG) (placed : List Placed) (oid : String) : Prop :=
  ∃ p ∈ placed, p.drop.oid = oid ∧ ∀ n ∈ lg.graph.nodes, n.id = p.key →
    n.isPlaceholder = false

section CleanUp

variable {g : LogicalGraph} {tpl : Template} {lg : LG} {placed : List Placed} {xs : List Write}
  {deleted : List NodeId} {n : LGNode} {p : Placed} {d : Drop}

theorem cleanUp_eq {delete : Bool} (hk : hasKey lg placed n = true)
    (h : cleanUp lg placed n = .ok delete) : delete = n.isPlaceholder := by
  unfold cleanUp at h
  unfold LGNode.isPlaceholder
  simp only [hk, Bool.and_true, if_true] at h
  split at h
  · rename_i hs
    cases h
    simp [hs]
  rename_i hs
  have hl : isStartListener lg n = false := by
    simp only [Node.isStartNode, beq_iff_eq] at hs
    simp [isStartListener, hs]
  simp only [hl, Bool.false_or] at h
  simp only [Bool.not_eq_true] at hs
  split at h
  · rename_i hg
    cases h
    simp [hs, hg]
  rename_i hg
  split at h
  · rename_i ha
    cases h
    simp [hs, hg, ha]
  rename_i ha
  split at h
  · rename_i hc
    split at h
    · simp at h
    · rename_i hm
      cases h
      simp [hs, hg, ha, hc, hm]
    · rename_i hm
      cases h
      simp [hs, hg, ha, hc, hm]
  · rename_i hc
    cases h
    simp [hs, hg, ha, hc]

theorem mem_deletedKeys (h : deletedKeys lg placed = .ok deleted) (hp : p ∈ placed) :
    p.key ∈ deleted ↔ ∃ n ∈ lg.graph.nodes, n.id = p.key ∧ n.isPlaceholder = true := by
  obtain ⟨f, hf, rfl⟩ := exists_of_collect h
  have hkey : ∀ n : LGNode, n.id = p.key → hasKey lg placed n = true := by
    intro n hn
    have hm : p.drop ∈ dropsOf placed n.id :=
      List.mem_map.mpr ⟨p, List.mem_filter.mpr ⟨hp, by simp [hn]⟩, rfl⟩
    have hne : dropsOf placed n.id ≠ [] := List.ne_nil_of_mem hm
    simp [hasKey, hne]
  rw [List.mem_flatMap]
  refine exists_congr fun n => and_congr_right fun hn => ?_
  obtain ⟨delete, hd, he⟩ := bind_ok.mp (hf n hn)
  rw [← pure_ok.mp he]
  constructor
  · intro hm
    split at hm
    · have htext := (List.mem_singleton.mp hm).symm
      refine ⟨htext, ?_⟩
      rw [← cleanUp_eq (hkey n htext) hd]
      assumption
    · simp at hm
  · rintro ⟨htext, hph⟩
    rw [← cleanUp_eq (hkey n htext) hd] at hph
    simp [hph, htext]

/-- The drops of a template: those that stay, and the bridges. -/
theorem mem_drops (hu : Unrolled g tpl lg placed xs deleted) : d ∈ tpl.drops ↔
    (∃ p ∈ placed, p.drop = d ∧ ∀ n ∈ lg.graph.nodes, n.id = p.key →
      n.isPlaceholder = false) ∨ d ∈ (finalLedger lg placed xs).bridges := by
  rw [hu.drops, List.mem_append]
  refine or_congr ?_ Iff.rfl
  constructor
  · intro h
    obtain ⟨p, hp, rfl⟩ := List.mem_map.mp h
    obtain ⟨hp, hk⟩ := List.mem_filter.mp hp
    have hk : p.key ∉ deleted := by simpa using hk
    rw [mem_deletedKeys hu.cleaned hp] at hk
    exact ⟨p, hp, rfl, fun n hn ht => by
      by_contra hph
      exact hk ⟨n, hn, ht, by simpa using hph⟩⟩
  · rintro ⟨p, hp, rfl, hk⟩
    refine List.mem_map.mpr ⟨p, List.mem_filter.mpr ⟨hp, ?_⟩, rfl⟩
    have hd : p.key ∉ deleted := by
      rw [mem_deletedKeys hu.cleaned hp]
      rintro ⟨n, hn, ht, hph⟩
      simp [hk n hn ht] at hph
    simpa using hd

end CleanUp

end Daliuge.Unroll
