import Daliuge.Repro.Scheme

/-!
# What the two walks compute

The hashes `build_blockdag` and `lg_build_blockdag` come to, for a graph without cycles whose
drops own their reprodata.
-/
namespace Daliuge.Repro

open Kahn Cascade Collect

variable {C O H : Type} [DecidableEq O]

/-! Physical graphs. -/

namespace DropList

/-- The graph has no cycles, and its edges lead to drops of the list. -/
structure Dag (G : DropList C O) : Prop where
  closed : ∀ d ∈ G.drops, ∀ o ∈ d.neighbours, o ∈ G.oids
  acyclic : Acyclic G.oids G.neighbours

/-- Every drop owns an entry for the mode, complete for the level that is hashed: with what the
block is made of, with the category where the mode looks at it, and with nothing handed on
yet. -/
structure Complete (M : Merkle H) (G : DropList C O) (a : Abstraction) (level : Mode)
    (st : Store C O H) : Prop where
  owns : ∀ d ∈ G.drops, ∀ d' ∈ G.drops, d.cell = d'.cell → d = d'
  entry : ∀ d ∈ G.drops, ∃ e l, st d.cell level = some e ∧ a.own M e = .ok l ∧
    e.parenthashes a.layer = some []
  category : ∀ d ∈ G.drops, effective d.rmode level = .reproduce →
    ∃ t, st.ctype d.cell .reproduce = .ok t

variable (G : DropList C O)

/-- What a drop hands on. -/
def kind (level : Mode) (st : Store C O H) (d : Drop C O) : Kind :=
  match effective d.rmode level with
  | .nothing => .silent
  | .reproduce =>
    match st.ctype d.cell .reproduce with
    | .ok t => if isData t && G.isRoot d.oid then .own else .relay
    | .error _ => .relay
  | .rerun => if d.onCriticalPath then .own else .silent
  | _ => .own

/-- What the walk over the drops goes by. -/
def scheme [Inhabited C] (M : Merkle H) (a : Abstraction) (level : Mode) (st : Store C O H) :
    Scheme C O H where
  verts := G.oids
  succ := G.neighbours
  cell o := ((G.drop o).map (·.cell)).getD default
  kind o := ((G.drop o).map (G.kind level st)).getD .silent
  own := a.own M
  layer := a.layer
  level := level

variable {G} {M : Merkle H} {a : Abstraction} {level : Mode} {st₀ st : Store C O H}
  {d n : Drop C O} {o : O}

theorem drop_eq (hd : d ∈ G.drops) : G.drop d.oid = some d :=
  Association.find?_key G.distinct hd

omit [DecidableEq O] in
theorem exists_of_mem_oids (ho : o ∈ G.oids) : ∃ d ∈ G.drops, d.oid = o := List.mem_map.mp ho

omit [DecidableEq O] in
theorem mem_oids (hd : d ∈ G.drops) : d.oid ∈ G.oids := List.mem_map_of_mem hd

theorem eq_of_oid (hd : d ∈ G.drops) (hn : n ∈ G.drops) (h : d.oid = n.oid) : d = n :=
  Option.some.inj ((drop_eq hd).symm.trans ((congrArg G.drop h).trans (drop_eq hn)))

theorem neighbours_eq (hd : d ∈ G.drops) : G.neighbours d.oid = d.neighbours := by
  simp [neighbours, drop_eq hd]

theorem isRoot_iff {o : O} : G.isRoot o = true ↔ ¬ ∃ u, Kahn.Edge G.oids G.neighbours u o := by
  rw [isRoot, beq_iff_eq, indegree, List.count_eq_zero, List.mem_flatMap]
  rfl

theorem Dag.closed_oids (h : G.Dag) : ∀ u ∈ G.oids, ∀ v ∈ G.neighbours u, v ∈ G.oids := by
  intro u hu v hv
  obtain ⟨d, hd, rfl⟩ := exists_of_mem_oids hu
  exact h.closed d hd v (by rwa [neighbours_eq hd] at hv)

theorem Dag.checkDests (h : G.Dag) : G.checkDests = .ok () := by
  unfold DropList.checkDests
  split
  · rename_i o ho
    obtain ⟨d, hd, hod⟩ := List.mem_flatMap.mp (List.mem_of_find?_eq_some ho)
    exact absurd (h.closed d hd o hod) (by simpa using List.find?_some ho)
  · rfl

end DropList

omit [DecidableEq O] in
theorem own_framed (M : Merkle H) (a : Abstraction) (e : Entry O H) (block : Option H)
    (handed : List (O × H)) : a.own M (Entry.written a.layer block handed e) = a.own M e := by
  cases a <;> cases block <;> rfl

namespace DropList

variable {G : DropList C O} {M : Merkle H} {a : Abstraction} {level : Mode}
  {st₀ st : Store C O H} {d n : Drop C O} [Inhabited C]

theorem scheme_cell (hd : d ∈ G.drops) : (G.scheme M a level st).cell d.oid = d.cell := by
  simp [scheme, drop_eq hd]

theorem scheme_kind (hd : d ∈ G.drops) :
    (G.scheme M a level st).kind d.oid = G.kind level st d := by
  simp [scheme, drop_eq hd]

theorem scheme_ownHashes (hd : d ∈ G.drops) {e : Entry O H} {l : List H}
    (he : st d.cell level = some e) (hl : a.own M e = .ok l) :
    (G.scheme M a level st).ownHashes st d.oid = l := by
  have he' : st ((G.scheme M a level st).cell d.oid) (G.scheme M a level st).level = some e := by
    rw [scheme_cell hd]
    exact he
  have hl' : (G.scheme M a level st).own e = .ok l := hl
  simp [Scheme.ownHashes, he', hl']

/-- Drops may share an entry when the same digests come to them. -/
structure Prepared (M : Merkle H) (G : DropList C O) (a : Abstraction) (level : Mode)
    (st : Store C O H) : Prop where
  alike : ∀ d ∈ G.drops, ∀ d' ∈ G.drops, d.cell = d'.cell →
    ((G.scheme M a level st).cascade st M).Alike d.oid d'.oid
  entry : ∀ d ∈ G.drops, ∃ e l, st d.cell level = some e ∧ a.own M e = .ok l ∧
    e.parenthashes a.layer = some []
  category : ∀ d ∈ G.drops, effective d.rmode level = .reproduce →
    ∃ t, st.ctype d.cell .reproduce = .ok t

theorem Complete.prepared (h : G.Complete M a level st) : G.Prepared M a level st where
  alike d hd d' hd' hc := by
    rw [h.owns d hd d' hd' hc]
    exact fun _ => Iff.rfl
  entry := h.entry
  category := h.category

theorem Prepared.ready (h : G.Prepared M a level st) : (G.scheme M a level st).Ready st M where
  alike u hu v hv hc := by
    obtain ⟨d, hd, rfl⟩ := exists_of_mem_oids hu
    obtain ⟨d', hd', rfl⟩ := exists_of_mem_oids hv
    rw [scheme_cell hd, scheme_cell hd'] at hc
    exact h.alike d hd d' hd' hc
  entry v hv := by
    obtain ⟨d, hd, rfl⟩ := exists_of_mem_oids hv
    rw [scheme_cell hd]
    exact h.entry d hd

theorem shows_entry {s : State O H} (hsh : (G.scheme M a level st₀).Shows st₀ st s)
    (hd : d ∈ G.drops) : ∃ b hs, st d.cell level =
      (st₀ d.cell level).map (Entry.written a.layer b hs) ∧
      (∀ x, s.block d.oid = some x → b = some x) := by
  obtain ⟨b, hs, he, hr⟩ := hsh.entry d.oid (mem_oids hd)
  rw [scheme_cell hd] at he hr
  exact ⟨b, hs, he, fun x hx => (hr.block x).mpr ⟨d.oid, mem_oids hd, scheme_cell hd, hx⟩⟩

/-- The category a drop is recorded with does not change in a walk. -/
theorem ctype_eq {s : State O H} (hsh : (G.scheme M a level st₀).Shows st₀ st s)
    (hd : d ∈ G.drops) : st.ctype d.cell .reproduce = st₀.ctype d.cell .reproduce := by
  by_cases hm : Mode.reproduce = level
  · subst hm
    obtain ⟨b, hs, he, -⟩ := shows_entry hsh hd
    simp only [Store.ctype, Store.entry, he]
    cases st₀ d.cell .reproduce with
    | none => rfl
    | some e => rfl
  · have he := hsh.frame d.cell .reproduce fun h => absurd h hm
    simp [Store.ctype, Store.entry, he]

/-- A drop all of whose edges are behind the walk hands on what its kind says. -/
theorem passHash_eq [DecidableEq C] {s : State O H} (hc : G.Prepared M a level st₀)
    (hsh : (G.scheme M a level st₀).Shows st₀ st s) (hd : d ∈ G.drops) (hn : n ∈ G.drops)
    (hedge : n.oid ∈ d.neighbours) (hb : s.block d.oid ≠ none) :
    passHash G a level d n 0 st = (G.scheme M a level st₀).handOn d.oid n.oid st := by
  obtain ⟨e, l, he, -, -⟩ := hc.entry d hd
  obtain ⟨x, hx⟩ := Option.ne_none_iff_exists'.mp hb
  obtain ⟨b, hs, hst, hbx⟩ := shows_entry hsh hd
  obtain rfl := hbx x hx
  have hentry : st.entry d.cell level = .ok (Entry.written a.layer (some x) hs e) := by
    rw [Store.entry, hst, he]
    rfl
  have hleaf : G.isLeaf d.oid = false := by
    rw [isLeaf, neighbours_eq hd]
    exact List.isEmpty_eq_false_iff.mpr (List.ne_nil_of_mem hedge)
  -- the hash itself, or those handed on before, whichever the kind says
  have hown : G.kind level st₀ d = .own →
      (G.scheme M a level st₀).handOn d.oid n.oid st =
        st.modify n.cell level (takeParenthash a.layer [(d.oid, x)]) := by
    intro hk
    rw [Scheme.handOn, scheme_kind hd, hk, scheme_cell hd, scheme_cell hn]
    simp only [scheme, hentry, ok_bind, Scheme.written_blockhash, key]
  have hrelay : G.kind level st₀ d = .relay →
      (G.scheme M a level st₀).handOn d.oid n.oid st =
        st.modify n.cell level (takeParenthash a.layer hs) := by
    intro hk
    rw [Scheme.handOn, scheme_kind hd, hk, scheme_cell hd, scheme_cell hn]
    simp only [scheme, hentry, ok_bind, Scheme.written_parenthashes, key]
  have hsilent : G.kind level st₀ d = .silent →
      (G.scheme M a level st₀).handOn d.oid n.oid st = .ok st := by
    intro hk
    rw [Scheme.handOn, scheme_kind hd, hk]
  unfold passHash
  cases hm : effective d.rmode level with
  | nothing =>
    rw [hsilent (by simp [kind, hm])]
    rfl
  | reproduce =>
    obtain ⟨t, ht⟩ := hc.category d hd hm
    have hct : st.ctype d.cell .reproduce = .ok t := (ctype_eq hsh hd).trans ht
    cases hterm : isData t && G.isRoot d.oid with
    | true =>
      rw [hown (by simp [kind, hm, ht, hterm])]
      simp only [Bool.and_eq_true] at hterm
      simp [hct, hterm, hentry, ok_bind, parenthash, key, pure, Except.pure]
    | false =>
      have himp : isData t = true → G.isRoot d.oid = false := by simpa using hterm
      rw [hrelay (by simp [kind, hm, ht, hterm])]
      simp [hct, hleaf, hentry, ok_bind, parenthash, key, pure, Except.pure, if_pos himp]
  | rerun =>
    cases hcrit : d.onCriticalPath with
    | true =>
      rw [hown (by simp [kind, hm, hcrit])]
      simp [hentry, ok_bind, parenthash, key, pure, Except.pure]
    | false =>
      rw [hsilent (by simp [kind, hm, hcrit])]
      simp [hentry, ok_bind, parenthash, key, pure, Except.pure]
  | _ =>
    rw [hown (by simp [kind, hm])]
    simp [hentry, ok_bind, parenthash, key, pure, Except.pure]

omit [DecidableEq O] in
theorem blockBuilder_eq [LinearOrder H] :
    a.blockBuilder (O := O) M = buildBlockData M a.layer (a.own M) := by
  cases a <;> rfl

theorem Prepared.follows [DecidableEq C] [LinearOrder H] (hg : G.Dag)
    (hc : G.Prepared M a level st₀) :
    (G.scheme M a level st₀).Follows st₀ M (G.visitor M a level) where
  enter o ho st := by
    obtain ⟨d, hd, rfl⟩ := exists_of_mem_oids ho
    rw [scheme_cell hd]
    simp [visitor, drop_eq hd, blockBuilder_eq, scheme]
  cross o n he st s hsh hb := by
    obtain ⟨d, hd, rfl⟩ := exists_of_mem_oids he.1
    have hedge : n ∈ d.neighbours := by
      rw [← neighbours_eq hd]
      exact he.2
    obtain ⟨n, hn, rfl⟩ := exists_of_mem_oids (hg.closed d hd n hedge)
    rw [← passHash_eq hc hsh hd hn hedge hb]
    simp [visitor, drop_eq hd, drop_eq hn]

theorem Dag.wf (hg : G.Dag) : ((G.scheme M a level st).cascade st₀ M).Wf where
  nodup := G.distinct
  closed := hg.closed_oids
  acyclic := hg.acyclic

/-- `build_blockdag` over a graph without cycles whose drops are prepared: every drop once, after
all that lead to it; in each entry the digest of the drop and those handed to it, and nothing else
changed. -/
theorem Prepared.buildBlockdag_solves [DecidableEq C] [LinearOrder H]
    (hc : G.Prepared M a level st) (hg : G.Dag) : ∃ r B P, buildBlockdag M G a level st = .ok r ∧
      r.visited.Perm G.oids ∧ Topological G.oids G.neighbours r.visited ∧
      ((G.scheme M a level st).cascade st M).Solves B P ∧
      r.leaves = ((G.scheme M a level st).cascade st M).leaves.map B ∧
      (∀ d ∈ G.drops, r.store d.cell level = (st d.cell level).map
        (Entry.written a.layer (some (B d.oid)) ((P d.oid).map fun k => (k, B k)))) ∧
      ∀ c m, (m = level → ∀ d ∈ G.drops, d.cell ≠ c) → r.store c m = st c m := by
  obtain ⟨w, st', B, P, hwalk, hperm, ht, hsol, hwritten, hframe⟩ :=
    Scheme.walk_solves hc.ready (own_framed M a) (hc.follows hg) hg.wf
  have hentry : ∀ d ∈ G.drops, st' d.cell level = (st d.cell level).map
      (Entry.written a.layer (some (B d.oid)) ((P d.oid).map fun k => (k, B k))) := by
    intro d hd
    have he := hwritten d.oid (mem_oids hd)
    rwa [scheme_cell hd] at he
  have hleaves : (G.drops.filter (G.isLeaf ·.oid)).mapM (fun d => do
      key a.layer.blockhashKey ((← st'.entry d.cell level).blockhash a.layer)) =
      .ok ((G.drops.filter (G.isLeaf ·.oid)).map fun d => B d.oid) := by
    refine mapM_eq_map fun d hd => ?_
    have hd := (List.mem_filter.mp hd).1
    obtain ⟨e, l, he, -, -⟩ := hc.entry d hd
    rw [Store.entry, hentry d hd, he]
    simp [key, ok_bind]
  have heq : ((G.scheme M a level st).cascade st M).leaves.map B =
      (G.drops.filter (G.isLeaf ·.oid)).map fun d => B d.oid := by
    change (G.oids.filter G.isLeaf).map B = _
    rw [oids, List.filter_map, List.map_map]
    rfl
  refine ⟨⟨_, w.visited, st'⟩, B, P, ?_, hperm, ht, hsol, heq.symm, hentry, fun c m hcm => ?_⟩
  · rw [buildBlockdag, hg.checkDests, ok_bind]
    have hwalk' : walk (G.visitor M a level) G.neighbours G.oids.length
        (.start G.oids G.indegree) st = .ok (w, st') := hwalk
    rw [hwalk', ok_bind]
    simp only [hleaves, ok_bind]
    rfl
  · refine hframe c m fun hm v hv => ?_
    obtain ⟨d, hd, rfl⟩ := exists_of_mem_oids hv
    rw [scheme_cell hd]
    exact hcm hm d hd

/-- The same where drops own their entries. -/
theorem buildBlockdag_solves [DecidableEq C] [LinearOrder H] (hg : G.Dag)
    (hc : G.Complete M a level st) : ∃ r B P, buildBlockdag M G a level st = .ok r ∧
      r.visited.Perm G.oids ∧ Topological G.oids G.neighbours r.visited ∧
      ((G.scheme M a level st).cascade st M).Solves B P ∧
      r.leaves = ((G.scheme M a level st).cascade st M).leaves.map B ∧
      (∀ d ∈ G.drops, r.store d.cell level = (st d.cell level).map
        (Entry.written a.layer (some (B d.oid)) ((P d.oid).map fun k => (k, B k)))) ∧
      ∀ c m, (m = level → ∀ d ∈ G.drops, d.cell ≠ c) → r.store c m = st c m :=
  hc.prepared.buildBlockdag_solves hg

end DropList

/-! Logical graphs. -/

namespace LogicalGraph

/-- The graph has no cycles, and its links are between its nodes. -/
structure Dag (G : LogicalGraph C O) : Prop where
  closed : ∀ e ∈ G.linkDataArray, e.1 ∈ G.ids ∧ e.2 ∈ G.ids
  acyclic : Acyclic G.ids G.neighbours

/-- Every node owns an entry for the mode, with what its block is made of and with nothing
handed on yet. -/
structure Complete (G : LogicalGraph C O) (level : Mode) (st : Store C O H) : Prop where
  owns : ∀ d ∈ G.nodeDataArray, ∀ d' ∈ G.nodeDataArray, d.cell = d'.cell → d = d'
  entry : ∀ d ∈ G.nodeDataArray, ∃ c e l, d.cell = some c ∧ st c level = some e ∧
    lgOwn e = .ok l ∧ e.parenthashes .lg = some []

variable (G : LogicalGraph C O)

/-- What a node hands on. -/
def kind (level : Mode) (d : LgNode C O) : Kind :=
  match effective d.rmode level with
  | .nothing => .silent
  | .reproduce => if d.isDataNode && G.isRoot d.id then .own else .relay
  | _ => .own

/-- What the walk over the nodes goes by. -/
def scheme [Inhabited C] (level : Mode) : Scheme C O H where
  verts := G.ids
  succ := G.neighbours
  cell o := ((G.node o).bind (·.cell)).getD default
  kind o := ((G.node o).map (G.kind level)).getD .silent
  own := lgOwn
  layer := .lg
  level := level

variable {G} {M : Merkle H} {level : Mode} {st₀ st : Store C O H} {d n : LgNode C O} {o : O}

theorem node_eq (hd : d ∈ G.nodeDataArray) : G.node d.id = some d :=
  Association.find?_key G.distinct hd

omit [DecidableEq O] in
theorem exists_of_mem_ids (ho : o ∈ G.ids) : ∃ d ∈ G.nodeDataArray, d.id = o := List.mem_map.mp ho

omit [DecidableEq O] in
theorem mem_ids (hd : d ∈ G.nodeDataArray) : d.id ∈ G.ids := List.mem_map_of_mem hd

theorem mem_neighbours {u v : O} : v ∈ G.neighbours u ↔ (u, v) ∈ G.linkDataArray := by
  simp [neighbours]

theorem Dag.closed_ids (h : G.Dag) : ∀ u ∈ G.ids, ∀ v ∈ G.neighbours u, v ∈ G.ids :=
  fun u _ v hv => (h.closed (u, v) (mem_neighbours.mp hv)).2

theorem Dag.checkLinks (h : G.Dag) : G.checkLinks = .ok () := by
  unfold LogicalGraph.checkLinks
  split
  · rename_i o ho
    obtain ⟨e, he, hoe⟩ := List.mem_flatMap.mp (List.mem_of_find?_eq_some ho)
    have hn : o ∉ G.ids := by simpa using List.find?_some ho
    simp only [List.mem_cons, List.not_mem_nil, or_false] at hoe
    rcases hoe with rfl | rfl
    · exact absurd (h.closed e he).2 hn
    · exact absurd (h.closed e he).1 hn
  · rfl

/-- Links grouped by the node they start from. -/
theorem flatMap_links_perm {ids : List O} (hnd : ids.Nodup)
    {links : List (O × O)} (h : ∀ e ∈ links, e.1 ∈ ids) :
    (ids.flatMap fun o => (links.filter fun e => e.1 = o).map Prod.snd).Perm
      (links.map Prod.snd) := by
  induction links with
  | nil => simp
  | cons e links ih =>
    have hone : ids.flatMap (fun o => if e.1 = o then [e.2] else []) = [e.2] := by
      have he := h e (by simp)
      clear ih h
      induction ids with
      | nil => simp at he
      | cons o ids ih =>
        obtain ⟨ho, hids⟩ := List.nodup_cons.mp hnd
        by_cases heo : e.1 = o
        · have hrest : ids.flatMap (fun o => if e.1 = o then [e.2] else []) = [] := by
            refine List.flatMap_eq_nil_iff.mpr fun x hx => ?_
            rw [if_neg]
            rintro rfl
            exact ho (heo ▸ hx)
          simp [heo] at hrest ⊢
          exact hrest
        · have hm : e.1 ∈ ids := by simpa [heo] using he
          simpa [heo] using ih hids hm
    have hsplit : (fun o => ((e :: links).filter fun e => e.1 = o).map Prod.snd) =
        fun o => (if e.1 = o then [e.2] else []) ++
          (links.filter fun e => e.1 = o).map Prod.snd := by
      funext o
      by_cases heo : e.1 = o <;> simp [heo]
    rw [hsplit]
    refine (List.flatMap_append_perm _ _ _).symm.trans ?_
    rw [hone]
    exact (ih fun e he => h e (by simp [he])).cons _

theorem Dag.indegree_eq (h : G.Dag) :
    G.indegree = fun v => (G.ids.flatMap G.neighbours).count v := by
  funext v
  exact ((flatMap_links_perm G.distinct fun e he => (h.closed e he).1).count_eq v).symm

theorem Complete.reached_eq (hg : G.Dag) (hc : G.Complete level st) :
    G.reached = G.neighbours := by
  funext o
  unfold reached
  split
  · rfl
  · rename_i hn
    symm
    refine List.eq_nil_iff_forall_not_mem.mpr fun v hv => hn ?_
    obtain ⟨d, hd, rfl⟩ := exists_of_mem_ids (hg.closed _ (mem_neighbours.mp hv)).1
    obtain ⟨c, e, l, hcell, -⟩ := hc.entry d hd
    simp [hasReprodata, node_eq hd, hcell]

section Walked

variable [Inhabited C]

theorem scheme_cell {c : C} (hd : d ∈ G.nodeDataArray) (hc : d.cell = some c) :
    (G.scheme (H := H) level).cell d.id = c := by
  simp [scheme, node_eq hd, hc]

theorem scheme_kind (hd : d ∈ G.nodeDataArray) :
    (G.scheme (H := H) level).kind d.id = G.kind level d := by
  simp [scheme, node_eq hd]

theorem Complete.ready (h : G.Complete level st) :
    (G.scheme (H := H) level).Ready st M where
  alike u hu v hv hc := by
    obtain ⟨d, hd, rfl⟩ := exists_of_mem_ids hu
    obtain ⟨d', hd', rfl⟩ := exists_of_mem_ids hv
    obtain ⟨c, -, -, hcell, -⟩ := h.entry d hd
    obtain ⟨c', -, -, hcell', -⟩ := h.entry d' hd'
    rw [scheme_cell hd hcell, scheme_cell hd' hcell'] at hc
    rw [h.owns d hd d' hd' (by rw [hcell, hcell', hc])]
    exact fun _ => Iff.rfl
  entry v hv := by
    obtain ⟨d, hd, rfl⟩ := exists_of_mem_ids hv
    obtain ⟨c, e, l, hcell, he⟩ := h.entry d hd
    rw [scheme_cell hd hcell]
    exact ⟨e, l, he⟩

theorem shows_entry {s : State O H} (hsh : (G.scheme level).Shows st₀ st s) {c : C}
    (hd : d ∈ G.nodeDataArray) (hc : d.cell = some c) : ∃ b hs, st c level =
      (st₀ c level).map (Entry.written .lg b hs) ∧ (∀ x, s.block d.id = some x → b = some x) := by
  obtain ⟨b, hs, he, hr⟩ := hsh.entry d.id (mem_ids hd)
  rw [scheme_cell hd hc] at he hr
  exact ⟨b, hs, he, fun x hx => (hr.block x).mpr ⟨d.id, mem_ids hd, scheme_cell hd hc, hx⟩⟩

/-- A node all of whose links are behind the walk hands on what its kind says. -/
theorem passLgHash_eq [DecidableEq C] {s : State O H} {cd cn : C} (hc : G.Complete level st₀)
    (hsh : (G.scheme level).Shows st₀ st s) (hd : d ∈ G.nodeDataArray) (hcd : d.cell = some cd)
    (hn : n ∈ G.nodeDataArray) (hcn : n.cell = some cn) (hedge : n.id ∈ G.neighbours d.id)
    (hb : s.block d.id ≠ none) : passLgHash G level d cd (some cn) 0 st =
      (G.scheme level).handOn d.id n.id st := by
  obtain ⟨c, e, l, hcell, he, -⟩ := hc.entry d hd
  obtain rfl : c = cd := Option.some.inj (hcell.symm.trans hcd)
  obtain ⟨x, hx⟩ := Option.ne_none_iff_exists'.mp hb
  obtain ⟨b, hs, hst, hbx⟩ := shows_entry hsh hd hcd
  obtain rfl := hbx x hx
  have hentry : st.entry c level = .ok (Entry.written .lg (some x) hs e) := by
    rw [Store.entry, hst, he]
    rfl
  have hleaf : G.isLeaf d.id = false :=
    List.isEmpty_eq_false_iff.mpr (List.ne_nil_of_mem hedge)
  have hown : G.kind level d = .own → (G.scheme level).handOn d.id n.id st =
      st.modify cn level (takeParenthash .lg [(d.id, x)]) := by
    intro hk
    rw [Scheme.handOn, scheme_kind hd, hk, scheme_cell hd hcd, scheme_cell hn hcn]
    simp only [scheme, hentry, ok_bind, Scheme.written_blockhash, key]
  have hrelay : G.kind level d = .relay → (G.scheme level).handOn d.id n.id st =
      st.modify cn level (takeParenthash .lg hs) := by
    intro hk
    rw [Scheme.handOn, scheme_kind hd, hk, scheme_cell hd hcd, scheme_cell hn hcn]
    simp only [scheme, hentry, ok_bind, Scheme.written_parenthashes, key]
  unfold passLgHash
  cases hm : effective d.rmode level with
  | nothing =>
    rw [Scheme.handOn, scheme_kind hd, show G.kind level d = .silent by simp [kind, hm]]
    rfl
  | reproduce =>
    cases hterm : d.isDataNode && G.isRoot d.id with
    | true =>
      rw [hown (by simp [kind, hm, hterm])]
      simp only [Bool.and_eq_true] at hterm
      simp [hterm, hentry, ok_bind, parenthash, key, pure, Except.pure]
    | false =>
      have himp : d.isDataNode = true → G.isRoot d.id = false := by simpa using hterm
      rw [hrelay (by simp [kind, hm, hterm])]
      simp [hleaf, hentry, ok_bind, parenthash, key, if_pos himp]
  | _ =>
    rw [hown (by simp [kind, hm])]
    simp [hentry, ok_bind, parenthash, key, pure, Except.pure]

theorem Complete.follows [DecidableEq C] [LinearOrder H] (hg : G.Dag)
    (hc : G.Complete level st₀) : (G.scheme level).Follows st₀ M (G.visitor M level) where
  enter o ho st := by
    obtain ⟨d, hd, rfl⟩ := exists_of_mem_ids ho
    obtain ⟨c, e, l, hcell, -⟩ := hc.entry d hd
    rw [scheme_cell hd hcell]
    simp [visitor, node_eq hd, hcell, buildLgBlockData, scheme]
  cross o n he st s hsh hb := by
    obtain ⟨d, hd, rfl⟩ := exists_of_mem_ids he.1
    obtain ⟨cd, -, -, hcd, -⟩ := hc.entry d hd
    obtain ⟨n, hn, rfl⟩ := exists_of_mem_ids (hg.closed_ids _ he.1 n he.2)
    obtain ⟨cn, -, -, hcn, -⟩ := hc.entry n hn
    rw [← passLgHash_eq hc hsh hd hcd hn hcn he.2 hb]
    simp [visitor, node_eq hd, node_eq hn, hcd, hcn, key, ok_bind]

theorem Dag.wf (hg : G.Dag) : ((G.scheme level).cascade st₀ M).Wf where
  nodup := G.distinct
  closed := hg.closed_ids
  acyclic := hg.acyclic

/-- `lg_build_blockdag` over a graph without cycles whose nodes own their entries. -/
theorem lgBuildBlockdag_solves [DecidableEq C] [LinearOrder H] (hg : G.Dag)
    (hc : G.Complete level st) (idText : O → H) (emptyText : H) :
    ∃ r B P, lgBuildBlockdag M idText emptyText G level st = .ok r ∧
      r.visited.Perm G.ids ∧ Topological G.ids G.neighbours r.visited ∧
      ((G.scheme level).cascade st M).Solves B P ∧
      r.leaves = ((G.scheme level).cascade st M).leaves.map B ∧
      (∀ d ∈ G.nodeDataArray, ∀ c, d.cell = some c → r.store c level = (st c level).map
        (Entry.written .lg (some (B d.id)) ((P d.id).map fun k => (k, B k)))) ∧
      ∀ c m, (m = level → ∀ d ∈ G.nodeDataArray, d.cell ≠ some c) → r.store c m = st c m := by
  obtain ⟨w, st', B, P, hwalk, hperm, ht, hsol, hwritten, hframe⟩ := Scheme.walk_solves hc.ready
    (fun e block _ => by cases block <;> rfl) (hc.follows hg) hg.wf
  have hentry : ∀ d ∈ G.nodeDataArray, ∀ c, d.cell = some c → st' c level = (st c level).map
      (Entry.written .lg (some (B d.id)) ((P d.id).map fun k => (k, B k))) := by
    intro d hd c hcell
    have he := hwritten d.id (mem_ids hd)
    rwa [scheme_cell hd hcell] at he
  have hleaves : (G.nodeDataArray.filter (G.isLeaf ·.id)).mapM
      (LgNode.leaf idText emptyText level st') =
      .ok ((G.nodeDataArray.filter (G.isLeaf ·.id)).map fun d => B d.id) := by
    refine mapM_eq_map fun d hd => ?_
    have hd := (List.mem_filter.mp hd).1
    obtain ⟨c, e, l, hcell, he, -⟩ := hc.entry d hd
    simp [LgNode.leaf, hcell, Store.entry, hentry d hd c hcell, he, key, ok_bind, pure,
      Except.pure]
  have hvis : w.visited.filter G.hasReprodata = w.visited := by
    refine List.filter_eq_self.mpr fun o ho => ?_
    obtain ⟨d, hd, rfl⟩ := exists_of_mem_ids (hperm.mem_iff.mp ho)
    obtain ⟨c, -, -, hcell, -⟩ := hc.entry d hd
    simp [hasReprodata, node_eq hd, hcell]
  have heq : ((G.scheme level).cascade st M).leaves.map B =
      (G.nodeDataArray.filter (G.isLeaf ·.id)).map fun d => B d.id := by
    change (G.ids.filter G.isLeaf).map B = _
    rw [ids, List.filter_map, List.map_map]
    rfl
  refine ⟨⟨_, w.visited, st'⟩, B, P, ?_, hperm, ht, hsol, heq.symm, hentry, fun c m hcm => ?_⟩
  · rw [lgBuildBlockdag, hg.checkLinks, ok_bind, hc.reached_eq hg, hg.indegree_eq]
    have hwalk' : walk (G.visitor M level) G.neighbours G.ids.length
        (.start G.ids fun v => (G.ids.flatMap G.neighbours).count v) st = .ok (w, st') := hwalk
    rw [hwalk', ok_bind]
    simp only [hleaves, ok_bind, hvis]
    rfl
  · refine hframe c m fun hm v hv => ?_
    obtain ⟨d, hd, rfl⟩ := exists_of_mem_ids hv
    obtain ⟨c', -, -, hcell, -⟩ := hc.entry d hd
    rw [scheme_cell hd hcell]
    rintro rfl
    exact hcm hm d hd hcell

end Walked

end LogicalGraph

end Daliuge.Repro
