import Daliuge.Repro.Blockdag

/-!
# Hashes and the way a graph is written down

The block hashes and the signature of a graph do not depend on the order its drops are listed
in, nor on the order of their outputs and consumers, nor on the oids.
-/
namespace Daliuge.Repro

open Kahn Cascade Collect

variable {C O H : Type} [DecidableEq O]

/-- The same drop under another oid, its destinations renamed and put in another order. -/
structure Drop.Renamed (ρ : O → O) (d d' : Drop C O) : Prop where
  oid : d'.oid = ρ d.oid
  rmode : d'.rmode = d.rmode
  iid : d'.iid = d.iid
  cell : d'.cell = d.cell
  outputs : (d'.outputs.map Dest.oid).Perm (d.outputs.map fun x => ρ x.oid)
  consumers : (d'.consumers.map Dest.oid).Perm (d.consumers.map fun x => ρ x.oid)

/-- The same drops under other oids, no two under one, and in another order. -/
structure DropList.Renamed (ρ : O → O) (G G' : DropList C O) : Prop where
  inj : ∀ u ∈ G.oids, ∀ v ∈ G.oids, ρ u = ρ v → u = v
  drops : ∃ l, List.Forall₂ (Drop.Renamed ρ) G.drops l ∧ G'.drops.Perm l

namespace DropList

variable {G G' : DropList C O} {ρ : O → O} {M : Merkle H} {a : Abstraction} {level : Mode}
  {st : Store C O H} {d d' : Drop C O}

omit [DecidableEq O] in
theorem Renamed.exists_of_mem (h : G.Renamed ρ G') (hd : d ∈ G.drops) :
    ∃ d' ∈ G'.drops, d.Renamed ρ d' := by
  obtain ⟨l, hl, hp⟩ := h.drops
  obtain ⟨i, hi, rfl⟩ := List.mem_iff_getElem.mp hd
  have hi' : i < l.length := hl.length_eq ▸ hi
  exact ⟨l[i], hp.mem_iff.mpr (List.getElem_mem hi'), hl.get hi hi'⟩

omit [DecidableEq O] in
theorem Renamed.oids (h : G.Renamed ρ G') : G'.oids.Perm (G.oids.map ρ) := by
  obtain ⟨l, hl, hp⟩ := h.drops
  refine (hp.map _).trans (List.Perm.of_eq ?_)
  have hmap : ∀ {l₁ l₂ : List (Drop C O)}, List.Forall₂ (Drop.Renamed ρ) l₁ l₂ →
      l₂.map (·.oid) = (l₁.map (·.oid)).map ρ := by
    intro l₁ l₂ h
    induction h with
    | nil => rfl
    | cons hd _ ih => simp [hd.oid, ih]
  exact hmap hl

omit [DecidableEq O] in
theorem Renamed.neighbours (hr : d.Renamed ρ d') : d'.neighbours.Perm (d.neighbours.map ρ) := by
  have := hr.outputs.append hr.consumers
  simpa [Drop.neighbours, Function.comp_def] using this

variable [Inhabited C]

theorem Renamed.reorders (h : G.Renamed ρ G') (M : Merkle H) (a : Abstraction) (level : Mode)
    (st : Store C O H) :
    Cascade.Graph.Reorders ρ ((G.scheme M a level st).cascade st M)
      ((G'.scheme M a level st).cascade st M) where
  inj := h.inj
  verts := h.oids
  succ u hu := by
    obtain ⟨d, hd, rfl⟩ := exists_of_mem_oids hu
    obtain ⟨d', hd', hr⟩ := h.exists_of_mem hd
    change (G'.neighbours (ρ d.oid)).Perm ((G.neighbours d.oid).map ρ)
    rw [← hr.oid, neighbours_eq hd, neighbours_eq hd']
    exact Renamed.neighbours hr

/-- What a drop hands on depends on the drop and on whether anything leads to it. -/
theorem Renamed.kind (h : G.Renamed ρ G') (M : Merkle H) (a : Abstraction) (hg : G.Dag)
    (hd : d ∈ G.drops) (hr : d.Renamed ρ d') : G'.kind level st d' = G.kind level st d := by
  have hroot : G'.isRoot d'.oid = G.isRoot d.oid := by
    rw [Bool.eq_iff_iff, isRoot_iff, isRoot_iff, hr.oid]
    exact not_congr ((h.reorders M a level st).root_iff hg.wf (mem_oids hd))
  have hcrit : d'.onCriticalPath = d.onCriticalPath := by
    simp [Drop.onCriticalPath, hr.iid]
  simp only [DropList.kind, hr.rmode, hr.cell, hroot, hcrit]

theorem Renamed.renames (h : G.Renamed ρ G') (hg : G.Dag) (M : Merkle H) (a : Abstraction)
    (level : Mode) (st : Store C O H) :
    Cascade.Graph.Renames ρ ((G.scheme M a level st).cascade st M)
      ((G'.scheme M a level st).cascade st M) where
  toReorders := h.reorders M a level st
  kind u hu := by
    obtain ⟨d, hd, rfl⟩ := exists_of_mem_oids hu
    obtain ⟨d', hd', hr⟩ := h.exists_of_mem hd
    change (G'.scheme M a level st).kind (ρ d.oid) = (G.scheme M a level st).kind d.oid
    rw [← hr.oid, scheme_kind hd, scheme_kind hd', h.kind M a hg hd hr]
  digest u hu := by
    obtain ⟨d, hd, rfl⟩ := exists_of_mem_oids hu
    obtain ⟨d', hd', hr⟩ := h.exists_of_mem hd
    funext hs
    change M.tree ((G'.scheme M a level st).ownHashes st (ρ d.oid) ++ hs) =
      M.tree ((G.scheme M a level st).ownHashes st d.oid ++ hs)
    rw [← hr.oid, Scheme.ownHashes, Scheme.ownHashes, scheme_cell hd, scheme_cell hd', hr.cell]
    rfl

omit [Inhabited C] in
/-- A complete list stays complete. -/
theorem Renamed.complete (h : G.Renamed ρ G') (hc : G.Complete M a level st) :
    G'.Complete M a level st := by
  have hback : ∀ d' ∈ G'.drops, ∃ d ∈ G.drops, d.Renamed ρ d' := by
    intro d' hd'
    obtain ⟨u, hu, he⟩ := List.mem_map.mp (h.oids.mem_iff.mp (mem_oids hd'))
    obtain ⟨d, hd, rfl⟩ := exists_of_mem_oids hu
    obtain ⟨x, hx, hr⟩ := h.exists_of_mem hd
    exact ⟨d, hd, eq_of_oid hx hd' (hr.oid.trans he) ▸ hr⟩
  constructor
  case owns =>
    intro x' hx' y' hy' hcell
    obtain ⟨x, hx, hrx⟩ := hback x' hx'
    obtain ⟨y, hy, hry⟩ := hback y' hy'
    have hxy : x = y := hc.owns x hx y hy (by rw [← hrx.cell, ← hry.cell, hcell])
    exact eq_of_oid hx' hy' (by rw [hrx.oid, hry.oid, hxy])
  case entry =>
    intro d' hd'
    obtain ⟨d, hd, hr⟩ := hback d' hd'
    rw [hr.cell]
    exact hc.entry d hd
  case category =>
    intro d' hd' hm
    obtain ⟨d, hd, hr⟩ := hback d' hd'
    rw [hr.rmode] at hm
    rw [hr.cell]
    exact hc.category d hd hm

theorem Renamed.dag (h : G.Renamed ρ G') (hg : G.Dag) : G'.Dag := by
  have hw := (h.reorders (⟨fun _ => (), fun _ => (), ()⟩ : Merkle Unit) .pgt .rerun
    fun _ _ => none).wf hg.wf
  refine ⟨fun d hd o ho => hw.closed d.oid (mem_oids hd) o ?_, hw.acyclic⟩
  change o ∈ G'.neighbours d.oid
  rwa [neighbours_eq hd]

/-- Hashes and signature are those of the renamed list. -/
theorem Renamed.buildBlockdag [DecidableEq C] [LinearOrder H] (h : G.Renamed ρ G') (hg : G.Dag)
    (hc : G.Complete M a level st) : ∃ r r', buildBlockdag M G a level st = .ok r ∧
      buildBlockdag M G' a level st = .ok r' ∧
      r.visited.Perm G.oids ∧ Topological G.oids G.neighbours r.visited ∧
      (∀ d ∈ G.drops, ∃ e e' h, r.store d.cell level = some e ∧ e.blockhash a.layer = some h ∧
        r'.store d.cell level = some e' ∧ e'.blockhash a.layer = some h) ∧
      agglomerateLeaves M r'.leaves = agglomerateLeaves M r.leaves := by
  obtain ⟨r, B, P, hr, hperm, ht, hs, hleaves, hentry, -⟩ := buildBlockdag_solves hg hc
  obtain ⟨r', B', P', hr', -, -, hs', hleaves', hentry', -⟩ :=
    buildBlockdag_solves (h.dag hg) (h.complete hc)
  have hren := h.renames hg M a level st
  refine ⟨r, r', hr, hr', hperm, ht, fun d hd => ?_, ?_⟩
  · obtain ⟨e, l, he, -, -⟩ := hc.entry d hd
    obtain ⟨d', hd', hdr⟩ := h.exists_of_mem hd
    have hB : B' d'.oid = B d.oid := by
      rw [hdr.oid]
      exact hren.block_eq hg.wf hs hs' d.oid (mem_oids hd)
    have h1 := hentry d hd
    have h2 := hentry' d' hd'
    rw [hdr.cell, he] at h2
    rw [he] at h1
    exact ⟨_, _, B d.oid, h1, by simp, h2, by simp [hB]⟩
  · rw [agglomerateLeaves, agglomerateLeaves, hleaves, hleaves',
      sorted_congr (hren.leaves_perm hg.wf hs hs')]

end DropList

namespace LogicalGraph

variable {G G' : LogicalGraph C O} {M : Merkle H} {level : Mode} {st : Store C O H}
  {d : LgNode C O}

/-- The same nodes and links, in another order. -/
structure Permuted (G G' : LogicalGraph C O) : Prop where
  nodes : G'.nodeDataArray.Perm G.nodeDataArray
  links : G'.linkDataArray.Perm G.linkDataArray

theorem Permuted.node_eq (h : G.Permuted G') (hd : d ∈ G.nodeDataArray) :
    G'.node d.id = some d :=
  LogicalGraph.node_eq (h.nodes.mem_iff.mpr hd)

theorem Permuted.isRoot (h : G.Permuted G') (o : O) : G'.isRoot o = G.isRoot o := by
  simp only [LogicalGraph.isRoot, indegree, (h.links.map Prod.snd).count_eq]

omit [DecidableEq O] in
theorem Permuted.complete (h : G.Permuted G') (hc : G.Complete level st) :
    G'.Complete level st where
  owns d hd d' hd' := hc.owns d (h.nodes.mem_iff.mp hd) d' (h.nodes.mem_iff.mp hd')
  entry d hd := hc.entry d (h.nodes.mem_iff.mp hd)

variable [Inhabited C]

theorem Permuted.renames (h : G.Permuted G') (M : Merkle H) (level : Mode)
    (st : Store C O H) : Cascade.Graph.Renames id ((G.scheme level).cascade st M)
      ((G'.scheme level).cascade st M) where
  inj u _ v _ he := he
  verts := by
    rw [List.map_id]
    exact h.nodes.map _
  succ u _ := by
    rw [List.map_id]
    exact (h.links.filter _).map _
  kind u hu := by
    obtain ⟨d, hd, rfl⟩ := exists_of_mem_ids hu
    change (G'.scheme (H := H) level).kind d.id = (G.scheme (H := H) level).kind d.id
    rw [scheme_kind hd, scheme_kind (h.nodes.mem_iff.mpr hd)]
    simp only [kind, h.isRoot]
  digest u hu := by
    obtain ⟨d, hd, rfl⟩ := exists_of_mem_ids hu
    have hcell : (G'.scheme (H := H) level).cell d.id = (G.scheme (H := H) level).cell d.id := by
      simp [scheme, LogicalGraph.node_eq hd, h.node_eq hd]
    funext hs
    change M.tree ((G'.scheme level).ownHashes st d.id ++ hs) =
      M.tree ((G.scheme level).ownHashes st d.id ++ hs)
    rw [Scheme.ownHashes, Scheme.ownHashes, hcell]
    rfl

theorem Permuted.dag (h : G.Permuted G') (hg : G.Dag) : G'.Dag where
  closed e he := by
    obtain ⟨h1, h2⟩ := hg.closed e (h.links.mem_iff.mp he)
    exact ⟨(h.nodes.map _).mem_iff.mpr h1, (h.nodes.map _).mem_iff.mpr h2⟩
  acyclic := ((h.renames (⟨fun _ => (), fun _ => (), ()⟩ : Merkle Unit) .rerun
    fun _ _ => none).wf hg.wf).acyclic

/-- Hashes and signature are those of the reordered graph. -/
theorem Permuted.lgBuildBlockdag [DecidableEq C] [LinearOrder H] (h : G.Permuted G')
    (hg : G.Dag) (hc : G.Complete level st) (idText : O → H) (emptyText : H) :
    ∃ r r', lgBuildBlockdag M idText emptyText G level st = .ok r ∧
      lgBuildBlockdag M idText emptyText G' level st = .ok r' ∧
      r.visited.Perm G.ids ∧ Topological G.ids G.neighbours r.visited ∧
      (∀ d ∈ G.nodeDataArray, ∃ c e e' h, d.cell = some c ∧
        r.store c level = some e ∧ e.blockhash .lg = some h ∧
        r'.store c level = some e' ∧ e'.blockhash .lg = some h) ∧
      agglomerateLeaves M r'.leaves = agglomerateLeaves M r.leaves := by
  obtain ⟨r, B, P, hr, hperm, ht, hs, hleaves, hentry, -⟩ :=
    lgBuildBlockdag_solves hg hc idText emptyText
  obtain ⟨r', B', P', hr', -, -, hs', hleaves', hentry', -⟩ :=
    lgBuildBlockdag_solves (h.dag hg) (h.complete hc) idText emptyText
  have hren := h.renames M level st
  refine ⟨r, r', hr, hr', hperm, ht, fun d hd => ?_, ?_⟩
  · obtain ⟨c, e, l, hcell, he, -, -⟩ := hc.entry d hd
    have hB : B' d.id = B d.id := hren.block_eq hg.wf hs hs' d.id (mem_ids hd)
    have h1 := hentry d hd c hcell
    have h2 := hentry' d (h.nodes.mem_iff.mpr hd) c hcell
    rw [he] at h1 h2
    exact ⟨c, _, _, B d.id, hcell, h1, by simp, h2, by simp [hB]⟩
  · rw [agglomerateLeaves, agglomerateLeaves, hleaves, hleaves',
      sorted_congr (hren.leaves_perm hg.wf hs hs')]

end LogicalGraph

/-- The hashes depend on the graph only. A list of drops that own complete entries is walked
once through, every drop after those that lead to it; listing the drops or their destinations
in another order, or under other oids, changes no block hash and not the signature. So it is
with a logical graph and the order of its nodes and links. -/
theorem blockHashes_presentation_free [DecidableEq C] [Inhabited C] [LinearOrder H]
    (M : Merkle H) (level : Mode) (st : Store C O H) :
    (∀ (a : Abstraction) (ρ : O → O) (G G' : DropList C O), G.Dag → G.Complete M a level st →
      G.Renamed ρ G' → ∃ r r', buildBlockdag M G a level st = .ok r ∧
        buildBlockdag M G' a level st = .ok r' ∧
        r.visited.Perm G.oids ∧ Topological G.oids G.neighbours r.visited ∧
        (∀ d ∈ G.drops, ∃ e e' h, r.store d.cell level = some e ∧
          e.blockhash a.layer = some h ∧ r'.store d.cell level = some e' ∧
          e'.blockhash a.layer = some h) ∧
        agglomerateLeaves M r'.leaves = agglomerateLeaves M r.leaves) ∧
    ∀ (idText : O → H) (emptyText : H) (G G' : LogicalGraph C O), G.Dag →
      G.Complete level st → G.Permuted G' →
      ∃ r r', lgBuildBlockdag M idText emptyText G level st = .ok r ∧
        lgBuildBlockdag M idText emptyText G' level st = .ok r' ∧
        r.visited.Perm G.ids ∧ Topological G.ids G.neighbours r.visited ∧
        (∀ d ∈ G.nodeDataArray, ∃ c e e' h, d.cell = some c ∧
          r.store c level = some e ∧ e.blockhash .lg = some h ∧
          r'.store c level = some e' ∧ e'.blockhash .lg = some h) ∧
        agglomerateLeaves M r'.leaves = agglomerateLeaves M r.leaves :=
  ⟨fun _ _ _ _ hg hc h => h.buildBlockdag hg hc,
    fun idText emptyText _ _ hg hc h => h.lgBuildBlockdag hg hc idText emptyText⟩

/-! Two drops and what they are called. -/

/-- Data that an application reads, each with a recorded root of its own. -/
def readData : DropList Nat String where
  drops := [
    { oid := "data", rmode := .rerun, consumers := [.named "app" "in"], cell := 0 },
    { oid := "app", rmode := .rerun, cell := 1 }]
  distinct := by decide

/-- The same with the application first, under longer oids. -/
def readDataRenamed : DropList Nat String where
  drops := [
    { oid := "app-0", rmode := .rerun, cell := 1 },
    { oid := "data-0", rmode := .rerun, consumers := [.plain "app-0"], cell := 0 }]
  distinct := by decide

/-- The logical graph they could come from. -/
def readDataLg : LogicalGraph Nat String where
  nodeDataArray := [{ id := "data", rmode := .rerun, cell := some 0 },
    { id := "app", rmode := .rerun, cell := some 1 }]
  linkDataArray := [("data", "app")]
  distinct := by decide

def readDataLgReversed : LogicalGraph Nat String where
  nodeDataArray := [{ id := "app", rmode := .rerun, cell := some 1 },
    { id := "data", rmode := .rerun, cell := some 0 }]
  linkDataArray := [("data", "app")]
  distinct := by decide

/-- Entries with a root for every level. -/
def recorded (c : Nat) (_ : Mode) : Option (Entry String Nat) :=
  some { lgtData := some { merkleroot := some (10 + c) }
         lgData := some { merkleroot := some (20 + c) }
         pgtData := some { merkleroot := some (30 + c), categoryType := some "Data" }
         parenthashes := fun _ => some [] }

def someMerkle : Merkle Nat where
  tree l := l.foldl (fun n h => 31 * n + h) 7
  plain l := l.foldl (fun n h => 37 * n + h) 5
  empty := 0

theorem readData_presentation_free :
    (∃ r r', buildBlockdag someMerkle readData .pgt .rerun recorded = .ok r ∧
      buildBlockdag someMerkle readDataRenamed .pgt .rerun recorded = .ok r' ∧
      r.visited.Perm readData.oids ∧
      Topological readData.oids readData.neighbours r.visited ∧
      (∀ d ∈ readData.drops, ∃ e e' h, r.store d.cell .rerun = some e ∧
        e.blockhash .pgt = some h ∧ r'.store d.cell .rerun = some e' ∧
        e'.blockhash .pgt = some h) ∧
      agglomerateLeaves someMerkle r'.leaves = agglomerateLeaves someMerkle r.leaves) ∧
    ∃ r r', lgBuildBlockdag someMerkle String.length 0 readDataLg .rerun recorded = .ok r ∧
      lgBuildBlockdag someMerkle String.length 0 readDataLgReversed .rerun recorded = .ok r' ∧
      r.visited.Perm readDataLg.ids ∧
      Topological readDataLg.ids readDataLg.neighbours r.visited ∧
      (∀ d ∈ readDataLg.nodeDataArray, ∃ c e e' h, d.cell = some c ∧
        r.store c .rerun = some e ∧ e.blockhash .lg = some h ∧
        r'.store c .rerun = some e' ∧ e'.blockhash .lg = some h) ∧
      agglomerateLeaves someMerkle r'.leaves = agglomerateLeaves someMerkle r.leaves := by
  have hspec := blockHashes_presentation_free someMerkle .rerun recorded
  refine ⟨hspec.1 .pgt (· ++ "-0") readData readDataRenamed ⟨by decide, ?_⟩ ⟨?_, ?_, ?_⟩
    ⟨by decide, readDataRenamed.drops.reverse, ?_, (List.reverse_perm _).symm⟩,
    hspec.2 String.length 0 readDataLg readDataLgReversed ⟨by decide, ?_⟩ ⟨?_, ?_⟩
    ⟨List.Perm.swap _ _ _, List.Perm.refl _⟩⟩
  · exact acyclic_of_rank (fun o => if o = "data" then 0 else 1) (by decide)
  · decide
  · intro d _
    exact ⟨_, _, rfl, rfl, rfl⟩
  · simp [readData, effective]
  · refine .cons ⟨by decide, rfl, rfl, rfl, by decide, by decide⟩ (.cons
      ⟨by decide, rfl, rfl, rfl, by decide, by decide⟩ .nil)
  · exact acyclic_of_rank (fun o => if o = "data" then 0 else 1) (by decide)
  · decide
  · intro d hd
    simp only [readDataLg, List.mem_cons, List.not_mem_nil, or_false] at hd
    rcases hd with rfl | rfl
    · exact ⟨_, _, _, rfl, rfl, rfl, rfl⟩
    · exact ⟨_, _, _, rfl, rfl, rfl, rfl⟩

end Daliuge.Repro
