import Daliuge.Repro.Presentation

/-!
# Compression to the terminal data

In REPRODUCE mode a drop hands on its own hash only when it is data that nothing leads to. The
signature of a graph then depends on its leaves, on these root data drops and on which of them
lead to which leaf.
-/
namespace Daliuge.Repro

open Kahn Cascade Collect

variable {C O H : Type} [DecidableEq O]

namespace DropList

/-- The edges of a list of drops. -/
abbrev Edge (G : DropList C O) : O → O → Prop := Kahn.Edge G.oids G.neighbours

/-- A data drop that nothing leads to. -/
def IsRootData (G : DropList C O) (st : Store C O H) (d : Drop C O) : Prop :=
  (¬ ∃ u, G.Edge u d.oid) ∧ ∃ t, st.ctype d.cell .reproduce = .ok t ∧ isData t = true

/-- All drops are in REPRODUCE mode, or in all modes while that one is being hashed. -/
def AllReproduce (G : DropList C O) : Prop := ∀ d ∈ G.drops, d.rmode = .reproduce ∨ d.rmode = .all

/-- The leaves and the root data of one list are in the other, with the same entries, and what
leads from these to those does so there. -/
structure EndsIn (G : DropList C O) (st : Store C O H) (G' : DropList C O)
    (st' : Store C O H) : Prop where
  leaves : ∀ d ∈ G.drops, d.neighbours = [] → ∃ d' ∈ G'.drops, d'.oid = d.oid ∧
    d'.neighbours = [] ∧ st' d'.cell .reproduce = st d.cell .reproduce
  roots : ∀ d ∈ G.drops, G.IsRootData st d → ∃ d' ∈ G'.drops, d'.oid = d.oid ∧
    G'.IsRootData st' d' ∧ st' d'.cell .reproduce = st d.cell .reproduce
  reach : ∀ d ∈ G.drops, G.IsRootData st d → ∀ l ∈ G.drops, l.neighbours = [] →
    Relation.TransGen G.Edge d.oid l.oid → Relation.TransGen G'.Edge d.oid l.oid

variable {G G' : DropList C O} {M : Merkle H} {a : Abstraction} {st st' : Store C O H}
  {d : Drop C O} {B : O → H} {P : O → List O}

omit [DecidableEq O] in
theorem AllReproduce.effective (hr : G.AllReproduce) (hd : d ∈ G.drops) :
    effective d.rmode .reproduce = .reproduce := by
  rcases hr d hd with h | h <;> simp [Repro.effective, h]

theorem AllReproduce.kind (hr : G.AllReproduce) (hc : G.Complete M a .reproduce st)
    (hd : d ∈ G.drops) : G.kind .reproduce st d = .own ∧ G.IsRootData st d ∨
      G.kind .reproduce st d = .relay ∧ ¬ G.IsRootData st d := by
  obtain ⟨t, ht⟩ := hc.category d hd (hr.effective hd)
  have hiff : G.IsRootData st d ↔ (isData t && G.isRoot d.oid) = true := by
    rw [Bool.and_eq_true, isRoot_iff, IsRootData, and_comm]
    refine and_congr_left fun _ => ⟨?_, fun h => ⟨t, ht, h⟩⟩
    rintro ⟨t', ht', h⟩
    rwa [Except.ok.inj (ht.symm.trans ht')]
  rw [hiff]
  cases hb : isData t && G.isRoot d.oid with
  | true => exact Or.inl ⟨by simp [DropList.kind, hr.effective hd, ht, hb], rfl⟩
  | false => exact Or.inr ⟨by simp [DropList.kind, hr.effective hd, ht, hb], by simp⟩

variable [Inhabited C]

/-- The digests that come to a drop are those of the root data that lead to it. -/
theorem AllReproduce.feeds_iff (hr : G.AllReproduce) (hg : G.Dag)
    (hc : G.Complete M a .reproduce st) {k v : O} :
    ((G.scheme M a .reproduce st).cascade st M).Feeds k v ↔
      (∃ d ∈ G.drops, d.oid = k ∧ G.IsRootData st d) ∧ Relation.TransGen G.Edge k v := by
  have hkind : ∀ d ∈ G.drops, ((G.scheme M a .reproduce st).cascade st M).kind d.oid =
      G.kind .reproduce st d := fun d hd => scheme_kind (M := M) (a := a) hd
  rw [Cascade.Graph.feeds_iff_path]
  · refine and_congr_left fun hp => ?_
    obtain ⟨w, hw, -⟩ := Relation.TransGen.head'_iff.mp hp
    obtain ⟨d, hd, rfl⟩ := exists_of_mem_oids hw.1
    rw [hkind d hd]
    constructor
    · intro hk
      rcases hr.kind hc hd with h | h
      · exact ⟨d, hd, rfl, h.2⟩
      · simp [hk] at h
    · rintro ⟨d', hd', hoid, hroot⟩
      obtain rfl := eq_of_oid hd' hd hoid
      rcases hr.kind hc hd with h | h
      · exact h.1
      · exact absurd hroot h.2
  · intro u hu
    obtain ⟨d, hd, rfl⟩ := exists_of_mem_oids hu
    rw [hkind d hd]
    exact (hr.kind hc hd).imp And.left And.left
  · intro u w he hk
    obtain ⟨d, hd, rfl⟩ := exists_of_mem_oids (hg.closed_oids u he.1 w he.2)
    rw [hkind d hd] at hk
    rcases hr.kind hc hd with h | h
    · exact h.2.1 ⟨u, he⟩
    · simp [hk] at h

/-- The digest of a leaf or of root data, from its entry and the root data that lead to it. -/
theorem ownHashes_eq (hd : d ∈ G.drops) {d' : Drop C O} (hd' : d' ∈ G'.drops)
    (he : st' d'.cell .reproduce = st d.cell .reproduce) :
    (G'.scheme M a .reproduce st').ownHashes st' d'.oid =
      (G.scheme M a .reproduce st).ownHashes st d.oid := by
  have hlevel' : (G'.scheme M a .reproduce st').level = .reproduce := rfl
  have hlevel : (G.scheme M a .reproduce st).level = .reproduce := rfl
  rw [Scheme.ownHashes, Scheme.ownHashes, scheme_cell hd, scheme_cell hd', hlevel', hlevel, he]
  rfl

variable [LinearOrder H] {B' : O → H} {P' : O → List O}

/-- The digest of a drop from its entry and what came to it. -/
theorem digest_eq (hs : ((G.scheme M a .reproduce st).cascade st M).Solves B P)
    (hd : d ∈ G.drops) : B d.oid = M.tree
      ((G.scheme M a .reproduce st).ownHashes st d.oid ++ sorted ((P d.oid).map B)) :=
  hs.eq d.oid (mem_oids hd)

theorem IsRootData.nothing_handed (hroot : G.IsRootData st d)
    (hs : ((G.scheme M a .reproduce st).cascade st M).Solves B P) (hd : d ∈ G.drops) :
    P d.oid = [] := by
  refine List.eq_nil_iff_forall_not_mem.mpr fun k hk => ?_
  obtain ⟨u, -, hu⟩ := Relation.TransGen.tail'_iff.mp
    ((hs.mem_iff d.oid (mem_oids hd) k).mp hk).path
  exact hroot.1 ⟨u, hu⟩

/-- Root data gets the same digest in both lists. -/
theorem EndsIn.root_eq (h : G.EndsIn st G' st')
    (hs : ((G.scheme M a .reproduce st).cascade st M).Solves B P)
    (hs' : ((G'.scheme M a .reproduce st').cascade st' M).Solves B' P')
    (hd : d ∈ G.drops) (hroot : G.IsRootData st d) : B' d.oid = B d.oid := by
  obtain ⟨d', hd', hoid, hroot', he⟩ := h.roots d hd hroot
  rw [← hoid, digest_eq hs' hd', hroot'.nothing_handed hs' hd', ownHashes_eq hd hd' he, hoid,
    digest_eq hs hd, hroot.nothing_handed hs hd]
  rfl

omit [LinearOrder H] in
theorem mem_leaves {o : O} : o ∈ ((G.scheme M a .reproduce st).cascade st M).leaves ↔
    ∃ d ∈ G.drops, d.oid = o ∧ d.neighbours = [] := by
  change o ∈ G.oids.filter (fun v => (G.neighbours v).isEmpty) ↔ _
  rw [List.mem_filter]
  constructor
  · rintro ⟨ho, hn⟩
    obtain ⟨d, hd, rfl⟩ := exists_of_mem_oids ho
    exact ⟨d, hd, rfl, by simpa [neighbours_eq hd] using hn⟩
  · rintro ⟨d, hd, rfl, hn⟩
    exact ⟨mem_oids hd, by simp [neighbours_eq hd, hn]⟩

omit [LinearOrder H] in
theorem EndsIn.leaves_perm (h : G.EndsIn st G' st') (h' : G'.EndsIn st' G st) :
    ((G'.scheme M a .reproduce st').cascade st' M).leaves.Perm
      ((G.scheme M a .reproduce st).cascade st M).leaves := by
  refine (List.perm_ext_iff_of_nodup (G'.distinct.filter _) (G.distinct.filter _)).mpr
    fun o => mem_leaves.trans (Iff.trans ?_ mem_leaves.symm)
  constructor
  · rintro ⟨d', hd', rfl, hn⟩
    obtain ⟨d, hd, hoid, hleaf, -⟩ := h'.leaves d' hd' hn
    exact ⟨d, hd, hoid, hleaf⟩
  · rintro ⟨d, hd, rfl, hn⟩
    obtain ⟨d', hd', hoid, hleaf, -⟩ := h.leaves d hd hn
    exact ⟨d', hd', hoid, hleaf⟩

/-- A leaf gets the same digest in both lists. -/
theorem EndsIn.leaf_eq (h : G.EndsIn st G' st') (h' : G'.EndsIn st' G st)
    (hr : G.AllReproduce) (hg : G.Dag) (hc : G.Complete M a .reproduce st)
    (hr' : G'.AllReproduce) (hg' : G'.Dag) (hc' : G'.Complete M a .reproduce st')
    (hs : ((G.scheme M a .reproduce st).cascade st M).Solves B P)
    (hs' : ((G'.scheme M a .reproduce st').cascade st' M).Solves B' P')
    (hd : d ∈ G.drops) (hleaf : d.neighbours = []) : B' d.oid = B d.oid := by
  obtain ⟨d', hd', hoid, hleaf', he⟩ := h.leaves d hd hleaf
  have hv : d.oid ∈ ((G.scheme M a .reproduce st).cascade st M).verts := mem_oids hd
  have hv' : d.oid ∈ ((G'.scheme M a .reproduce st').cascade st' M).verts := hoid ▸ mem_oids hd'
  have hperm : (P' d.oid).Perm (P d.oid) := by
    refine (List.perm_ext_iff_of_nodup (hs'.nodup _ hv') (hs.nodup _ hv)).mpr fun k => ?_
    rw [hs'.mem_iff _ hv', hs.mem_iff _ hv, hr.feeds_iff hg hc, hr'.feeds_iff hg' hc']
    constructor
    · rintro ⟨⟨x, hx, rfl, hroot⟩, hp⟩
      obtain ⟨y, hy, hyx, hroot', -⟩ := h'.roots x hx hroot
      exact ⟨⟨y, hy, hyx, hroot'⟩, hoid ▸ h'.reach x hx hroot d' hd' hleaf' (hoid.symm ▸ hp)⟩
    · rintro ⟨⟨x, hx, rfl, hroot⟩, hp⟩
      obtain ⟨y, hy, hyx, hroot', -⟩ := h.roots x hx hroot
      exact ⟨⟨y, hy, hyx, hroot'⟩, h.reach x hx hroot d hd hleaf hp⟩
  have hvals : ((P' d.oid).map B').Perm ((P d.oid).map B) := by
    refine (hperm.map B').trans (List.Perm.of_eq (List.map_congr_left fun k hk => ?_))
    obtain ⟨⟨x, hx, rfl, hroot⟩, -⟩ := (hr.feeds_iff hg hc).mp ((hs.mem_iff _ hv k).mp hk)
    exact h.root_eq hs hs' hx hroot
  rw [← hoid, digest_eq hs' hd', ownHashes_eq hd hd' he, hoid, digest_eq hs hd,
    sorted_congr hvals]

end DropList

/-- REPRODUCE mode compresses a graph to its terminal data: what comes to a drop are the hashes
of the root data drops that lead to it, and two graphs with the same leaves and root data, of
which the same lead to the same leaves, have the same signature. -/
theorem reproduce_compresses [DecidableEq C] [Inhabited C] [LinearOrder H] (M : Merkle H)
    (a : Abstraction) :
    (∀ (G : DropList C O) (st : Store C O H), G.Dag → G.AllReproduce →
      G.Complete M a .reproduce st → ∃ r, buildBlockdag M G a .reproduce st = .ok r ∧
        ∀ d ∈ G.drops, ∃ e hs, r.store d.cell .reproduce = some e ∧
          e.parenthashes a.layer = some hs ∧ (hs.map Prod.fst).Nodup ∧
          ∀ k h, (k, h) ∈ hs ↔ ∃ d₀ ∈ G.drops, d₀.oid = k ∧ G.IsRootData st d₀ ∧
            Relation.TransGen G.Edge k d.oid ∧
            ∃ e₀, r.store d₀.cell .reproduce = some e₀ ∧ e₀.blockhash a.layer = some h) ∧
    ∀ (G G' : DropList C O) (st st' : Store C O H), G.Dag → G'.Dag → G.AllReproduce →
      G'.AllReproduce → G.Complete M a .reproduce st → G'.Complete M a .reproduce st' →
      G.EndsIn st G' st' → G'.EndsIn st' G st →
      ∃ r r', buildBlockdag M G a .reproduce st = .ok r ∧
        buildBlockdag M G' a .reproduce st' = .ok r' ∧
        agglomerateLeaves M r'.leaves = agglomerateLeaves M r.leaves := by
  refine ⟨fun G st hg hr hc => ?_, fun G G' st st' hg hg' hr hr' hc hc' h h' => ?_⟩
  · obtain ⟨r, B, P, hok, -, -, hs, -, hentry, -⟩ := DropList.buildBlockdag_solves hg hc
    have hblock : ∀ d ∈ G.drops, ∃ e, r.store d.cell .reproduce = some e ∧
        e.blockhash a.layer = some (B d.oid) ∧
        e.parenthashes a.layer = some ((P d.oid).map fun k => (k, B k)) := by
      intro d hd
      obtain ⟨e, l, he, -, -⟩ := hc.entry d hd
      refine ⟨_, (hentry d hd).trans (by rw [he]; rfl), by simp, by simp⟩
    refine ⟨r, hok, fun d hd => ?_⟩
    obtain ⟨e, he, -, hpar⟩ := hblock d hd
    have hmem : d.oid ∈ ((G.scheme M a .reproduce st).cascade st M).verts :=
      DropList.mem_oids hd
    refine ⟨e, _, he, hpar, ?_, fun k x => ?_⟩
    · rw [List.map_map]
      simpa [Function.comp_def] using hs.nodup _ hmem
    · simp only [List.mem_map, Prod.mk.injEq]
      constructor
      · rintro ⟨k, hk, rfl, rfl⟩
        obtain ⟨⟨d₀, hd₀, rfl, hroot⟩, hp⟩ := (hr.feeds_iff hg hc).mp ((hs.mem_iff _ hmem k).mp hk)
        obtain ⟨e₀, he₀, hb₀, -⟩ := hblock d₀ hd₀
        exact ⟨d₀, hd₀, rfl, hroot, hp, e₀, he₀, hb₀⟩
      · rintro ⟨d₀, hd₀, rfl, hroot, hp, e₀, he₀, hb₀⟩
        obtain ⟨e₁, he₁, hb₁, -⟩ := hblock d₀ hd₀
        obtain rfl := Option.some.inj (he₀.symm.trans he₁)
        exact ⟨d₀.oid, (hs.mem_iff _ hmem _).mpr
          ((hr.feeds_iff hg hc).mpr ⟨⟨d₀, hd₀, rfl, hroot⟩, hp⟩), rfl,
          Option.some.inj (hb₁.symm.trans hb₀)⟩
  · obtain ⟨r, B, P, hok, -, -, hs, hleaves, -, -⟩ := DropList.buildBlockdag_solves hg hc
    obtain ⟨r', B', P', hok', -, -, hs', hleaves', -, -⟩ :=
      DropList.buildBlockdag_solves hg' hc'
    refine ⟨r, r', hok, hok', ?_⟩
    have hperm : r'.leaves.Perm r.leaves := by
      rw [hleaves, hleaves']
      refine ((h.leaves_perm h').map B').trans (List.Perm.of_eq ?_)
      refine List.map_congr_left fun o ho => ?_
      obtain ⟨d, hd, rfl, hleaf⟩ := DropList.mem_leaves.mp ho
      exact h.leaf_eq h' hr hg hc hr' hg' hc' hs hs' hd hleaf
    rw [agglomerateLeaves, agglomerateLeaves, sorted_congr hperm]

/-! Data worked on by one application, or by another. -/

def workedOn (app : String) (cell : Nat) (h : app ≠ "data" ∧ app ≠ "out") :
    DropList Nat String where
  drops := [
    { oid := "data", rmode := .reproduce, consumers := [.plain app], cell := 0 },
    { oid := app, rmode := .reproduce, outputs := [.plain "out"], cell },
    { oid := "out", rmode := .reproduce, cell := 1 }]
  distinct := by simp [h.1.symm, h.2]

/-- Entries whose category is data for the first two references. -/
def recordedEnds (c : Nat) (_ : Mode) : Option (Entry String Nat) :=
  some { pgtData := some { merkleroot := some (30 + c),
                           categoryType := some (if c ≤ 1 then "Data" else "Application") }
         parenthashes := fun _ => some [] }

section Worked

variable {app : String} {cell : Nat} {h : app ≠ "data" ∧ app ≠ "out"} {u v : String}
  {d : Drop Nat String}

theorem mem_workedOn (hd : d ∈ (workedOn app cell h).drops) :
    d.oid = "data" ∧ d.neighbours = [app] ∧ d.cell = 0 ∨
    d.oid = app ∧ d.neighbours = ["out"] ∧ d.cell = cell ∨
    d.oid = "out" ∧ d.neighbours = [] ∧ d.cell = 1 := by
  simp only [workedOn, List.mem_cons, List.not_mem_nil, or_false] at hd
  rcases hd with rfl | rfl | rfl
  · exact Or.inl ⟨rfl, rfl, rfl⟩
  · exact Or.inr (Or.inl ⟨rfl, rfl, rfl⟩)
  · exact Or.inr (Or.inr ⟨rfl, rfl, rfl⟩)

theorem workedOn_edge :
    (workedOn app cell h).Edge u v ↔ u = "data" ∧ v = app ∨ u = app ∧ v = "out" := by
  constructor
  · rintro ⟨hu, hv⟩
    obtain ⟨d, hd, rfl⟩ := DropList.exists_of_mem_oids hu
    rw [DropList.neighbours_eq hd] at hv
    rcases mem_workedOn hd with ⟨ho, hn, -⟩ | ⟨ho, hn, -⟩ | ⟨ho, hn, -⟩
    · exact Or.inl ⟨ho, by simpa [hn] using hv⟩
    · exact Or.inr ⟨ho, by simpa [hn] using hv⟩
    · simp [hn] at hv
  · rintro (⟨rfl, rfl⟩ | ⟨rfl, rfl⟩)
    · simp [DropList.Edge, Kahn.Edge, DropList.oids, DropList.neighbours, DropList.drop,
        workedOn, Drop.neighbours, Dest.oid]
    · simp [DropList.Edge, Kahn.Edge, DropList.oids, DropList.neighbours, DropList.drop,
        workedOn, Drop.neighbours, Dest.oid, h.1.symm]

theorem workedOn_dag : (workedOn app cell h).Dag where
  closed d hd o ho := by
    have he : (workedOn app cell h).Edge d.oid o :=
      ⟨DropList.mem_oids hd, by rwa [DropList.neighbours_eq hd]⟩
    rcases workedOn_edge.mp he with ⟨-, rfl⟩ | ⟨-, rfl⟩ <;> simp [DropList.oids, workedOn]
  acyclic := by
    refine acyclic_of_rank (fun o => if o = "data" then 0 else if o = "out" then 2 else 1) ?_
    intro u hu v hv
    rcases workedOn_edge.mp ⟨hu, hv⟩ with ⟨rfl, rfl⟩ | ⟨rfl, rfl⟩ <;> simp [h.1, h.2]

theorem workedOn_allReproduce : (workedOn app cell h).AllReproduce := by
  simp [DropList.AllReproduce, workedOn]

theorem workedOn_complete (hc : 2 ≤ cell) :
    (workedOn app cell h).Complete someMerkle .pgt .reproduce recordedEnds where
  owns d hd d' hd' he := by
    refine DropList.eq_of_oid hd hd' ?_
    rcases mem_workedOn hd with ⟨h1, -, h2⟩ | ⟨h1, -, h2⟩ | ⟨h1, -, h2⟩ <;>
      rcases mem_workedOn hd' with ⟨h3, -, h4⟩ | ⟨h3, -, h4⟩ | ⟨h3, -, h4⟩ <;>
      first
      | exact h1.trans h3.symm
      | omega
  entry d _ := ⟨_, _, rfl, rfl, rfl⟩
  category d _ _ := ⟨_, rfl⟩

theorem workedOn_rootData (hd : d ∈ (workedOn app cell h).drops) :
    (workedOn app cell h).IsRootData recordedEnds d ↔ d.oid = "data" := by
  constructor
  · rintro ⟨hroot, -⟩
    rcases mem_workedOn hd with ⟨ho, -⟩ | ⟨ho, -⟩ | ⟨ho, -⟩
    · exact ho
    · exact absurd ⟨"data", workedOn_edge.mpr (Or.inl ⟨rfl, ho⟩)⟩ hroot
    · exact absurd ⟨app, workedOn_edge.mpr (Or.inr ⟨rfl, ho⟩)⟩ hroot
  · intro ho
    constructor
    · rintro ⟨u, hu⟩
      rcases workedOn_edge.mp hu with ⟨-, ha⟩ | ⟨-, hout⟩
      · exact h.1 (ha.symm.trans ho)
      · exact absurd (ho.symm.trans hout) (by decide)
    · refine ⟨"Data", ?_, by decide⟩
      rcases mem_workedOn hd with ⟨-, -, hcell⟩ | ⟨h1, -⟩ | ⟨h1, -⟩
      · rw [hcell]
        rfl
      · exact absurd (h1.symm.trans ho) h.1
      · exact absurd (h1.symm.trans ho) (by decide)

/-- The ends do not depend on the application. -/
theorem workedOn_endsIn {app' : String} {cell' : Nat} {h' : app' ≠ "data" ∧ app' ≠ "out"} :
    (workedOn app cell h).EndsIn recordedEnds (workedOn app' cell' h') recordedEnds where
  leaves d hd hleaf := by
    rcases mem_workedOn hd with ⟨-, hn, -⟩ | ⟨-, hn, -⟩ | ⟨ho, -, hcell⟩
    · simp [hn] at hleaf
    · simp [hn] at hleaf
    · exact ⟨⟨"out", .reproduce, none, [], [], 1⟩, by simp [workedOn], ho.symm, rfl, by rw [hcell]⟩
  roots d hd hroot := by
    have ho := (workedOn_rootData hd).mp hroot
    have hmem : (⟨"data", .reproduce, none, [], [.plain app'], 0⟩ : Drop Nat String) ∈
        (workedOn app' cell' h').drops := by simp [workedOn]
    refine ⟨_, hmem, ho.symm, (workedOn_rootData hmem).mpr rfl, ?_⟩
    rcases mem_workedOn hd with ⟨-, -, hcell⟩ | ⟨h1, -⟩ | ⟨h1, -⟩
    · rw [hcell]
    · exact absurd (h1.symm.trans ho) h.1
    · exact absurd (h1.symm.trans ho) (by decide)
  reach d hd hroot l hl hleaf _ := by
    have ho := (workedOn_rootData hd).mp hroot
    rcases mem_workedOn hl with ⟨-, hn, -⟩ | ⟨-, hn, -⟩ | ⟨hout, -⟩
    · simp [hn] at hleaf
    · simp [hn] at hleaf
    · rw [ho, hout]
      exact (Relation.TransGen.single (workedOn_edge.mpr (Or.inl ⟨rfl, rfl⟩))).tail
        (workedOn_edge.mpr (Or.inr ⟨rfl, rfl⟩))

end Worked

def worked : DropList Nat String := workedOn "app" 2 (by decide)

def reworked : DropList Nat String := workedOn "copy" 3 (by decide)

theorem worked_compresses :
    (∃ r, buildBlockdag someMerkle worked .pgt .reproduce recordedEnds = .ok r ∧
      ∀ d ∈ worked.drops, ∃ e hs, r.store d.cell .reproduce = some e ∧
        e.parenthashes .pgt = some hs ∧ (hs.map Prod.fst).Nodup ∧
        ∀ k h, (k, h) ∈ hs ↔ ∃ d₀ ∈ worked.drops, d₀.oid = k ∧
          worked.IsRootData recordedEnds d₀ ∧ Relation.TransGen worked.Edge k d.oid ∧
          ∃ e₀, r.store d₀.cell .reproduce = some e₀ ∧ e₀.blockhash .pgt = some h) ∧
    ∃ r r', buildBlockdag someMerkle worked .pgt .reproduce recordedEnds = .ok r ∧
      buildBlockdag someMerkle reworked .pgt .reproduce recordedEnds = .ok r' ∧
      agglomerateLeaves someMerkle r'.leaves = agglomerateLeaves someMerkle r.leaves := by
  have hspec := reproduce_compresses (C := Nat) (O := String) someMerkle .pgt
  exact ⟨hspec.1 worked recordedEnds workedOn_dag workedOn_allReproduce
      (workedOn_complete (by decide)),
    hspec.2 worked reworked recordedEnds recordedEnds workedOn_dag workedOn_dag
      workedOn_allReproduce workedOn_allReproduce (workedOn_complete (by decide))
        (workedOn_complete (by decide))
      workedOn_endsIn workedOn_endsIn⟩

end Daliuge.Repro
