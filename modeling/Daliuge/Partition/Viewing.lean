import Daliuge.Partition.Scheduled

/-!
# Placing what has been viewed

The map from oids to partitions is filled before linearisation adds drops, so a drop that it has
added is placed by none. A drop of the oid `-92`, which is taken for the fake super root, is left
out of the map as well.
-/
namespace Daliuge.Partition

open Collect

/-- Some drop is followed by one of its own type. -/
def Clashes (dag : DropGraph) (drops : List DropSpec) : Prop :=
  ∃ d ∈ drops, ∃ k b, keyDict drops d.oid = some k ∧ dag.graph.Edge k b ∧
    dag.dropType b = some d.sourceType

/-! ### Linearisation of any drop list -/

section Linearised

variable {dag : DropGraph} {drops : List DropSpec} {s s' t : Linearising} {c c' : Prop}

/-- Some turns: something is added when there is a clash, and only links otherwise. -/
structure Linked (c : Prop) (s s' : Linearising) : Prop where
  length : s'.drops.length = s.drops.length
  quiet : ¬ c → s' = { s with links := s'.links }
  grows : c ∨ s.extraDrops ≠ [] → s'.extraDrops ≠ []

theorem Linked.trans (h : Linked c s t) (h' : Linked c' t s') : Linked (c ∨ c') s s' where
  length := h'.length.trans h.length
  quiet hn := by
    rw [not_or] at hn
    rw [h'.quiet hn.2, h.quiet hn.1]
  grows hg := by
    rcases hg with (hc | hc) | hs
    · exact h'.grows (Or.inr (h.grows (Or.inl hc)))
    · exact h'.grows (Or.inl hc)
    · exact h'.grows (Or.inr (h.grows (Or.inr hs)))

theorem foldlM_linked {α : Type} {f : Linearising → α → Except DropErr Linearising} {c : α → Prop}
    {n : Nat} {l : List α} (h : ∀ a ∈ l, ∀ s, s.drops.length = n →
      ∃ s', f s a = .ok s' ∧ Linked (c a) s s') (s : Linearising) (hs : s.drops.length = n) :
    ∃ s', l.foldlM f s = .ok s' ∧ Linked (∃ a ∈ l, c a) s s' := by
  induction l generalizing s with
  | nil => exact ⟨s, rfl, rfl, fun _ => rfl, by simp⟩
  | cons a l ih =>
    obtain ⟨t, ht, hlink⟩ := h a (by simp) s hs
    obtain ⟨s', hs', hrest⟩ := ih (fun b hb => h b (by simp [hb])) t (hlink.length.trans hs)
    refine ⟨s', ?_, ?_⟩
    · rw [List.foldlM_cons, ht, ok_bind, hs']
    · simp only [List.mem_cons, exists_eq_or_imp]
      exact hlink.trans hrest

/-- The turn of one successor. -/
theorem linkTarget_linked (h : Numbered drops dag) {d : DropSpec} {i index : Nat} {a b : Int}
    (hb : b ∈ dag.graph.nodes) (hs : s.drops.length = drops.length) :
    ∃ s', linkTarget dag d i a s (b, index) = .ok s' ∧
      Linked (dag.dropType b = some d.sourceType) s s' := by
  obtain ⟨j, hj, rfl⟩ := (h.nodes b).mp hb
  have ht := h.types j _ (List.getElem?_eq_getElem hj)
  unfold linkTarget
  simp only [ht, ok_bind_fetch, Option.some.injEq]
  have hspec : specAt ((j : Int) + 1) = some j := by
    unfold specAt
    rw [if_pos (by omega)]
    congr 1
    omega
  split
  · rename_i he
    have hj' := List.getElem?_eq_getElem (hs ▸ hj)
    rw [hspec, ok_bind_fetch, hj', ok_bind_fetch]
    refine ⟨_, rfl, ?_, fun hn => absurd he.symm hn, ?_⟩
    · simp only [Linearising.insert]
      split <;> simp
    · intro _
      simp [Linearising.insert]
  · rename_i he
    exact ⟨_, rfl, rfl, fun _ => rfl, fun hc => hc.resolve_left (Ne.symm he)⟩

/-- The turn of one drop. -/
theorem lineariseDrop_linked (h : Numbered drops dag) {p : DropSpec × Nat} (hp : p ∈ drops.zipIdx)
    (hs : s.drops.length = drops.length) : ∃ s', lineariseDrop dag (keyDict drops) s p = .ok s' ∧
      Linked (∃ k b, keyDict drops p.1.oid = some k ∧ dag.graph.Edge k b ∧
        dag.dropType b = some p.1.sourceType) s s' := by
  obtain ⟨k, hk⟩ := exists_keyDict (List.fst_mem_of_mem_zipIdx hp)
  unfold lineariseDrop
  rw [hk, ok_bind_fetch]
  obtain ⟨s', hs', hlink⟩ := foldlM_linked (f := linkTarget dag p.1 p.2 k)
    (c := fun q => dag.dropType q.1 = some p.1.sourceType)
    (l := (dag.graph.successors k).zipIdx) (n := drops.length) (fun q hq s hs =>
      linkTarget_linked h (h.edges _ _
        (Digraph.mem_successors.mp (List.fst_mem_of_mem_zipIdx hq))).2 hs) s hs
  refine ⟨s', hs', ?_⟩
  have hiff : (∃ q ∈ (dag.graph.successors k).zipIdx, dag.dropType q.1 = some p.1.sourceType) ↔
      ∃ k' b, some k = some k' ∧ dag.graph.Edge k' b ∧ dag.dropType b = some p.1.sourceType := by
    constructor
    · rintro ⟨q, hq, ht⟩
      exact ⟨k, q.1, rfl, Digraph.mem_successors.mp (List.fst_mem_of_mem_zipIdx hq), ht⟩
    · rintro ⟨k', b, he, hb, ht⟩
      obtain rfl := Option.some.inj he
      obtain ⟨m, hm⟩ := List.mem_iff_getElem?.mp (Digraph.mem_successors.mpr hb)
      exact ⟨(b, m), List.mem_zipIdx_iff_getElem?.mpr hm, ht⟩
  exact iff_of_eq (congrArg (Linked · s s') (propext hiff)) |>.mp hlink

/-- Nothing is put in, so nothing changes. -/
theorem apply_nothing (h1 : s.addNodes = []) (h2 : s.removeEdges = []) (h3 : s.addEdges = []) :
    s.apply dag = dag := by
  unfold Linearising.apply DropGraph.addEdges DropGraph.removeEdges
  simp [h1, h2, h3]

/-- Linearisation adds drops exactly when there is a clash. -/
theorem linearise_linked (h : Numbered drops dag) :
    ∃ s, linearise dag drops (keyDict drops) = .ok (s, s.apply dag) ∧
      (¬ Clashes dag drops → s.extraDrops = [] ∧ s.drops = drops ∧ s.apply dag = dag) ∧
      (Clashes dag drops → s.extraDrops ≠ []) ∧ s.drops.length = drops.length := by
  obtain ⟨s, hs, hlink⟩ := foldlM_linked (f := lineariseDrop dag (keyDict drops))
    (c := fun p => ∃ k b, keyDict drops p.1.oid = some k ∧ dag.graph.Edge k b ∧
      dag.dropType b = some p.1.sourceType) (l := drops.zipIdx) (n := drops.length)
    (fun p hp s hs => lineariseDrop_linked h hp hs) { drops } rfl
  have hiff : (∃ p ∈ drops.zipIdx, ∃ k b, keyDict drops p.1.oid = some k ∧ dag.graph.Edge k b ∧
      dag.dropType b = some p.1.sourceType) ↔ Clashes dag drops := by
    constructor
    · rintro ⟨p, hp, hc⟩
      exact ⟨p.1, List.fst_mem_of_mem_zipIdx hp, hc⟩
    · rintro ⟨d, hd, hc⟩
      obtain ⟨i, hi⟩ := List.mem_iff_getElem?.mp hd
      exact ⟨(d, i), List.mem_zipIdx_iff_getElem?.mpr hi, hc⟩
  refine ⟨s, ?_, fun hn => ?_, fun hc => ?_, hlink.length⟩
  · unfold linearise
    rw [hs]
    rfl
  · have he := hlink.quiet (hn ∘ hiff.mp)
    rw [he]
    exact ⟨rfl, rfl, apply_nothing rfl rfl rfl⟩
  · exact hlink.grows (Or.inl (hiff.mpr hc))

end Linearised

/-! ### The map from oids to partitions -/

namespace PGTP

section View

variable {p : PGTP} {r : Scheduled} {ids : List Int} {k : Int}

theorem dropSpec_pos (i : Nat) : p.dropSpec ((i : Int) + 1) = p.drops[i]? := by
  unfold dropSpec
  rw [if_pos (by omega)]
  congr 1
  omega

/-- What the loop has found after some nodes. -/
structure Noted (p : PGTP) (ids pre : List Int) (c : Notes) : Prop where
  root : c.oidGidMap "-92" = none
  known : ∀ oid g, c.oidGidMap oid = some g → ∃ id ∈ ids, g = id - p.startK
  entered : ∀ k ∈ pre, ∀ r, p.dropSpec k = some r → r.spec.oid ≠ "-92" →
    c.oidGidMap r.spec.oid ≠ none
  noRoot : (∀ r ∈ p.drops, r.spec.oid ≠ "-92") → c.rootGid = none

theorem noteNode_noted (hn : Numbered (p.drops.map Record.spec) p.dag)
    (hg : ∀ k ∈ p.dag.graph.nodes, ∃ id ∈ ids, p.dag.gid k = some id) {pre : List Int} {c : Notes}
    (hk : k ∈ p.dag.graph.nodes) (hc : Noted p ids pre c) :
    ∃ c', p.noteNode c k = .ok c' ∧ Noted p ids (pre ++ [k]) c' := by
  obtain ⟨id, hid, hgid⟩ := hg k hk
  obtain ⟨i, hi, rfl⟩ := (hn.nodes k).mp hk
  rw [List.length_map] at hi
  have hr := List.getElem?_eq_getElem hi
  have hmem := List.mem_of_getElem? hr
  generalize p.drops[i] = d at hr hmem
  have hspec : p.dropSpec ((i : Int) + 1) = some d := by rw [dropSpec_pos, hr]
  unfold noteNode
  rw [hspec, ok_bind_fetch, hgid, ok_bind_fetch]
  have hsame : ∀ r, p.dropSpec ((i : Int) + 1) = some r → r = d := fun r hr' =>
    Option.some.inj (hr'.symm.trans hspec)
  split
  · rename_i hoid
    refine ⟨_, rfl, hc.root, hc.known, fun k' hk' r hr' hne => ?_, fun h => absurd hoid (h d hmem)⟩
    rcases List.mem_append.mp hk' with hk' | hk'
    · exact hc.entered k' hk' r hr' hne
    · obtain rfl := List.mem_singleton.mp hk'
      obtain rfl := hsame r hr'
      exact absurd hoid hne
  · rename_i hoid
    refine ⟨_, rfl, ?_, fun oid g h => ?_, fun k' hk' r hr' hne => ?_, hc.noRoot⟩
    · exact (Function.update_of_ne (Ne.symm hoid) ..).trans hc.root
    · by_cases ho : oid = d.spec.oid
      · subst ho
        have h : Function.update c.oidGidMap d.spec.oid (some (id - p.startK)) d.spec.oid =
          some g := h
        rw [Function.update_self] at h
        exact ⟨id, hid, (Option.some.inj h).symm⟩
      · have h : Function.update c.oidGidMap d.spec.oid (some (id - p.startK)) oid = some g := h
        rw [Function.update_of_ne ho] at h
        exact hc.known oid g h
    · show Function.update c.oidGidMap d.spec.oid _ r.spec.oid ≠ none
      by_cases ho : r.spec.oid = d.spec.oid
      · rw [ho, Function.update_self]
        simp
      · rw [Function.update_of_ne ho]
        rcases List.mem_append.mp hk' with hk' | hk'
        · exact hc.entered k' hk' r hr' hne
        · obtain rfl := List.mem_singleton.mp hk'
          exact absurd (congrArg (·.spec.oid) (hsame r hr')) ho

/-- The map has every drop but the fake super root. -/
theorem noteParts_ok (hn : Numbered (p.drops.map Record.spec) p.dag)
    (hids : p.partitions = some ids)
    (hg : ∀ k ∈ p.dag.graph.nodes, ∃ id ∈ ids, p.dag.gid k = some id)
    (h0 : p.oidGidMap = fun _ => none) : ∃ m g ids' num, p.noteParts = .ok { p with
        oidGidMap := m, groups := g, partitions := some ids', numPartsDone := num } ∧
      m "-92" = none ∧ (num = p.numPartsDone ∨ num ≤ ids.length) ∧
      ((∀ r ∈ p.drops, r.spec.oid ≠ "-92") → ids' = ids ∧ num = ids.length ∧
        ∀ r ∈ p.drops, ∃ id ∈ ids, m r.spec.oid = some (id - p.startK)) := by
  obtain ⟨c, hc, hnoted⟩ : ∃ c, p.dag.graph.nodes.foldlM p.noteNode { oidGidMap := p.oidGidMap } =
      .ok c ∧ Noted p ids p.dag.graph.nodes c :=
    foldlM_prefix (fun pre k post s he hi => noteNode_noted hn hg (he ▸ by simp) hi)
      ⟨by rw [h0], by simp [h0], by simp, fun _ => rfl⟩
  unfold noteParts
  rw [hc, ok_bind]
  have hfound : (∀ r ∈ p.drops, r.spec.oid ≠ "-92") → ∀ r ∈ p.drops, ∃ id ∈ ids,
      c.oidGidMap r.spec.oid = some (id - p.startK) := by
    intro hno r hr
    obtain ⟨i, hi⟩ := List.mem_iff_getElem?.mp hr
    have hk : (i : Int) + 1 ∈ p.dag.graph.nodes := by
      refine (hn.nodes _).mpr ⟨i, ?_, rfl⟩
      rw [List.length_map]
      exact (List.getElem?_eq_some_iff.mp hi).1
    have hne := hnoted.entered _ hk r (by rw [dropSpec_pos, hi]) (hno r hr)
    obtain ⟨g, hg⟩ := Option.ne_none_iff_exists'.mp hne
    obtain ⟨id, hid, rfl⟩ := hnoted.known _ g hg
    exact ⟨id, hid, hg⟩
  by_cases hroot : c.rootGid.any (· ∈ c.groups)
  · simp only [hroot, if_true]
    refine ⟨c.oidGidMap, c.groups, ids, p.numPartsDone, ?_, hnoted.root, Or.inl rfl, fun hno => ?_⟩
    · rw [← hids]
      rfl
    · rw [hnoted.noRoot hno] at hroot
      simp at hroot
  · simp only [hroot, hids]
    refine ⟨c.oidGidMap, c.groups, _, _, rfl, hnoted.root, Or.inr (List.length_filter_le ..),
      fun hno => ?_⟩
    have hall : (ids.filter fun id => some id ≠ c.rootGid) = ids := by
      rw [hnoted.noRoot hno]
      simp
    rw [hall]
    exact ⟨rfl, rfl, hfound hno⟩

/-! ### The view -/

/-- A template that has been viewed, by what linearisation has collected. -/
def viewed (q : PGTP) (s : Linearising) : PGTP :=
  ({ q with
    drops := q.drops.zipWith (fun r d => { r with spec := d }) s.drops
    extraDrops := some (s.extraDrops.map fun d => { spec := d })
    dag := s.apply q.dag } : PGTP).numberDrops

theorem zipWith_spec (l : List Record) :
    l.zipWith (fun r d => { r with spec := d }) (l.map Record.spec) = l := by
  induction l with
  | nil => rfl
  | cons r l ih =>
    rw [List.map_cons, List.zipWith_cons_cons, ih]

/-- What `init` makes. -/
theorem init_ok {className : String} {drops : List Record} {mergeParts : Bool}
    (h : init className drops mergeParts = .ok p) :
    buildDagFromDrops (drops.map Record.spec) = .ok p.dag ∧
      p = { className, drops, dag := p.dag, mergeParts } := by
  unfold init at h
  obtain ⟨dag, hdag, h⟩ := bind_ok.mp h
  obtain rfl := pure_ok.mp h
  exact ⟨hdag, rfl⟩

/-- A template after the scheduler has been asked and the nodes have been noted. -/
def noted (p : PGTP) (r : Scheduled) (ids : List Int) (num : Nat) (m : String → Option Int)
    (g : List Int) : PGTP :=
  { p with
    numPartsDone := num
    partitions := some ids
    dag := r.dag
    oidGidMap := m
    groups := g }

/-- The first view of a new template, up to the groups in the projection. -/
structure FirstView (p : PGTP) (r : Scheduled) (q : PGTP) (s : Linearising) : Prop where
  run : p.toGojsJson (.ok r) true = (do
    return (q.viewed s, ← (q.viewed s).projectedKeys.mapM (q.viewed s).groupOf))
  drops : q.drops = p.drops
  dag : q.dag = r.dag
  mergeParts : q.mergeParts = p.mergeParts
  partitionMerged : q.partitionMerged = 0
  root : q.oidGidMap "-92" = none
  count : q.numPartsDone = r.numParts ∨ q.numPartsDone ≤ r.partitions.length
  found : (∀ d ∈ p.drops, d.spec.oid ≠ "-92") → q.partitions = some r.partitions ∧
    q.numPartsDone = r.partitions.length ∧
    ∀ d ∈ p.drops, ∃ id ∈ r.partitions, q.oidGidMap d.spec.oid = some (id - p.startK)
  quiet : ¬ Clashes r.dag (p.drops.map Record.spec) →
    s.extraDrops = [] ∧ s.drops = p.drops.map Record.spec ∧ s.apply r.dag = r.dag
  grows : Clashes r.dag (p.drops.map Record.spec) → s.extraDrops ≠ []
  length : s.drops.length = p.drops.length

theorem exists_firstView {className : String} {drops : List Record} {mergeParts : Bool}
    (h : init className drops mergeParts = .ok p) (hr : Assigned p.dag drops.length r)
    (hn : Numbered (drops.map Record.spec) r.dag) : ∃ q s, FirstView p r q s := by
  obtain ⟨-, hp⟩ := init_ok h
  generalize p.dag = dag at hp hr
  obtain rfl := hp
  obtain ⟨m, g, ids, num, hnote, hroot, hnum, hall⟩ := noteParts_ok
    (p := { className, drops, dag := r.dag, mergeParts, numPartsDone := r.numParts,
            partitions := some r.partitions }) hn rfl (hr.nodes ▸ hr.gids) rfl
  obtain ⟨s, hs, hquiet, hgrows, hlen⟩ := linearise_linked hn
  rw [List.length_map] at hlen
  refine ⟨noted { className, drops, dag, mergeParts } r ids num m g, s, ?_, rfl, rfl, rfl, rfl,
    hroot, hnum, fun hno => ?_, hquiet, hgrows, hlen⟩
  · have hsched : schedule { className, drops, dag, mergeParts } (.ok r) = .ok
        { className
          drops
          dag := r.dag
          mergeParts
          numPartsDone := r.numParts
          partitions := some r.partitions } := by
      unfold schedule
      rw [if_pos ⟨rfl, rfl⟩]
      rfl
    have hprep : prepareGojsProjection (noted { className, drops, dag, mergeParts } r ids num m g) =
        .ok { noted { className, drops, dag, mergeParts } r ids num m g with
          drops := drops.zipWith (fun r d => { r with spec := d }) s.drops
          extraDrops := some (s.extraDrops.map fun d => { spec := d })
          dag := s.apply r.dag } := by
      unfold prepareGojsProjection noted
      simp only [hs, ok_bind]
      rfl
    have hnote : noteParts
        { className
          drops
          dag := r.dag
          mergeParts
          numPartsDone := r.numParts
          partitions := some r.partitions } =
        .ok (noted { className, drops, dag, mergeParts } r ids num m g) := hnote
    unfold toGojsJson
    rw [hsched, ok_bind, hnote, ok_bind, if_pos rfl, hprep, ok_bind]
    rfl
  · obtain ⟨rfl, rfl, hgid⟩ := hall hno
    exact ⟨rfl, rfl, hgid⟩

/-- The groups of the projection, when nothing synthetic is in it. -/
theorem groups_ok (he : p.extraDrops = some [])
    (hg : ∀ i < p.drops.length, ∃ gid, p.dag.gid ((i : Int) + 1) = some gid) :
    ∃ groups, p.projectedKeys.mapM p.groupOf = .ok groups := by
  obtain ⟨groups, hgroups, -⟩ := mapM_related (R := Eq) (S := fun _ _ => True)
    (List.forall₂_refl p.projectedKeys) (f := p.groupOf) fun key hkey key' hkey' => by
      subst hkey'
      unfold projectedKeys at hkey
      rw [he] at hkey
      obtain ⟨i, hi, rfl⟩ : ∃ i < p.drops.length, (i : Int) + 1 = key := by simpa using hkey
      obtain ⟨gid, hgid⟩ := hg i hi
      unfold groupOf
      rw [hgid]
      exact ⟨_, rfl, trivial⟩
  exact ⟨groups, hgroups⟩

end View

end PGTP

/-! ### The stamps -/

section Stamps

variable {p q : PGTP} {cluster : DropGraph → Int → Except DropErr (List (Option Int))}
  {nodeList : List String} {numIslands tplNodesLen n : Int} {coHostDim f : Bool}
  {ds : List Record} {k : Nat}

theorem pyIndex_nat {α : Type} {l : List α} {i : Nat} (h : i < l.length) :
    pyIndex l (i : Int) = .ok l[i] := by
  unfold pyIndex
  rw [if_pos (by omega), Int.toNat_natCast, List.getElem?_eq_getElem h]
  exact if_pos (by omega)

theorem placeholder_ok {m i : Nat} (h : i < m) :
    pyIndex (placeholderList m) (i : Int) = .ok (.placeholder i) := by
  have hlen : i < (placeholderList m).length := by simpa [placeholderList] using h
  rw [pyIndex_nat hlen]
  simp [placeholderList]

theorem fetch_eq_ok {α : Type} {key : String} {o : Option α} {a : α} (h : fetch key o = .ok a) :
    o = some a := by
  cases o with
  | none => simp [fetch] at h
  | some b => exact congrArg some (Except.ok.inj h)

/-- The drops and their keys are the same. -/
structure SameDrops (p q : PGTP) : Prop where
  drops : q.drops = p.drops
  extraDrops : q.extraDrops = p.extraDrops
  gojsKeyDict : q.gojsKeyDict = p.gojsKeyDict

theorem SameDrops.allDrops (h : SameDrops p q) : q.allDrops = p.allDrops := by
  unfold PGTP.allDrops
  rw [h.drops, h.extraDrops]

theorem mergePartitions_same (h : p.mergePartitions cluster n f = .ok q) :
    SameDrops p q ∧ (f = true → q.oidGidMap = p.oidGidMap) := by
  unfold PGTP.mergePartitions at h
  obtain ⟨c, -, h⟩ := bind_ok.mp h
  split at h
  · split at h
    · simp [throw, throwThe, MonadExceptOf.throw] at h
    · obtain ⟨parents, -, h⟩ := bind_ok.mp h
      obtain ⟨islands, -, h⟩ := bind_ok.mp h
      split at h
      · obtain rfl := pure_ok.mp h
        exact ⟨⟨rfl, rfl, rfl⟩, fun _ => rfl⟩
      · rename_i hf
        obtain ⟨q', hq, h⟩ := bind_ok.mp h
        obtain rfl := pure_ok.mp h
        refine ⟨?_, fun hf' => absurd hf' hf⟩
        have hkept : SameDrops p q' := by
          refine foldlM_kept (I := SameDrops p) (fun key _ s s' hs hstep => ?_) ?_ hq
          · unfold PGTP.relabel at hstep
            obtain ⟨_, -, hstep⟩ := bind_ok.mp hstep
            obtain ⟨_, -, hstep⟩ := bind_ok.mp hstep
            obtain ⟨_, -, hstep⟩ := bind_ok.mp hstep
            obtain rfl := pure_ok.mp hstep
            exact ⟨hs.drops, hs.extraDrops, hs.gojsKeyDict⟩
          · exact ⟨rfl, rfl, rfl⟩
        exact ⟨hkept.drops, hkept.extraDrops, hkept.gojsKeyDict⟩
  · obtain rfl := pure_ok.mp h
    exact ⟨⟨rfl, rfl, rfl⟩, fun _ => rfl⟩

theorem formIslandsAndStamp_ok (h : p.formIslandsAndStamp cluster nodeList numIslands tplNodesLen
    coHostDim = .ok (ds, k)) : k = islandCount numIslands ∧
      p.stamp cluster (prepareNodeList nodeList tplNodesLen k) k = .ok ds := by
  unfold PGTP.formIslandsAndStamp at h
  dsimp only at h
  generalize (if coHostDim = true then _ else _) = needed at h
  split at h
  · simp at h
  split at h
  · simp at h
  split at h
  · simp at h
  split at h
  · simp at h
  obtain ⟨ds', hds, h⟩ := bind_ok.mp h
  obtain ⟨rfl, rfl⟩ := Prod.mk.inj (pure_ok.mp h)
  exact ⟨rfl, hds⟩

/-- With nodes for all partitions none are merged into one. -/
theorem mergeForIslands_same {k nm : Nat}
    (h : mergeForIslands k (decide (1 < k)) p.numPartsDone nm (p.mergePartitions cluster) p =
      .ok q) :
    SameDrops p q ∧ (p.numPartsDone ≤ nm → q.oidGidMap = p.oidGidMap) := by
  unfold mergeForIslands at h
  split at h
  · obtain ⟨hs, hm⟩ := mergePartitions_same h
    exact ⟨hs, fun _ => hm rfl⟩
  · split at h
    · rename_i hlt
      exact ⟨(mergePartitions_same h).1, fun hle => absurd hlt (by omega)⟩
    · obtain rfl := Except.ok.inj h
      exact ⟨⟨rfl, rfl, rfl⟩, fun _ => rfl⟩

/-- A drop that is placed is in the map and, where there are keys, has an `iid`. -/
theorem placed_of_ok (h : p.stamp cluster nodeList k = .ok ds) {r : Record} (hr : r ∈ p.allDrops) :
    (p.gojsKeyDict ≠ [] → r.iid ≠ none) ∧
    (k + p.numPartsDone ≤ nodeList.length → p.oidGidMap r.spec.oid ≠ none) := by
  unfold PGTP.stamp at h
  obtain ⟨q, hq, h⟩ := bind_ok.mp h
  obtain ⟨hsame, hmap⟩ := mergeForIslands_same hq
  obtain ⟨stamped, hst, h⟩ := bind_ok.mp h
  rw [hsame.allDrops] at hst
  obtain ⟨r', hr'⟩ := ok_of_mapM hst hr
  have hgid : q.oidGidMap r.spec.oid ≠ none ∧ r'.iid = r.iid := by
    unfold stampPlaceholder at hr'
    obtain ⟨gid, hgid, hr'⟩ := bind_ok.mp hr'
    obtain ⟨_, -, hr'⟩ := bind_ok.mp hr'
    obtain ⟨_, -, hr'⟩ := bind_ok.mp hr'
    obtain ⟨_, -, hr'⟩ := bind_ok.mp hr'
    obtain rfl := pure_ok.mp hr'
    exact ⟨by simp [fetch_eq_ok hgid], rfl⟩
  refine ⟨fun hkeys => ?_, fun hle => ?_⟩
  · rw [hsame.gojsKeyDict, if_neg hkeys] at h
    obtain ⟨r'', hr''⟩ := ok_of_mapM h (mem_of_mapM hst hr hr')
    unfold nameKey at hr''
    obtain ⟨_, -, hr''⟩ := bind_ok.mp hr''
    obtain ⟨iid, hiid, -⟩ := bind_ok.mp hr''
    rw [← hgid.2, fetch_eq_ok hiid]
    simp
  · rw [← hmap (by simp; omega)]
    exact hgid.1

end Stamps

/-! ### Placing without synthetic drops -/

section Ready

variable {p q : PGTP} {cluster : DropGraph → Int → Except DropErr (List (Option Int))}
  {nodeList : List String} {ids : List Int} {k : Nat}

theorem exists_lookup {α β : Type} [DecidableEq α] {l : List (α × β)} {a : α}
    (h : a ∈ l.map Prod.fst) : ∃ b, l.lookup a = some b := by
  obtain ⟨⟨a', b⟩, hm, rfl⟩ := List.mem_map.mp h
  refine Option.isSome_iff_exists.mp (List.lookup_isSome_iff.mpr ⟨_, hm, ?_⟩)
  exact beq_self_eq_true _

/-- Every drop has a partition of the list, an `iid` and a key. -/
structure Ready (p : PGTP) (ids : List Int) : Prop where
  extraDrops : p.extraDrops = some []
  partitions : p.partitions = some ids
  numPartsDone : p.numPartsDone = ids.length
  partitionMerged : p.partitionMerged = 0
  range : ∀ id ∈ ids, p.startK ≤ id ∧ id < p.startK + ids.length
  gid : ∀ r ∈ p.drops, ∃ id ∈ ids, p.oidGidMap r.spec.oid = some (id - p.startK)
  iid : ∀ r ∈ p.drops, ∃ iid, r.iid = some iid
  key : ∀ r ∈ p.drops, ∃ key, p.gojsKeyDict.lookup r.spec.oid = some key

/-- The parents that islands need can be had. -/
def Formable (p : PGTP) (dag : DropGraph)
    (cluster : DropGraph → Int → Except DropErr (List (Option Int)))
    (ids : List Int) (k : Nat) : Prop :=
  p.mergeParts = true ∧ k < ids.length ∧ ∃ parents : List Int, parents.length = ids.length ∧
    cluster dag k = .ok (parents.map some)

variable (cluster) in
/-- Partitions are put into islands, or left alone. -/
theorem mergeForIslands_ok (nm : Nat) (h : Ready p ids) (hle : ids.length ≤ nm)
    (hf : k = 1 ∨ Formable p p.dag cluster ids k) :
    ∃ m done, mergeForIslands k (decide (1 < k)) p.numPartsDone nm (p.mergePartitions cluster) p =
        .ok { p with gidIslandIdMap := m, partitionMerged := done } ∧
      (1 < k → ∀ id ∈ ids, ∃ g, m (id - p.startK) = some g) := by
  unfold mergeForIslands
  by_cases h1 : 1 < k
  · rw [if_pos (by simpa using h1)]
    obtain ⟨hm, hlt, parents, hlen, hc⟩ := hf.resolve_left (by omega)
    have hcan : p.canMerge k = .ok true := by
      unfold PGTP.canMerge
      rw [if_neg (by omega), if_neg (by simp [hm]), if_neg (by rw [h.numPartsDone]; omega),
        h.partitionMerged]
      congr 1
      simp
      omega
    have hpar : p.parents cluster k ids = .ok (parents.map some) := by
      unfold PGTP.parents
      rw [if_pos (by omega), hc]
    have hisl : (ids.zip (parents.map some)).mapM (p.islandOf (p.startK + p.numPartsDone)) =
        .ok ((ids.zip parents).map fun x => (x.1 - p.startK,
          x.2 - (p.startK + p.numPartsDone))) := by
      rw [List.zip_map_right, mapM_eq_map (g := fun x =>
        (x.1 - p.startK, x.2.getD 0 - (p.startK + p.numPartsDone))), List.map_map]
      · rfl
      · intro x hx
        obtain ⟨y, -, rfl⟩ := List.mem_map.mp hx
        rfl
    unfold PGTP.mergePartitions
    simp only [hcan, ok_bind, h.partitions, hpar, hisl, if_true]
    refine ⟨_, _, rfl, fun _ id hid => exists_lookup ?_⟩
    rw [List.map_reverse, List.mem_reverse, List.map_map]
    obtain ⟨i, hi, rfl⟩ := List.mem_iff_getElem.mp hid
    refine List.mem_map.mpr ⟨(ids[i], parents[i]), ?_, rfl⟩
    exact List.mem_iff_getElem.mpr ⟨i, by simp; omega, by simp⟩
  · rw [if_neg (by simpa using h1), if_neg (by rw [h.numPartsDone]; omega)]
    exact ⟨_, _, rfl, fun hk => absurd hk h1⟩

/-- A drop with the placeholders it has got. -/
def Stamped (nm k : Nat) (r d : Record) : Prop := d.spec = r.spec ∧ d.iid = r.iid ∧
  (∃ i < nm, d.node = some (.placeholder i)) ∧ ∃ j < k, d.island = some (.placeholder j)

/-- A drop of a partition of the list gets its placeholders. -/
theorem stampPlaceholder_ok {m : String → Option Int} {isl : Int → Option Int} {nm g : Nat}
    {r : Record} (hk : 0 < k) (hm : m r.spec.oid = some (g : Int)) (hg : g < nm)
    (hi : 1 < k → ∃ i, isl g = some i) :
    ∃ d, stampPlaceholder nm k m isl k (decide (1 < k)) r = .ok d ∧ Stamped nm k r d := by
  unfold stampPlaceholder
  rw [hm, ok_bind_fetch, placeholder_ok hg, ok_bind]
  obtain ⟨j, hj, hidx⟩ :
      ∃ j : Nat, j < k ∧ islandIndex isl k (decide (1 < k)) g = .ok (j : Int) := by
    unfold islandIndex
    by_cases h1 : 1 < k
    · obtain ⟨i, hi⟩ := hi h1
      rw [if_pos (by simpa using h1), hi, ok_bind_fetch]
      have hk' : (0 : Int) < k := by omega
      refine ⟨(i % (k : Int)).toNat, ?_, ?_⟩
      · have := Int.emod_lt_of_pos i hk'
        omega
      · rw [Int.toNat_of_nonneg (Int.emod_nonneg i (by omega))]
        rfl
    · rw [if_neg (by simpa using h1)]
      exact ⟨0, hk, rfl⟩
  rw [hidx, ok_bind, placeholder_ok hj, ok_bind]
  exact ⟨_, rfl, rfl, rfl, ⟨g, hg, rfl⟩, j, hj, rfl⟩

/-- With nodes for all partitions, every drop is placed. -/
theorem stamp_ok (h : Ready p ids) (hle : k + ids.length ≤ nodeList.length) (hk : 0 < k)
    (hf : k = 1 ∨ Formable p p.dag cluster ids k) : ∃ ds, p.stamp cluster nodeList k = .ok ds ∧
      List.Forall₂ (Stamped (nodeList.length - k) k) p.drops ds := by
  obtain ⟨m, done, hm, hisl⟩ := mergeForIslands_ok cluster (nodeList.length - k) h (by omega) hf
  have hall : p.allDrops = p.drops := by
    unfold PGTP.allDrops
    rw [h.extraDrops]
    exact List.append_nil _
  obtain ⟨stamped, hst, hrel⟩ := mapM_related (R := Eq)
    (List.forall₂_refl p.drops)
    (f := stampPlaceholder (nodeList.length - k) k p.oidGidMap m k (decide (1 < k)))
    (S := Stamped (nodeList.length - k) k) fun r hr r' hr' => by
      subst hr'
      obtain ⟨id, hid, hgid⟩ := h.gid r hr
      obtain ⟨h1, h2⟩ := h.range id hid
      have hnat : ((id - p.startK).toNat : Int) = id - p.startK := Int.toNat_of_nonneg (by omega)
      refine stampPlaceholder_ok hk (hgid.trans (congrArg some hnat.symm)) (by omega) fun h1 => ?_
      rw [hnat]
      exact hisl h1 id hid
  have hnm : (splitIslandResources nodeList k).2.length = nodeList.length - k := List.length_drop
  have his : (splitIslandResources nodeList k).1.length = k := by
    simp [splitIslandResources]
    omega
  unfold PGTP.stamp
  simp only [hnm, his, hm, ok_bind]
  rw [show ({ p with gidIslandIdMap := m, partitionMerged := done } : PGTP).allDrops = p.allDrops
    from rfl, hall, hst, ok_bind]
  split
  · exact ⟨stamped, rfl, hrel⟩
  · refine mapM_related hrel fun r hr d hd => ?_
    obtain ⟨hspec, hiid, hnode, hisland⟩ := hd
    obtain ⟨key, hkey⟩ := h.key r hr
    obtain ⟨iid, hi⟩ := h.iid r hr
    refine ⟨{ d with humanReadableKey := some (toString key ++ "_" ++ iid) }, ?_, hspec, hiid,
      hnode,
      hisland⟩
    unfold nameKey
    rw [hspec, hkey, ok_bind_fetch, hiid, hi, ok_bind_fetch]
    rfl

/-- A drop that names its hosts. -/
def Hosted (r d : Record) : Prop := d.spec = r.spec ∧ d.node ≠ none ∧ d.island ≠ none

theorem formIslandsAndStamp_stamped {numIslands tplNodesLen : Int} (coHostDim : Bool)
    (h : Ready p ids) (hids : ids ≠ []) (hle : islandCount numIslands + ids.length ≤
      (prepareNodeList nodeList tplNodesLen (islandCount numIslands)).length)
    (hf : islandCount numIslands = 1 ∨ Formable p p.dag cluster ids (islandCount numIslands)) :
    ∃ ds, p.formIslandsAndStamp cluster nodeList numIslands tplNodesLen coHostDim =
        .ok (ds, islandCount numIslands) ∧ List.Forall₂ (Stamped
          ((prepareNodeList nodeList tplNodesLen (islandCount numIslands)).length -
            islandCount numIslands) (islandCount numIslands)) p.drops ds := by
  have hk : 0 < islandCount numIslands := by
    unfold islandCount
    split <;> omega
  have hpos := List.length_pos_iff.mpr hids
  obtain ⟨ds, hds, hrel⟩ := stamp_ok h hle hk hf
  refine ⟨ds, ?_, hrel⟩
  have hneed : ∀ b : Bool, (if b then islandCount numIslands + p.numPartsDone else p.numPartsDone) ≤
      islandCount numIslands + ids.length := by
    intro b
    rw [h.numPartsDone]
    cases b <;> simp
  have hneed := hneed coHostDim
  unfold PGTP.formIslandsAndStamp
  dsimp only
  generalize (if coHostDim = true then _ else _) = needed at hneed
  rw [if_neg (by omega), if_neg (by rw [h.numPartsDone]; omega), if_neg, if_neg (by omega), hds]
  · rfl
  · intro he
    rw [he] at hle
    simp at hle
    omega

/-- Any of the calls places every drop. -/
theorem run_ok {call : Placing} (h : Ready p ids) (hids : ids ≠ [])
    (hle : call.islands + ids.length ≤ call.nodes.length)
    (hf : call.islands = 1 ∨ Formable p p.dag cluster ids call.islands) :
    ∃ ds, call.run p cluster = .ok ds ∧ List.Forall₂ Hosted p.drops ds := by
  have hosted : ∀ {nm k : Nat} {r d : Record}, Stamped nm k r d → Hosted r d := by
    rintro nm k r d ⟨hspec, -, ⟨i, -, hi⟩, j, -, hj⟩
    exact ⟨hspec, by simp [hi], by simp [hj]⟩
  cases call with
  | toPgTemplate tplNodesLen numIslands coHostDim =>
    obtain ⟨ds, hds, hrel⟩ := formIslandsAndStamp_stamped coHostDim h hids hle hf
    refine ⟨ds, ?_, hrel.imp fun _ _ => hosted⟩
    show p.toPgTemplate cluster tplNodesLen numIslands coHostDim = _
    unfold PGTP.toPgTemplate
    rw [hds]
    rfl
  | toPgSpec nodeList numIslands tplNodesLen coHostDim =>
    obtain ⟨ds, hds, hrel⟩ := formIslandsAndStamp_stamped coHostDim h hids hle hf
    show ∃ ds, p.toPgSpec cluster nodeList numIslands tplNodesLen coHostDim = _ ∧ _
    unfold PGTP.toPgSpec
    simp only [hds, ok_bind]
    split
    · rename_i hne
      unfold resourceMap
      rw [if_neg hne.2]
      refine mapM_related hrel fun r _ d hd => ?_
      obtain ⟨hspec, -, ⟨i, hi, hnode⟩, j, hj, hisland⟩ := hd
      have hlist : prepareNodeList nodeList tplNodesLen (islandCount numIslands) = nodeList := by
        unfold prepareNodeList
        rw [if_neg fun hc => hne.2 hc.1]
      have hle : islandCount numIslands + ids.length ≤ nodeList.length := hlist ▸ hle
      rw [hlist] at hi
      unfold mapDrop
      rw [hnode, hisland]
      simp only
      rw [pyIndex_nat (by simpa using hi), ok_bind, pyIndex_nat (by simp; omega), ok_bind]
      exact ⟨_, rfl, hspec, by simp, by simp⟩
    · exact ⟨ds, rfl, hrel.imp fun _ _ => hosted⟩

end Ready

/-! ### After the view -/

/-- Every drop has a node and an island, a synthetic one the node of the drop after it. -/
structure AllHosted (v : PGTP) (ds : List Record) : Prop where
  hosted : List.Forall₂ Hosted v.allDrops ds
  synthetic : ∀ j < (v.extraDrops.getD []).length, ∀ b,
    v.dag.graph.Edge (-((j + 1 : Nat) : Int)) b → ∃ x t, ds[v.drops.length + j]? = some x ∧
      ds[(b - 1).toNat]? = some t ∧ x.node = t.node

/-- The template is viewed, and then every drop is placed. -/
def PlacedAfterView (p : PGTP) (r : Scheduled)
    (cluster : DropGraph → Int → Except DropErr (List (Option Int))) (call : Placing) : Prop :=
  ∃ v groups ds, p.toGojsJson (.ok r) true = .ok (v, groups) ∧ call.run v cluster = .ok ds ∧
    AllHosted v ds

/-- There is a node for every partition besides those of the islands, and where there are several
islands the partitions can be put into them. -/
structure Enough (p : PGTP) (r : Scheduled)
    (cluster : DropGraph → Int → Except DropErr (List (Option Int))) (call : Placing) : Prop where
  reported : call.islands + r.numParts ≤ call.nodes.length
  listed : call.islands + r.partitions.length ≤ call.nodes.length
  islands : call.islands = 1 ∨ Formable p r.dag cluster r.partitions call.islands

section Main

variable {p q : PGTP} {r : Scheduled} {call : Placing} {ds : List Record} {className : String}
  {drops : List Record} {mergeParts : Bool} {s : Linearising}
  {cluster : DropGraph → Int → Except DropErr (List (Option Int))}

theorem stamp_of_run (h : call.run p cluster = .ok ds) :
    ∃ ds, p.stamp cluster call.nodes call.islands = .ok ds := by
  cases call with
  | toPgTemplate tplNodesLen numIslands coHostDim =>
    have h : p.toPgTemplate cluster tplNodesLen numIslands coHostDim = .ok ds := h
    obtain ⟨⟨ds', k⟩, hds, -⟩ := bind_ok.mp h
    obtain ⟨rfl, hst⟩ := formIslandsAndStamp_ok hds
    exact ⟨ds', hst⟩
  | toPgSpec nodeList numIslands tplNodesLen coHostDim =>
    have h : p.toPgSpec cluster nodeList numIslands tplNodesLen coHostDim = .ok ds := h
    obtain ⟨⟨ds', k⟩, hds, -⟩ := bind_ok.mp h
    obtain ⟨rfl, hst⟩ := formIslandsAndStamp_ok hds
    exact ⟨ds', hst⟩

theorem viewed_quiet (h1 : s.extraDrops = []) (h2 : s.drops = p.drops.map Record.spec)
    (h3 : s.apply p.dag = p.dag) :
    p.viewed s = ({ p with extraDrops := some [] } : PGTP).numberDrops := by
  unfold PGTP.viewed
  rw [h1, h2, h3, PGTP.zipWith_spec]
  rfl

/-- After linearisation has added a drop nothing is placed any more. -/
theorem not_placed_of_extra (hd : p.drops ≠ []) (hlen : s.drops.length = p.drops.length)
    (hs : s.extraDrops ≠ []) : call.run (p.viewed s) cluster ≠ .ok ds := by
  intro h
  obtain ⟨ds', hst⟩ := stamp_of_run h
  obtain ⟨e, he⟩ := List.exists_mem_of_ne_nil _ hs
  have hmem : ({ spec := e } : Record) ∈ (p.viewed s).allDrops := by
    refine List.mem_append_right _ ?_
    exact List.mem_map_of_mem (f := fun d => ({ spec := d } : Record)) he
  refine (placed_of_ok hst hmem).1 ?_ rfl
  intro hnil
  have hnil : ((p.drops.zipWith (fun r d => { r with spec := d }) s.drops).zipIdx.map _).reverse ++
    p.gojsKeyDict = [] := hnil
  have hz := congrArg List.length (List.append_eq_nil_iff.mp hnil).1
  simp [hlen] at hz
  exact hd hz

/-- A template that has been viewed, and has nothing synthetic, is ready to be placed. -/
theorem ready_of_view {ids : List Int} (hids : p.partitions = some ids)
    (hnum : p.numPartsDone = ids.length) (hmerged : p.partitionMerged = 0)
    (hrange : ∀ id ∈ ids, p.startK ≤ id ∧ id < p.startK + ids.length)
    (hgid : ∀ r ∈ p.drops, ∃ id ∈ ids, p.oidGidMap r.spec.oid = some (id - p.startK)) :
    Ready ({ p with extraDrops := some [] } : PGTP).numberDrops ids := by
  have hstart : ({ p with extraDrops := some [] } : PGTP).numberDrops.startK = p.startK := by
    simp [PGTP.startK, PGTP.numberDrops]
  refine ⟨rfl, hids, hnum, hmerged, hstart ▸ hrange, fun r hr => ?_, fun r hr => ?_, fun r hr => ?_⟩
  · obtain ⟨r', hr', rfl⟩ := List.mem_map.mp hr
    rw [hstart]
    exact hgid r' hr'
  · obtain ⟨r', hr', rfl⟩ := List.mem_map.mp hr
    exact ⟨_, rfl⟩
  · obtain ⟨r', hr', rfl⟩ := List.mem_map.mp hr
    refine exists_lookup ?_
    show r'.spec.oid ∈ List.map Prod.fst (_ ++ p.gojsKeyDict)
    rw [List.map_append, List.mem_append, List.map_reverse, List.mem_reverse, List.map_map]
    obtain ⟨i, hi⟩ := List.mem_iff_getElem?.mp hr'
    exact Or.inl (List.mem_map.mpr ⟨(r', i), List.mem_zipIdx_iff_getElem?.mpr hi, rfl⟩)

/-- When the drops are placed, linearisation has added nothing and no drop is left out of the
map. -/
theorem quiet_of_placed (hv : p.FirstView r q s) (he : Enough p r cluster call)
    (h : PlacedAfterView p r cluster call) :
    (∀ d ∈ p.drops, d.spec.oid ≠ "-92") ∧ ¬ Clashes r.dag (p.drops.map Record.spec) := by
  obtain ⟨v, groups, ds, hrun, hcall, -⟩ := h
  rw [hv.run] at hrun
  obtain ⟨_, -, hrun⟩ := bind_ok.mp hrun
  obtain ⟨rfl, -⟩ := Prod.mk.inj (pure_ok.mp hrun)
  have hno : ¬ Clashes r.dag (p.drops.map Record.spec) := by
    intro hc
    have hne : q.drops ≠ [] := by
      obtain ⟨d, hd, -⟩ := hc
      obtain ⟨x, hx, -⟩ := List.mem_map.mp hd
      rw [hv.drops]
      exact List.ne_nil_of_mem hx
    exact not_placed_of_extra hne (hv.drops ▸ hv.length) (hv.grows hc) hcall
  refine ⟨fun d hd hoid => ?_, hno⟩
  obtain ⟨h1, h2, h3⟩ := hv.quiet hno
  rw [viewed_quiet h1 (hv.drops ▸ h2) (hv.dag ▸ h3)] at hcall
  obtain ⟨ds', hst⟩ := stamp_of_run hcall
  refine (placed_of_ok hst (r := { d with iid := some (d.iid.getD "0") }) ?_).2 ?_ ?_
  · refine List.mem_append_left _ ?_
    exact List.mem_map_of_mem (f := fun r : Record => { r with iid := some (r.iid.getD "0") })
      (hv.drops ▸ hd)
  · show call.islands + q.numPartsDone ≤ _
    have h1 := he.reported
    have h2 := he.listed
    rcases hv.count with hc | hc <;> omega
  · show q.oidGidMap d.spec.oid = none
    rw [hoid]
    exact hv.root

/-- When linearisation has nothing to add, every drop is placed. -/
theorem placed_of_quiet {G : DropGraph} (hv : p.FirstView r q s) (he : Enough p r cluster call)
    (ha : Assigned G p.drops.length r) (hn : Numbered (p.drops.map Record.spec) r.dag)
    (hno : ∀ d ∈ p.drops, d.spec.oid ≠ "-92") (hc : ¬ Clashes r.dag (p.drops.map Record.spec)) :
    PlacedAfterView p r cluster call := by
  obtain ⟨h1, h2, h3⟩ := hv.quiet hc
  obtain ⟨hids, hnum, hgid⟩ := hv.found hno
  have hne : r.partitions ≠ [] := by
    obtain ⟨k, hk⟩ := List.exists_mem_of_ne_nil _ ha.nonempty
    obtain ⟨id, hid, -⟩ := ha.gids k hk
    exact List.ne_nil_of_mem hid
  have hstart : q.startK = p.startK := by rw [PGTP.startK, PGTP.startK, hv.drops]
  have hready := ready_of_view hids hnum hv.partitionMerged
    (fun id hid => hstart ▸ ha.parts id hid) (by rw [hv.drops, hstart]; exact hgid)
  have hview := hv.run
  rw [viewed_quiet h1 (hv.drops ▸ h2) (hv.dag ▸ h3)] at hview
  generalize hw : ({ q with extraDrops := some [] } : PGTP).numberDrops = w at hready hview
  have hdag : w.dag = r.dag := hw ▸ hv.dag
  have hform : call.islands = 1 ∨ Formable w w.dag cluster r.partitions call.islands := by
    refine he.islands.imp id fun hf => ?_
    obtain ⟨hm, hlt, hparents⟩ := hf
    have hmerge : w.mergeParts = p.mergeParts := hw ▸ hv.mergeParts
    exact ⟨hmerge.trans hm, hlt, hdag ▸ hparents⟩
  obtain ⟨ds, hds, hrel⟩ := run_ok hready hne he.listed hform
  obtain ⟨groups, hgroups⟩ := PGTP.groups_ok hready.extraDrops fun i hi => by
    have hlen : w.drops.length = p.drops.length := by
      rw [← hw, ← hv.drops]
      exact List.length_map ..
    obtain ⟨id, -, hid⟩ := ha.gids ((i : Int) + 1) (ha.nodes ▸ (hn.nodes _).mpr ⟨i, by
      rw [List.length_map, ← hlen]
      exact hi, rfl⟩)
    exact ⟨id, hdag ▸ hid⟩
  rw [hgroups, ok_bind] at hview
  refine ⟨w, groups, ds, hview, hds, ?_, fun j hj => ?_⟩
  · unfold PGTP.allDrops
    rw [hready.extraDrops]
    exact (List.append_nil w.drops).symm ▸ hrel
  · rw [hready.extraDrops] at hj
    exact absurd hj (Nat.not_lt_zero j)

/-- A new template, when it is viewed for the first time. -/
theorem view_of_init (h : PGTP.init className drops mergeParts = .ok p)
    (hr : Partitions p.dag drops.length r) : p.drops = drops ∧ Assigned p.dag drops.length r ∧
      Numbered (drops.map Record.spec) r.dag ∧ ∃ q s, p.FirstView r q s := by
  obtain ⟨hG, hp⟩ := PGTP.init_ok h
  have hnum := numbered_of_build hG
  have ha := hr.assigned hnum (nodup_buildDag hG)
  have hn : Numbered (drops.map Record.spec) r.dag := by
    refine ⟨fun k => ?_, fun a b hab => ha.inside (a, b) hab, fun i d hi => ?_⟩
    · rw [ha.nodes]
      exact hnum.nodes k
    · rw [ha.dropType]
      exact hnum.types i d hi
  exact ⟨by rw [hp], ha, hn, PGTP.exists_firstView h ha hn⟩

/-- What has been viewed is placed exactly when linearisation had nothing to add and no drop is
taken for the fake super root. -/
theorem placedAfterView_iff (h : PGTP.init className drops mergeParts = .ok p)
    (hr : Partitions p.dag drops.length r) (he : Enough p r cluster call) :
    PlacedAfterView p r cluster call ↔
      (∀ d ∈ drops, d.spec.oid ≠ "-92") ∧ ¬ Clashes r.dag (drops.map Record.spec) := by
  obtain ⟨rfl, ha, hn, q, s, hv⟩ := view_of_init h hr
  exact ⟨quiet_of_placed hv he, fun ⟨hno, hc⟩ => placed_of_quiet hv he ha hn hno hc⟩

end Main

section Instances

/-- METIS is not asked for one island. -/
def unasked : DropGraph → Int → Except DropErr (List (Option Int)) := fun _ _ => .ok []

/-- A path with room for eight nodes side by side. -/
def pathProblem (nodes : List Int) (edges : List (Int × Int)) : Problem Int where
  dag := { nodes, edges }
  edgeWeight _ _ := 1
  dropCount := nodes.length
  maxDop := .number 8

/-- The width of paths side by side. -/
def pathWidth (G : Digraph Int) (_ : Int → Nat) : Nat := G.nodes.length - G.edges.length

def records (drops : List DropSpec) : List Record := drops.map fun spec => { spec }

theorem exists_partitions {G : DropGraph} {nodes : List Int} {edges : List (Int × Int)} (fuel : Nat)
    (hG : G.graph = (pathProblem nodes edges).dag)
    (h : ∃ num lpl s, (pathProblem nodes edges).partitionDag pathWidth nodes fuel =
      some (.ok (num, lpl, s)) ∧ num = 1 ∧ s.parts.length = 1) :
    ∃ r, Partitions G nodes.length r ∧ r.numParts = 1 ∧ r.partitions.length = 1 ∧
      r.dag.graph = G.graph ∧ r.dag.dropType = G.dropType := by
  obtain ⟨num, lpl, s, hs, hnum, hlen⟩ := h
  exact ⟨_, .minNumParts hG.symm rfl hs, hnum, (List.length_map ..).trans hlen, hG.symm, rfl⟩

theorem enough_for_one {p : PGTP} {r : Scheduled} (h1 : r.numParts = 1)
    (h2 : r.partitions.length = 1) : Enough p r unasked (.toPgTemplate 1 1 true) := by
  refine ⟨?_, ?_, Or.inl rfl⟩
  · rw [h1]
    decide
  · rw [h2]
    decide

/-- Data after data is in one partition, and there is a node for it. -/
theorem chain_notPlaced : ∃ p r, PGTP.init "MinNumPartsPGTP" (records chain) false = .ok p ∧
    Partitions p.dag 3 r ∧ Enough p r unasked (.toPgTemplate 1 1 true) ∧
    ¬ PlacedAfterView p r unasked (.toPgTemplate 1 1 true) := by
  obtain ⟨p, hp, hG, ht⟩ : ∃ p, PGTP.init "MinNumPartsPGTP" (records chain) false = .ok p ∧
      p.dag.graph = (pathProblem [1, 2, 3] [(1, 2), (2, 3)]).dag ∧ p.dag.dropType 2 = some 0 :=
    ⟨_, rfl, rfl, rfl⟩
  obtain ⟨r, hr, h1, h2, hgraph, htype⟩ := exists_partitions 2 hG ⟨_, _, _, rfl, rfl, rfl⟩
  have he := enough_for_one (p := p) h1 h2
  refine ⟨p, r, hp, hr, he, fun hplaced => ?_⟩
  obtain ⟨hdrops, -, -, q, t, hv⟩ := view_of_init hp hr
  refine (quiet_of_placed hv he hplaced).2 ?_
  rw [hdrops]
  refine ⟨_, List.mem_cons_self, 1, 2, rfl, ?_, htype ▸ ht⟩
  rw [Digraph.Edge, hgraph, hG]
  exact List.mem_cons_self

/-- An application and its output. -/
theorem applied_placed : ∃ p r, PGTP.init "MinNumPartsPGTP" (records applied) false = .ok p ∧
    Partitions p.dag 2 r ∧ PlacedAfterView p r unasked (.toPgTemplate 1 1 true) := by
  obtain ⟨p, hp, hG, ht⟩ : ∃ p, PGTP.init "MinNumPartsPGTP" (records applied) false = .ok p ∧
      p.dag.graph = (pathProblem [1, 2] [(1, 2)]).dag ∧ p.dag.dropType 2 = some 0 :=
    ⟨_, rfl, rfl, rfl⟩
  obtain ⟨r, hr, h1, h2, hgraph, htype⟩ := exists_partitions 1 hG ⟨_, _, _, rfl, rfl, rfl⟩
  refine ⟨p, r, hp, hr, (placedAfterView_iff hp hr (enough_for_one h1 h2)).mpr ⟨by decide, ?_⟩⟩
  rintro ⟨d, hd, k, b, hk, he, hb⟩
  rw [Digraph.Edge, hgraph, hG] at he
  obtain ⟨rfl, rfl⟩ := Prod.mk.inj (List.mem_singleton.mp he)
  rw [htype, ht] at hb
  rcases List.mem_cons.mp hd with rfl | hd
  · exact absurd hb (by decide)
  · obtain rfl := List.mem_singleton.mp hd
    exact absurd hk (by decide)

end Instances

end Daliuge.Partition
