import Mathlib.SetTheory.Cardinal.Order
import Daliuge.Lib.Terms
import Daliuge.Repro.Compression

/-!
# A change anywhere shows in the signature

In the modes that do not compress, every drop hands on its own hash. With Merkle roots taken as
free terms over lists of hashes, another root recorded for one drop gives another signature: a
weight of the terms grows from the drop to the leaves and cannot be made up for.
-/
namespace Daliuge.Repro

open Kahn Cascade Collect Terms

/-- The modes in which every drop hands on its own hash. -/
def nonCompressing : List Mode :=
  [.repeat_, .recompute, .replicateSci, .replicateComp, .replicateTotal]

/-- The Merkle roots as free terms over lists of hashes. -/
def freeMerkle {α : Type} (empty : Term α) : Merkle (Term α) where
  tree := .tree
  plain := .plain
  empty := empty

section Entries

variable {O H : Type}

/-- The root recorded for a drop at the level that is hashed. -/
def Entry.root (a : Abstraction) (e : Entry O H) : Option H :=
  match a with
  | .pgt => e.pgtData.bind (·.merkleroot)
  | .pg => e.pgData.bind (·.merkleroot)
  | .rg => e.rgData.bind (·.merkleroot)

/-- Another root recorded there. -/
def Entry.withRoot (a : Abstraction) (h : H) (e : Entry O H) : Entry O H :=
  match a with
  | .pgt => { e with pgtData := e.pgtData.map fun data => { data with merkleroot := some h } }
  | .pg => { e with pgData := e.pgData.map fun data => { data with merkleroot := some h } }
  | .rg => { e with rgData := e.rgData.map fun data => { data with merkleroot := some h } }

variable {e : Entry O H} {M : Merkle H} {a : Abstraction} {v v' : H} {l : List H}

/-- The root comes first in what is hashed of an entry. -/
theorem own_withRoot (v' : H) (hv : e.root a = some v) (hl : a.own M e = .ok l) :
    ∃ rest, l = v :: rest ∧ a.own M (e.withRoot a v') = .ok (v' :: rest) := by
  cases a with
  | pgt =>
    have hd : e.pgtData.bind (·.merkleroot) = some v := hv
    obtain ⟨data, hdata, -⟩ := Option.bind_eq_some_iff.mp hd
    refine ⟨(e.blockhash .lg).toList, ?_, ?_⟩
    · simpa [Abstraction.own, pgtOwn, hd] using hl.symm
    · simp [Abstraction.own, pgtOwn, Entry.withRoot, hdata]
  | pg =>
    have hd : e.pgData.bind (·.merkleroot) = some v := hv
    obtain ⟨data, hdata, hroot⟩ := Option.bind_eq_some_iff.mp hd
    cases hpgt : e.blockhash .pgt with
    | none => simp [Abstraction.own, pgOwn, hdata, hroot, hpgt, key, ok_bind, error_bind] at hl
    | some pgt =>
      cases hlg : e.blockhash .lg with
      | none =>
        simp [Abstraction.own, pgOwn, hdata, hroot, hpgt, hlg, key, ok_bind] at hl
      | some lg =>
        refine ⟨[pgt, lg], ?_, ?_⟩
        · simpa [Abstraction.own, pgOwn, hdata, hroot, hpgt, hlg, key, ok_bind, pure_ok,
            eq_comm] using hl
        · simp [Abstraction.own, pgOwn, Entry.withRoot, hdata, hpgt, hlg, key, ok_bind]
  | rg =>
    have hd : e.rgData.bind (·.merkleroot) = some v := hv
    obtain ⟨data, hdata, hroot⟩ := Option.bind_eq_some_iff.mp hd
    cases hpg : e.blockhash .pg with
    | none => simp [Abstraction.own, rgOwn, hdata, hroot, hpg, key, ok_bind, error_bind] at hl
    | some pg =>
      cases hpgt : e.blockhash .pgt with
      | none =>
        simp [Abstraction.own, rgOwn, hdata, hroot, hpg, hpgt, key, ok_bind, error_bind] at hl
      | some pgt =>
        cases hlg : e.blockhash .lg with
        | none =>
          simp [Abstraction.own, rgOwn, hdata, hroot, hpg, hpgt, hlg, key, ok_bind] at hl
        | some lg =>
          refine ⟨[pg, pgt, lg], ?_, ?_⟩
          · simpa [Abstraction.own, rgOwn, hdata, hroot, hpg, hpgt, hlg, key, ok_bind, pure_ok,
              eq_comm] using hl
          · simp [Abstraction.own, rgOwn, Entry.withRoot, hdata, hpg, hpgt, hlg, key, ok_bind]

theorem withRoot_parenthashes (layer : Layer) :
    (e.withRoot a v').parenthashes layer = e.parenthashes layer := by
  cases a <;> rfl

end Entries

/-! Digests that are terms. -/

section Digests

variable {V α : Type} [DecidableEq V] [LinearOrder (Term α)] {G G' : Cascade.Graph V (Term α)}
  {B B' : V → Term α} {P P' : V → List V} {own own' : V → List (Term α)} {x v : V}
  {t t' : Term α} {rest : List (Term α)} {f : Term α → Nat}

/-- The digest of a vertex is the hash of its own values and of what it is handed. -/
def HashesOwn (G : Cascade.Graph V (Term α)) (own : V → List (Term α)) : Prop :=
  ∀ v hs, G.digest v hs = .tree (own v ++ hs)

omit [DecidableEq V] in
theorem HashesOwn.weigh_eq (hd : HashesOwn G own) (hs : G.Solves B P) (hv : v ∈ G.verts) :
    (B v).weigh f = f (B v) + ((own v).map (Term.weigh f)).sum +
      ((P v).map fun k => (B k).weigh f).sum := by
  have hB : B v = .tree (own v ++ sorted ((P v).map B)) := (hs.eq v hv).trans (hd v _)
  have hsum : ((sorted ((P v).map B)).map (Term.weigh f)).sum =
      ((P v).map fun k => (B k).weigh f).sum := by
    rw [((perm_sorted _).map _).sum_eq, List.map_map]
    rfl
  rw [← hsum]
  conv_lhs => rw [hB]
  rw [Term.weigh_tree, ← hB, List.map_append, List.sum_append, Nat.add_assoc]

omit [DecidableEq V] in
/-- Whatever is reached from a vertex is larger than the values of that vertex. -/
theorem HashesOwn.size_lt (hd : HashesOwn G own) (hs : G.Solves B P) (hw : G.Wf)
    (hkind : ∀ u ∈ G.verts, G.kind u = .own) (hx : x ∈ G.verts) (ht : t ∈ own x)
    (hr : Relation.ReflTransGen G.Edge x v) : v ∈ G.verts ∧ t.size < (B v).size := by
  induction hr with
  | refl =>
    refine ⟨hx, ?_⟩
    rw [hs.eq x hx, hd]
    exact Term.size_lt_tree (List.mem_append_left _ ht)
  | @tail u w _ he ih =>
    have hwv : w ∈ G.verts := hw.closed u he.1 w he.2
    have hu : u ∈ P w := (hs.mem_iff w hwv u).mpr ((Cascade.Graph.feeds_iff_edge hkind).mpr he)
    refine ⟨hwv, ih.2.trans ?_⟩
    rw [hs.eq w hwv, hd]
    refine Term.size_lt_tree (List.mem_append_right _ ?_)
    exact (perm_sorted _).mem_iff.mpr (List.mem_map_of_mem hu)

omit [DecidableEq V] [LinearOrder (Term α)] in
/-- A weight that grows at all that is reached from a vertex grows over the leaves. -/
theorem leaves_weight_lt (hw : G.Wf) (hx : x ∈ G.verts) {μ : Term α → Nat}
    (h : ∀ v ∈ G.verts, (¬ Relation.ReflTransGen G.Edge x v → B' v = B v) ∧
      (Relation.ReflTransGen G.Edge x v → μ (B v) < μ (B' v))) :
    ((G.leaves.map B).map μ).sum < ((G.leaves.map B').map μ).sum := by
  obtain ⟨l, hl, hnil, hp⟩ := hw.acyclic.exists_leaf hw.closed x hx
  have hleaf : l ∈ G.leaves := List.mem_filter.mpr ⟨hl, by simp [hnil]⟩
  rw [List.map_map, List.map_map]
  refine List.sum_lt_sum _ _ (fun v hv => ?_) ⟨l, hleaf, (h l hl).2 hp⟩
  have hvv := (List.mem_filter.mp hv).1
  by_cases hr : Relation.ReflTransGen G.Edge x v
  · exact ((h v hvv).2 hr).le
  · simp [(h v hvv).1 hr]

/-- Two graphs that differ in one value of one vertex. -/
structure DifferAt (G G' : Cascade.Graph V (Term α)) (own own' : V → List (Term α)) (x : V)
    (t t' : Term α) (rest : List (Term α)) : Prop where
  twins : Cascade.Graph.Twins G G'
  hashes : HashesOwn G own
  hashes' : HashesOwn G' own'
  mem : x ∈ G.verts
  same : ∀ v ∈ G.verts, v ≠ x → own' v = own v
  first : own x = t :: rest
  second : own' x = t' :: rest

omit [DecidableEq V] [LinearOrder (Term α)] in
theorem DifferAt.symm (h : DifferAt G G' own own' x t t' rest) :
    DifferAt G' G own' own x t' t rest where
  twins := h.twins.symm
  hashes := h.hashes'
  hashes' := h.hashes
  mem := h.twins.verts ▸ h.mem
  same v hv hne := (h.same v (h.twins.verts ▸ hv) hne).symm
  first := h.second
  second := h.first

/-- The leaves differ when some weight tells the two values apart and does not count the
hashes reached from the vertex themselves. -/
theorem DifferAt.leaves_ne (h : DifferAt G G' own own' x t t' rest) (hw : G.Wf)
    (hs : G.Solves B P) (hs' : G'.Solves B' P') {n : Nat} (hlt : t.weigh f < t'.weigh f)
    (hf : ∀ v ∈ G.verts, Relation.ReflTransGen G.Edge x v → f (B v) = n ∧ f (B' v) = n) :
    ¬ (G'.leaves.map B').Perm (G.leaves.map B) := by
  intro hperm
  have hlt' : n + ((own x).map (Term.weigh f)).sum < n + ((own' x).map (Term.weigh f)).sum := by
    rw [h.first, h.second]
    simp only [List.map_cons, List.sum_cons]
    omega
  have hle : ∀ v ∈ G.verts, n + ((own v).map (Term.weigh f)).sum ≤
      n + ((own' v).map (Term.weigh f)).sum := by
    intro v hv
    by_cases hvx : v = x
    · subst hvx
      exact hlt'.le
    · rw [h.same v hv hvx]
  have hgrow := h.twins.weight_lt hw hs hs' (x := x) (μ := Term.weigh f) hle hlt'
    (fun v hv hne => funext fun l => by rw [h.hashes, h.hashes', h.same v hv hne])
    (fun v hv hr => by
      obtain ⟨h1, h2⟩ := hf v hv hr
      rw [h.hashes.weigh_eq hs hv, h.hashes'.weigh_eq hs' (h.twins.verts ▸ hv), h1, h2]
      exact ⟨rfl, rfl⟩)
  have hsum := leaves_weight_lt hw h.mem hgrow
  have hleaves : G'.leaves = G.leaves := by
    simp only [Cascade.Graph.leaves, h.twins.verts, h.twins.succ]
  rw [hleaves] at hperm
  exact absurd (hperm.map (Term.weigh f)).sum_eq (Nat.ne_of_gt hsum)

omit [DecidableEq V] [LinearOrder (Term α)] in
theorem DifferAt.wf (h : DifferAt G G' own own' x t t' rest) (hw : G.Wf) : G'.Wf where
  nodup := h.twins.verts ▸ hw.nodup
  closed := by
    rw [h.twins.verts, h.twins.succ]
    exact hw.closed
  acyclic := by
    rw [h.twins.verts, h.twins.succ]
    exact hw.acyclic

/-- Another value at one vertex gives other leaves. The weight is the size of the terms, or,
when the two values are equally large, how often the second of them occurs. -/
theorem DifferAt.leaves_differ (h : DifferAt G G' own own' x t t' rest) (hw : G.Wf)
    (hs : G.Solves B P) (hs' : G'.Solves B' P') (hne : t ≠ t') :
    ¬ (G'.leaves.map B').Perm (G.leaves.map B) := by
  rcases Nat.lt_trichotomy t.size t'.size with hlt | heq | hgt
  · exact h.leaves_ne hw hs hs' hlt fun _ _ _ => ⟨rfl, rfl⟩
  · have hx' : x ∈ G'.verts := h.twins.verts ▸ h.mem
    have h0 : Term.occurrences t' t = 0 := Term.occurrences_eq_zero t' t (by omega) hne
    have hpos : 0 < Term.occurrences t' t' := Term.occurrences_self_pos
    refine h.leaves_ne hw hs hs' (f := fun s => if s = t' then 1 else 0) (n := 0)
      (by change Term.occurrences t' t < Term.occurrences t' t'; omega) fun v hv hr => ?_
    have h1 := (h.hashes.size_lt hs hw h.twins.kind h.mem (by simp [h.first]) hr (t := t)).2
    have hr' : Relation.ReflTransGen G'.Edge x v := h.twins.edge ▸ hr
    have h2 := (h.hashes'.size_lt hs' (h.wf hw) h.symm.twins.kind hx' (by simp [h.second]) hr'
      (t := t')).2
    have hB : B v ≠ t' := by
      intro he
      rw [he] at h1
      omega
    have hB' : B' v ≠ t' := by
      intro he
      rw [he] at h2
      omega
    simp [hB, hB']
  · exact fun hp => h.symm.leaves_ne (h.wf hw) hs' hs hgt (fun _ _ _ => ⟨rfl, rfl⟩) hp.symm

end Digests

/-! Lists of drops. -/

section Drops

variable {C O α : Type} [DecidableEq C] [DecidableEq O]
  {G : DropList C O} {M : Merkle (Term α)} {a : Abstraction} {level : Mode}
  {st : Store C O (Term α)} {d x : Drop C O} {e : Entry O (Term α)} {v v' : Term α}

omit [DecidableEq C] [DecidableEq O] in
theorem effective_eq (hmode : d.rmode = level ∨ d.rmode = .all) :
    effective d.rmode level = level := by
  rcases hmode with h | h
  · rw [h, effective, ite_self]
  · simp [effective, h]

omit [DecidableEq C] in
theorem kind_of_nonCompressing (hlevel : level ∈ nonCompressing)
    (hmode : d.rmode = level ∨ d.rmode = .all) : G.kind level st d = .own := by
  have heff := effective_eq hmode
  simp only [nonCompressing, List.mem_cons, List.not_mem_nil, or_false] at hlevel
  rw [DropList.kind, heff]
  rcases hlevel with rfl | rfl | rfl | rfl | rfl <;> rfl

/-- The list stays complete when a root is replaced. -/
theorem complete_put (v' : Term α) (hc : G.Complete M a level st) (hlevel : level ∈ nonCompressing)
    (hmode : ∀ d ∈ G.drops, d.rmode = level ∨ d.rmode = .all) (hx : x ∈ G.drops)
    (he : st x.cell level = some e) (hv : e.root a = some v) :
    G.Complete M a level (st.put x.cell level (e.withRoot a v')) where
  owns := hc.owns
  entry d hd := by
    by_cases hdx : d = x
    · subst hdx
      obtain ⟨e₁, l, he₁, hl, hp⟩ := hc.entry d hd
      obtain rfl := Option.some.inj (he.symm.trans he₁)
      obtain ⟨rest, -, hown⟩ := own_withRoot v' hv hl
      exact ⟨_, _, by simp [Store.put], hown, by rw [withRoot_parenthashes, hp]⟩
    · have hcell : d.cell ≠ x.cell := fun h => hdx (hc.owns d hd x hx h)
      simpa [Store.put, hcell] using hc.entry d hd
  category d hd heff := by
    rw [effective_eq (hmode d hd)] at heff
    subst heff
    simp [nonCompressing] at hlevel

variable [Inhabited C] [LinearOrder (Term α)]

omit [LinearOrder (Term α)] in
/-- The two lists of drops, as graphs of digests. -/
theorem differAt_put (v' : Term α) (hc : G.Complete M a level st) (hM : M.tree = .tree)
    (hlevel : level ∈ nonCompressing)
    (hmode : ∀ d ∈ G.drops, d.rmode = level ∨ d.rmode = .all) (hx : x ∈ G.drops)
    (he : st x.cell level = some e) (hv : e.root a = some v)
    {st' : Store C O (Term α)} (hst : st' = st.put x.cell level (e.withRoot a v')) :
    ∃ rest, DifferAt ((G.scheme M a level st).cascade st M)
      ((G.scheme M a level st').cascade st' M) ((G.scheme M a level st).ownHashes st)
      ((G.scheme M a level st').ownHashes st') x.oid v v' rest := by
  obtain ⟨e₁, l, he₁, hl, -⟩ := hc.entry x hx
  obtain rfl := Option.some.inj (he.symm.trans he₁)
  obtain ⟨rest, rfl, hown⟩ := own_withRoot v' hv hl
  refine ⟨rest, ⟨⟨rfl, rfl, ?_, ?_⟩, ?_, ?_, DropList.mem_oids hx, ?_, ?_, ?_⟩⟩
  · intro u hu
    obtain ⟨d, hd, rfl⟩ := DropList.exists_of_mem_oids hu
    exact (DropList.scheme_kind (M := M) (a := a) hd).trans
      (kind_of_nonCompressing hlevel (hmode d hd))
  · intro u hu
    obtain ⟨d, hd, rfl⟩ := DropList.exists_of_mem_oids hu
    exact (DropList.scheme_kind (M := M) (a := a) hd).trans
      (kind_of_nonCompressing hlevel (hmode d hd))
  · intro o hs
    simp [Scheme.cascade, hM]
  · intro o hs
    simp [Scheme.cascade, hM]
  · intro o ho hne
    obtain ⟨d, hd, rfl⟩ := DropList.exists_of_mem_oids ho
    have hcell : d.cell ≠ x.cell := fun h => hne (congrArg _ (hc.owns d hd x hx h))
    obtain ⟨e₂, l₂, he₂, hl₂, -⟩ := hc.entry d hd
    have he₃ : st' d.cell level = some e₂ := by
      simpa [hst, Store.put, hcell] using he₂
    rw [DropList.scheme_ownHashes hd he₂ hl₂, DropList.scheme_ownHashes hd he₃ hl₂]
  · exact DropList.scheme_ownHashes hx he hl
  · exact DropList.scheme_ownHashes hx (by simp [hst, Store.put]) hown

end Drops

/-- In a mode that does not compress, another root recorded for one drop of a graph without
cycles gives another signature. -/
theorem signature_shows_change {C O α : Type} [DecidableEq C] [DecidableEq O] [Inhabited C]
    [LinearOrder (Term α)] (empty : Term α) (G : DropList C O) (a : Abstraction) (level : Mode)
    (st : Store C O (Term α)) (hlevel : level ∈ nonCompressing)
    (hmode : ∀ d ∈ G.drops, d.rmode = level ∨ d.rmode = .all) (hg : G.Dag)
    (hc : G.Complete (freeMerkle empty) a level st) (x : Drop C O) (hx : x ∈ G.drops)
    (e : Entry O (Term α)) (he : st x.cell level = some e) (v v' : Term α)
    (hv : e.root a = some v) (hne : v' ≠ v) :
    ∃ r r', buildBlockdag (freeMerkle empty) G a level st = .ok r ∧
      buildBlockdag (freeMerkle empty) G a level
        (st.put x.cell level (e.withRoot a v')) = .ok r' ∧
      agglomerateLeaves (freeMerkle empty) r'.leaves ≠
        agglomerateLeaves (freeMerkle empty) r.leaves := by
  obtain ⟨rest, hdiff⟩ := differAt_put v' hc rfl hlevel hmode hx he hv rfl
  obtain ⟨r, B, P, hr, -, -, hs, hleaves, -⟩ := DropList.buildBlockdag_solves hg hc
  obtain ⟨r', B', P', hr', -, -, hs', hleaves', -⟩ :=
    DropList.buildBlockdag_solves hg (complete_put v' hc hlevel hmode hx he hv)
  refine ⟨r, r', hr, hr', fun heq => ?_⟩
  have hsort : sorted r'.leaves = sorted r.leaves := by
    simpa [agglomerateLeaves, freeMerkle] using heq
  have hperm : r'.leaves.Perm r.leaves :=
    (perm_sorted _).symm.trans (hsort ▸ perm_sorted _)
  rw [hleaves, hleaves'] at hperm
  exact hdiff.leaves_differ hg.wf hs hs' hne.symm hperm

/-! Data and an application that reads it, with roots that are numbers. -/

/-- Some order on the terms. -/
noncomputable instance someOrder : LinearOrder (Term Nat) :=
  IsWellOrder.linearOrder WellOrderingRel

def repeated : DropList Nat String where
  drops := [
    { oid := "data", rmode := .repeat_, consumers := [.plain "app"], cell := 0 },
    { oid := "app", rmode := .all, cell := 1 }]
  distinct := by decide

def repeatedEntry (n : Nat) : Entry String (Term Nat) :=
  { pgtData := some { merkleroot := some (.atom n) }, parenthashes := fun _ => some [] }

/-- Another root for the data. -/
theorem repeated_shows_change :
    ∃ r r', buildBlockdag (freeMerkle (.atom 0)) repeated .pgt .repeat_
        (fun c _ => some (repeatedEntry c)) = .ok r ∧
      buildBlockdag (freeMerkle (.atom 0)) repeated .pgt .repeat_
        (Store.put (fun c _ => some (repeatedEntry c)) 0 .repeat_
          ((repeatedEntry 0).withRoot .pgt (.atom 5))) = .ok r' ∧
      agglomerateLeaves (freeMerkle (.atom 0)) r'.leaves ≠
        agglomerateLeaves (freeMerkle (.atom 0)) r.leaves := by
  refine signature_shows_change (.atom 0) repeated .pgt .repeat_ _ (by decide) (by decide)
    ⟨by decide, ?_⟩ ⟨by decide, fun d _ => ⟨_, _, rfl, rfl, rfl⟩, ?_⟩
    { oid := "data", rmode := .repeat_, consumers := [.plain "app"], cell := 0 } (by decide)
    _ rfl (.atom 0) (.atom 5) rfl (by simp)
  · exact acyclic_of_rank (fun o => if o = "data" then 0 else 1) (by decide)
  · simp [repeated, effective]

end Daliuge.Repro
