import Daliuge.Repro.Blocks

/-!
# The two walks as one

Both walks that hash a graph go through its vertices in the same way and differ in what a vertex
hands on. Where the same digests come to vertices that share an entry, the entries a walk leaves
are those of the digests handed on along the graph.
-/
namespace Daliuge.Repro

open Kahn Cascade Collect

variable {C O H : Type}

/-- An entry after its vertex got a hash, if it did, and was handed some. -/
def Entry.written (layer : Layer) (block : Option H) (handed : List (O × H)) (e : Entry O H) :
    Entry O H :=
  { e with
    blockhash := match block with
      | none => e.blockhash
      | some h => Function.update e.blockhash layer (some h)
    parenthashes := Function.update e.parenthashes layer (some handed) }

/-- What a walk goes by. -/
structure Scheme (C O H : Type) where
  verts : List O
  succ : O → List O
  cell : O → C
  kind : O → Kind
  own : Entry O H → Except (Err O) (List H)
  layer : Layer
  level : Mode

namespace Scheme

variable (S : Scheme C O H) (st₀ : Store C O H)

/-- The hashes recorded for a vertex before the walk. -/
def ownHashes (o : O) : List H :=
  match st₀ (S.cell o) S.level with
  | none => []
  | some e =>
    match S.own e with
    | .ok l => l
    | .error _ => []

/-- The digests the walk should come to. -/
def cascade (M : Merkle H) : Cascade.Graph O H where
  verts := S.verts
  succ := S.succ
  kind := S.kind
  digest o hs := M.tree (S.ownHashes st₀ o ++ hs)

/-- Every vertex has an entry, with all that is hashed of it and no hashes handed on yet; the same
digests come to vertices that share one. -/
structure Ready (M : Merkle H) : Prop where
  alike : ∀ u ∈ S.verts, ∀ v ∈ S.verts, S.cell u = S.cell v → (S.cascade st₀ M).Alike u v
  entry : ∀ v ∈ S.verts, ∃ e l, st₀ (S.cell v) S.level = some e ∧ S.own e = .ok l ∧
    e.parenthashes S.layer = some []

/-- What is hashed of an entry is not what the walk writes there. -/
def Framed : Prop := ∀ e block handed, S.own (Entry.written S.layer block handed e) = S.own e

/-- What an entry has of a state: the digest of the vertices it belongs to, and what has been
handed to them. -/
structure Reads (s : State O H) (c : C) (block : Option H) (handed : List (O × H)) : Prop where
  nodup : (handed.map Prod.fst).Nodup
  handed : ∀ p, p ∈ handed ↔ ∃ v ∈ S.verts, S.cell v = c ∧ p ∈ s.handed v
  block : ∀ x, block = some x ↔ ∃ v ∈ S.verts, S.cell v = c ∧ s.block v = some x

/-- The entries are those from before the walk, with the hashes of a state written into them. -/
structure Shows (st : Store C O H) (s : State O H) : Prop where
  entry : ∀ v ∈ S.verts, ∃ b hs, st (S.cell v) S.level =
    (st₀ (S.cell v) S.level).map (Entry.written S.layer b hs) ∧ S.Reads s (S.cell v) b hs
  frame : ∀ c m, (m = S.level → ∀ v ∈ S.verts, S.cell v ≠ c) → st c m = st₀ c m

variable [DecidableEq C] [DecidableEq O]

/-- What a vertex hands on along an edge. -/
def handOn (d n : O) (st : Store C O H) : Except (Err O) (Store C O H) :=
  match S.kind d with
  | .silent => .ok st
  | .own => do
    let e ← st.entry (S.cell d) S.level
    let h ← key S.layer.blockhashKey (e.blockhash S.layer)
    st.modify (S.cell n) S.level (takeParenthash S.layer [(d, h)])
  | .relay => do
    let e ← st.entry (S.cell d) S.level
    let hs ← key S.layer.parenthashesKey (e.parenthashes S.layer)
    st.modify (S.cell n) S.level (takeParenthash S.layer hs)

variable [LinearOrder H]

/-- A walk that goes by the scheme. -/
structure Follows (M : Merkle H) (c : Visitor O (Store C O H) (Err O)) : Prop where
  enter : ∀ d ∈ S.verts, ∀ st,
    c.enter d st = st.modify (S.cell d) S.level (buildBlockData M S.layer S.own)
  cross : ∀ d n, Kahn.Edge S.verts S.succ d n → ∀ st s, S.Shows st₀ st s →
    s.block d ≠ none → c.cross d n 0 st = S.handOn d n st

variable {S} {st₀} {st : Store C O H} {s s' : State O H} {M : Merkle H} {d n v : O}
  {e : Entry O H} {c : Visitor O (Store C O H) (Err O)} {b : Option H} {hs : List (O × H)}
  {pre : List O}

omit [DecidableEq C] [LinearOrder H] [DecidableEq O] in
@[simp] theorem written_parenthashes {layer : Layer} {b : Option H} {hs : List (O × H)} :
    (Entry.written layer b hs e).parenthashes layer = some hs := by
  simp [Entry.written]

omit [DecidableEq C] [LinearOrder H] [DecidableEq O] in
@[simp] theorem written_blockhash {layer : Layer} {h : H} {hs : List (O × H)} :
    (Entry.written layer (some h) hs e).blockhash layer = some h := by
  simp [Entry.written]

omit [DecidableEq C] [LinearOrder H] [DecidableEq O] in
theorem ownHashes_congr (h : S.cell v = S.cell d) : S.ownHashes st₀ v = S.ownHashes st₀ d := by
  simp only [ownHashes, h]

omit [DecidableEq C] [LinearOrder H] [DecidableEq O] in
theorem Reads.congr {k : C} (h : S.Reads s k b hs) (hsame : ∀ v ∈ S.verts, S.cell v = k →
    s'.block v = s.block v ∧ s'.handed v = s.handed v) : S.Reads s' k b hs where
  nodup := h.nodup
  handed p := (h.handed p).trans (exists_congr fun v => and_congr_right fun hv =>
    and_congr_right fun hc => by rw [(hsame v hv hc).2])
  block x := (h.block x).trans (exists_congr fun v => and_congr_right fun hv =>
    and_congr_right fun hc => by rw [(hsame v hv hc).1])

omit [DecidableEq C] [LinearOrder H] [DecidableEq O] in
/-- An entry has what has been handed to a vertex that is full. -/
theorem Reads.perm (h : S.Reads s (S.cell d) b hs) (hr : S.Ready st₀ M) (hd : d ∈ S.verts)
    (ht : (S.cascade st₀ M).Tidy s) (hfull : (S.cascade st₀ M).Full s d) :
    hs.Perm (s.handed d) := by
  refine (List.perm_ext_iff_of_nodup (.of_map _ h.nodup) (.of_map _ (ht.nodup d))).mpr
    fun p => ⟨fun hp => ?_, fun hp => (h.handed p).mpr ⟨d, hd, rfl, hp⟩⟩
  obtain ⟨v, hv, hc, hp⟩ := (h.handed p).mp hp
  obtain ⟨hx, hf⟩ := ht.sound v p.1 p.2 hp
  obtain ⟨y, hy⟩ := hfull p.1 ((hr.alike v hv d hd hc p.1).mp hf)
  have hxy := Option.some.inj (hx.symm.trans (ht.sound d p.1 y hy).1)
  rw [← hxy] at hy
  exact hy

omit [LinearOrder H] [DecidableEq O] in
/-- An entry replaced by what a changed state says of its vertices. -/
theorem Shows.put (h : S.Shows st₀ st s) (hd : d ∈ S.verts)
    (he : st₀ (S.cell d) S.level = some e) (hr : S.Reads s' (S.cell d) b hs)
    (hsame : ∀ v, S.cell v ≠ S.cell d → s'.block v = s.block v ∧ s'.handed v = s.handed v) :
    S.Shows st₀ (st.put (S.cell d) S.level (Entry.written S.layer b hs e)) s' where
  entry v hv := by
    by_cases hc : S.cell v = S.cell d
    · refine ⟨b, hs, ?_, hc ▸ hr⟩
      simp [Store.put, hc, he]
    · obtain ⟨b', hs', hst, hr'⟩ := h.entry v hv
      refine ⟨b', hs', ?_, hr'.congr fun u _ hu => hsame u (hu ▸ hc)⟩
      simpa [Store.put, hc] using hst
  frame k m hkm := by
    by_cases hc : k = S.cell d
    · subst hc
      have hm : m ≠ S.level := fun hm => hkm hm d hd rfl
      simpa [Store.put, hm] using h.frame _ m hkm
    · simpa [Store.put, hc] using h.frame k m hkm

omit [LinearOrder H] [DecidableEq O] [DecidableEq C] in
theorem Shows.entry_eq (h : S.Shows st₀ st s) (hd : d ∈ S.verts)
    (he : st₀ (S.cell d) S.level = some e) : ∃ b hs, st.entry (S.cell d) S.level =
      .ok (Entry.written S.layer b hs e) ∧ S.Reads s (S.cell d) b hs := by
  obtain ⟨b, hs, hst, hr⟩ := h.entry d hd
  refine ⟨b, hs, ?_, hr⟩
  rw [Store.entry, hst, he]
  rfl

/-- Entering a vertex after all that lead to it. Another vertex with its entry has been handed the
same, so that its digest is the same. -/
theorem Shows.enter (h : S.Shows st₀ st s) (hr : S.Ready st₀ M) (hf : S.Framed)
    (hset : (S.cascade st₀ M).Settled pre s) (ht : Topological S.verts S.succ pre)
    (hd : d ∈ S.verts) (hpre : ∀ u, Kahn.Edge S.verts S.succ u d → u ∈ pre) :
    ∃ st', st.modify (S.cell d) S.level (buildBlockData M S.layer S.own) = .ok st' ∧
      S.Shows st₀ st' ((S.cascade st₀ M).enter d s) := by
  obtain ⟨e, l, he, hl, -⟩ := hr.entry d hd
  obtain ⟨b, hs, hentry, hreads⟩ := h.entry_eq hd he
  have hfull : (S.cascade st₀ M).Full s d := hset.full ht hpre
  have hown : S.ownHashes st₀ d = l := by simp [ownHashes, he, hl]
  obtain ⟨x, hx⟩ : ∃ x, x = (S.cascade st₀ M).digest d (sorted ((s.handed d).map Prod.snd)) :=
    ⟨_, rfl⟩
  have hroot : M.tree (l ++ sorted (hs.map Prod.snd)) = x := by
    rw [sorted_congr ((hreads.perm hr hd hset.tidy hfull).map Prod.snd), hx, ← hown]
    rfl
  have hblock : ((S.cascade st₀ M).enter d s).block = Function.update s.block d (some x) := by
    rw [hx]
    rfl
  have hbuild : buildBlockData M S.layer S.own (Entry.written S.layer b hs e) =
      .ok (Entry.written S.layer (some x) hs e) := by
    simp only [buildBlockData, hf e, hl, written_parenthashes, key, ok_bind, hroot]
    simp only [Entry.written, pure, Except.pure]
    cases b <;> simp
  have hreads' : S.Reads ((S.cascade st₀ M).enter d s) (S.cell d) (some x) hs := by
    refine ⟨hreads.nodup, hreads.handed, fun y => ⟨fun hy => ⟨d, hd, rfl, ?_⟩, ?_⟩⟩
    · rw [hblock, Function.update_self, hy]
    · rintro ⟨v, hv, hc, hy⟩
      rw [hblock] at hy
      by_cases hvd : v = d
      · subst hvd
        rwa [Function.update_self] at hy
      · rw [Function.update_of_ne hvd] at hy
        have hmem : v ∈ pre := by
          by_contra hnot
          rw [hset.block_of_not_mem v hnot] at hy
          cases hy
        have hfullv : (S.cascade st₀ M).Full s v :=
          hset.full ht fun u hu => Cascade.Graph.mem_of_topological ht hmem hu
        have hperm := hset.tidy.handed_perm (hr.alike v hv d hd hc) hfullv hfull
        rw [← hy, hset.block_of_mem v hmem, sorted_congr (hperm.map Prod.snd), hx]
        exact congrArg some (congrArg (fun l => M.tree (l ++ _)) (ownHashes_congr hc).symm)
  refine ⟨_, ?_, h.put hd he hreads' fun v hv => ⟨?_, rfl⟩⟩
  · rw [Store.modify, hentry, ok_bind, hbuild]
    rfl
  · have hvd : v ≠ d := fun hvd => hv (congrArg S.cell hvd)
    rw [hblock, Function.update_of_ne hvd]

omit [LinearOrder H] in
/-- Hashes taken in by a vertex. -/
theorem Shows.take (h : S.Shows st₀ st s) (hr : S.Ready st₀ M)
    (ht : (S.cascade st₀ M).Tidy s) (hn : n ∈ S.verts)
    (hms : ∀ p, p ∈ hs ↔ p ∈ (S.cascade st₀ M).message d s) :
    ∃ st', st.modify (S.cell n) S.level (takeParenthash S.layer hs) = .ok st' ∧
      S.Shows st₀ st' ((S.cascade st₀ M).cross d s n) := by
  obtain ⟨e, l, he, -, -⟩ := hr.entry n hn
  obtain ⟨b, old, hentry, hreads⟩ := h.entry_eq hn he
  have htake : takeParenthash S.layer hs (Entry.written S.layer b old e) =
      .ok (Entry.written S.layer b (Association.merge old hs) e) := by
    simp only [takeParenthash, written_parenthashes, key, ok_bind]
    simp [Entry.written, pure, Except.pure]
  -- nobody says two things of one digest
  have hagree : ∀ k x y, s.block k = some x → s.block k = some y → x = y :=
    fun k x y hx hy => Option.some.inj (hx.symm.trans hy)
  have hmsg : ∀ p ∈ (S.cascade st₀ M).message d s, s.block p.1 = some p.2 :=
    fun p hp => (ht.mem_message hp).1
  have hmerge : ∀ p, p ∈ Association.merge old hs ↔
      p ∈ old ∨ p ∈ (S.cascade st₀ M).message d s := by
    intro p
    rw [← hms p]
    refine Association.mem_merge_of_agree hreads.nodup hagree (fun q hq => ?_)
      fun q hq => hmsg q ((hms q).mp hq)
    obtain ⟨v, -, -, hq⟩ := (hreads.handed q).mp hq
    exact (ht.sound v q.1 q.2 hq).1
  have hhanded : ∀ v p, p ∈ ((S.cascade st₀ M).cross d s n).handed v ↔
      p ∈ s.handed v ∨ v = n ∧ p ∈ (S.cascade st₀ M).message d s := by
    intro v p
    by_cases hv : v = n
    · subst hv
      simpa [Cascade.Graph.cross] using Association.mem_merge_of_agree (ht.nodup v) hagree
        (fun q hq => (ht.sound v q.1 q.2 hq).1) hmsg
    · simp [Cascade.Graph.cross, hv]
  have hreads' : S.Reads ((S.cascade st₀ M).cross d s n) (S.cell n) b
      (Association.merge old hs) := by
    refine ⟨Association.nodup_merge hreads.nodup, fun p => ?_, hreads.block⟩
    rw [hmerge, hreads.handed]
    constructor
    · rintro (⟨v, hv, hc, hp⟩ | hp)
      · exact ⟨v, hv, hc, (hhanded v p).mpr (Or.inl hp)⟩
      · exact ⟨n, hn, rfl, (hhanded n p).mpr (Or.inr ⟨rfl, hp⟩)⟩
    · rintro ⟨v, hv, hc, hp⟩
      rcases (hhanded v p).mp hp with hp | ⟨-, hp⟩
      · exact Or.inl ⟨v, hv, hc, hp⟩
      · exact Or.inr hp
  refine ⟨_, ?_, h.put hn he hreads' fun v hv => ⟨rfl, ?_⟩⟩
  · rw [Store.modify, hentry, ok_bind, htake]
    rfl
  · have hvn : v ≠ n := fun hvn => hv (congrArg S.cell hvn)
    exact Function.update_of_ne hvn _ _

omit [LinearOrder H] in
/-- Handing on along an edge. -/
theorem Shows.handOn (h : S.Shows st₀ st s) (hr : S.Ready st₀ M)
    (ht : (S.cascade st₀ M).Tidy s) (hd : d ∈ S.verts) (hn : n ∈ S.verts)
    (hb : s.block d ≠ none) (hfull : (S.cascade st₀ M).Full s d) :
    ∃ st', S.handOn d n st = .ok st' ∧ S.Shows st₀ st' ((S.cascade st₀ M).cross d s n) := by
  obtain ⟨e, l, he, -, -⟩ := hr.entry d hd
  obtain ⟨x, hx⟩ := Option.ne_none_iff_exists'.mp hb
  obtain ⟨b, hs, hentry, hreads⟩ := h.entry_eq hd he
  obtain rfl : b = some x := (hreads.block x).mpr ⟨d, hd, rfl, hx⟩
  have hkind : (S.cascade st₀ M).kind d = S.kind d := rfl
  unfold Scheme.handOn
  cases hk : S.kind d with
  | silent =>
    have hmsg : (S.cascade st₀ M).message d s = [] := by
      simp [Cascade.Graph.message, hkind, hk]
    have hsame : (S.cascade st₀ M).cross d s n = s := by
      rw [Cascade.Graph.cross, hmsg]
      exact congrArg (fun f => { s with handed := f }) (Function.update_eq_self n s.handed)
    exact ⟨st, rfl, hsame.symm ▸ h⟩
  | own =>
    have hmsg : (S.cascade st₀ M).message d s = [(d, x)] := by
      simp [Cascade.Graph.message, hkind, hk, hx]
    simp only [hentry, ok_bind, written_blockhash, key]
    exact h.take hr ht hn fun p => by rw [hmsg]
  | relay =>
    have hmsg : (S.cascade st₀ M).message d s = s.handed d := by
      simp [Cascade.Graph.message, hkind, hk]
    simp only [hentry, ok_bind, written_parenthashes, key]
    exact h.take hr ht hn fun p => by rw [hmsg, (hreads.perm hr hd ht hfull).mem_iff]

/-- A visit. -/
theorem Shows.visit (h : S.Shows st₀ st s) (hr : S.Ready st₀ M) (hf : S.Framed)
    (hc : S.Follows st₀ M c) (hset : (S.cascade st₀ M).Settled pre s)
    (ht : Topological S.verts S.succ pre) (hd : d ∈ S.verts) (hn : d ∉ pre)
    (hpre : ∀ u, Kahn.Edge S.verts S.succ u d → u ∈ pre) (hself : d ∉ S.succ d)
    (hcl : ∀ n ∈ S.succ d, n ∈ S.verts) :
    ∃ st', Kahn.visit c S.succ st d = .ok st' ∧
      S.Shows st₀ st' ((S.cascade st₀ M).visit s d) := by
  obtain ⟨st₁, hst₁, h₁⟩ := h.enter hr hf hset ht hd hpre
  have hb : ((S.cascade st₀ M).enter d s).block d ≠ none := by simp [Cascade.Graph.enter]
  have htidy := hset.tidy.enter (hset.block_of_not_mem d hn)
  have hfull : (S.cascade st₀ M).Full ((S.cascade st₀ M).enter d s) d := hset.full ht hpre
  suffices hns : ∀ ns : List O, (∀ n ∈ ns, n ∈ S.succ d) → ∀ st₁ s₁, S.Shows st₀ st₁ s₁ →
      (S.cascade st₀ M).Tidy s₁ → (S.cascade st₀ M).Full s₁ d → s₁.block d ≠ none →
      ∃ st', ns.foldlM (fun st n => c.cross d n 0 st) st₁ = .ok st' ∧
        S.Shows st₀ st' (ns.foldl ((S.cascade st₀ M).cross d) s₁) by
    obtain ⟨st', hst', h'⟩ := hns (S.succ d) (fun _ hn => hn) _ _ h₁ htidy hfull hb
    exact ⟨st', by rw [Kahn.visit, hc.enter d hd, hst₁, ok_bind, hst'], h'⟩
  intro ns
  induction ns with
  | nil => exact fun _ st₁ s₁ h₁ _ _ _ => ⟨st₁, rfl, h₁⟩
  | cons n ns ih =>
    intro hsub st₁ s₁ h₁ ht₁ hfull₁ hb₁
    have hn : n ∈ S.succ d := hsub n (by simp)
    have hne : d ≠ n := fun he => hself (he ▸ hn)
    have hfull₂ : (S.cascade st₀ M).Full ((S.cascade st₀ M).cross d s₁ n) d := by
      intro k hk
      obtain ⟨x, hx⟩ := hfull₁ k hk
      exact ⟨x, by simpa [Cascade.Graph.cross, hne] using hx⟩
    obtain ⟨st₂, hst₂, h₂⟩ := h₁.handOn hr ht₁ hd (hcl n hn) hb₁ hfull₁
    obtain ⟨st', hst', h'⟩ := ih (fun n hn => hsub n (by simp [hn])) _ _ h₂
      (ht₁.cross ⟨hd, hn⟩) hfull₂ hb₁
    refine ⟨st', ?_, h'⟩
    rw [List.foldlM_cons, hc.cross d n ⟨hd, hn⟩ st₁ s₁ h₁ hb₁, hst₂, ok_bind, hst']

omit [DecidableEq C] [LinearOrder H] [DecidableEq O] in
theorem Ready.shows (hr : S.Ready st₀ M) : S.Shows st₀ st₀ {} where
  entry v hv := by
    obtain ⟨e, l, he, -, hp⟩ := hr.entry v hv
    refine ⟨none, [], ?_, by simp, by simp, by simp⟩
    rw [he, Option.map_some, Entry.written]
    have hpar : Function.update e.parenthashes S.layer (some []) = e.parenthashes := by
      rw [← hp]
      exact Function.update_eq_self _ _
    simp [hpar]
  frame c m _ := rfl

omit [DecidableEq C] [DecidableEq O] in
/-- The entries once every vertex has its digest. What has been handed to a vertex is listed as its
entry has it. -/
theorem Shows.solves (h : S.Shows st₀ st s) (hr : S.Ready st₀ M)
    (hset : (S.cascade st₀ M).Settled pre s) (hp : pre.Perm S.verts) :
    ∃ B P, (S.cascade st₀ M).Solves B P ∧ ∀ v ∈ S.verts, st (S.cell v) S.level =
      (st₀ (S.cell v) S.level).map
        (Entry.written S.layer (some (B v)) ((P v).map fun k => (k, B k))) := by
  obtain ⟨B, P, hsol, hblock, hhand⟩ := hset.solves hp
  choose! b hs hst hreads using h.entry
  have hB : ∀ v ∈ S.verts, ∀ p ∈ hs v, B p.1 = p.2 := by
    intro v hv p hm
    obtain ⟨u, hu, -, hm⟩ := ((hreads v hv).handed p).mp hm
    obtain ⟨hx, hf⟩ := hset.tidy.sound u p.1 p.2 hm
    exact Option.some.inj ((hblock p.1 hf.mem_verts).symm.trans hx)
  have hlist : ∀ v ∈ S.verts, ((hs v).map Prod.fst).map (fun k => (k, B k)) = hs v := by
    intro v hv
    rw [List.map_map]
    refine (List.map_congr_left fun p hm => ?_).trans (List.map_id _)
    exact Prod.ext rfl (hB v hv p hm)
  have hmem : ∀ v ∈ S.verts, ∀ k, k ∈ (hs v).map Prod.fst ↔ (S.cascade st₀ M).Feeds k v := by
    intro v hv k
    constructor
    · intro hk
      obtain ⟨p, hm, rfl⟩ := List.mem_map.mp hk
      obtain ⟨u, hu, hc, hm⟩ := ((hreads v hv).handed p).mp hm
      exact (hr.alike u hu v hv hc p.1).mp (hset.tidy.sound u p.1 p.2 hm).2
    · intro hf
      have hk := (hsol.mem_iff v hv k).mpr hf
      refine List.mem_map.mpr ⟨(k, B k), ((hreads v hv).handed _).mpr ⟨v, hv, rfl, ?_⟩, rfl⟩
      rw [hhand v hv]
      exact List.mem_map.mpr ⟨k, hk, rfl⟩
  refine ⟨B, fun v => (hs v).map Prod.fst, ⟨fun v hv => (hreads v hv).nodup, hmem,
    fun v hv => ?_⟩, fun v hv => ?_⟩
  · have hperm : (P v).Perm ((hs v).map Prod.fst) :=
      (List.perm_ext_iff_of_nodup (hsol.nodup v hv) (hreads v hv).nodup).mpr fun k => by
        rw [hsol.mem_iff v hv, hmem v hv]
    rw [hsol.eq v hv, sorted_congr (hperm.map B)]
  · have hbv : b v = some (B v) := ((hreads v hv).block _).mpr ⟨v, hv, rfl, hblock v hv⟩
    rw [hst v hv, hbv, hlist v hv]

/-- The walk over a graph whose vertices are ready: every vertex once, after all that lead to it,
and the digests of the graph in the entries. -/
theorem walk_solves (hr : S.Ready st₀ M) (hf : S.Framed) (hc : S.Follows st₀ M c)
    (hw : (S.cascade st₀ M).Wf) : ∃ w st B P,
      walk c S.succ S.verts.length
        (.start S.verts fun v => (S.verts.flatMap S.succ).count v) st₀ = .ok (w, st) ∧
      w.visited.Perm S.verts ∧ Topological S.verts S.succ w.visited ∧
      (S.cascade st₀ M).Solves B P ∧
      (∀ v ∈ S.verts, st (S.cell v) S.level = (st₀ (S.cell v) S.level).map
        (Entry.written S.layer (some (B v)) ((P v).map fun k => (k, B k)))) ∧
      ∀ k m, (m = S.level → ∀ v ∈ S.verts, S.cell v ≠ k) → st k m = st₀ k m := by
  obtain ⟨w, hperm, ht, hwalk⟩ := walk_start c hw.nodup hw.closed hw.acyclic
  have hnd : w.visited.Nodup := hperm.nodup_iff.mpr hw.nodup
  obtain ⟨st, hst, s, hset, hsh⟩ := foldlM_topological
    (f := Kahn.visit c (S.cascade st₀ M).succ) (s := st₀)
    (I := fun pre st => ∃ s, (S.cascade st₀ M).Settled pre s ∧ S.Shows st₀ st s) hnd ht
    (by
      rintro pre d st hd hn hpre hbehind ⟨s, hset, hsh⟩
      have hdv : d ∈ S.verts := hperm.mem_iff.mp hd
      have hself : d ∉ S.succ d := fun he => hw.acyclic d (.single ⟨hdv, he⟩)
      obtain ⟨st', hst', hsh'⟩ := hsh.visit hr hf hc hset hpre hdv hn hbehind hself
        (hw.closed d hdv)
      exact ⟨st', hst', _, hset.visit hn hdv hself hpre hbehind, hsh'⟩)
    ⟨{}, Cascade.Graph.settled_nil, hr.shows⟩
  obtain ⟨B, P, hsol, hentry⟩ := hsh.solves hr hset hperm
  refine ⟨w, st, B, P, ?_, hperm, ht, hsol, hentry, hsh.frame⟩
  refine (hwalk st₀).trans ?_
  rw [hst]
  rfl

end Scheme

end Daliuge.Repro
