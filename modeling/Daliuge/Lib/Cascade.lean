import Mathlib.Algebra.Order.BigOperators.Group.List
import Mathlib.Algebra.Order.Ring.Nat
import Mathlib.Data.List.Sort
import Daliuge.Lib.Association
import Daliuge.Lib.Kahn

/-!
# Digests handed on along a graph

Every vertex of a graph without cycles gets a digest of its own data and of digests handed on
to it. A vertex hands on its own digest, or what was handed to it, or nothing. What comes out
depends on the graph alone: it is the one solution of an equation at every vertex.
-/
namespace Cascade

open Kahn

variable {V H : Type}

section Sorted

variable [LinearOrder H]

/-- Python's `sorted` on values that can all be compared. -/
def sorted (l : List H) : List H := l.insertionSort (· ≤ ·)

theorem perm_sorted (l : List H) : (sorted l).Perm l := List.perm_insertionSort (· ≤ ·) l

theorem sorted_congr {l l' : List H} (h : l.Perm l') : sorted l = sorted l' := by
  refine List.Perm.eq_of_pairwise' (r := (· ≤ ·)) (List.pairwise_insertionSort _ l)
    (List.pairwise_insertionSort _ l') ?_
  exact (perm_sorted l).trans (h.trans (perm_sorted l').symm)

end Sorted

/-- What a vertex hands on. -/
inductive Kind
  | own | relay | silent
  deriving DecidableEq, Repr

/-- The graph, what each vertex hands on, and the digest it makes of what it is handed. -/
structure Graph (V H : Type) where
  verts : List V
  succ : V → List V
  kind : V → Kind
  digest : V → List H → H

/-- The digests so far, and what has been handed to each vertex, by the vertex it comes from. -/
structure State (V H : Type) where
  handed : V → List (V × H) := fun _ => []
  block : V → Option H := fun _ => none

namespace Graph

variable (G : Graph V H)

/-- The graph is one, and has no cycles. -/
structure Wf : Prop where
  nodup : G.verts.Nodup
  closed : ∀ u ∈ G.verts, ∀ v ∈ G.succ u, v ∈ G.verts
  acyclic : Acyclic G.verts G.succ

abbrev Edge : V → V → Prop := Kahn.Edge G.verts G.succ

/-- The digest of a vertex comes to another one. -/
inductive Feeds : V → V → Prop
  | own {u v : V} (h : G.Edge u v) (hk : G.kind u = .own) : Feeds u v
  | relay {k u v : V} (h : G.Edge u v) (hk : G.kind u = .relay) (hf : Feeds k u) : Feeds k v

/-- A vertex hands on the digest of another one, or its own. -/
def Sends (u k : V) : Prop := G.kind u = .own ∧ k = u ∨ G.kind u = .relay ∧ G.Feeds k u

section Paths

variable {G} {u v k : V} {pre : List V}

theorem feeds_iff : G.Feeds k v ↔ ∃ u, G.Edge u v ∧ G.Sends u k := by
  constructor
  · intro h
    cases h with
    | own h hk => exact ⟨k, h, Or.inl ⟨hk, rfl⟩⟩
    | relay h hk hf => exact ⟨_, h, Or.inr ⟨hk, hf⟩⟩
  · rintro ⟨u, h, ⟨hk, rfl⟩ | ⟨hk, hf⟩⟩
    · exact .own h hk
    · exact .relay h hk hf

/-- What comes to a vertex comes along a path. -/
theorem Feeds.path (h : G.Feeds k v) : Relation.TransGen G.Edge k v := by
  induction h with
  | own h hk => exact .single h
  | relay h hk hf ih => exact ih.tail h

theorem Feeds.mem_verts (h : G.Feeds k v) : k ∈ G.verts := by
  obtain ⟨w, hw, -⟩ := Relation.TransGen.head'_iff.mp h.path
  exact hw.1

theorem mem_of_topological (ht : Topological G.verts G.succ pre) (hv : v ∈ pre)
    (hu : G.Edge u v) : u ∈ pre := by
  obtain ⟨a, b, rfl⟩ := List.append_of_mem hv
  exact List.mem_append_left _ (ht a v b rfl u hu)

theorem Feeds.mem (ht : Topological G.verts G.succ pre) (h : G.Feeds k v) (hv : v ∈ pre) :
    k ∈ pre := by
  induction h with
  | own h hk => exact mem_of_topological ht hv h
  | relay h hk hf ih => exact ih (mem_of_topological ht hv h)

theorem Sends.mem (ht : Topological G.verts G.succ pre) (h : G.Sends u k) (hu : u ∈ pre) :
    k ∈ pre := by
  rcases h with ⟨-, rfl⟩ | ⟨-, hf⟩
  · exact hu
  · exact hf.mem ht hu

/-- What comes to a vertex depends on the edges and on what the vertices hand on. -/
theorem Feeds.of_kind {H' : Type} {G' : Graph V H'} (hedge : ∀ {u v}, G.Edge u v → G'.Edge u v)
    (hkind : ∀ u ∈ G.verts, G'.kind u = G.kind u) (h : G.Feeds k v) : G'.Feeds k v := by
  induction h with
  | own he hk => exact .own (hedge he) ((hkind _ he.1).trans hk)
  | relay he hk _ ih => exact .relay (hedge he) ((hkind _ he.1).trans hk) ih

/-- Where nothing is lost and only vertices without predecessors hand on their own digest, it
comes wherever a path leads. -/
theorem feeds_iff_path (hkind : ∀ u ∈ G.verts, G.kind u = .own ∨ G.kind u = .relay)
    (hroot : ∀ u w, G.Edge u w → G.kind w ≠ .own) :
    G.Feeds k v ↔ G.kind k = .own ∧ Relation.TransGen G.Edge k v := by
  constructor
  · intro h
    refine ⟨?_, h.path⟩
    induction h with
    | own _ hk => exact hk
    | relay _ _ _ ih => exact ih
  · rintro ⟨hk, hp⟩
    induction hp with
    | single he => exact .own he hk
    | @tail b c hb he ih =>
      obtain ⟨u, -, hu⟩ := Relation.TransGen.tail'_iff.mp hb
      exact .relay he ((hkind b he.1).resolve_left (hroot u b hu)) ih

end Paths

/-- The vertices that lead nowhere. -/
def leaves : List V := G.verts.filter fun v => (G.succ v).isEmpty

variable [LinearOrder H]

/-- The equation at every vertex, and where the digests it is made of come from. -/
structure Solves (B : V → H) (P : V → List V) : Prop where
  nodup : ∀ v ∈ G.verts, (P v).Nodup
  mem_iff : ∀ v ∈ G.verts, ∀ k, k ∈ P v ↔ G.Feeds k v
  eq : ∀ v ∈ G.verts, B v = G.digest v (sorted ((P v).map B))

/-- What holds after some of the vertices have been visited. -/
structure Settled (pre : List V) (s : State V H) : Prop where
  nodup : ∀ v, ((s.handed v).map Prod.fst).Nodup
  handed_iff : ∀ v k h, (k, h) ∈ s.handed v ↔
    s.block k = some h ∧ ∃ u ∈ pre, G.Edge u v ∧ G.Sends u k
  block_of_mem : ∀ v ∈ pre, s.block v =
    some (G.digest v (sorted ((s.handed v).map Prod.snd)))
  block_of_not_mem : ∀ v, v ∉ pre → s.block v = none

variable [DecidableEq V]

def enter (d : V) (s : State V H) : State V H :=
  let h := G.digest d (sorted ((s.handed d).map Prod.snd))
  { s with block := Function.update s.block d (some h) }

def message (d : V) (s : State V H) : List (V × H) :=
  match G.kind d with
  | .own => (s.block d).toList.map fun h => (d, h)
  | .relay => s.handed d
  | .silent => []

def cross (d : V) (s : State V H) (n : V) : State V H :=
  let hs := Association.merge (s.handed n) (G.message d s)
  { s with handed := Function.update s.handed n hs }

def visit (s : State V H) (d : V) : State V H := (G.succ d).foldl (G.cross d) (G.enter d s)

variable {G} {u v k d : V} {pre : List V} {s : State V H}

omit [DecidableEq V] in
theorem settled_nil : G.Settled [] {} where
  nodup v := List.nodup_nil
  handed_iff v k h := by simp
  block_of_mem v hv := by simp at hv
  block_of_not_mem v _ := rfl

omit [LinearOrder H] in
/-- What is handed on does not change while it is handed on. -/
theorem message_cross {n : V} (hn : n ≠ d) : G.message d (G.cross d s n) = G.message d s := by
  simp only [message, cross]
  cases G.kind d with
  | own => rfl
  | relay => exact Function.update_of_ne hn.symm _ _
  | silent => rfl

/-- The edges out of a vertex: each of its successors is handed the message, the others are
left alone. -/
theorem foldl_cross_spec {ns : List V} (hself : d ∉ ns) {f : V → H → Prop}
    (hf : ∀ k h h', f k h → f k h' → h = h')
    (hmsg : ∀ p ∈ G.message d s, f p.1 p.2) (hs : ∀ v, ∀ p ∈ s.handed v, f p.1 p.2)
    (hnd : ∀ v, ((s.handed v).map Prod.fst).Nodup) :
    (∀ v, (((ns.foldl (G.cross d) s).handed v).map Prod.fst).Nodup) ∧
    (∀ v p, p ∈ (ns.foldl (G.cross d) s).handed v ↔
      p ∈ s.handed v ∨ v ∈ ns ∧ p ∈ G.message d s) ∧
    (∀ v, v ∉ ns → (ns.foldl (G.cross d) s).handed v = s.handed v) ∧
    (ns.foldl (G.cross d) s).block = s.block := by
  induction ns generalizing s with
  | nil => simpa using hnd
  | cons n ns ih =>
    have hn : n ≠ d := fun he => hself (by simp [he])
    have hm := message_cross (G := G) (s := s) hn
    have hmem : ∀ v p, p ∈ (G.cross d s n).handed v ↔
        p ∈ s.handed v ∨ v = n ∧ p ∈ G.message d s := by
      intro v p
      by_cases hv : v = n
      · subst hv
        simpa [cross] using Association.mem_merge_of_agree (hnd v) hf (hs v) hmsg
      · simp [cross, hv]
    have hnd' : ∀ v, (((G.cross d s n).handed v).map Prod.fst).Nodup := by
      intro v
      by_cases hv : v = n
      · subst hv
        simpa [cross] using Association.nodup_merge (hnd v)
      · simpa [cross, hv] using hnd v
    have hs' : ∀ v, ∀ p ∈ (G.cross d s n).handed v, f p.1 p.2 := by
      intro v p hp
      rcases (hmem v p).mp hp with hp | ⟨-, hp⟩
      · exact hs v p hp
      · exact hmsg p hp
    obtain ⟨h1, h2, h3, h4⟩ := ih (fun hd => hself (by simp [hd])) (by rwa [hm]) hs' hnd'
    refine ⟨h1, fun v p => ?_, fun v hv => ?_, h4⟩
    · rw [List.foldl_cons, h2, hmem, hm, List.mem_cons]
      tauto
    · rw [List.mem_cons, not_or] at hv
      rw [List.foldl_cons, h3 v hv.2]
      simp [cross, hv.1]

/-- Entering a vertex gives it its digest, which nobody has been handed yet. -/
theorem Settled.enter (h : G.Settled pre s) (ht : Topological G.verts G.succ pre)
    (hd : d ∉ pre) {v k : V} {x : H} : (k, x) ∈ (G.enter d s).handed v ↔
      (G.enter d s).block k = some x ∧ ∃ u ∈ pre, G.Edge u v ∧ G.Sends u k := by
  refine (h.handed_iff v k x).trans ?_
  by_cases hk : k = d
  · subst hk
    constructor
    · rintro ⟨hb, -⟩
      simp [h.block_of_not_mem k hd] at hb
    · rintro ⟨-, u, hu, -, hs⟩
      exact absurd (hs.mem ht hu) hd
  · simp [Graph.enter, hk]

/-- The message of a vertex that has been entered. -/
theorem Settled.mem_message (h : G.Settled pre s) (ht : Topological G.verts G.succ pre)
    (hd : d ∉ pre) (hpre : ∀ u, G.Edge u d → u ∈ pre) {k : V} {x : H} :
    (k, x) ∈ G.message d (G.enter d s) ↔ (G.enter d s).block k = some x ∧ G.Sends d k := by
  unfold message Sends
  cases hk : G.kind d with
  | own =>
    simp only [List.mem_map, Option.mem_toList, Prod.mk.injEq, reduceCtorEq, false_and, or_false,
      true_and]
    constructor
    · rintro ⟨y, hy, rfl, rfl⟩
      exact ⟨hy, rfl⟩
    · rintro ⟨hb, rfl⟩
      exact ⟨x, hb, rfl, rfl⟩
  | relay =>
    simp only [reduceCtorEq, false_and, false_or, true_and]
    rw [h.enter ht hd, feeds_iff]
    constructor
    · rintro ⟨hb, u, -, he, hs⟩
      exact ⟨hb, u, he, hs⟩
    · rintro ⟨hb, u, he, hs⟩
      exact ⟨hb, u, hpre u he, he, hs⟩
  | silent => simp

/-- A visit keeps all of it. -/
theorem Settled.visit (h : G.Settled pre s) (hd : d ∉ pre) (hvs : d ∈ G.verts)
    (hself : d ∉ G.succ d) (ht : Topological G.verts G.succ pre)
    (hpre : ∀ u, G.Edge u d → u ∈ pre) : G.Settled (pre ++ [d]) (G.visit s d) := by
  have hmsg := fun {k x} => h.mem_message (k := k) (x := x) ht hd hpre
  obtain ⟨hnd, hmem, hsame, hblock⟩ := foldl_cross_spec (G := G) (s := G.enter d s)
    (f := fun k x => (G.enter d s).block k = some x) hself
    (fun k x y hx hy => Option.some.inj (hx.symm.trans hy))
    (fun p hp => (hmsg.mp hp).1) (fun v p hp => ((h.enter ht hd).mp hp).1) h.nodup
  have hnot : ∀ v ∈ pre ++ [d], v ∉ G.succ d := by
    intro v hv he
    rcases List.mem_append.mp hv with hv | hv
    · exact hd (mem_of_topological ht hv ⟨hvs, he⟩)
    · rw [List.mem_singleton.mp hv] at he
      exact hself he
  constructor
  case nodup => exact hnd
  case handed_iff =>
    intro v k x
    have hv : (k, x) ∈ (G.visit s d).handed v ↔ _ := hmem v (k, x)
    have hb : (G.visit s d).block = (G.enter d s).block := hblock
    rw [hv, hb, hmsg, h.enter ht hd]
    constructor
    · rintro (⟨hx, u, hu, he, hs⟩ | ⟨he, hx, hs⟩)
      · exact ⟨hx, u, List.mem_append_left _ hu, he, hs⟩
      · exact ⟨hx, d, by simp, ⟨hvs, he⟩, hs⟩
    · rintro ⟨hx, u, hu, he, hs⟩
      rcases List.mem_append.mp hu with hu | hu
      · exact Or.inl ⟨hx, u, hu, he, hs⟩
      · obtain rfl := List.mem_singleton.mp hu
        exact Or.inr ⟨he.2, hx, hs⟩
  case block_of_mem =>
    intro v hv
    have hb : (G.visit s d).block = (G.enter d s).block := hblock
    have hh : (G.visit s d).handed v = s.handed v := hsame v (hnot v hv)
    rw [hb, hh]
    by_cases hvd : v = d
    · subst hvd
      simp [Graph.enter]
    · simp only [List.mem_append, List.mem_singleton, hvd, or_false] at hv
      simpa [Graph.enter, hvd] using h.block_of_mem v hv
  case block_of_not_mem =>
    intro v hv
    have hb : (G.visit s d).block = (G.enter d s).block := hblock
    simp only [List.mem_append, List.mem_singleton, not_or] at hv
    rw [hb]
    simpa [Graph.enter, hv.2] using h.block_of_not_mem v hv.1

omit [DecidableEq V] in
/-- Visiting everything solves the equations. -/
theorem Settled.solves (h : G.Settled pre s) (hp : pre.Perm G.verts) :
    ∃ B P, G.Solves B P ∧ (∀ v ∈ G.verts, s.block v = some (B v)) ∧
      ∀ v ∈ G.verts, s.handed v = (P v).map fun k => (k, B k) := by
  let B : V → H := fun v => (s.block v).getD (G.digest v [])
  let P : V → List V := fun v => (s.handed v).map Prod.fst
  have hB : ∀ k x, s.block k = some x → B k = x := fun k x hx => by simp [B, hx]
  have hhand : ∀ v, s.handed v = (P v).map fun k => (k, B k) := by
    intro v
    simp only [P, List.map_map]
    refine (List.map_id _).symm.trans (List.map_congr_left fun p hp => ?_)
    have hx := ((h.handed_iff v p.1 p.2).mp hp).1
    simp [hB p.1 p.2 hx]
  have hblock : ∀ v ∈ G.verts, s.block v = some (B v) := by
    intro v hv
    have hx := h.block_of_mem v (hp.mem_iff.mpr hv)
    rw [hx, hB v _ hx]
  refine ⟨B, P, ⟨fun v _ => h.nodup v, fun v _ k => ?_, fun v hv => ?_⟩, hblock,
    fun v _ => hhand v⟩
  · rw [feeds_iff]
    constructor
    · intro hk
      obtain ⟨⟨k', x⟩, hm, rfl⟩ := List.mem_map.mp hk
      obtain ⟨-, u, -, he, hs⟩ := (h.handed_iff v k' x).mp hm
      exact ⟨u, he, hs⟩
    · rintro ⟨u, he, hs⟩
      have hk : k ∈ G.verts := (feeds_iff.mpr ⟨u, he, hs⟩).mem_verts
      have hm := (h.handed_iff v k (B k)).mpr ⟨hblock k hk, u, hp.mem_iff.mpr he.1, he, hs⟩
      exact List.mem_map.mpr ⟨_, hm, rfl⟩
  · have hx := h.block_of_mem v (hp.mem_iff.mpr hv)
    rw [hB v _ hx, hhand v, List.map_map]
    rfl

/-! In the middle of a visit. -/

/-- What has been handed on are digests that have been made, to vertices they come to. -/
structure Tidy (s : State V H) : Prop where
  nodup : ∀ v, ((s.handed v).map Prod.fst).Nodup
  sound : ∀ v k x, (k, x) ∈ s.handed v → s.block k = some x ∧ G.Feeds k v

/-- All that comes to a vertex has been handed to it. -/
def Full (s : State V H) (v : V) : Prop := ∀ k, G.Feeds k v → ∃ x, (k, x) ∈ s.handed v

/-- The same digests come to two vertices. -/
def Alike (u v : V) : Prop := ∀ k, G.Feeds k u ↔ G.Feeds k v

omit [DecidableEq V] in
theorem Settled.tidy (h : G.Settled pre s) : G.Tidy s where
  nodup := h.nodup
  sound v k x hm := by
    obtain ⟨hb, u, -, he, hs⟩ := (h.handed_iff v k x).mp hm
    exact ⟨hb, feeds_iff.mpr ⟨u, he, hs⟩⟩

omit [DecidableEq V] in
theorem Settled.full (h : G.Settled pre s) (ht : Topological G.verts G.succ pre)
    (hpre : ∀ u, G.Edge u v → u ∈ pre) : G.Full s v := by
  intro k hf
  obtain ⟨u, he, hs⟩ := feeds_iff.mp hf
  have hb := h.block_of_mem k (hs.mem ht (hpre u he))
  exact ⟨_, (h.handed_iff v k _).mpr ⟨hb, u, hpre u he, he, hs⟩⟩

theorem Tidy.enter (h : G.Tidy s) (hd : s.block d = none) : G.Tidy (G.enter d s) where
  nodup := h.nodup
  sound v k x hm := by
    obtain ⟨hb, hf⟩ := h.sound v k x hm
    have hk : k ≠ d := by
      rintro rfl
      rw [hd] at hb
      cases hb
    exact ⟨by simpa [Graph.enter, hk] using hb, hf⟩

omit [DecidableEq V] [LinearOrder H] in
theorem Tidy.mem_message (h : G.Tidy s) {k : V} {x : H} (hm : (k, x) ∈ G.message d s) :
    s.block k = some x ∧ G.Sends d k := by
  unfold message at hm
  cases hk : G.kind d with
  | own =>
    simp only [hk, List.mem_map, Option.mem_toList, Prod.mk.injEq] at hm
    obtain ⟨y, hy, rfl, rfl⟩ := hm
    exact ⟨hy, Or.inl ⟨hk, rfl⟩⟩
  | relay =>
    simp only [hk] at hm
    obtain ⟨hb, hf⟩ := h.sound d k x hm
    exact ⟨hb, Or.inr ⟨hk, hf⟩⟩
  | silent => simp [hk] at hm

omit [LinearOrder H] in
theorem Tidy.cross (h : G.Tidy s) {n : V} (he : G.Edge d n) : G.Tidy (G.cross d s n) where
  nodup v := by
    by_cases hv : v = n
    · subst hv
      simpa [Graph.cross] using Association.nodup_merge (h.nodup v)
    · simpa [Graph.cross, hv] using h.nodup v
  sound v k x hm := by
    by_cases hv : v = n
    · subst hv
      simp only [Graph.cross, Function.update_self] at hm
      rcases Association.mem_of_mem_merge hm with hm | hm
      · exact h.sound v k x hm
      · obtain ⟨hb, hs⟩ := h.mem_message hm
        exact ⟨hb, feeds_iff.mpr ⟨d, he, hs⟩⟩
    · simp only [Graph.cross, Function.update_of_ne hv] at hm
      exact h.sound v k x hm

omit [DecidableEq V] [LinearOrder H] in
/-- Two vertices to which the same digests come have been handed the same when both are full. -/
theorem Tidy.handed_perm (h : G.Tidy s) (ha : G.Alike u v) (hu : G.Full s u) (hv : G.Full s v) :
    (s.handed u).Perm (s.handed v) := by
  have hsub : ∀ {a b}, G.Alike a b → G.Full s b → ∀ p ∈ s.handed a, p ∈ s.handed b := by
    rintro a b hab hb ⟨k, x⟩ hp
    obtain ⟨hx, hf⟩ := h.sound a k x hp
    obtain ⟨y, hy⟩ := hb k ((hab k).mp hf)
    obtain rfl := Option.some.inj (hx.symm.trans (h.sound b k y hy).1)
    exact hy
  refine (List.perm_ext_iff_of_nodup (.of_map _ (h.nodup u)) (.of_map _ (h.nodup v))).mpr
    fun p => ⟨hsub ha hv p, hsub (fun k => (ha k).symm) hu p⟩

section Unique

omit [DecidableEq V] [LinearOrder H] in
/-- What holds at a vertex when it holds wherever its digests come from holds everywhere. -/
theorem Wf.induction {Q : V → Prop} (h : G.Wf)
    (step : ∀ v ∈ G.verts, (∀ k, G.Feeds k v → Q k) → Q v) : ∀ v ∈ G.verts, Q v := by
  have hall : ∀ v ∈ G.verts, Q v ∧ ∀ k, G.Feeds k v → Q k := by
    refine h.acyclic.induction fun v hv ih => ?_
    have hfeeds : ∀ k, G.Feeds k v → Q k := by
      intro k hf
      cases hf with
      | own he hk => exact (ih k he).1
      | relay he hk hf => exact (ih _ he).2 k hf
    exact ⟨step v hv hfeeds, hfeeds⟩
  exact fun v hv => (hall v hv).1

variable {V' : Type} {G' : Graph V' H} {ρ : V → V'}

/-- The same vertices and edges, listed in another order and under other names. -/
structure Reorders (ρ : V → V') (G : Graph V H) (G' : Graph V' H) : Prop where
  inj : ∀ u ∈ G.verts, ∀ v ∈ G.verts, ρ u = ρ v → u = v
  verts : G'.verts.Perm (G.verts.map ρ)
  succ : ∀ u ∈ G.verts, (G'.succ (ρ u)).Perm ((G.succ u).map ρ)

/-- The same graph, up to order and names. -/
structure Renames (ρ : V → V') (G : Graph V H) (G' : Graph V' H) : Prop
    extends Reorders ρ G G' where
  kind : ∀ u ∈ G.verts, G'.kind (ρ u) = G.kind u
  digest : ∀ u ∈ G.verts, G'.digest (ρ u) = G.digest u

omit [DecidableEq V] [LinearOrder H]

theorem Reorders.exists_of_mem (h : Reorders ρ G G') {v' : V'} (hv : v' ∈ G'.verts) :
    ∃ v ∈ G.verts, ρ v = v' := by
  simpa using h.verts.mem_iff.mp hv

theorem Reorders.edge_iff (h : Reorders ρ G G') (hw : G.Wf) {u v : V} (hu : u ∈ G.verts)
    (hv : v ∈ G.verts) : G'.Edge (ρ u) (ρ v) ↔ G.Edge u v := by
  have hmem : ρ u ∈ G'.verts := h.verts.mem_iff.mpr (List.mem_map_of_mem hu)
  have hsucc : ρ v ∈ G'.succ (ρ u) ↔ v ∈ G.succ u := by
    rw [(h.succ u hu).mem_iff, List.mem_map]
    constructor
    · rintro ⟨w, hw', he⟩
      rwa [← h.inj w (hw.closed u hu w hw') v hv he]
    · exact fun hm => ⟨v, hm, rfl⟩
  simp [Edge, Kahn.Edge, hmem, hu, hsucc]

/-- An edge of the renamed graph is the image of one. -/
theorem Reorders.exists_of_edge (h : Reorders ρ G G') {u' v' : V'} (he : G'.Edge u' v') :
    ∃ u v, ρ u = u' ∧ ρ v = v' ∧ G.Edge u v := by
  obtain ⟨u, hu, rfl⟩ := h.exists_of_mem he.1
  obtain ⟨v, hv, rfl⟩ := List.mem_map.mp ((h.succ u hu).mem_iff.mp he.2)
  exact ⟨u, v, rfl, rfl, hu, hv⟩

theorem Reorders.wf (h : Reorders ρ G G') (hw : G.Wf) : G'.Wf where
  nodup := h.verts.nodup_iff.mpr (hw.nodup.map_on fun u hu v hv => h.inj u hu v hv)
  closed := by
    intro u' hu v' hv
    obtain ⟨u, v, rfl, rfl, hu, hv⟩ := h.exists_of_edge ⟨hu, hv⟩
    exact h.verts.mem_iff.mpr (List.mem_map_of_mem (hw.closed u hu v hv))
  acyclic := by
    have hpath : ∀ u' v', Relation.TransGen G'.Edge u' v' →
        ∃ u v, u ∈ G.verts ∧ v ∈ G.verts ∧ ρ u = u' ∧ ρ v = v' ∧
          Relation.TransGen G.Edge u v := by
      intro u' v' hp
      induction hp with
      | single he =>
        obtain ⟨u, v, rfl, rfl, hg⟩ := h.exists_of_edge he
        exact ⟨u, v, hg.1, hw.closed u hg.1 v hg.2, rfl, rfl, .single hg⟩
      | tail _ he ih =>
        obtain ⟨u, v, hu, hv, rfl, rfl, hp⟩ := ih
        obtain ⟨v₂, w, hv₂, rfl, hg⟩ := h.exists_of_edge he
        obtain rfl := h.inj v₂ hg.1 v hv hv₂
        exact ⟨u, w, hu, hw.closed v₂ hg.1 w hg.2, rfl, rfl, hp.tail hg⟩
    intro v' hc
    obtain ⟨u, v, hu, hv, rfl, he, hp⟩ := hpath v' v' hc
    obtain rfl := h.inj v hv u hu he
    exact hw.acyclic v hp

theorem Renames.feeds (h : Renames ρ G G') (hw : G.Wf) {k v : V} (hf : G.Feeds k v) :
    G'.Feeds (ρ k) (ρ v) := by
  induction hf with
  | own he hk =>
    exact .own ((h.edge_iff hw he.1 (hw.closed _ he.1 _ he.2)).mpr he)
      ((h.kind _ he.1).trans hk)
  | relay he hk hf ih =>
    exact .relay ((h.edge_iff hw he.1 (hw.closed _ he.1 _ he.2)).mpr he)
      ((h.kind _ he.1).trans hk) ih

theorem Renames.exists_of_feeds (h : Renames ρ G G') (hw : G.Wf) {k' v' : V'}
    (hf : G'.Feeds k' v') : ∃ k v, ρ k = k' ∧ ρ v = v' ∧ v ∈ G.verts ∧ G.Feeds k v := by
  induction hf with
  | own he hk =>
    obtain ⟨u, v, rfl, rfl, hg⟩ := h.exists_of_edge he
    exact ⟨u, v, rfl, rfl, hw.closed u hg.1 v hg.2, .own hg ((h.kind u hg.1).symm.trans hk)⟩
  | relay he hk _ ih =>
    obtain ⟨k, u, rfl, hu, huv, hf⟩ := ih
    obtain ⟨u₂, v, hu₂, rfl, hg⟩ := h.exists_of_edge he
    obtain rfl := h.inj u₂ hg.1 u huv (hu₂.trans hu.symm)
    refine ⟨k, v, rfl, rfl, hw.closed u₂ hg.1 v hg.2, .relay hg ?_ hf⟩
    rw [← h.kind u₂ hg.1, hu]
    exact hk

/-- The digests do not depend on the names of the vertices, nor on any order. -/
theorem Renames.block_eq [LinearOrder H] {B : V → H} {P : V → List V} {B' : V' → H}
    {P' : V' → List V'} (h : Renames ρ G G') (hw : G.Wf) (hs : G.Solves B P)
    (hs' : G'.Solves B' P') : ∀ v ∈ G.verts, B' (ρ v) = B v := by
  refine hw.induction fun v hv ih => ?_
  have hv' : ρ v ∈ G'.verts := h.verts.mem_iff.mpr (List.mem_map_of_mem hv)
  have hnd : ((P v).map ρ).Nodup := (hs.nodup v hv).map_on fun k hk l hl =>
    h.inj k ((hs.mem_iff v hv k).mp hk).mem_verts l ((hs.mem_iff v hv l).mp hl).mem_verts
  have hperm : (P' (ρ v)).Perm ((P v).map ρ) := by
    refine (List.perm_ext_iff_of_nodup (hs'.nodup _ hv') hnd).mpr fun k' => ?_
    rw [hs'.mem_iff _ hv', List.mem_map]
    constructor
    · intro hf
      obtain ⟨k, v₂, rfl, hρ, hv₂, hg⟩ := h.exists_of_feeds hw hf
      obtain rfl := h.inj v₂ hv₂ v hv hρ
      exact ⟨k, (hs.mem_iff v₂ hv k).mpr hg, rfl⟩
    · rintro ⟨k, hk, rfl⟩
      exact h.feeds hw ((hs.mem_iff v hv k).mp hk)
  have hvals : ((P' (ρ v)).map B').Perm ((P v).map B) := by
    refine (hperm.map B').trans (List.Perm.of_eq ?_)
    rw [List.map_map]
    exact List.map_congr_left fun k hk => ih k ((hs.mem_iff v hv k).mp hk)
  rw [hs'.eq _ hv', hs.eq v hv, h.digest v hv, sorted_congr hvals]

theorem Reorders.root_iff (h : Reorders ρ G G') (hw : G.Wf) {v : V} (hv : v ∈ G.verts) :
    (∃ u, G'.Edge u (ρ v)) ↔ ∃ u, G.Edge u v := by
  constructor
  · rintro ⟨u', he⟩
    obtain ⟨u, w, rfl, hwv, hg⟩ := h.exists_of_edge he
    exact ⟨u, h.inj w (hw.closed u hg.1 w hg.2) v hv hwv ▸ hg⟩
  · rintro ⟨u, he⟩
    exact ⟨ρ u, (h.edge_iff hw he.1 hv).mpr he⟩

/-- The digests of the leaves, up to order. -/
theorem Renames.leaves_perm [LinearOrder H] {B : V → H} {P : V → List V} {B' : V' → H}
    {P' : V' → List V'} (h : Renames ρ G G') (hw : G.Wf) (hs : G.Solves B P)
    (hs' : G'.Solves B' P') : (G'.leaves.map B').Perm (G.leaves.map B) := by
  have hfilter : (G.verts.map ρ).filter (fun v => (G'.succ v).isEmpty) = G.leaves.map ρ := by
    rw [List.filter_map, leaves]
    congr 1
    refine List.filter_congr fun v hv => ?_
    have hlen := (h.succ v hv).length_eq
    rw [List.length_map] at hlen
    rw [Function.comp_apply, Bool.eq_iff_iff, List.isEmpty_iff_length_eq_zero,
      List.isEmpty_iff_length_eq_zero, hlen]
  refine ((h.verts.filter _).map B').trans (List.Perm.of_eq ?_)
  rw [hfilter, List.map_map]
  exact List.map_congr_left fun v hv => h.block_eq hw hs hs' v (List.mem_filter.mp hv).1

end Unique

section Part

variable {G' : Graph V H} {A : V → Prop}

/-- Two graphs with a part in common that nothing leads into. -/
structure Shares (A : V → Prop) (G G' : Graph V H) : Prop where
  closed : ∀ u v, G.Edge u v → A v → A u
  verts : ∀ v, A v → (v ∈ G.verts ↔ v ∈ G'.verts)
  edge : ∀ u v, A v → (G.Edge u v ↔ G'.Edge u v)
  kind : ∀ v ∈ G.verts, A v → G'.kind v = G.kind v
  digest : ∀ v ∈ G.verts, A v → G'.digest v = G.digest v

omit [DecidableEq V] [LinearOrder H]

theorem Shares.feeds_iff (h : Shares A G G') (hv : A v) : G'.Feeds k v ↔ G.Feeds k v := by
  constructor
  · intro hf
    induction hf with
    | own he hk =>
      have hg := (h.edge _ _ hv).mpr he
      exact .own hg ((h.kind _ hg.1 (h.closed _ _ hg hv)).symm.trans hk)
    | relay he hk _ ih =>
      have hg := (h.edge _ _ hv).mpr he
      have hu := h.closed _ _ hg hv
      exact .relay hg ((h.kind _ hg.1 hu).symm.trans hk) (ih hu)
  · intro hf
    induction hf with
    | own he hk =>
      exact .own ((h.edge _ _ hv).mp he) ((h.kind _ he.1 (h.closed _ _ he hv)).trans hk)
    | relay he hk _ ih =>
      have hu := h.closed _ _ he hv
      exact .relay ((h.edge _ _ hv).mp he) ((h.kind _ he.1 hu).trans hk) (ih hu)

theorem Shares.feeds_mem (h : Shares A G G') (hf : G.Feeds k v) (hv : A v) : A k := by
  induction hf with
  | own he _ => exact h.closed _ _ he hv
  | relay he _ _ ih => exact ih (h.closed _ _ he hv)

/-- The digests in the common part do not depend on the rest. -/
theorem Shares.block_eq [LinearOrder H] {B B' : V → H} {P P' : V → List V} (h : Shares A G G')
    (hw : G.Wf) (hs : G.Solves B P) (hs' : G'.Solves B' P') :
    ∀ v ∈ G.verts, A v → B' v = B v ∧ (P' v).Perm (P v) := by
  refine hw.induction fun v hv ih ha => ?_
  have hv' : v ∈ G'.verts := (h.verts v ha).mp hv
  have hperm : (P' v).Perm (P v) := by
    refine (List.perm_ext_iff_of_nodup (hs'.nodup v hv') (hs.nodup v hv)).mpr fun k => ?_
    rw [hs'.mem_iff v hv', hs.mem_iff v hv, h.feeds_iff ha]
  have hvals : ((P' v).map B').Perm ((P v).map B) := by
    refine (hperm.map B').trans (List.Perm.of_eq (List.map_congr_left fun k hk => ?_))
    have hf := (hs.mem_iff v hv k).mp hk
    exact (ih k hf (h.feeds_mem hf ha)).1
  refine ⟨?_, hperm⟩
  rw [hs'.eq v hv', hs.eq v hv, h.digest v hv ha, sorted_congr hvals]

end Part

section Weights

variable {G' : Graph V H} {x : V}

omit [DecidableEq V] [LinearOrder H] in
/-- Where every vertex hands on its own digest, it comes to its successors. -/
theorem feeds_iff_edge (hkind : ∀ u ∈ G.verts, G.kind u = .own) : G.Feeds k v ↔ G.Edge k v := by
  constructor
  · intro h
    cases h with
    | own he _ => exact he
    | relay he hk _ => simp [hkind _ he.1] at hk
  · exact fun he => .own he (hkind k he.1)

/-- The same edges, and every vertex hands on its own digest. -/
structure Twins (G G' : Graph V H) : Prop where
  verts : G'.verts = G.verts
  succ : G'.succ = G.succ
  kind : ∀ u ∈ G.verts, G.kind u = .own
  kind' : ∀ u ∈ G.verts, G'.kind u = .own

omit [DecidableEq V] [LinearOrder H] in
theorem Twins.edge (h : Twins G G') : G'.Edge = G.Edge := by
  simp only [Edge, h.verts, h.succ]

omit [DecidableEq V] [LinearOrder H] in
theorem Twins.symm (h : Twins G G') : Twins G' G where
  verts := h.verts.symm
  succ := h.succ.symm
  kind := by
    rw [h.verts]
    exact h.kind'
  kind' := by
    rw [h.verts]
    exact h.kind

variable {B B' : V → H} {P P' : V → List V}

omit [DecidableEq V] in
theorem Twins.handed_iff (h : Twins G G') (hs : G.Solves B P) (hv : v ∈ G.verts) :
    k ∈ P v ↔ G.Edge k v := by
  rw [hs.mem_iff v hv, feeds_iff_edge h.kind]

omit [DecidableEq V] in
theorem Twins.handed_perm (h : Twins G G') (hs : G.Solves B P) (hs' : G'.Solves B' P')
    (hv : v ∈ G.verts) : (P' v).Perm (P v) := by
  have hv' : v ∈ G'.verts := h.verts ▸ hv
  refine (List.perm_ext_iff_of_nodup (hs'.nodup v hv') (hs.nodup v hv)).mpr fun k => ?_
  rw [h.handed_iff hs hv, h.symm.handed_iff hs' hv', h.edge]

omit [DecidableEq V] in
/-- A weight that adds up along the graph and grows at one vertex grows at all that can be
reached from there, and nowhere shrinks. -/
theorem Twins.weight_lt (h : Twins G G') (hw : G.Wf) (hs : G.Solves B P) (hs' : G'.Solves B' P')
    {μ : H → Nat} {w w' : V → Nat} (hle : ∀ v ∈ G.verts, w v ≤ w' v) (hlt : w x < w' x)
    (hsame : ∀ v ∈ G.verts, v ≠ x → G'.digest v = G.digest v)
    (hμ : ∀ v ∈ G.verts, Relation.ReflTransGen G.Edge x v →
      μ (B v) = w v + ((P v).map fun k => μ (B k)).sum ∧
      μ (B' v) = w' v + ((P' v).map fun k => μ (B' k)).sum) :
    ∀ v ∈ G.verts, (¬ Relation.ReflTransGen G.Edge x v → B' v = B v) ∧
      (Relation.ReflTransGen G.Edge x v → μ (B v) < μ (B' v)) := by
  refine hw.induction fun v hv ih => ?_
  have hperm := h.handed_perm hs hs' hv
  have hedge : ∀ k ∈ P v, G.Edge k v := fun k hk => (h.handed_iff hs hv).mp hk
  have hk : ∀ k ∈ P v, (¬ Relation.ReflTransGen G.Edge x k → B' k = B k) ∧
      (Relation.ReflTransGen G.Edge x k → μ (B k) < μ (B' k)) :=
    fun k hk => ih k ((hs.mem_iff v hv k).mp hk)
  have hkle : ∀ k ∈ P v, μ (B k) ≤ μ (B' k) := by
    intro k hkm
    by_cases hx : Relation.ReflTransGen G.Edge x k
    · exact ((hk k hkm).2 hx).le
    · rw [(hk k hkm).1 hx]
  refine ⟨fun hn => ?_, fun hr => ?_⟩
  · have hvx : v ≠ x := by
      rintro rfl
      exact hn .refl
    have hvals : ((P' v).map B').Perm ((P v).map B) := by
      refine (hperm.map B').trans (List.Perm.of_eq (List.map_congr_left fun k hkm => ?_))
      exact (hk k hkm).1 fun hx => hn (hx.tail (hedge k hkm))
    rw [hs'.eq v (h.verts ▸ hv), hs.eq v hv, hsame v hv hvx, sorted_congr hvals]
  · obtain ⟨h1, h2⟩ := hμ v hv hr
    have hsum : ((P v).map fun k => μ (B k)).sum ≤ ((P v).map fun k => μ (B' k)).sum :=
      List.sum_le_sum hkle
    have hps : ((P' v).map fun k => μ (B' k)).sum = ((P v).map fun k => μ (B' k)).sum :=
      (hperm.map _).sum_eq
    have hwv := hle v hv
    rw [h1, h2, hps]
    rcases Relation.ReflTransGen.cases_tail hr with rfl | ⟨u, hxu, huv⟩
    · omega
    · have hu : u ∈ P v := (h.handed_iff hs hv).mpr huv
      have hstrict : ((P v).map fun k => μ (B k)).sum < ((P v).map fun k => μ (B' k)).sum :=
        List.sum_lt_sum _ _ hkle ⟨u, hu, (hk u hu).2 hxu⟩
      omega

end Weights

end Graph

end Cascade
