import Mathlib.Data.List.Nodup
import Mathlib.Data.List.Count
import Mathlib.Data.List.Perm.Subperm
import Mathlib.Order.WellFoundedSet
import Daliuge.Lib.Collect

/-!
# Walking a graph from its sources

A walk keeps a stack of vertices all of whose predecessors are behind it and, for every vertex,
the number of edges that still lead to it. It carries a state along, which is changed once at
every vertex and once at every edge.
-/
namespace Kahn

open Collect

variable {V σ : Type} {ε : Type} [DecidableEq V]

/-- Where a walk is: the edges ahead of every vertex, the stack (its top first), and the
vertices behind. -/
structure Walk (V : Type) where
  indeg : V → Nat
  stack : List V
  visited : List V

namespace Walk

/-- An edge to a vertex is walked. -/
def lower (w : Walk V) (n : V) : Walk V :=
  { w with indeg := Function.update w.indeg n (w.indeg n - 1) }

/-- The last edge to a vertex puts it on the stack. -/
def offer (w : Walk V) (n : V) : Walk V :=
  { w with stack := if w.indeg n = 0 then n :: w.stack else w.stack }

/-- The vertex on top of the stack is entered. -/
def pop (w : Walk V) (d : V) (stack : List V) : Walk V :=
  { w with stack, visited := w.visited ++ [d] }

/-- Both of what happens to the walk at an edge. -/
def release (w : Walk V) (n : V) : Walk V := (w.lower n).offer n

/-- Before the first step: the vertices no edge leads to. -/
def start (vs : List V) (indeg : V → Nat) : Walk V :=
  { indeg, stack := (vs.filter fun v => indeg v = 0).reverse, visited := [] }

end Walk

/-- What is done with the state: on entering a vertex, and along an edge, where the number of
edges still ahead of its first vertex can be looked at. -/
structure Visitor (V σ ε : Type) where
  enter : V → σ → Except ε σ
  cross : V → V → Nat → σ → Except ε σ

/-- The edges out of a vertex. -/
def crossAll (c : Visitor V σ ε) (d : V) : List V → Walk V → σ → Except ε (Walk V × σ)
  | [], w, s => .ok (w, s)
  | n :: ns, w, s => do
    let s ← c.cross d n ((w.lower n).indeg d) s
    crossAll c d ns (w.release n) s

/-- The walk, for as many steps as there is fuel. -/
def walk (c : Visitor V σ ε) (succ : V → List V) : Nat → Walk V → σ → Except ε (Walk V × σ)
  | 0, w, s => .ok (w, s)
  | fuel + 1, w, s =>
    match w.stack with
    | [] => .ok (w, s)
    | d :: stack => do
      let s ← c.enter d s
      let (w, s) ← crossAll c d (succ d) (w.pop d stack) s
      walk c succ fuel w s

/-- All that is done to the state at a vertex. -/
def visit (c : Visitor V σ ε) (succ : V → List V) (s : σ) (d : V) : Except ε σ := do
  let s ← c.enter d s
  (succ d).foldlM (fun s n => c.cross d n 0 s) s

/-- The vertices and edges of a graph. -/
def Edge (vs : List V) (succ : V → List V) (u v : V) : Prop := u ∈ vs ∧ v ∈ succ u

def Acyclic (vs : List V) (succ : V → List V) : Prop :=
  ∀ v, ¬ Relation.TransGen (Edge vs succ) v v

/-- Every vertex comes after those that lead to it. -/
def Topological (vs : List V) (succ : V → List V) (order : List V) : Prop :=
  ∀ pre d post, order = pre ++ d :: post → ∀ u, Edge vs succ u d → u ∈ pre

/-- What holds of a walk all along. -/
structure Sound (vs : List V) (succ : V → List V) (w : Walk V) : Prop where
  counts : ∀ v, w.indeg v = ((vs.filter (· ∉ w.visited)).flatMap succ).count v
  frontier : ∀ v ∈ vs, w.indeg v = 0 ↔ v ∈ w.stack ∨ v ∈ w.visited
  nodup : (w.stack ++ w.visited).Nodup
  mem : ∀ v ∈ w.stack ++ w.visited, v ∈ vs
  topological : Topological vs succ w.visited

omit [DecidableEq V] in
/-- Numbers that grow along every edge. -/
theorem acyclic_of_rank {vs : List V} {succ : V → List V} (rank : V → Nat)
    (h : ∀ u ∈ vs, ∀ v ∈ succ u, rank u < rank v) : Acyclic vs succ := by
  have hpath : ∀ u v, Relation.TransGen (Edge vs succ) u v → rank u < rank v := by
    intro u v hp
    induction hp with
    | single he => exact h _ he.1 _ he.2
    | tail _ he ih => exact ih.trans (h _ he.1 _ he.2)
  exact fun v hv => lt_irrefl _ (hpath v v hv)

section Release

variable {w : Walk V} {ns : List V} {n v : V}

theorem release_indeg : (w.release n).indeg v = if v = n then w.indeg n - 1 else w.indeg v := by
  by_cases h : v = n
  · subst h
    simp [Walk.release, Walk.lower, Walk.offer]
  · simp [Walk.release, Walk.lower, Walk.offer, h]

theorem mem_release_stack (h : 0 < w.indeg n) :
    v ∈ (w.release n).stack ↔ v ∈ w.stack ∨ v = n ∧ w.indeg n = 1 := by
  simp only [Walk.release, Walk.lower, Walk.offer, Function.update_self]
  by_cases hn : w.indeg n = 1
  · simp [hn, or_comm]
  · have : w.indeg n - 1 ≠ 0 := by omega
    simp [this, hn]

theorem count_le_release (h : ∀ v, (n :: ns).count v ≤ w.indeg v) :
    0 < w.indeg n ∧ ∀ v, ns.count v ≤ (w.release n).indeg v := by
  have hn : ns.count n + 1 ≤ w.indeg n := by simpa using h n
  refine ⟨by omega, fun v => ?_⟩
  rw [release_indeg]
  split
  · rename_i hv
    rw [hv]
    omega
  · exact le_trans List.count_le_count_cons (h v)

theorem foldl_release_visited : (ns.foldl Walk.release w).visited = w.visited := by
  induction ns generalizing w with
  | nil => rfl
  | cons n ns ih => exact ih

/-- The edges out of a vertex, walked one after the other. -/
theorem foldl_release_spec (h : ∀ v, ns.count v ≤ w.indeg v) :
    (∀ v, (ns.foldl Walk.release w).indeg v = w.indeg v - ns.count v) ∧
    (∀ v, v ∈ (ns.foldl Walk.release w).stack ↔
      v ∈ w.stack ∨ v ∈ ns ∧ w.indeg v = ns.count v) := by
  induction ns generalizing w with
  | nil => simp
  | cons n ns ih =>
    obtain ⟨hn, hle⟩ := count_le_release h
    obtain ⟨hi, hs⟩ := ih hle
    refine ⟨fun v => ?_, fun v => ?_⟩
    · rw [List.foldl_cons, hi, release_indeg, List.count_cons]
      by_cases hv : v = n
      · simp only [hv, BEq.rfl, if_true]
        omega
      · simp [hv, Ne.symm hv]
    · rw [List.foldl_cons, hs, mem_release_stack hn, release_indeg, List.count_cons]
      by_cases hv : v = n
      · subst hv
        have hpos : v ∈ ns ↔ 0 < ns.count v := List.count_pos_iff.symm
        simp only [if_true, BEq.rfl, List.mem_cons, true_or, true_and, hpos]
        constructor
        · rintro ((hst | h1) | ⟨h1, h2⟩)
          · exact Or.inl hst
          · have := h v
            simp only [List.count_cons_self] at this
            exact Or.inr (by omega)
          · exact Or.inr (by omega)
        · rintro (hst | h1)
          · exact Or.inl (Or.inl hst)
          · by_cases h0 : 0 < ns.count v
            · exact Or.inr ⟨h0, by omega⟩
            · exact Or.inl (Or.inr (by omega))
      · simp [hv, Ne.symm hv]

theorem foldl_release_nodup (h : ∀ v, ns.count v ≤ w.indeg v) (hs : w.stack.Nodup)
    (h0 : ∀ v ∈ w.stack, w.indeg v = 0) : (ns.foldl Walk.release w).stack.Nodup := by
  induction ns generalizing w with
  | nil => exact hs
  | cons n ns ih =>
    obtain ⟨hn, hle⟩ := count_le_release h
    have hnot : n ∉ w.stack := by
      intro hm
      have := h0 n hm
      omega
    refine ih hle ?_ fun v hv => ?_
    · by_cases h1 : w.indeg n - 1 = 0
      · simpa [Walk.release, Walk.lower, Walk.offer, h1] using ⟨hnot, hs⟩
      · simpa [Walk.release, Walk.lower, Walk.offer, h1] using hs
    · rw [release_indeg]
      rcases (mem_release_stack hn).mp hv with hv | ⟨rfl, h1⟩
      · have hne : v ≠ n := fun he => hnot (he ▸ hv)
        rw [if_neg hne]
        exact h0 v hv
      · rw [if_pos rfl]
        omega

end Release

section Sound

variable {vs : List V} {succ : V → List V} {w : Walk V} {d v : V} {stack : List V}

theorem sound_start (hnd : vs.Nodup) :
    Sound vs succ (.start vs fun v => (vs.flatMap succ).count v) where
  counts v := by simp [Walk.start]
  frontier v hv := by simp [Walk.start, hv]
  nodup := by simpa [Walk.start] using hnd.filter _
  mem v hv := by
    simp only [Walk.start, List.append_nil, List.mem_reverse, List.mem_filter] at hv
    exact hv.1
  topological pre d post h := by simp [Walk.start] at h

/-- The edges ahead before a vertex is entered: its own, and those ahead afterwards. -/
theorem count_ahead (hnd : vs.Nodup) (hd : d ∈ vs) (hv : d ∉ w.visited) :
    ((vs.filter (· ∉ w.visited)).flatMap succ).count v =
      (succ d).count v + ((vs.filter (· ∉ w.visited ++ [d])).flatMap succ).count v := by
  have hp : (vs.filter (· ∉ w.visited)).Perm (d :: vs.filter (· ∉ w.visited ++ [d])) := by
    refine (List.perm_ext_iff_of_nodup (hnd.filter _) ?_).mpr fun u => ?_
    · exact List.nodup_cons.mpr ⟨by simp, hnd.filter _⟩
    · by_cases hu : u = d
      · subst hu
        simp [hd, hv]
      · simp [hu]
  rw [(hp.flatMap_right succ).count_eq, List.flatMap_cons, List.count_append]

/-- A vertex on the stack has all that leads to it behind it. -/
theorem Sound.behind (h : Sound vs succ w) (hd : d ∈ w.stack) {u : V} (hu : Edge vs succ u d) :
    u ∈ w.visited := by
  by_contra hn
  have h0 : w.indeg d = 0 :=
    (h.frontier d (h.mem d (List.mem_append_left _ hd))).mpr (Or.inl hd)
  rw [h.counts d, List.count_eq_zero] at h0
  exact h0 (List.mem_flatMap.mpr ⟨u, List.mem_filter.mpr ⟨hu.1, by simpa using hn⟩, hu.2⟩)

theorem Sound.entered (h : Sound vs succ w) (hst : w.stack = d :: stack) :
    d ∈ vs ∧ d ∉ w.visited ∧ d ∉ succ d ∧ w.indeg d = 0 := by
  have hd : d ∈ w.stack := by simp [hst]
  have hvs : d ∈ vs := h.mem d (List.mem_append_left _ hd)
  have hn : d ∉ w.visited := List.disjoint_of_nodup_append h.nodup hd
  refine ⟨hvs, hn, fun hself => ?_, (h.frontier d hvs).mpr (Or.inl hd)⟩
  exact hn (h.behind hd ⟨hvs, hself⟩)

omit [DecidableEq V] in
theorem topological_snoc {order : List V} (h : Topological vs succ order)
    (hd : ∀ u, Edge vs succ u d → u ∈ order) : Topological vs succ (order ++ [d]) := by
  intro pre e post he u hu
  rcases List.eq_nil_or_concat post with rfl | ⟨post', x, rfl⟩
  · obtain ⟨rfl, he⟩ := List.append_inj' he rfl
    obtain rfl : d = e := by simpa using he
    exact hd u hu
  · rw [List.concat_eq_append, ← List.cons_append, ← List.append_assoc] at he
    exact h pre e post' (List.append_inj' he rfl).1 u hu

/-- A step keeps all of it. -/
theorem Sound.step (h : Sound vs succ w) (hnd : vs.Nodup)
    (hcl : ∀ u ∈ vs, ∀ v ∈ succ u, v ∈ vs) (hst : w.stack = d :: stack) :
    Sound vs succ ((succ d).foldl Walk.release (w.pop d stack)) := by
  obtain ⟨hvs, hn, hself, hzero⟩ := h.entered hst
  have hahead : ∀ v, w.indeg v =
      (succ d).count v + ((vs.filter (· ∉ w.visited ++ [d])).flatMap succ).count v :=
    fun v => (h.counts v).trans (count_ahead hnd hvs hn)
  have hle : ∀ v, (succ d).count v ≤ (w.pop d stack).indeg v := by
    intro v
    have := hahead v
    change _ ≤ w.indeg v
    omega
  have hnod : (d :: (stack ++ w.visited)).Nodup := by simpa [hst] using h.nodup
  obtain ⟨hi, hs⟩ := foldl_release_spec hle
  have hvis : ((succ d).foldl Walk.release (w.pop d stack)).visited = w.visited ++ [d] :=
    foldl_release_visited
  have hstack0 : ∀ v ∈ stack, w.indeg v = 0 := fun v hv =>
    (h.frontier v (h.mem v (by simp [hst, hv]))).mpr (Or.inl (by simp [hst, hv]))
  have hnew : ∀ v, v ∈ succ d → v ∉ w.visited ∧ v ≠ d := by
    intro v hv
    have hpos : 0 < w.indeg v := by
      have := List.count_pos_iff.mpr hv
      have := hahead v
      omega
    refine ⟨fun hm => ?_, fun he => hself (he ▸ hv)⟩
    have := (h.frontier v (hcl d hvs v hv)).mpr (Or.inr hm)
    omega
  constructor
  case counts =>
    intro v
    rw [hi, hvis]
    exact Nat.sub_eq_of_eq_add' (hahead v)
  case frontier =>
    intro v hv
    rw [hi, hs, hvis]
    change w.indeg v - _ = 0 ↔ (v ∈ stack ∨ _ ∧ w.indeg v = _) ∨ v ∈ w.visited ++ [d]
    have hf := h.frontier v hv
    rw [hst, List.mem_cons] at hf
    have hc := hle v
    change _ ≤ w.indeg v at hc
    rw [List.mem_append, List.mem_singleton]
    constructor
    · intro h0
      by_cases hm : v ∈ succ d
      · exact Or.inl (Or.inr ⟨hm, by omega⟩)
      · have hc0 : (succ d).count v = 0 := List.count_eq_zero.mpr hm
        rcases hf.mp (by omega) with (he | hm) | hm
        · exact Or.inr (Or.inr he)
        · exact Or.inl (Or.inl hm)
        · exact Or.inr (Or.inl hm)
    · rintro ((hm | ⟨-, he⟩) | hm | he)
      · have := hstack0 v hm
        omega
      · omega
      · have := hf.mpr (Or.inr hm)
        omega
      · have := hf.mpr (Or.inl (Or.inl he))
        omega
  case nodup =>
    rw [hvis]
    obtain ⟨hd, hsv⟩ := List.nodup_cons.mp hnod
    have hsn := List.nodup_append.mp hsv
    refine List.nodup_append'.mpr ⟨foldl_release_nodup hle hsn.1 hstack0, ?_, ?_⟩
    · exact List.nodup_append'.mpr ⟨hsn.2.1, List.nodup_singleton d, by simpa using hn⟩
    · intro v hv hm
      simp only [List.mem_append, List.mem_singleton] at hm
      rcases (hs v).mp hv with hv | ⟨hv, -⟩
      · rcases hm with hm | rfl
        · exact hsn.2.2 v hv v hm rfl
        · exact hd (List.mem_append_left _ hv)
      · exact hm.elim (hnew v hv).1 (hnew v hv).2
  case mem =>
    intro v hv
    rw [hvis, List.mem_append, hs] at hv
    simp only [Walk.pop, List.mem_append, List.mem_singleton] at hv
    rcases hv with (hv | ⟨hv, -⟩) | hv | rfl
    · exact h.mem v (by simp [hst, hv])
    · exact hcl d hvs v hv
    · exact h.mem v (List.mem_append_right _ hv)
    · exact hvs
  case topological =>
    rw [hvis]
    exact topological_snoc h.topological fun u hu => h.behind (by simp [hst]) hu

end Sound

section Walking

variable {c : Visitor V σ ε} {vs : List V} {succ : V → List V} {w : Walk V} {d : V} {s : σ}

/-- What is done along the edges out of a vertex that none of them leads to. -/
theorem crossAll_eq {ns : List V} (hself : d ∉ ns) (h0 : w.indeg d = 0) :
    crossAll c d ns w s = (ns.foldlM (fun s n => c.cross d n 0 s) s).map
      fun s => (ns.foldl Walk.release w, s) := by
  induction ns generalizing w s with
  | nil => rfl
  | cons n ns ih =>
    have hne : d ≠ n := fun he => hself (by simp [he])
    have hlow : (w.lower n).indeg d = 0 := by simpa [Walk.lower, hne] using h0
    have hrel : (w.release n).indeg d = 0 := by
      rw [release_indeg, if_neg hne]
      exact h0
    rw [crossAll, hlow, List.foldlM_cons]
    cases c.cross d n 0 s with
    | error e => rfl
    | ok s' => exact ih (fun hm => hself (by simp [hm])) hrel

/-- The walk visits what is left of an order, and does at each vertex all there is to do. -/
theorem walk_spec (hnd : vs.Nodup) (hcl : ∀ u ∈ vs, ∀ v ∈ succ u, v ∈ vs)
    (h : Sound vs succ w) {fuel : Nat} (hfuel : vs.length ≤ fuel + w.visited.length) :
    ∃ w' order, Sound vs succ w' ∧ w'.stack = [] ∧ w'.visited = w.visited ++ order ∧
      ∀ s, walk c succ fuel w s = (order.foldlM (visit c succ) s).map fun s => (w', s) := by
  induction fuel generalizing w with
  | zero =>
    have hsub : (w.stack ++ w.visited).length ≤ vs.length :=
      (h.nodup.subperm h.mem).length_le
    have hnil : w.stack = [] := by
      rw [List.length_append] at hsub
      exact List.length_eq_zero_iff.mp (by omega)
    exact ⟨w, [], h, hnil, by simp, fun _ => rfl⟩
  | succ fuel ih =>
    cases hst : w.stack with
    | nil =>
      refine ⟨w, [], h, hst, by simp, fun s => ?_⟩
      rw [walk, hst]
      rfl
    | cons d stack =>
      obtain ⟨-, -, hself, hzero⟩ := h.entered hst
      have hnext := h.step hnd hcl hst
      have hvis : ((succ d).foldl Walk.release (w.pop d stack)).visited = w.visited ++ [d] :=
        foldl_release_visited
      have hlen : vs.length ≤
          fuel + ((succ d).foldl Walk.release (w.pop d stack)).visited.length := by
        rw [hvis, List.length_append, List.length_singleton]
        omega
      have hzero' : (w.pop d stack).indeg d = 0 := hzero
      have hwalk : ∀ s, walk c succ (fuel + 1) w s = (visit c succ s d) >>= fun s =>
          walk c succ fuel ((succ d).foldl Walk.release (w.pop d stack)) s := by
        intro s
        rw [walk, hst]
        simp only [visit]
        cases c.enter d s with
        | error e => rfl
        | ok s' =>
          rw [ok_bind, ok_bind, crossAll_eq hself hzero']
          cases (succ d).foldlM (fun s n => c.cross d n 0 s) s' with
          | error e => rfl
          | ok s'' => rfl
      obtain ⟨w', order, hs, hnil, hv, hrun⟩ := ih hnext hlen
      refine ⟨w', d :: order, hs, hnil, ?_, fun s => ?_⟩
      · rw [hv, hvis, List.append_assoc]
        rfl
      · rw [hwalk, List.foldlM_cons]
        cases visit c succ s d with
        | error e => rfl
        | ok s' => exact hrun s'

omit [DecidableEq V] in
/-- What holds at a vertex when it holds at all that lead to it holds everywhere. -/
theorem Acyclic.induction {P : V → Prop} (h : Acyclic vs succ)
    (step : ∀ v ∈ vs, (∀ u, Edge vs succ u v → P u) → P v) : ∀ v ∈ vs, P v := by
  have hstrict : IsStrictOrder V (Relation.TransGen (Edge vs succ)) :=
    { irrefl := h, trans := fun _ _ _ => Relation.TransGen.trans }
  have hwf := (List.finite_toSet vs).wellFoundedOn (r := Relation.TransGen (Edge vs succ))
  intro v hv
  refine hwf.induction hv fun v hv ih => step v hv fun u hu => ?_
  exact ih u hu.1 (.single hu)

omit [DecidableEq V] in
/-- From every vertex a path leads to one that leads nowhere. -/
theorem Acyclic.exists_leaf (h : Acyclic vs succ) (hcl : ∀ u ∈ vs, ∀ v ∈ succ u, v ∈ vs) :
    ∀ v ∈ vs, ∃ l ∈ vs, succ l = [] ∧ Relation.ReflTransGen (Edge vs succ) v l := by
  have hstrict : IsStrictOrder V fun u v => Relation.TransGen (Edge vs succ) v u :=
    { irrefl := h, trans := fun _ _ _ hab hbc => hbc.trans hab }
  have hwf := (List.finite_toSet vs).wellFoundedOn
    (r := fun u v => Relation.TransGen (Edge vs succ) v u)
  intro v hv
  refine hwf.induction hv (P := fun v => ∃ l ∈ vs, succ l = [] ∧
    Relation.ReflTransGen (Edge vs succ) v l) fun v hv ih => ?_
  cases hs : succ v with
  | nil => exact ⟨v, hv, hs, .refl⟩
  | cons w ws =>
    have he : Edge vs succ v w := ⟨hv, by simp [hs]⟩
    obtain ⟨l, hl, hnil, hp⟩ := ih w (hcl v hv w he.2) (.single he)
    exact ⟨l, hl, hnil, .head he hp⟩

/-- A walk that ended has been everywhere. -/
theorem Sound.perm (h : Sound vs succ w) (hst : w.stack = []) (hnd : vs.Nodup)
    (ha : Acyclic vs succ) : w.visited.Perm vs := by
  have hall : ∀ v ∈ vs, v ∈ w.visited := by
    refine ha.induction fun v hv ih => ?_
    have h0 : w.indeg v = 0 := by
      rw [h.counts v, List.count_eq_zero]
      intro hm
      obtain ⟨u, hu, hv⟩ := List.mem_flatMap.mp hm
      obtain ⟨huvs, hn⟩ := List.mem_filter.mp hu
      exact absurd (ih u ⟨huvs, hv⟩) (by simpa using hn)
    simpa [hst] using (h.frontier v hv).mp h0
  refine (List.perm_ext_iff_of_nodup (List.nodup_append.mp h.nodup).2.1 hnd).mpr fun v => ?_
  exact ⟨fun hv => h.mem v (List.mem_append_right _ hv), hall v⟩

/-- The walk over a graph without cycles: it visits every vertex once, after all that lead to
it, and in an order that the state has no part in. -/
theorem walk_start (c : Visitor V σ ε) (hnd : vs.Nodup)
    (hcl : ∀ u ∈ vs, ∀ v ∈ succ u, v ∈ vs) (ha : Acyclic vs succ) :
    ∃ w : Walk V, w.visited.Perm vs ∧ Topological vs succ w.visited ∧
      ∀ s, walk c succ vs.length (.start vs fun v => (vs.flatMap succ).count v) s =
        (w.visited.foldlM (visit c succ) s).map fun s => (w, s) := by
  obtain ⟨w, order, hs, hnil, hv, hrun⟩ :=
    walk_spec (c := c) hnd hcl (sound_start hnd) (Nat.le_add_right vs.length _)
  obtain rfl : w.visited = order := hv
  exact ⟨w, hs.perm hnil hnd ha, hs.topological, hrun⟩

omit [DecidableEq V] in
/-- An invariant kept at every vertex, in an order that puts it after all that lead to it. -/
theorem foldlM_topological {f : σ → V → Except ε σ} {I : List V → σ → Prop}
    {order : List V} (hnd : order.Nodup) (ht : Topological vs succ order)
    (step : ∀ pre d s, d ∈ order → d ∉ pre → Topological vs succ pre →
      (∀ u, Edge vs succ u d → u ∈ pre) → I pre s →
      ∃ s', f s d = .ok s' ∧ I (pre ++ [d]) s') (hi : I [] s) :
    ∃ s', order.foldlM f s = .ok s' ∧ I order s' := by
  refine foldlM_prefix (fun pre d post s he hi => ?_) hi
  have hn : d ∉ pre := by
    rw [he] at hnd
    exact fun hm => List.disjoint_of_nodup_append hnd hm (by simp)
  have hpre : Topological vs succ pre := by
    rintro a e b rfl u hu
    exact ht a e (b ++ d :: post) (by simp [he]) u hu
  exact step pre d s (by simp [he]) hn hpre (ht pre d post he) hi

end Walking

end Kahn
