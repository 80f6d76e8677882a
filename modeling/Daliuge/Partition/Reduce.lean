import Daliuge.Partition.Dense

/-!
# The second phase

Whether the `while` loop of `reduce_partitions` ends, and what it does to the dictionary and to
the number `partition_dag` reports.
-/
namespace Daliuge.Partition

open Collect

section Ends

variable {V : Type} [DecidableEq V] {P : Problem V} {width : Digraph V → (V → Nat) → Nat}
  {s s' : State V} {uv : Option (V × V)}

/-- The loop over the parts leaves the list alone and finds an index in it. -/
theorem renumber_parts {xs : List (Nat × Nat)} {r : Nat} {c c' : State V × Option Nat}
    (h : xs.foldlM (State.renumber r) c = .ok c') : c'.1.parts = c.1.parts ∧
      (c'.2 = c.2 ∨ ∃ x ∈ xs, c'.2 = some x.2) := by
  induction xs generalizing c with
  | nil =>
    obtain rfl : c = c' := by simpa [pure, Except.pure] using h
    exact ⟨rfl, Or.inl rfl⟩
  | cons x xs ih =>
    rw [List.foldlM_cons] at h
    obtain ⟨d, hd, hrest⟩ := bind_ok.mp h
    obtain ⟨hp, hi⟩ := ih hrest
    have hstep : d.1.parts = c.1.parts ∧ (d.2 = c.2 ∨ d.2 = some x.2) := by
      unfold State.renumber at hd
      split at hd
      · obtain rfl := Except.ok.inj hd
        exact ⟨rfl, Or.inl rfl⟩
      · split at hd
        · obtain ⟨k, -, hret⟩ := bind_ok.mp hd
          obtain rfl := pure_ok.mp hret
          exact ⟨rfl, Or.inr rfl⟩
        · obtain rfl := Except.ok.inj hd
          exact ⟨rfl, Or.inl rfl⟩
    refine ⟨hp.trans hstep.1, ?_⟩
    rcases hi with hi | ⟨y, hy, hi⟩
    · rcases hstep.2 with hd | hd
      · exact Or.inl (hi.trans hd)
      · exact Or.inr ⟨x, by simp, hi.trans hd⟩
    · exact Or.inr ⟨y, by simp [hy], hi⟩

/-- In whatever state, a merge takes one part out of the list and a refusal changes nothing. -/
theorem mergeTwoParts_length {ugid vgid : Nat} {part : Option Nat}
    (h : P.mergeTwoParts width ugid vgid uv s = .ok (part, s')) :
    (part = none ∧ s' = s) ∨ (part ≠ none ∧ s'.parts.length + 1 = s.parts.length) := by
  unfold Problem.mergeTwoParts at h
  obtain ⟨new, -, h⟩ := bind_ok.mp h
  obtain ⟨removed, -, h⟩ := bind_ok.mp h
  cases hc : P.canMerge width (s.heap new) (s.heap removed) uv with
  | none =>
    simp only [hc, pure, Except.pure, Except.ok.injEq, Prod.mk.injEq] at h
    exact Or.inl ⟨h.1.symm, h.2.symm⟩
  | some tmp =>
    simp only [hc] at h
    obtain ⟨t, ht, hret⟩ := bind_ok.mp h
    simp only [pure, Except.pure, Except.ok.injEq, Prod.mk.injEq] at hret
    obtain ⟨rfl, rfl⟩ := hret
    refine Or.inr ⟨by simp, ?_⟩
    unfold State.mergeInto at ht
    obtain ⟨⟨u, index⟩, hu, hret⟩ := bind_ok.mp ht
    obtain ⟨hp, hi⟩ := renumber_parts hu
    cases index with
    | none => simp at hret
    | some i =>
      simp only [pure, Except.pure, Except.ok.injEq] at hret
      obtain rfl := hret
      have hparts : u.parts = s.parts := hp
      have hlt : i < s.parts.length := by
        rcases hi with hi | ⟨x, hx, hi⟩
        · simp at hi
        · obtain rfl : i = x.2 := by simpa using hi
          have hlt := List.snd_lt_of_mem_zipIdx hx
          simpa [State.absorb, State.stamp] using hlt
      simp only [hparts, List.length_eraseIdx, hlt, if_true]
      omega

variable (P width) in
/-- One turn at an index inside the list: it ends, raises, goes on to the next index with nothing
changed, or begins anew with one part less. -/
theorem reduceStep_inside {i : Nat} (hi : i < s.parts.length) :
    (∃ r, P.reduceLoop width 1 i s = some r) ∨
    (i + 1 < s.parts.length ∧ P.reduceStep width i s = .ok (.next (i + 1) s)) ∨
    ∃ s', P.reduceStep width i s = .ok (.next 0 s') ∧ s'.parts.length + 1 = s.parts.length := by
  cases hst : P.reduceStep width i s with
  | error e => exact Or.inl ⟨.error e, by simp [Problem.reduceLoop, hst]⟩
  | ok turn =>
    cases turn with
    | done t => exact Or.inl ⟨.ok t, by simp [Problem.reduceLoop, hst]⟩
    | next j t =>
      refine Or.inr ?_
      unfold Problem.reduceStep at hst
      rw [List.getElem?_eq_getElem hi] at hst
      cases hj : s.parts[i + 1]? with
      | none => simp [hj] at hst
      | some b =>
        have hlt := (List.getElem?_eq_some_iff.mp hj).1
        simp only [hj] at hst
        obtain ⟨⟨part, u⟩, hcall, hret⟩ := bind_ok.mp hst
        rcases mergeTwoParts_length hcall with ⟨rfl, rfl⟩ | ⟨hp, hlen⟩
        · simp only [pure, Except.pure, Except.ok.injEq, Turn.next.injEq] at hret
          obtain ⟨rfl, rfl⟩ := hret
          exact Or.inl ⟨hlt, rfl⟩
        · obtain ⟨p, rfl⟩ := Option.ne_none_iff_exists'.mp hp
          simp only [pure, Except.pure, Except.ok.injEq, Turn.next.injEq] at hret
          obtain ⟨rfl, rfl⟩ := hret
          exact Or.inr ⟨u, rfl, hlen⟩

variable (P width) in
/-- From an index inside the list the loop comes to an end: the turns up to the next merge go up
in the list, and a merge makes it shorter. -/
theorem reduceLoop_ends {n : Nat} : ∀ {s : State V} {i : Nat}, s.parts.length = n →
    i < s.parts.length → ∃ fuel r, P.reduceLoop width fuel i s = some r := by
  induction n using Nat.strong_induction_on with
  | _ n ih =>
    intro s i hn hi
    obtain ⟨k, hk⟩ : ∃ k, s.parts.length - i = k := ⟨_, rfl⟩
    induction k generalizing i with
    | zero => omega
    | succ k ihk =>
      rcases reduceStep_inside P width hi with hend | ⟨hlt, hst⟩ |
        ⟨t, hst, hlen⟩
      · exact ⟨1, hend⟩
      · obtain ⟨fuel, r, hr⟩ := ihk hlt (by omega)
        exact ⟨fuel + 1, r, by simp [Problem.reduceLoop, hst, hr]⟩
      · have hpos : 0 < t.parts.length := by
          by_contra h0
          have hone : s.parts.length = 1 := by omega
          have hi0 : i = 0 := by omega
          unfold Problem.reduceStep at hst
          have hnone : s.parts[i + 1]? = none := List.getElem?_eq_none (by omega)
          rw [List.getElem?_eq_getElem hi, hnone] at hst
          simp at hst
        obtain ⟨fuel, r, hr⟩ := ih t.parts.length (by omega) rfl hpos
        exact ⟨fuel + 1, r, by simp [Problem.reduceLoop, hst, hr]⟩

/-- The `while` loop of `reduce_partitions` ends exactly when there are parts. -/
theorem reduceLoop_ends_iff :
    (∃ fuel r, P.reduceLoop width fuel 0 s = some r) ↔ s.parts ≠ [] := by
  constructor
  · rintro ⟨fuel, r, h⟩ hnil
    have hstep : P.reduceStep width 0 s = .ok (.next 0 s) := by
      simp [Problem.reduceStep, hnil]
    induction fuel with
    | zero => simp [Problem.reduceLoop] at h
    | succ fuel ih =>
      rw [Problem.reduceLoop, hstep] at h
      exact ih h
  · intro h
    exact reduceLoop_ends _ _ rfl (List.length_pos_iff.mpr h)

/-- Without parts it goes round for ever. -/
theorem empty_never_ends : ¬ ∀ (P : Problem Nat) (width : Digraph Nat → (Nat → Nat) → Nat)
    (s : State Nat), ∃ fuel r, P.reduceLoop width fuel 0 s = some r := by
  intro h
  have hend := h { dag := {}, dropCount := 0, maxDop := .number 1 } (fun _ _ => 0)
    (Problem.blank { dag := {}, dropCount := 0, maxDop := .number 1 })
  obtain ⟨fuel, r, hr⟩ := hend
  induction fuel with
  | zero => simp [Problem.reduceLoop] at hr
  | succ fuel ih => exact ih hr

end Ends

/-! The dictionary and the count. -/

section Table

variable {V : Type} [DecidableEq V] {P : Problem V} {width : Digraph V → (V → Nat) → Nat}
  {s s₀ t : State V} {i : Nat}

/-- Two parts, one after the other in the list, that may be merged. -/
def Mergeable (P : Problem V) (width : Digraph V → (V → Nat) → Nat) (s : State V) (i : Nat) :
    Prop :=
  ∃ a b new removed, s.parts[i]? = some a ∧ s.parts[i + 1]? = some b ∧
    ((new = a ∧ removed = b) ∨ (new = b ∧ removed = a)) ∧ s.idOf new < s.idOf removed ∧
    P.canMerge width (s.heap new) (s.heap removed) none ≠ none

/-- The counter stays as it is in the second phase. -/
theorem reducing_stGid (hd : Dense P s₀) (hl : Looks s₀) (h : Reducing P width s₀ i s) :
    s.stGid = s₀.stGid := by
  induction h with
  | start => rfl
  | turn hr ht ih =>
    obtain ⟨hd, hl⟩ := reducing_dense hd hl hr
    rcases reduceStep_cases hd hl ht with rfl |
      ⟨a, b, new, removed, pre, post, tmp, -, -, -, -, -, -, -, hm⟩
    · exact ih
    · exact hm.stGid.trans ih

/-- Where no neighbours may be merged the second phase changes nothing. -/
theorem reducing_same (hd : Dense P s₀) (hl : Looks s₀) (hm : ∀ i, ¬ Mergeable P width s₀ i)
    (h : Reducing P width s₀ i s) : s = s₀ := by
  induction h with
  | start => rfl
  | @turn i i' s s' hr ht ih =>
    subst ih
    rcases reduceStep_cases hd hl ht with rfl |
      ⟨a, b, new, removed, pre, post, tmp, ha, hb, hwho, -, -, hlt, hc, -⟩
    · rfl
    · exact absurd ⟨a, b, new, removed, ha, hb, hwho, hlt, by simp [hc]⟩ (hm i)

/-- A refusal: the two parts may not be merged. -/
theorem not_mergeable_of_refused (ht : TableRight s) {a b : Nat} (ha : s.parts[i]? = some a)
    (hb : s.parts[i + 1]? = some b)
    (h : P.mergeTwoParts width (s.idOf a) (s.idOf b) none s = .ok (none, t)) :
    ¬ Mergeable P width s i := by
  rintro ⟨a', b', new, removed, ha', hb', hwho, hlt, hc⟩
  obtain rfl := Option.some.inj (ha.symm.trans ha')
  obtain rfl := Option.some.inj (hb.symm.trans hb')
  have hta := ht a (List.mem_of_getElem? ha)
  have htb := ht b (List.mem_of_getElem? hb)
  obtain ⟨tmp, htmp⟩ := Option.ne_none_iff_exists'.mp hc
  unfold Problem.mergeTwoParts at h
  rcases hwho with ⟨rfl, rfl⟩ | ⟨rfl, rfl⟩
  · rw [min_eq_left hlt.le, max_eq_right hlt.le, hta, htb, look, ok_bind, look, ok_bind,
      htmp] at h
    obtain ⟨u, -, hret⟩ := bind_ok.mp h
    simp [pure, Except.pure] at hret
  · rw [min_eq_right hlt.le, max_eq_left hlt.le, hta, htb, look, ok_bind, look, ok_bind,
      htmp] at h
    obtain ⟨u, -, hret⟩ := bind_ok.mp h
    simp [pure, Except.pure] at hret

/-- With the dictionary in order the loop raises nothing, and where two neighbours may be merged
it ends with fewer parts than it began with. -/
theorem reduceLoop_fewer (hd : Dense P s₀) (hl : Looks s₀)
    (ht : ∀ i s, Reducing P width s₀ i s → TableRight s) {fuel : Nat}
    {r : Except Err (State V)} (hr : Reducing P width s₀ i s)
    (h : P.reduceLoop width fuel i s = some r) :
    ∃ t, r = .ok t ∧ t.parts.length ≤ s.parts.length ∧
      ((∃ j, i ≤ j ∧ Mergeable P width s j) → t.parts.length < s.parts.length) := by
  induction fuel generalizing i s with
  | zero => simp [Problem.reduceLoop] at h
  | succ fuel ih =>
    obtain ⟨hds, hls⟩ := reducing_dense hd hl hr
    unfold Problem.reduceLoop at h
    cases hi : s.parts[i]? with
    | none =>
      have hst : P.reduceStep width i s = .ok (.next 0 s) := by simp [Problem.reduceStep, hi]
      rw [hst] at h
      obtain ⟨t, rfl, hle, hlt⟩ := ih (hr.turn hst) h
      refine ⟨t, rfl, hle, ?_⟩
      rintro ⟨j, -, hm⟩
      exact hlt ⟨j, Nat.zero_le j, hm⟩
    | some a =>
      cases hj : s.parts[i + 1]? with
      | none =>
        have hst : P.reduceStep width i s = .ok (.done s) := by
          simp [Problem.reduceStep, hi, hj]
        rw [hst] at h
        obtain rfl := Option.some.inj h
        refine ⟨s, rfl, le_rfl, ?_⟩
        rintro ⟨j, hij, a', b', _, _, -, hb', -⟩
        have h1 := (List.getElem?_eq_some_iff.mp hb').1
        have h2 := List.getElem?_eq_none_iff.mp hj
        omega
      | some b =>
        have hab : a ≠ b := by
          rintro rfl
          have hlt := (List.getElem?_eq_some_iff.mp hj).1
          have := (List.getElem?_inj (by omega) hds.nodup).mp (hi.trans hj.symm)
          omega
        obtain ⟨part, u, hcall⟩ := mergeTwoParts_ok P width none hds
          (ht i s hr) (List.mem_of_getElem? hi) (List.mem_of_getElem? hj) hab
        cases part with
        | none =>
          obtain rfl : u = s := by
            rcases mergeTwoParts_length hcall with ⟨-, he⟩ | ⟨hne, -⟩
            · exact he
            · exact absurd rfl hne
          have hst : P.reduceStep width i u = .ok (.next (i + 1) u) := by
            simp [Problem.reduceStep, hi, hj, hcall, ok_bind, pure, Except.pure]
          rw [hst] at h
          obtain ⟨t, rfl, hle, hlt⟩ := ih (hr.turn hst) h
          refine ⟨t, rfl, hle, ?_⟩
          rintro ⟨j, hij, hm⟩
          refine hlt ⟨j, ?_, hm⟩
          have hne : j ≠ i := by
            rintro rfl
            exact not_mergeable_of_refused (ht j u hr) hi hj hcall hm
          omega
        | some p =>
          have hlen : u.parts.length + 1 = s.parts.length := by
            rcases mergeTwoParts_length hcall with ⟨he, -⟩ | ⟨-, hlen⟩
            · simp at he
            · exact hlen
          have hst : P.reduceStep width i s = .ok (.next 0 u) := by
            simp [Problem.reduceStep, hi, hj, hcall, ok_bind, pure, Except.pure]
          rw [hst] at h
          obtain ⟨t, rfl, hle, -⟩ := ih (hr.turn hst) h
          exact ⟨t, rfl, by omega, fun _ => by omega⟩

end Table

section Count

variable {V : Type} [LinearOrder V] {P : Problem V} {width : Digraph V → (V → Nat) → Nat}
  {topoSorted : List V}

/-- The dictionary has every part under its id between any two merges, and as many parts are
reported as returned. -/
def TableAndCountRight (P : Problem V) (width : Digraph V → (V → Nat) → Nat)
    (topoSorted : List V) : Prop :=
  (∀ s, Visited P width s → TableRight s) ∧ ∀ fuel n lpl t,
    P.partitionDag width topoSorted fuel = some (.ok (n, lpl, t)) → n = t.parts.length

/-- Where every edge has a weight the default one does not matter. -/
theorem getLongestPath_default {G : Digraph V} {W : Weights V} {c d : Nat}
    (h : ∀ u v, W.edge u v ≠ none) (order : List V) :
    getLongestPath G W c order = getLongestPath G W d order := by
  have hdist : distNode G W c = distNode G W d := by
    funext dist v
    have hedge : ∀ u, (W.edge u v).getD c = (W.edge u v).getD d := by
      intro u
      obtain ⟨w, hw⟩ := Option.ne_none_iff_exists'.mp (h u v)
      rw [hw, Option.getD_some, Option.getD_some]
    simp only [distNode, hedge]
  simp only [getLongestPath, hdist]

omit [LinearOrder V] in
/-- In the second phase nothing but the list has been sorted at first. -/
theorem sortParts_listed {s₁ s₂ : State V} (hl : Listed P s₁) (hs : P.sortParts s₁ = .ok s₂) :
    Dense P s₂ ∧ TableRight s₂ ∧ s₂.stGid = P.dropCount + 1 + s₂.parts.length := by
  obtain ⟨parts, hp, rfl⟩ := sortParts_cases hs
  refine ⟨hl.dense.perm hp, fun ref hm => hl.table ref (hp.mem_iff.mp hm), ?_⟩
  change s₁.stGid = _ + parts.length
  rw [hl.count, hp.length_eq]

/-- A graph without nodes has no parts. -/
theorem zeroEdges_empty (hG : P.dag.Dag) (hne : P.dag.nodes = []) :
    P.zeroEdges width = .ok P.blank := by
  have he : P.dag.edges = [] := by
    refine List.eq_nil_iff_forall_not_mem.mpr fun e hm => ?_
    have hu := (hG.closed e.1 e.2 hm).1
    rw [hne] at hu
    exact absurd hu (by simp)
  simp [Problem.zeroEdges, Problem.sortedEdges, Problem.singles, he, hne]
  rfl

/-- The dictionary and the count are right exactly when no neighbours may be merged as the second
phase begins. -/
theorem tableAndCountRight_iff (hG : P.dag.Dag) (ho : P.dag.TopologicalSort topoSorted) :
    TableAndCountRight P width topoSorted ↔ ∀ s₁ s₂, P.zeroEdges width = .ok s₁ →
      P.sortParts s₁ = .ok s₂ → ∀ i, ¬ Mergeable P width s₂ i := by
  have hcl : ∀ e ∈ P.dag.edges, e.1 ∈ P.dag.nodes ∧ e.2 ∈ P.dag.nodes :=
    fun e he => hG.closed e.1 e.2 he
  obtain ⟨s₁, hz, hl⟩ := zeroEdges_listed width hG.nodup hcl
  constructor
  · rintro ⟨htable, hcount⟩ s₁' s₂ hz' hs i hmerge
    obtain rfl := Except.ok.inj (hz.symm.trans hz')
    obtain ⟨hd, ht, hst⟩ := sortParts_listed hl hs
    have hne : P.dag.nodes ≠ [] := by
      intro hnil
      obtain rfl := Except.ok.inj (hz.symm.trans (zeroEdges_empty hG hnil))
      obtain ⟨parts, hp, rfl⟩ := sortParts_cases hs
      obtain ⟨a, b, _, _, ha, -⟩ := hmerge
      have hm := hp.mem_iff.mp (List.mem_of_getElem? ha)
      simp [Problem.blank] at hm
    have hpos : 0 < s₂.parts.length := by
      obtain ⟨a, b, _, _, ha, -⟩ := hmerge
      exact List.length_pos_of_mem (List.mem_of_getElem? ha)
    -- the loop ends, with fewer parts and the same counter
    obtain ⟨fuel, r, hr⟩ := reduceLoop_ends P width rfl hpos
    obtain ⟨t, rfl, -, hlt⟩ := reduceLoop_fewer hd ht.looks
      (fun i s h => htable s (Or.inr ⟨s₁, s₂, i, hz, hs, h⟩)) .start hr
    have hfew := hlt ⟨i, Nat.zero_le i, hmerge⟩
    obtain ⟨j, hj⟩ := reducing_of_reduceLoop .start hr
    have hsame := reducing_stGid hd ht.looks hj
    obtain ⟨stt, edt, -, -, htimed, -⟩ := labelSchedule_ok (W := P.weightsOf t) hG ho
    obtain ⟨v, -, path, hpath, -⟩ := getLongestPath_ok htimed hG hne ho
    rw [getLongestPath_default (d := 1) (by simp [Problem.weightsOf])] at hpath
    have hrun : P.partitionDag width topoSorted fuel = some (.ok
        (t.stGid - (P.dropCount + 1), stt v + tail P.dag (P.weightsOf t) v, t)) := by
      simp only [Problem.partitionDag, Problem.reducePartitions, hz, hs, hr, hpath, ok_bind]
      rfl
    have heq := hcount fuel _ _ t hrun
    omega
  · intro hnone
    have hsecond : ∀ s₂ i s, P.sortParts s₁ = .ok s₂ → Reducing P width s₂ i s → s = s₂ := by
      intro s₂ i s hs hr
      obtain ⟨hd, ht, -⟩ := sortParts_listed hl hs
      exact reducing_same hd ht.looks (hnone s₁ s₂ hz hs) hr
    constructor
    · rintro s (⟨k, hk⟩ | ⟨s₁', s₂, i, hz', hs, hr⟩)
      · obtain ⟨s', hs', hl'⟩ := edges_listed width hG.nodup hcl k
        obtain rfl := Except.ok.inj (hs'.symm.trans hk)
        exact hl'.table
      · obtain rfl := Except.ok.inj (hz.symm.trans hz')
        obtain rfl := hsecond s₂ i s hs hr
        exact (sortParts_listed hl hs).2.1
    · intro fuel n lpl t hrun
      obtain ⟨s₁', s₂, -, hz', hs, hr, -, rfl⟩ := partitionDag_cases hrun
      obtain rfl := Except.ok.inj (hz.symm.trans hz')
      obtain ⟨j, hj⟩ := reducing_of_reduceLoop .start hr
      obtain rfl := hsecond s₂ j t hs hj
      have hst := (sortParts_listed hl hs).2.2
      omega

/-- Two nodes with an edge between them, and room for one node at a time. -/
def pair : Problem Nat where
  dag := { nodes := [1, 2], edges := [(1, 2)] }
  edgeWeight _ _ := 3
  dropCount := 2
  maxDop := .number 1

/-- They are one part after the first phase, which leaves nothing to the second. -/
theorem pair_tableAndCountRight : TableAndCountRight pair chains [1, 2] := by
  have hG : pair.dag.Dag := Digraph.dag_of_lt (by decide) (by decide) (by decide)
  have ho : pair.dag.TopologicalSort [1, 2] :=
    Digraph.topologicalSort_of_before (by decide) (by decide) (by decide)
  refine (tableAndCountRight_iff hG ho).mpr fun s₁ s₂ hz hs i hm => ?_
  have hone : (pair.zeroEdges chains).map (fun s => s.parts.length) = .ok 1 := by
    decide +kernel
  rw [hz] at hone
  have hlen : s₁.parts.length = 1 := Except.ok.inj hone
  obtain ⟨parts, hp, rfl⟩ := sortParts_cases hs
  obtain ⟨a, b, _, _, -, hb, -⟩ := hm
  have hlt := (List.getElem?_eq_some_iff.mp hb).1
  have hle : parts.length = 1 := hp.length_eq.trans hlen
  change i + 1 < parts.length at hlt
  omega

/-- Two nodes without an edge, and room for both. -/
def loners : Problem Nat where
  dag := { nodes := [1, 2] }
  dropCount := 2
  maxDop := .number 2

/-- They are merged in the second phase and still counted as two. -/
theorem loners_miscounted : ¬ ∀ (P : Problem Nat) (topoSorted : List Nat), P.dag.Dag →
    P.dag.TopologicalSort topoSorted → TableAndCountRight P chains topoSorted := by
  intro h
  have hG : loners.dag.Dag := Digraph.dag_of_lt (by decide) (by decide) (by decide)
  have ho : loners.dag.TopologicalSort [1, 2] :=
    Digraph.topologicalSort_of_before (by decide) (by decide) (by decide)
  have hrun : (loners.partitionDag chains [1, 2] 3).map
      (Except.map fun r => (r.1, r.2.2.parts.length)) = some (.ok (2, 1)) := by
    decide +kernel
  cases hp : loners.partitionDag chains [1, 2] 3 with
  | none => simp [hp] at hrun
  | some r =>
    cases r with
    | error e => simp [hp, Except.map] at hrun
    | ok r =>
      obtain ⟨n, lpl, t⟩ := r
      simp only [hp, Option.map_some, Except.map, Option.some.injEq, Except.ok.injEq,
        Prod.mk.injEq] at hrun
      have heq := (h loners [1, 2] hG ho).2 3 n lpl t hp
      omega

end Count

end Daliuge.Partition
