import Mathlib.Data.List.Range
import Daliuge.Unroll.LeafEdges

/-!
# A Scatter that runs a Gather's width at a time

A link from a Gather to the start of a group chains the inputs of each Gather drop to the next
window of targets. The loops over a window are those of the source; what they compute is a window
of consecutive targets with the inputs in turn.
-/
namespace Daliuge.Unroll

open Collect

/-- `for drop in chainable`, left at the end of the window. -/
def chainRound (targets : List Drop) (stop : Int) :
    List Drop → Int → Except Err (List (Drop × Drop) × Int)
  | [], start => .ok ([], start)
  | drop :: chainable, start =>
    if start ≥ stop then .ok ([], start)
    else do
      let target ← item targets start.toNat
      let rest ← chainRound targets stop chainable (start + 1)
      return ((drop, target) :: rest.1, rest.2)

/-- `while start < end`; the fuel bounds the number of rounds. -/
def chainRounds (targets chainable : List Drop) (stop : Int) :
    Nat → Int → Except Err (List (Drop × Drop))
  | 0, _ => .error .nonTermination
  | fuel + 1, start =>
    if start < stop then do
      let round ← chainRound targets stop chainable start
      let rest ← chainRounds targets chainable stop fuel round.2
      return round.1 ++ rest
    else .ok []

/-- `resolve_sequential_edges`, for one Gather drop. -/
def chainWindow (lg : LG) (gather target : LGNode) (targets : List Drop) (fuel : Nat)
    (gatherInputs : List (Option Drop)) (index : Nat) : Except Err (List (Drop × Drop)) := do
  let chainable := gatherInputs.filterMap id
  if chainable.isEmpty then return []
  else
    let width ← gather.node.gatherWidth
    let dop ← groupDop lg target
    let start := ((index : Int) + 1) * width
    if start ≥ targets.length then return []
    else if start ≥ dop ∧ dop = 0 then .error .zeroDivision
    else if start ≥ dop ∧ start % dop = 0 then return []
    else
      let stop := min (min (((index : Int) + 2) * width) (dop * ((index : Int) + 1))) targets.length
      chainRounds targets chainable stop fuel start

/-- `resolve_sequential_edges`. -/
def resolveSequentialEdges (lg : LG) (gather target : LGNode) (targets : List Drop) (fuel : Nat)
    (inputs : List (List (Option Drop))) : Except Err (List (Drop × Drop)) :=
  collect (fun (gatherInputs, index) =>
    chainWindow lg gather target targets fuel gatherInputs index) inputs.zipIdx

variable {targets chainable : List Drop} {start stop fuel w d n : Nat} {c t : Nat → Drop}

/-- One round pairs the inputs with consecutive targets, as far as both reach. -/
theorem chainRound_eq (ht : ∀ j < stop, targets[j]? = some (t j))
    (hc : ∀ k x, chainable[k]? = some x → c k = x) :
    chainRound targets stop chainable start =
      .ok ((List.range (min chainable.length (stop - start))).map fun k => (c k, t (start + k)),
        ((start + min chainable.length (stop - start) : Nat) : Int)) := by
  induction chainable generalizing start c with
  | nil => simp [chainRound]
  | cons drop chainable ih =>
    rw [chainRound]
    by_cases hstop : (start : Int) ≥ stop
    · have h0 : stop - start = 0 := by omega
      simp [hstop, h0]
    · have hlt : start < stop := by omega
      have hitem : item targets ((start : Int).toNat) = .ok (t start) := by
        simp [item, ht start hlt]
      have hrest : chainRound targets stop chainable ((start : Int) + 1) = _ :=
        ih (fun k x hk => hc (k + 1) x hk)
      have hmin : min (drop :: chainable).length (stop - start) =
          min chainable.length (stop - (start + 1)) + 1 := by
        simp only [List.length_cons]
        omega
      have hdrop : c 0 = drop := hc 0 drop rfl
      rw [if_neg hstop, hitem, ok_bind, hrest, ok_bind, hmin, List.range_succ_eq_map]
      simp only [pure, Except.pure, List.map_cons, List.map_map, Nat.add_zero, hdrop,
        Function.comp_def]
      congr 3
      · refine List.map_congr_left fun k _ => ?_
        rw [Nat.add_right_comm, Nat.add_assoc]
      · omega

/-- The rounds end, and use the inputs in turn until the window is full. -/
theorem chainRounds_eq (ht : ∀ j < stop, targets[j]? = some (t j))
    (hc : ∀ k, chainable[k % chainable.length]? = some (c k)) (hf : stop - start < fuel) :
    chainRounds targets chainable stop fuel start =
      .ok ((List.range (stop - start)).map fun k => (c k, t (start + k))) := by
  induction fuel generalizing start with
  | zero => omega
  | succ fuel ih =>
    rw [chainRounds]
    by_cases hlt : (start : Int) < stop
    · have hpos : 0 < chainable.length := by
        have := (List.getElem?_eq_some_iff.mp (hc 0)).1
        omega
      have hfirst : ∀ k x, chainable[k]? = some x → c k = x := by
        intro k x hk
        have hkl := (List.getElem?_eq_some_iff.mp hk).1
        have hat := hc k
        rw [Nat.mod_eq_of_lt hkl, hk] at hat
        exact (Option.some.inj hat).symm
      have hrest : chainRounds targets chainable stop fuel
          ((start + min chainable.length (stop - start) : Nat) : Int) = _ := ih (by omega)
      rw [if_pos hlt, chainRound_eq ht hfirst, ok_bind, hrest, ok_bind]
      refine congrArg Except.ok ?_
      by_cases hfull : chainable.length ≤ stop - start
      · -- a full round, after which the inputs start again
        have hsplit : stop - start = chainable.length + (stop - (start + chainable.length)) := by
          omega
        rw [Nat.min_eq_left hfull]
        conv_rhs => rw [hsplit, List.range_add]
        rw [List.map_append, List.map_map]
        refine congrArg _ (List.map_congr_left fun k _ => ?_)
        have hturn : c (chainable.length + k) = c k := by
          have hat := hc (chainable.length + k)
          rw [Nat.add_mod_left, hc k] at hat
          exact (Option.some.inj hat).symm
        simp only [Function.comp_apply, hturn, Nat.add_assoc]
      · have hlast : stop - (start + (stop - start)) = 0 := by omega
        rw [Nat.min_eq_right (by omega), hlast]
        simp
    · have h0 : stop - start = 0 := by omega
      rw [if_neg hlt, h0]
      rfl

/-! The windows. -/

/-- Where the window of the i-th Gather drop starts and ends: it is empty past the last target and
at the first target of an outer iteration. -/
def windowEnds (w d n i : Nat) : Nat × Nat :=
  if n ≤ (i + 1) * w ∨ d ≤ (i + 1) * w ∧ (i + 1) * w % d = 0 then ((i + 1) * w, (i + 1) * w)
  else ((i + 1) * w, min (min ((i + 2) * w) (d * (i + 1))) n)

theorem windowEnds_fst (w d n i : Nat) : (windowEnds w d n i).1 = (i + 1) * w := by
  unfold windowEnds
  split <;> rfl

theorem windowEnds_snd_le (w d n i : Nat) : (windowEnds w d n i).2 ≤ (i + 2) * w := by
  unfold windowEnds
  split
  · exact Nat.mul_le_mul_right w (by omega)
  · simp only
    omega

theorem lt_of_window {j i : Nat} (h : (windowEnds w d n i).1 ≤ j)
    (h' : j < (windowEnds w d n i).2) : j < n := by
  unfold windowEnds at h h'
  split at h'
  · rename_i hc
    rw [if_pos hc] at h
    simp only at h h'
    omega
  · simp only at h'
    omega

/-- Windows of different Gather drops have no target in common. -/
theorem window_unique {i i' j : Nat} (h : (windowEnds w d n i).1 ≤ j)
    (h' : j < (windowEnds w d n i).2) (hi : (windowEnds w d n i').1 ≤ j)
    (hi' : j < (windowEnds w d n i').2) : i = i' := by
  have hs := windowEnds_snd_le w d n i
  have hs' := windowEnds_snd_le w d n i'
  rw [windowEnds_fst] at h hi
  have hlt : i < i' + 1 := by
    have : (i + 1) * w < (i' + 2) * w := by omega
    have := Nat.lt_of_mul_lt_mul_right this
    omega
  have hgt : i' < i + 1 := by
    have : (i' + 1) * w < (i + 2) * w := by omega
    have := Nat.lt_of_mul_lt_mul_right this
    omega
  omega

/-- In every outer iteration all but the first targets, as many as the Gather is wide, are in a
window. -/
theorem exists_window {b r : Nat} (hw : 0 < w) (hr : r < d) (hwr : w ≤ r) (hn : b * d + r < n) :
    ∃ i, (i + 2) * w < n + w ∧ (windowEnds w d n i).1 ≤ b * d + r ∧
      b * d + r < (windowEnds w d n i).2 := by
  have hdiv := Nat.div_add_mod (b * d + r) w
  have hmod := Nat.mod_lt (b * d + r) hw
  -- the target lies at least one window after the start of its iteration
  have hq : b + 1 ≤ (b * d + r) / w := by
    rw [Nat.le_div_iff_mul_le hw]
    have : b * w ≤ b * d := Nat.mul_le_mul_left b (by omega)
    have := Nat.add_mul b 1 w
    omega
  obtain ⟨i, hi⟩ : ∃ i, (b * d + r) / w = i + 1 := ⟨(b * d + r) / w - 1, by omega⟩
  rw [hi, Nat.mul_comm] at hdiv
  have h2 : (i + 2) * w = (i + 1) * w + w := by rw [Nat.add_mul, Nat.add_mul]; omega
  refine ⟨i, by omega, ?_⟩
  have hskip : ¬ (n ≤ (i + 1) * w ∨ d ≤ (i + 1) * w ∧ (i + 1) * w % d = 0) := by
    rintro (h | ⟨-, h⟩)
    · omega
    · obtain ⟨c, hc⟩ := Nat.dvd_of_mod_eq_zero h
      have hcb : c < b + 1 := by
        have : d * c < d * (b + 1) := by
          rw [Nat.mul_add, Nat.mul_comm d b]
          omega
        exact Nat.lt_of_mul_lt_mul_left this
      have : d * c ≤ d * b := Nat.mul_le_mul_left d (by omega)
      rw [Nat.mul_comm d b] at this
      omega
  unfold windowEnds
  rw [if_neg hskip]
  have hcut : b * d + r < d * (i + 1) := by
    have : d * (b + 1) ≤ d * (i + 1) := Nat.mul_le_mul_left d (by omega)
    rw [Nat.mul_add, Nat.mul_comm d b] at this
    omega
  constructor
  · simp only
    omega
  · simp only
    omega

/-! The edges, with the positions of their targets. -/

/-- The inputs in turn, with the positions of the targets they are chained to. -/
def windowPlan (chainable : List Drop) (ends : Nat × Nat) : List (Drop × Nat) :=
  (List.range (ends.2 - ends.1)).filterMap fun k =>
    chainable[k % chainable.length]?.map (·, ends.1 + k)

/-- The pairs of a plan. -/
def edgesAt (targets : List Drop) (plan : List (Drop × Nat)) : List (Drop × Drop) :=
  plan.filterMap fun e => targets[e.2]?.map (e.1, ·)

theorem exists_turns (h : chainable ≠ []) :
    ∃ c : Nat → Drop, ∀ k, chainable[k % chainable.length]? = some (c k) := by
  have hpos : 0 < chainable.length := List.length_pos_iff.mpr h
  exact ⟨fun k => chainable.get ⟨k % chainable.length, Nat.mod_lt k hpos⟩,
    fun k => List.getElem?_eq_getElem _⟩

theorem windowPlan_eq (hc : ∀ k, chainable[k % chainable.length]? = some (c k)) (ends : Nat × Nat) :
    windowPlan chainable ends =
      (List.range (ends.2 - ends.1)).map fun k => (c k, ends.1 + k) := by
  rw [windowPlan, ← List.filterMap_eq_map]
  refine List.filterMap_congr fun k _ => ?_
  rw [hc k]
  rfl

theorem snd_windowPlan (h : chainable ≠ []) (ends : Nat × Nat) :
    (windowPlan chainable ends).map Prod.snd =
      (List.range (ends.2 - ends.1)).map (ends.1 + ·) := by
  obtain ⟨c, hc⟩ := exists_turns h
  rw [windowPlan_eq hc, List.map_map]
  rfl

theorem mem_snd_windowPlan (h : chainable ≠ []) {ends : Nat × Nat} {j : Nat} :
    j ∈ (windowPlan chainable ends).map Prod.snd ↔ ends.1 ≤ j ∧ j < ends.2 := by
  rw [snd_windowPlan h, List.mem_map]
  constructor
  · rintro ⟨k, hk, rfl⟩
    have := List.mem_range.mp hk
    omega
  · rintro ⟨hl, hu⟩
    exact ⟨j - ends.1, List.mem_range.mpr (by omega), by omega⟩

theorem edgesAt_windowPlan (hc : ∀ k, chainable[k % chainable.length]? = some (c k))
    (ht : ∀ j < targets.length, targets[j]? = some (t j)) {ends : Nat × Nat}
    (h : ends.2 ≤ targets.length) : edgesAt targets (windowPlan chainable ends) =
      (List.range (ends.2 - ends.1)).map fun k => (c k, t (ends.1 + k)) := by
  rw [windowPlan_eq hc, edgesAt, List.filterMap_map, ← List.filterMap_eq_map]
  refine List.filterMap_congr fun k hk => ?_
  have hlt := List.mem_range.mp hk
  simp only [Function.comp_apply]
  rw [ht _ (by omega)]
  rfl

theorem windowStop_cast (index w d n : Nat) :
    min (min (((index : Int) + 2) * (w : Int)) ((d : Int) * ((index : Int) + 1))) (n : Int) =
      ((min (min ((index + 2) * w) (d * (index + 1))) n : Nat) : Int) := by
  have hwidth : ((index : Int) + 2) * (w : Int) = (((index + 2) * w : Nat) : Int) := by
    push_cast
    rfl
  have hdop : (d : Int) * ((index : Int) + 1) = ((d * (index + 1) : Nat) : Int) := by
    push_cast
    rfl
  rw [hwidth, hdop]
  omega

/-- The loops over one window compute the plan for it. -/
theorem chainWindow_eq {lg : LG} {gather target : LGNode} {gatherInputs : List (Option Drop)}
    {index : Nat} (hw : gather.node.gatherWidth = .ok (w : Int))
    (hd : groupDop lg target = .ok (d : Int)) (hd0 : 1 ≤ d)
    (hc : gatherInputs.filterMap id ≠ []) (hf : targets.length < fuel) :
    chainWindow lg gather target targets fuel gatherInputs index =
      .ok (edgesAt targets (windowPlan (gatherInputs.filterMap id)
        (windowEnds w d targets.length index))) := by
  obtain ⟨c, hturn⟩ := exists_turns hc
  have ht : ∀ j < targets.length, targets[j]? = some (targets.getD j (c 0)) := by
    intro j hj
    simp [List.getElem?_eq_getElem hj]
  have hstart : ((index : Int) + 1) * (w : Int) = (((index + 1) * w : Nat) : Int) := by
    push_cast
    rfl
  have hempty : (gatherInputs.filterMap id).isEmpty = false := by simpa using hc
  rw [chainWindow, hempty]
  simp only [Bool.false_eq_true, if_false, hw, hd, ok_bind, hstart]
  by_cases h1 : targets.length ≤ (index + 1) * w
  · have hint : (((index + 1) * w : Nat) : Int) ≥ (targets.length : Int) := by omega
    rw [if_pos hint, windowEnds, if_pos (Or.inl h1)]
    simp [windowPlan, edgesAt, pure, Except.pure]
  have hint1 : ¬ (((index + 1) * w : Nat) : Int) ≥ (targets.length : Int) := by omega
  have hzero : ¬ ((((index + 1) * w : Nat) : Int) ≥ (d : Int) ∧ (d : Int) = 0) := by omega
  rw [if_neg hint1, if_neg hzero]
  have hskip : ((((index + 1) * w : Nat) : Int) ≥ (d : Int) ∧
      (((index + 1) * w : Nat) : Int) % (d : Int) = 0) ↔
      (d ≤ (index + 1) * w ∧ (index + 1) * w % d = 0) := by omega
  by_cases h2 : d ≤ (index + 1) * w ∧ (index + 1) * w % d = 0
  · rw [if_pos (hskip.mpr h2), windowEnds, if_pos (Or.inr h2)]
    simp [windowPlan, edgesAt, pure, Except.pure]
  rw [if_neg (fun h => h2 (hskip.mp h)), windowEnds, if_neg (by tauto)]
  rw [windowStop_cast, chainRounds_eq (fun j hj => ht j (by omega)) hturn (by omega),
    edgesAt_windowPlan hturn ht (Nat.min_le_right _ _)]

theorem zipIdx_range (n : Nat) : (List.range n).zipIdx = (List.range n).map fun k => (k, k) := by
  refine List.ext_getElem? fun k => ?_
  rw [List.getElem?_zipIdx, List.getElem?_map]
  by_cases hk : k < n
  · rw [List.getElem?_range hk]
    simp
  · rw [List.getElem?_eq_none (by simp; omega)]
    rfl

/-- A window taken out of the target list is the plan for it. -/
theorem window_eq (hc : chainable ≠ []) {first last : Nat} (h : last ≤ targets.length) :
    window chainable targets first last = edgesAt targets (windowPlan chainable (first, last)) := by
  obtain ⟨c, hturn⟩ := exists_turns hc
  have ht : ∀ j < targets.length, targets[j]? = some (targets.getD j (c 0)) := by
    intro j hj
    simp [List.getElem?_eq_getElem hj]
  have hpart : (targets.take last).drop first =
      (List.range (last - first)).map fun k => targets.getD (first + k) (c 0) := by
    refine List.ext_getElem? fun k => ?_
    rw [List.getElem?_drop, List.getElem?_map]
    by_cases hk : k < last - first
    · rw [List.getElem?_take_of_lt (by omega), ht _ (by omega), List.getElem?_range hk]
      rfl
    · rw [List.getElem?_eq_none (by simp; omega), List.getElem?_eq_none (by simp; omega)]
      rfl
  rw [edgesAt_windowPlan hturn ht h, window, hpart, List.zipIdx_map, List.filterMap_map,
    zipIdx_range, List.filterMap_map, ← List.filterMap_eq_map]
  refine List.filterMap_congr fun k hk => ?_
  simp only [Function.comp_apply, Prod.map_apply, id_eq, hturn k, Option.map_some]

theorem sequentialEdges_eq_chainWindow {lg : LG} {gather target : LGNode}
    {gatherInputs : List (Option Drop)}
    {index : Nat} (hw : gather.node.gatherWidth = .ok (w : Int))
    (hd : groupDop lg target = .ok (d : Int)) (hd0 : 1 ≤ d) (hf : targets.length < fuel) :
    sequentialEdges lg gather target targets index gatherInputs =
      chainWindow lg gather target targets fuel gatherInputs index := by
  rw [sequentialEdges, chainWindow]
  by_cases hc : gatherInputs.filterMap id = []
  · rw [hc]
    rfl
  obtain ⟨c, hturn⟩ := exists_turns hc
  have hempty : (gatherInputs.filterMap id).isEmpty = false := by simpa using hc
  have ht : ∀ j < targets.length, targets[j]? = some (targets.getD j (c 0)) := by
    intro j hj
    simp [List.getElem?_eq_getElem hj]
  simp only [hempty, Bool.false_eq_true, if_false, hw, hd, ok_bind]
  by_cases h1 : ((index : Int) + 1) * (w : Int) ≥ targets.length
  · rw [if_pos h1, if_pos h1]
  rw [if_neg h1, if_neg h1]
  by_cases h2 : ((index : Int) + 1) * (w : Int) ≥ d ∧ (d : Int) = 0
  · omega
  rw [if_neg h2, if_neg h2]
  by_cases h3 : ((index : Int) + 1) * (w : Int) ≥ d ∧ ((index : Int) + 1) * (w : Int) % d = 0
  · rw [if_pos h3, if_pos h3]
  rw [if_neg h3, if_neg h3]
  obtain ⟨start, hstart⟩ : ∃ start : Nat, ((index : Int) + 1) * (w : Int) = start :=
    ⟨(index + 1) * w, by push_cast; rfl⟩
  rw [windowStop_cast, hstart, chainRounds_eq (fun j hj => ht j (by omega)) hturn (by omega),
    Int.toNat_natCast, Int.toNat_natCast, window_eq hc (by omega),
    edgesAt_windowPlan hturn ht (by simp only; omega)]
  rfl

/-- The loops compute the edges that wiring chains. -/
theorem chainedEdges_eq_resolve {lg : LG} {gather target : LGNode}
    {sources : List (List GatherSource)}
    (hw : gather.node.gatherWidth = .ok (w : Int)) (hd : groupDop lg target = .ok (d : Int))
    (hd0 : 1 ≤ d) (hf : targets.length < fuel) :
    chainedEdges lg gather target targets sources =
      resolveSequentialEdges lg gather target targets fuel (sources.map fun ss =>
        ss.map fun s => if s.node.isConstruct .gather then none else some s.drop) := by
  rw [resolveSequentialEdges, List.zipIdx_map, collect_map, chainedEdges]
  refine collect_congr fun p _ => ?_
  obtain ⟨ss, index⟩ := p
  exact sequentialEdges_eq_chainWindow hw hd hd0 hf

/-- The plan of all Gather drops. -/
def sequentialPlan (w d n : Nat) (inputs : List (List (Option Drop))) : List (List (Drop × Nat)) :=
  inputs.zipIdx.map fun p => windowPlan (p.1.filterMap id) (windowEnds w d n p.2)

theorem getElem?_sequentialPlan {inputs : List (List (Option Drop))} {i : Nat} :
    (sequentialPlan w d n inputs)[i]? =
      inputs[i]?.map fun l => windowPlan (l.filterMap id) (windowEnds w d n i) := by
  rw [sequentialPlan, List.getElem?_map, List.getElem?_zipIdx, Option.map_map]
  simp [Function.comp_def]

theorem mem_sequentialPlan {inputs : List (List (Option Drop))} {j : Nat}
    (hc : ∀ l ∈ inputs, l.filterMap id ≠ []) :
    j ∈ (sequentialPlan w d n inputs).flatten.map Prod.snd ↔
      ∃ i < inputs.length, (windowEnds w d n i).1 ≤ j ∧ j < (windowEnds w d n i).2 := by
  rw [List.map_flatten, List.mem_flatten]
  constructor
  · rintro ⟨js, hjs, hj⟩
    obtain ⟨es, hes, rfl⟩ := List.mem_map.mp hjs
    obtain ⟨⟨l, i⟩, hl, rfl⟩ := List.mem_map.mp hes
    have hat := List.mem_zipIdx_iff_getElem?.mp hl
    have hlt := (List.getElem?_eq_some_iff.mp hat).1
    exact ⟨i, hlt, (mem_snd_windowPlan (hc l (List.mem_of_getElem? hat))).mp hj⟩
  · rintro ⟨i, hi, hj⟩
    have hat := List.getElem?_eq_getElem hi
    refine ⟨_, List.mem_map.mpr ⟨_, List.mem_map.mpr ⟨(inputs[i], i), ?_, rfl⟩, rfl⟩,
      (mem_snd_windowPlan (hc _ (List.getElem_mem hi))).mpr hj⟩
    exact List.mem_zipIdx_iff_getElem?.mpr hat

theorem nodup_sequentialPlan {inputs : List (List (Option Drop))}
    (hc : ∀ l ∈ inputs, l.filterMap id ≠ []) :
    ((sequentialPlan w d n inputs).flatten.map Prod.snd).Nodup := by
  rw [List.map_flatten, List.nodup_flatten]
  constructor
  · intro js hjs
    obtain ⟨es, hes, rfl⟩ := List.mem_map.mp hjs
    obtain ⟨⟨l, i⟩, hl, rfl⟩ := List.mem_map.mp hes
    have hat := List.mem_zipIdx_iff_getElem?.mp hl
    rw [snd_windowPlan (hc l (List.mem_of_getElem? hat))]
    exact List.nodup_range.map fun a b h => by simpa using h
  · rw [List.pairwise_map, sequentialPlan, List.pairwise_map, List.pairwise_iff_getElem]
    intro i i' hi hi' hlt j hj hj'
    simp only [List.getElem_zipIdx, Nat.zero_add] at hj hj'
    rw [List.length_zipIdx] at hi hi'
    obtain ⟨hl, hu⟩ := (mem_snd_windowPlan (hc _ (List.getElem_mem hi))).mp hj
    obtain ⟨hl', hu'⟩ := (mem_snd_windowPlan (hc _ (List.getElem_mem hi'))).mp hj'
    have := window_unique hl hu hl' hu'
    omega

/-- Chaining the inputs of the Gather drops to windows of targets bounds the parallelism of the
Scatter: the loops end, every target waits for at most one input and only for inputs of earlier
windows, and in each outer iteration at most as many targets as the Gather is wide wait for none. -/
theorem sequential_bounds {lg : LG} {gather target : LGNode}
    {inputs : List (List (Option Drop))} {k : Nat} (hw : gather.node.gatherWidth = .ok (w : Int))
    (hd : groupDop lg target = .ok (d : Int)) (hw0 : 1 ≤ w) (hd0 : 1 ≤ d)
    (hn : targets.length = d * k) (hi : inputs.length = (targets.length + w - 1) / w)
    (hc : ∀ l ∈ inputs, l.filterMap id ≠ []) (hf : targets.length < fuel) :
    ∃ plan : List (List (Drop × Nat)), plan.length = inputs.length ∧
      resolveSequentialEdges lg gather target targets fuel inputs =
        .ok (edgesAt targets plan.flatten) ∧
      (∀ i es, plan[i]? = some es → ∀ e ∈ es, (∃ l, inputs[i]? = some l ∧ some e.1 ∈ l) ∧
        (i + 1) * w ≤ e.2 ∧ e.2 < targets.length) ∧
      (plan.flatten.map Prod.snd).Nodup ∧
      ∀ b < k, ((List.range d).filter fun r =>
        decide (b * d + r ∉ plan.flatten.map Prod.snd)).length ≤ w := by
  refine ⟨sequentialPlan w d targets.length inputs, ?_, ?_, ?_, nodup_sequentialPlan hc, ?_⟩
  · rw [sequentialPlan, List.length_map, List.length_zipIdx]
  · have hall : ∀ p ∈ inputs.zipIdx, (fun (gatherInputs, index) =>
        chainWindow lg gather target targets fuel gatherInputs index) p =
        .ok (edgesAt targets (windowPlan (p.1.filterMap id)
          (windowEnds w d targets.length p.2))) := by
      rintro ⟨l, i⟩ hl
      have hat := List.mem_zipIdx_iff_getElem?.mp hl
      exact chainWindow_eq hw hd hd0 (hc l (List.mem_of_getElem? hat)) hf
    rw [resolveSequentialEdges, collect_eq_flatMap hall, sequentialPlan, edgesAt,
      List.filterMap_flatten, List.map_map, List.flatMap_def]
    rfl
  · intro i es hes e he
    rw [getElem?_sequentialPlan] at hes
    obtain ⟨l, hl, rfl⟩ := Option.map_eq_some_iff.mp hes
    have hne := hc l (List.mem_of_getElem? hl)
    obtain ⟨hlow, hup⟩ := (mem_snd_windowPlan hne).mp (List.mem_map_of_mem he)
    refine ⟨⟨l, hl, ?_⟩, ?_, lt_of_window hlow hup⟩
    · obtain ⟨m, -, hm⟩ := List.mem_filterMap.mp he
      obtain ⟨a, ha, rfl⟩ := Option.map_eq_some_iff.mp hm
      simpa using List.mem_of_getElem? ha
    · rwa [windowEnds_fst] at hlow
  · intro b hb
    have hsub : ∀ r ∈ (List.range d).filter fun r =>
        decide (b * d + r ∉ (sequentialPlan w d targets.length inputs).flatten.map Prod.snd),
        r ∈ List.range w := by
      intro r hr
      obtain ⟨hrd, hout⟩ := List.mem_filter.mp hr
      have hrd := List.mem_range.mp hrd
      by_contra hrw
      have hwr : w ≤ r := by simpa using hrw
      have hlt : b * d + r < targets.length := by
        have : d * (b + 1) ≤ d * k := Nat.mul_le_mul_left d hb
        rw [Nat.mul_add, Nat.mul_comm d b] at this
        omega
      obtain ⟨i, him, hlow, hup⟩ := exists_window hw0 hrd hwr hlt
      have hin : i < inputs.length := by
        have h1 : (i + 1) * w ≤ targets.length + w - 1 := by
          have h2 : (i + 2) * w = (i + 1) * w + w := by rw [Nat.add_mul, Nat.add_mul]; omega
          omega
        have := (Nat.le_div_iff_mul_le hw0).mpr h1
        omega
      exact of_decide_eq_true hout ((mem_sequentialPlan hc).mpr ⟨i, hin, hlow, hup⟩)
    have hnodup := (List.nodup_range (n := d)).filter fun r =>
      decide (b * d + r ∉ (sequentialPlan w d targets.length inputs).flatten.map Prod.snd)
    simpa using (List.subperm_of_subset hnodup hsub).length_le

/-- A Gather of width two that leads to the start of a Scatter of three. -/
def gatherOfTwo : LGNode :=
  ⟨{ id := .int 1, category := .gather, categoryType := .construct, isGroup := true
     keys := [("num_of_inputs", .int 2)] }, []⟩

def startOfThree : LGNode :=
  ⟨{ id := .int 3, category := .pythonApp, categoryType := .application },
    [{ id := .int 2, category := .scatter, categoryType := .construct, isGroup := true
       keys := [("num_of_copies", .int 3)] }]⟩

def numberedDrop (i : Nat) : Drop :=
  mainDrop scatteredLG startOfThree (InstanceId.root.child i) none (some 1)

theorem sequential_six : ∃ plan : List (List (Drop × Nat)), plan.length = 3 ∧
    resolveSequentialEdges scatteredLG gatherOfTwo startOfThree ((List.range 6).map numberedDrop) 7
      ((List.range 3).map fun i => [none, some (numberedDrop i)]) =
        .ok (edgesAt ((List.range 6).map numberedDrop) plan.flatten) ∧
    (∀ i es, plan[i]? = some es → ∀ e ∈ es, (i + 1) * 2 ≤ e.2 ∧ e.2 < 6) ∧
    (plan.flatten.map Prod.snd).Nodup ∧
    ∀ b < 2, ((List.range 3).filter fun r =>
      decide (b * 3 + r ∉ plan.flatten.map Prod.snd)).length ≤ 2 := by
  have hc : ∀ l ∈ (List.range 3).map fun i => [none, some (numberedDrop i)],
      l.filterMap id ≠ [] := by
    intro l hl
    obtain ⟨i, -, rfl⟩ := List.mem_map.mp hl
    simp
  have hw : gatherOfTwo.node.gatherWidth = .ok ((2 : Nat) : Int) := by decide
  have hd : groupDop scatteredLG startOfThree = .ok ((3 : Nat) : Int) := by decide
  have hn : ((List.range 6).map numberedDrop).length = 3 * 2 := by decide
  obtain ⟨plan, hl, h, hwin, hnodup, hbound⟩ := sequential_bounds hw hd (by decide) (by decide) hn
    (by simp) hc (show ((List.range 6).map numberedDrop).length < 7 by simp)
  exact ⟨plan, by simpa using hl, h,
    fun i es hes e he => by simpa using (hwin i es hes e he).2, hnodup, hbound⟩

end Daliuge.Unroll
