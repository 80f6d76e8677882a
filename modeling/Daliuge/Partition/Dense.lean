import Daliuge.Partition.Merging

/-!
# Ids of the parts

The parts divide the nodes among them, their ids are consecutive and every node knows the id of
its part, between any two merges. The dictionary is another matter: while the parts are listed by
their ids it has the right part under every id, afterwards an entry may be lost.
-/
namespace Daliuge.Partition

open Collect

section Parts

variable {V : Type} [DecidableEq V] {P : Problem V} {width : Digraph V → (V → Nat) → Nat}
  {s s' : State V} {a b ref : Nat} {v : V} {uv : Option (V × V)}

/-- The parts divide the nodes among them, under consecutive ids. -/
structure Dense (P : Problem V) (s : State V) : Prop where
  nodup : s.parts.Nodup
  ids : (s.parts.map s.idOf).Perm (List.range' (P.dropCount + 1) s.parts.length)
  cover : ∀ v ∈ P.dag.nodes, ∃ ref ∈ s.parts, v ∈ s.nodesOf ref
  apart : ∀ a ∈ s.parts, ∀ b ∈ s.parts, ∀ v ∈ s.nodesOf a, v ∈ s.nodesOf b → a = b
  nodes : ∀ ref ∈ s.parts, ∀ v ∈ s.nodesOf ref, v ∈ P.dag.nodes
  gid : ∀ ref ∈ s.parts, ∀ v ∈ s.nodesOf ref, s.gid v = some (s.idOf ref)

/-- No wrong part is found in the dictionary. -/
def Looks (s : State V) : Prop :=
  ∀ ref ∈ s.parts, s.partDict (s.idOf ref) = none ∨ s.partDict (s.idOf ref) = some ref

/-- The dictionary has every part under its id. -/
def TableRight (s : State V) : Prop := ∀ ref ∈ s.parts, s.partDict (s.idOf ref) = some ref

/-- The parts are listed by their ids, and have been counted. -/
structure Listed (P : Problem V) (s : State V) : Prop where
  dense : Dense P s
  order : s.parts.map s.idOf = List.range' (P.dropCount + 1) s.parts.length
  table : TableRight s
  count : s.stGid = P.dropCount + 1 + s.parts.length

omit [DecidableEq V] in
theorem Dense.idOf_inj (h : Dense P s) (ha : a ∈ s.parts) (hb : b ∈ s.parts)
    (he : s.idOf a = s.idOf b) : a = b :=
  List.inj_on_of_nodup_map (h.ids.nodup_iff.mpr (List.nodup_range')) ha hb he

omit [DecidableEq V] in
theorem Dense.separate (h : Dense P s) : Separate s where
  nodup := h.nodup
  ids _ ha _ hb := h.idOf_inj ha hb
  nodes := h.apart

omit [DecidableEq V] in
theorem Dense.idOf_mem (h : Dense P s) (ha : a ∈ s.parts) :
    P.dropCount + 1 ≤ s.idOf a ∧ s.idOf a < P.dropCount + 1 + s.parts.length := by
  have hm := h.ids.mem_iff.mp (List.mem_map_of_mem ha)
  simpa using List.mem_range'_1.mp hm

omit [DecidableEq V] in
theorem TableRight.looks (h : TableRight s) : Looks s := fun ref hm => Or.inr (h ref hm)

/-! The call. -/

/-- Everything a call of `_merge_two_parts` for two parts of the list can do. -/
theorem mergeTwoParts_cases (hd : Dense P s) (hl : Looks s) (ha : a ∈ s.parts)
    (hb : b ∈ s.parts) (hab : a ≠ b) {part : Option Nat}
    (h : P.mergeTwoParts width (s.idOf a) (s.idOf b) uv s = .ok (part, s')) :
    (part = none ∧ s' = s) ∨ ∃ new removed pre post tmp,
      ((new = a ∧ removed = b) ∨ (new = b ∧ removed = a)) ∧ part = some new ∧
      new ∈ s.parts ∧ removed ∈ s.parts ∧ s.idOf new < s.idOf removed ∧
      P.canMerge width (s.heap new) (s.heap removed) uv = some tmp ∧
      Merged new removed uv tmp pre post s s' := by
  obtain ⟨new, removed, hwho, hnew, hrem, hlt, hmin, hmax⟩ : ∃ new removed,
      ((new = a ∧ removed = b) ∨ (new = b ∧ removed = a)) ∧ new ∈ s.parts ∧
      removed ∈ s.parts ∧ s.idOf new < s.idOf removed ∧
      min (s.idOf a) (s.idOf b) = s.idOf new ∧ max (s.idOf a) (s.idOf b) = s.idOf removed := by
    have hne : s.idOf a ≠ s.idOf b := fun he => hab (hd.idOf_inj ha hb he)
    rcases Nat.lt_or_gt_of_ne hne with hlt | hlt
    · exact ⟨a, b, Or.inl ⟨rfl, rfl⟩, ha, hb, hlt, by omega, by omega⟩
    · exact ⟨b, a, Or.inr ⟨rfl, rfl⟩, hb, ha, hlt, by omega, by omega⟩
  rw [Problem.mergeTwoParts, hmin, hmax] at h
  rcases hl new hnew with hn | hn
  · simp [hn, look, bind, Except.bind] at h
  rcases hl removed hrem with hr | hr
  · simp [hn, hr, look, bind, Except.bind] at h
  rw [hn, hr, look, ok_bind, look, ok_bind] at h
  cases hc : P.canMerge width (s.heap new) (s.heap removed) uv with
  | none =>
    simp only [hc, pure, Except.pure, Except.ok.injEq, Prod.mk.injEq] at h
    exact Or.inl ⟨h.1.symm, h.2.symm⟩
  | some tmp =>
    obtain ⟨pre, post, t, hok, hm⟩ := mergeInto_ok uv tmp hd.separate hrem hlt (by simp [hr])
    simp only [hc, hok, ok_bind, pure, Except.pure, Except.ok.injEq, Prod.mk.injEq] at h
    obtain ⟨rfl, rfl⟩ := h
    exact Or.inr ⟨new, removed, pre, post, tmp, hwho, rfl, hnew, hrem, hlt, hc, hm⟩

variable (P width uv) in
/-- With the dictionary in order nothing is raised. -/
theorem mergeTwoParts_ok (hd : Dense P s) (ht : TableRight s) (ha : a ∈ s.parts)
    (hb : b ∈ s.parts) (hab : a ≠ b) :
    ∃ part s', P.mergeTwoParts width (s.idOf a) (s.idOf b) uv s = .ok (part, s') := by
  obtain ⟨new, removed, hnew, hrem, hlt, hmin, hmax⟩ : ∃ new removed, new ∈ s.parts ∧
      removed ∈ s.parts ∧ s.idOf new < s.idOf removed ∧
      min (s.idOf a) (s.idOf b) = s.idOf new ∧ max (s.idOf a) (s.idOf b) = s.idOf removed := by
    have hne : s.idOf a ≠ s.idOf b := fun he => hab (hd.idOf_inj ha hb he)
    rcases Nat.lt_or_gt_of_ne hne with hlt | hlt
    · exact ⟨a, b, ha, hb, hlt, by omega, by omega⟩
    · exact ⟨b, a, hb, ha, hlt, by omega, by omega⟩
  rw [Problem.mergeTwoParts, hmin, hmax, ht new hnew, ht removed hrem, look, ok_bind, look,
    ok_bind]
  cases hc : P.canMerge width (s.heap new) (s.heap removed) uv with
  | none => exact ⟨none, s, rfl⟩
  | some tmp =>
    obtain ⟨pre, post, t, hok, -⟩ := mergeInto_ok uv tmp hd.separate hrem hlt
      (by simp [ht removed hrem])
    exact ⟨some new, t, by simp only [hok, ok_bind]; rfl⟩

/-! What a merge keeps. -/

section Kept

variable {new removed : Nat} {tmp : String → Nat} {pre post : List Nat}

omit [DecidableEq V] in
theorem lowered_lt {r x : Nat} (h : r < x) : lowered r x = x - 1 := if_pos h

omit [DecidableEq V] in
theorem lowered_le {r x : Nat} (h : ¬ r < x) : lowered r x = x := if_neg h

theorem Merged.mem_parts (h : Merged new removed uv tmp pre post s s') (hs : s.parts.Nodup) :
    ref ∈ s'.parts ↔ ref ∈ s.parts ∧ ref ≠ removed := by
  have hnd := hs
  rw [h.before] at hnd
  have hpre : removed ∉ pre := fun hm => List.disjoint_of_nodup_append hnd hm (by simp)
  have hpost : removed ∉ post := (List.nodup_cons.mp (List.nodup_append.mp hnd).2.1).1
  rw [h.parts, h.before]
  simp only [List.mem_append, List.mem_cons]
  constructor
  · rintro (hm | hm)
    · exact ⟨Or.inl hm, fun he => hpre (he ▸ hm)⟩
    · exact ⟨Or.inr (Or.inr hm), fun he => hpost (he ▸ hm)⟩
  · rintro ⟨hm | hm | hm, hne⟩
    · exact Or.inl hm
    · exact absurd hm hne
    · exact Or.inr hm

theorem Merged.idOf (h : Merged new removed uv tmp pre post s s') (hm : ref ∈ s.parts) :
    s'.idOf ref = lowered (s.idOf removed) (s.idOf ref) := by
  rw [State.idOf, h.heap ref hm]

theorem Merged.nodesOf (h : Merged new removed uv tmp pre post s s') (hm : ref ∈ s.parts) :
    s'.nodesOf ref = if ref = new then ((s.heap new).joined (s.heap removed) uv).nodes
      else s.nodesOf ref := by
  rw [State.nodesOf, h.heap ref hm]
  split
  · rfl
  · rfl

theorem Merged.length (h : Merged new removed uv tmp pre post s s') :
    s'.parts.length + 1 = s.parts.length := by
  rw [h.parts, h.before]
  simp
  omega

/-- Merging keeps the parts apart and their ids consecutive. -/
theorem Merged.dense (h : Merged new removed uv tmp pre post s s') (hd : Dense P s)
    (hnew : new ∈ s.parts) (hrem : removed ∈ s.parts) (hlt : s.idOf new < s.idOf removed)
    (hj : ∀ v, v ∈ ((s.heap new).joined (s.heap removed) uv).nodes ↔
      v ∈ s.nodesOf new ∨ v ∈ s.nodesOf removed) : Dense P s' := by
  have hne : new ≠ removed := by
    rintro rfl
    exact lt_irrefl _ hlt
  have hmem : ∀ {ref}, ref ∈ s'.parts ↔ ref ∈ s.parts ∧ ref ≠ removed := h.mem_parts hd.nodup
  have hidne : ∀ ref ∈ s.parts, ref ≠ removed → s.idOf ref ≠ s.idOf removed :=
    fun ref hm hr he => hr (hd.idOf_inj hm hrem he)
  have hnod : s'.parts.Nodup := by
    have hnd := hd.nodup
    rw [h.before] at hnd
    rw [h.parts]
    exact hnd.sublist (List.Sublist.append_left (List.sublist_cons_self _ _) _)
  -- which old part a node of a new one comes from
  have hold : ∀ ref ∈ s.parts, ∀ v ∈ s'.nodesOf ref, v ∈ s.nodesOf ref ∨
      (ref = new ∧ v ∈ s.nodesOf removed) := by
    intro ref hm v hv
    rw [h.nodesOf hm] at hv
    split at hv
    · rename_i he
      subst he
      rcases (hj v).mp hv with hv | hv
      · exact Or.inl hv
      · exact Or.inr ⟨rfl, hv⟩
    · exact Or.inl hv
  constructor
  case nodup => exact hnod
  case ids =>
    have hrange : ∀ x ∈ s'.parts.map s'.idOf,
        x ∈ List.range' (P.dropCount + 1) s'.parts.length := by
      intro x hx
      obtain ⟨ref, hm, rfl⟩ := List.mem_map.mp hx
      obtain ⟨hm, hr⟩ := hmem.mp hm
      have h1 := hd.idOf_mem hm
      have h2 := hd.idOf_mem hrem
      have h3 := hidne ref hm hr
      have h4 := h.length
      rw [h.idOf hm, List.mem_range'_1]
      by_cases hlt' : s.idOf removed < s.idOf ref
      · rw [lowered_lt hlt']
        omega
      · rw [lowered_le hlt']
        omega
    have hinj : (s'.parts.map s'.idOf).Nodup := by
      refine List.Nodup.map_on (fun x hx y hy he => ?_) hnod
      obtain ⟨hx, hxr⟩ := hmem.mp hx
      obtain ⟨hy, hyr⟩ := hmem.mp hy
      rw [h.idOf hx, h.idOf hy] at he
      have h1 := hidne x hx hxr
      have h2 := hidne y hy hyr
      refine hd.idOf_inj hx hy ?_
      by_cases hx' : s.idOf removed < s.idOf x <;> by_cases hy' : s.idOf removed < s.idOf y <;>
        simp only [lowered, hx', hy', if_true, if_false] at he <;> omega
    refine (List.subperm_of_subset hinj hrange).perm_of_length_le ?_
    simp
  case cover =>
    intro v hv
    obtain ⟨ref, hm, hvr⟩ := hd.cover v hv
    by_cases hr : ref = removed
    · subst hr
      refine ⟨new, hmem.mpr ⟨hnew, hne⟩, ?_⟩
      rw [h.nodesOf hnew, if_pos rfl]
      exact (hj v).mpr (Or.inr hvr)
    · refine ⟨ref, hmem.mpr ⟨hm, hr⟩, ?_⟩
      rw [h.nodesOf hm]
      split
      · rename_i he
        subst he
        exact (hj v).mpr (Or.inl hvr)
      · exact hvr
  case apart =>
    intro x hx y hy v hvx hvy
    obtain ⟨hx, hxr⟩ := hmem.mp hx
    obtain ⟨hy, hyr⟩ := hmem.mp hy
    rcases hold x hx v hvx with hvx | ⟨rfl, hvx⟩ <;> rcases hold y hy v hvy with hvy | ⟨rfl, hvy⟩
    · exact hd.apart x hx y hy v hvx hvy
    · exact absurd (hd.apart x hx removed hrem v hvx hvy) hxr
    · exact absurd (hd.apart y hy removed hrem v hvy hvx) hyr
    · rfl
  case nodes =>
    intro ref hm v hv
    obtain ⟨hm, -⟩ := hmem.mp hm
    rcases hold ref hm v hv with hv | ⟨-, hv⟩
    · exact hd.nodes ref hm v hv
    · exact hd.nodes removed hrem v hv
  case gid =>
    intro ref hm v hv
    obtain ⟨hm, hr⟩ := hmem.mp hm
    rw [h.idOf hm]
    rcases hold ref hm v hv with hv | ⟨rfl, hv⟩
    · by_cases hlt' : s.idOf removed < s.idOf ref
      · rw [lowered_lt hlt']
        exact h.stamped ref hm hlt' v hv
      · rw [lowered_le hlt', h.unstamped v, hd.gid ref hm v hv]
        · exact fun hvr => hr (hd.apart ref hm removed hrem v hv hvr)
        · intro c hc hcl hvc
          rw [hd.apart c hc ref hm v hvc hv] at hcl
          exact hlt' hcl
    · rw [lowered_le (by omega)]
      exact h.taken v hv

/-- No wrong part gets into the dictionary. -/
theorem Merged.looks (h : Merged new removed uv tmp pre post s s') (hd : Dense P s)
    (hrem : removed ∈ s.parts) (hl : Looks s) : Looks s' := by
  intro ref hm
  obtain ⟨hm', hr⟩ := (h.mem_parts hd.nodup).mp hm
  have hne : s.idOf ref ≠ s.idOf removed := fun he => hr (hd.idOf_inj hm' hrem he)
  rw [h.idOf hm']
  by_cases hlt : s.idOf removed < s.idOf ref
  · rw [lowered_lt hlt]
    rw [h.parts] at hm
    rcases List.mem_append.mp hm with hp | hp
    · rw [h.entryPre ref hp hlt]
      split
      · exact Or.inl rfl
      · exact Or.inr rfl
    · exact Or.inr (h.entryPost ref hp hlt)
  · rw [lowered_le hlt, h.below _ (by omega)]
    exact hl ref hm'

/-- While the parts are listed by their ids the dictionary stays in order. -/
theorem Merged.listed (h : Merged new removed uv tmp pre post s s') (hs : Listed P s)
    (hd' : Dense P s') :
    Listed P { s' with stGid := s'.stGid - 1 } := by
  have hd := hs.dense
  have horder := hs.order
  have hlen := h.length
  -- where the removed part stands in the list its id stands in the range
  have hsplit : pre.map s.idOf = List.range' (P.dropCount + 1) pre.length ∧
      s.idOf removed = P.dropCount + 1 + pre.length ∧
      post.map s.idOf = List.range' (P.dropCount + 1 + pre.length + 1) post.length := by
    rw [h.before, List.map_append, List.length_append, List.range'_append_1.symm] at horder
    have hl : (pre.map s.idOf).length = (List.range' (P.dropCount + 1) pre.length).length := by
      simp
    obtain ⟨h1, h2⟩ := List.append_inj horder hl
    rw [List.map_cons, List.length_cons, List.range'_succ, List.cons.injEq] at h2
    exact ⟨h1, h2.1, h2.2⟩
  obtain ⟨hpre, hr, hpost⟩ := hsplit
  have hmp : ∀ ref ∈ pre, ref ∈ s.parts := fun ref hm => by simp [h.before, hm]
  have hmq : ∀ ref ∈ post, ref ∈ s.parts := fun ref hm => by simp [h.before, hm]
  have hlow : ∀ ref ∈ pre, ¬ s.idOf removed < s.idOf ref := by
    intro ref hm
    have hmem : s.idOf ref ∈ pre.map s.idOf := List.mem_map_of_mem hm
    rw [hpre, List.mem_range'_1] at hmem
    omega
  have hup : ∀ ref ∈ post, s.idOf removed < s.idOf ref := by
    intro ref hm
    have hmem : s.idOf ref ∈ post.map s.idOf := List.mem_map_of_mem hm
    rw [hpost, List.mem_range'_1] at hmem
    omega
  have hstay : pre.map s'.idOf = pre.map s.idOf := by
    refine List.map_congr_left fun ref hm => ?_
    rw [h.idOf (hmp ref hm), lowered_le (hlow ref hm)]
  have hdown : post.map s'.idOf = (post.map s.idOf).map (· - 1) := by
    rw [List.map_map]
    refine List.map_congr_left fun ref hm => ?_
    rw [h.idOf (hmq ref hm), lowered_lt (hup ref hm)]
    rfl
  have hshift : ∀ (k n : Nat), (List.range' (k + 1) n).map (· - 1) = List.range' k n := by
    intro k n
    rw [List.range'_succ_left, List.map_map]
    exact (List.map_congr_left fun x _ => by simp).trans (List.map_id _)
  refine ⟨⟨hd'.nodup, hd'.ids, hd'.cover, hd'.apart, hd'.nodes, hd'.gid⟩, ?_, ?_, ?_⟩
  · change s'.parts.map s'.idOf = List.range' _ s'.parts.length
    rw [h.parts, List.map_append, hstay, hdown, hpre, hpost, hshift, List.length_append,
      List.range'_append_1]
  · intro ref hm
    change s'.partDict (s'.idOf ref) = some ref
    have hm : ref ∈ pre ++ post := h.parts ▸ hm
    rcases List.mem_append.mp hm with hp | hp
    · have hne : s.idOf ref ≠ s.idOf removed := by
        have hmem : s.idOf ref ∈ pre.map s.idOf := List.mem_map_of_mem hp
        rw [hpre, List.mem_range'_1] at hmem
        omega
      have := hlow ref hp
      rw [h.idOf (hmp ref hp), lowered_le (hlow ref hp), h.below _ (by omega)]
      exact hs.table ref (hmp ref hp)
    · rw [h.idOf (hmq ref hp), lowered_lt (hup ref hp)]
      exact h.entryPost ref hp (hup ref hp)
  · change s'.stGid - 1 = P.dropCount + 1 + s'.parts.length
    rw [h.stGid, hs.count]
    omega

end Kept

/-! The phases of `partition_dag`. -/

/-- Each of the nodes so far in a part of its own. -/
structure Single (P : Problem V) (ns : List V) (s : State V) : Prop where
  parts : s.parts = List.range' (P.dropCount + 1) ns.length
  count : s.stGid = P.dropCount + 1 + ns.length
  part : ∀ i v, ns[i]? = some v → s.idOf (P.dropCount + 1 + i) = P.dropCount + 1 + i ∧
    s.nodesOf (P.dropCount + 1 + i) = [v] ∧
    s.partDict (P.dropCount + 1 + i) = some (P.dropCount + 1 + i) ∧
    s.gid v = some (P.dropCount + 1 + i)

/-- A part for one more node. -/
theorem Single.place {ns : List V} {n : V} (h : Single P ns s) (hn : n ∉ ns) :
    Single P (ns ++ [n]) (P.place width s n) := by
  constructor
  case parts =>
    change s.parts ++ [s.stGid] = _
    rw [h.parts, h.count, List.length_append, List.length_singleton, List.range'_concat]
    simp
  case count =>
    change s.stGid + 1 = _
    rw [h.count, List.length_append, List.length_singleton]
    omega
  case part =>
    intro i v hv
    rcases Nat.lt_or_ge i ns.length with hi | hi
    · rw [List.getElem?_append_left hi] at hv
      obtain ⟨h1, h2, h3, h4⟩ := h.part i v hv
      have hne : P.dropCount + 1 + i ≠ s.stGid := by
        rw [h.count]
        omega
      have hnv : v ≠ n := fun he => hn (he ▸ List.mem_of_getElem? hv)
      simp only [Problem.place, State.idOf, State.nodesOf, ne_eq, hne, hnv, not_false_eq_true,
        Function.update_of_ne]
      exact ⟨h1, h2, h3, h4⟩
    · rw [List.getElem?_append_right hi] at hv
      have hi' : i = ns.length := by
        by_contra hne
        rw [List.getElem?_eq_none (by simp; omega)] at hv
        simp at hv
      subst hi'
      obtain rfl : n = v := by simpa using hv
      rw [← h.count]
      simp [Problem.place, State.idOf, State.nodesOf, Problem.single, Digraph.addNode]

theorem singles_single (hnd : P.dag.nodes.Nodup) : Single P P.dag.nodes (P.singles width) := by
  suffices hgen : ∀ (post pre : List V) (s : State V), P.dag.nodes = pre ++ post →
      Single P pre s → Single P P.dag.nodes (post.foldl (P.place width) s) by
    refine hgen P.dag.nodes [] P.blank rfl ?_
    constructor <;> simp [Problem.blank]
  intro post
  induction post with
  | nil =>
    intro pre s he h
    rw [he, List.append_nil]
    exact h
  | cons n post ih =>
    intro pre s he h
    have hn : n ∉ pre := by
      rw [he] at hnd
      exact fun hm => List.disjoint_of_nodup_append hnd hm (by simp)
    exact ih (pre ++ [n]) _ (by simp [he]) (h.place hn)

omit [DecidableEq V] in
theorem Single.listed (h : Single P P.dag.nodes s) : Listed P s := by
  have hlen : s.parts.length = P.dag.nodes.length := by simp [h.parts]
  -- the part of a reference
  have hpart : ∀ ref ∈ s.parts, ∃ v ∈ P.dag.nodes, s.idOf ref = ref ∧ s.nodesOf ref = [v] ∧
      s.partDict ref = some ref ∧ s.gid v = some ref := by
    intro ref hm
    rw [h.parts, List.mem_range'_1] at hm
    obtain ⟨i, rfl⟩ := Nat.exists_eq_add_of_le hm.1
    have hi : i < P.dag.nodes.length := by omega
    obtain ⟨h1, h2, h3, h4⟩ := h.part i P.dag.nodes[i] (List.getElem?_eq_getElem hi)
    exact ⟨_, List.getElem_mem hi, h1, h2, h3, h4⟩
  have hids : s.parts.map s.idOf = s.parts :=
    (List.map_congr_left fun ref hm => (hpart ref hm).choose_spec.2.1).trans (List.map_id _)
  have horder : s.parts.map s.idOf = List.range' (P.dropCount + 1) s.parts.length := by
    rw [hids, hlen]
    exact h.parts
  refine ⟨?_, horder, ?_, ?_⟩
  · constructor
    case nodup =>
      rw [h.parts]
      exact List.nodup_range'
    case ids => exact .of_eq horder
    case cover =>
      intro v hv
      obtain ⟨i, hi, rfl⟩ := List.getElem_of_mem hv
      refine ⟨P.dropCount + 1 + i, ?_, ?_⟩
      · rw [h.parts, List.mem_range'_1]
        omega
      · rw [(h.part i _ (List.getElem?_eq_getElem hi)).2.1]
        simp
    case apart =>
      intro a ha b hb v hva hvb
      obtain ⟨x, -, -, hx, -, hgx⟩ := hpart a ha
      obtain ⟨y, -, -, hy, -, hgy⟩ := hpart b hb
      obtain rfl : v = x := by simpa [hx] using hva
      obtain rfl : v = y := by simpa [hy] using hvb
      exact Option.some.inj (hgx.symm.trans hgy)
    case nodes =>
      intro ref hm v hv
      obtain ⟨x, hx, -, hn, -⟩ := hpart ref hm
      obtain rfl : v = x := by simpa [hn] using hv
      exact hx
    case gid =>
      intro ref hm v hv
      obtain ⟨x, -, hi, hn, -, hg⟩ := hpart ref hm
      obtain rfl : v = x := by simpa [hn] using hv
      rw [hg, hi]
  · intro ref hm
    obtain ⟨x, -, hi, -, ht, -⟩ := hpart ref hm
    rw [hi, ht]
  · rw [h.count, hlen]

/-- The nodes of two parts joined along an edge between them are theirs. -/
theorem mem_joined {p that : KFamilyPartition V}
    (h : ∀ u v, uv = some (u, v) → (u ∈ p.dag.nodes ∨ u ∈ that.dag.nodes) ∧
      (v ∈ p.dag.nodes ∨ v ∈ that.dag.nodes)) :
    v ∈ (p.joined that uv).nodes ↔ v ∈ p.dag.nodes ∨ v ∈ that.dag.nodes := by
  unfold KFamilyPartition.joined
  cases uv with
  | none => exact Digraph.mem_compose
  | some e =>
    obtain ⟨x, y⟩ := e
    obtain ⟨hx, hy⟩ := h x y rfl
    rw [Digraph.mem_addEdge, Digraph.mem_compose]
    constructor
    · rintro (hv | rfl | rfl)
      · exact hv
      · exact hx
      · exact hy
    · exact Or.inl

omit [DecidableEq V] in
/-- Nothing in it is about the weights or the rejected edges. -/
theorem Listed.congr (h : Listed P s) (hh : s'.heap = s.heap) (hd : s'.partDict = s.partDict)
    (hp : s'.parts = s.parts) (hg : s'.gid = s.gid) (hc : s'.stGid = s.stGid) : Listed P s' := by
  have hid : s'.idOf = s.idOf := by
    funext ref
    rw [State.idOf, hh]
    rfl
  have hno : s'.nodesOf = s.nodesOf := by
    funext ref
    rw [State.nodesOf, hh]
    rfl
  obtain ⟨hdense, horder, htable, hcount⟩ := h
  refine ⟨⟨?_, ?_, ?_, ?_, ?_, ?_⟩, ?_, ?_, ?_⟩
  · rw [hp]
    exact hdense.nodup
  · rw [hp, hid]
    exact hdense.ids
  · rw [hp, hno]
    exact hdense.cover
  · rw [hp, hno]
    exact hdense.apart
  · rw [hp, hno]
    exact hdense.nodes
  · rw [hp, hno, hg, hid]
    exact hdense.gid
  · rw [hp, hid]
    exact horder
  · intro ref hm
    rw [hp] at hm
    rw [hd, hid]
    exact htable ref hm
  · rw [hc, hp]
    exact hcount

variable (width) in
/-- Everything an edge can bring about: the parts stay as they are, or those at its ends are
merged and the counter goes down. -/
theorem zeroEdge_cases {e : V × V} (h : Listed P s)
    (he : e.1 ∈ P.dag.nodes ∧ e.2 ∈ P.dag.nodes) : ∃ s', P.zeroEdge width s e = .ok s' ∧
      ((s'.heap = s.heap ∧ s'.partDict = s.partDict ∧ s'.parts = s.parts ∧ s'.gid = s.gid ∧
        s'.stGid = s.stGid) ∨
      ∃ new removed pre post tmp t, new ∈ s.parts ∧ removed ∈ s.parts ∧
        s.idOf new < s.idOf removed ∧
        P.canMerge width (s.heap new) (s.heap removed) (some e) = some tmp ∧
        (∀ v, v = e.1 ∨ v = e.2 → v ∈ s.nodesOf new ∨ v ∈ s.nodesOf removed) ∧
        Merged new removed (some e) tmp pre post (s.setEdge e 0) t ∧
        s' = { t with stGid := t.stGid - 1 }) := by
  obtain ⟨a, ha, hua⟩ := h.dense.cover e.1 he.1
  obtain ⟨b, hb, hvb⟩ := h.dense.cover e.2 he.2
  have hs₀ : Listed P (s.setEdge e 0) := h.congr rfl rfl rfl rfl rfl
  have hgu : (s.setEdge e 0).gid e.1 = some (s.idOf a) := h.dense.gid a ha e.1 hua
  have hgv : (s.setEdge e 0).gid e.2 = some (s.idOf b) := h.dense.gid b hb e.2 hvb
  unfold Problem.zeroEdge
  simp only [hgu, hgv]
  by_cases hid : s.idOf a = s.idOf b
  · exact ⟨_, if_pos hid, Or.inl ⟨rfl, rfl, rfl, rfl, rfl⟩⟩
  · have hab : a ≠ b := by
      rintro rfl
      exact hid rfl
    obtain ⟨part, t, hok⟩ := mergeTwoParts_ok P width (some e)
      (s := s.setEdge e 0) hs₀.dense hs₀.table ha hb hab
    have hcall : P.mergeTwoParts width (s.idOf a) (s.idOf b) (some e) (s.setEdge e 0) =
        .ok (part, t) := hok
    rw [if_neg hid, hcall, ok_bind]
    rcases mergeTwoParts_cases hs₀.dense hs₀.table.looks ha hb hab hok with ⟨rfl, rfl⟩ |
      ⟨new, removed, pre, post, tmp, hwho, rfl, hnew, hrem, hlt, hc, hm⟩
    · exact ⟨_, rfl, Or.inl ⟨rfl, rfl, rfl, rfl, rfl⟩⟩
    · refine ⟨_, rfl, Or.inr ⟨new, removed, pre, post, tmp, t, hnew, hrem, hlt, hc, ?_, hm, rfl⟩⟩
      rcases hwho with ⟨rfl, rfl⟩ | ⟨rfl, rfl⟩
      · rintro v (rfl | rfl)
        · exact Or.inl hua
        · exact Or.inr hvb
      · rintro v (rfl | rfl)
        · exact Or.inr hua
        · exact Or.inl hvb

variable (width) in
/-- One edge. -/
theorem zeroEdge_listed {e : V × V} (h : Listed P s)
    (he : e.1 ∈ P.dag.nodes ∧ e.2 ∈ P.dag.nodes) :
    ∃ s', P.zeroEdge width s e = .ok s' ∧ Listed P s' := by
  obtain ⟨s', hok, ⟨hh, hd, hp, hg, hc⟩ |
    ⟨new, removed, pre, post, tmp, t, hnew, hrem, hlt, -, hends, hm, rfl⟩⟩ :=
    zeroEdge_cases width h he
  · exact ⟨s', hok, h.congr hh hd hp hg hc⟩
  · have hs₀ : Listed P (s.setEdge e 0) := h.congr rfl rfl rfl rfl rfl
    refine ⟨_, hok, hm.listed hs₀ (hm.dense hs₀.dense hnew hrem hlt fun v => ?_)⟩
    refine mem_joined fun u w huw => ?_
    obtain ⟨rfl, rfl⟩ : e.1 = u ∧ e.2 = w := by
      obtain ⟨x, y⟩ := e
      simpa using huw
    exact ⟨hends _ (Or.inl rfl), hends _ (Or.inr rfl)⟩

section Phases

variable (hnd : P.dag.nodes.Nodup)
  (hcl : ∀ e ∈ P.dag.edges, e.1 ∈ P.dag.nodes ∧ e.2 ∈ P.dag.nodes)

include hcl

omit [DecidableEq V] in
theorem sortedEdges_closed : ∀ e ∈ P.sortedEdges, e.1 ∈ P.dag.nodes ∧ e.2 ∈ P.dag.nodes :=
  fun e he => hcl e ((List.perm_insertionSort _ _).mem_iff.mp he)

include hnd

variable (width) in
/-- The first phase raises nothing, however far it has come, and keeps the list in order. -/
theorem edges_listed (k : Nat) :
    ∃ s, (P.sortedEdges.take k).foldlM (P.zeroEdge width) (P.singles width) = .ok s ∧
      Listed P s := by
  refine foldlM_prefix (I := fun _ s => Listed P s) (fun pre e post s he h => ?_)
    (singles_single hnd).listed
  refine zeroEdge_listed _ h (sortedEdges_closed hcl e (List.mem_of_mem_take (i := k) ?_))
  simp [he]

variable (width) in
theorem zeroEdges_listed : ∃ s, P.zeroEdges width = .ok s ∧ Listed P s := by
  obtain ⟨s, hs, h⟩ := edges_listed width hnd hcl P.sortedEdges.length
  rw [List.take_length] at hs
  exact ⟨s, hs, h⟩

end Phases

omit [DecidableEq V] in
/-- The order of the list does not matter. -/
theorem Dense.perm (h : Dense P s) {parts : List Nat} (hp : parts.Perm s.parts) :
    Dense P { s with parts } := by
  constructor
  · exact hp.nodup_iff.mpr h.nodup
  · have hids : (parts.map s.idOf).Perm (s.parts.map s.idOf) := hp.map _
    change (parts.map s.idOf).Perm (List.range' _ parts.length)
    rw [hp.length_eq]
    exact hids.trans h.ids
  · intro v hv
    obtain ⟨ref, hm, hvr⟩ := h.cover v hv
    exact ⟨ref, hp.mem_iff.mpr hm, hvr⟩
  · exact fun a ha b hb => h.apart a (hp.mem_iff.mp ha) b (hp.mem_iff.mp hb)
  · exact fun ref hm => h.nodes ref (hp.mem_iff.mp hm)
  · exact fun ref hm => h.gid ref (hp.mem_iff.mp hm)

omit [DecidableEq V] in
/-- What sorting the parts leaves. -/
theorem sortParts_cases (h : P.sortParts s = .ok s') :
    ∃ parts, parts.Perm s.parts ∧ s' = { s with parts } := by
  unfold Problem.sortParts at h
  split at h
  · exact ⟨_, List.perm_insertionSort _ _, (Except.ok.inj h).symm⟩
  · exact absurd h (by simp)

/-- What a turn of the second phase can do. -/
theorem reduceStep_cases (hd : Dense P s) (hl : Looks s) {i i' : Nat}
    (h : P.reduceStep width i s = .ok (.next i' s')) :
    s' = s ∨ ∃ a b new removed pre post tmp, s.parts[i]? = some a ∧ s.parts[i + 1]? = some b ∧
      ((new = a ∧ removed = b) ∨ (new = b ∧ removed = a)) ∧ new ∈ s.parts ∧
      removed ∈ s.parts ∧ s.idOf new < s.idOf removed ∧
      P.canMerge width (s.heap new) (s.heap removed) none = some tmp ∧
      Merged new removed none tmp pre post s s' := by
  unfold Problem.reduceStep at h
  cases hi : s.parts[i]? with
  | none =>
    simp only [hi, Except.ok.injEq, Turn.next.injEq] at h
    exact Or.inl h.2.symm
  | some a =>
    cases hj : s.parts[i + 1]? with
    | none => simp [hi, hj] at h
    | some b =>
      simp only [hi, hj] at h
      obtain ⟨⟨part, t⟩, hcall, hret⟩ := bind_ok.mp h
      have ha := List.mem_of_getElem? hi
      have hb := List.mem_of_getElem? hj
      have hab : a ≠ b := by
        rintro rfl
        have hlt := (List.getElem?_eq_some_iff.mp hj).1
        have := (List.getElem?_inj (by omega) hd.nodup).mp (hi.trans hj.symm)
        omega
      rcases mergeTwoParts_cases hd hl ha hb hab hcall with ⟨rfl, rfl⟩ |
        ⟨new, removed, pre, post, tmp, hwho, rfl, hnew, hrem, hlt, hc, hm⟩
      · simp only [pure, Except.pure, Except.ok.injEq, Turn.next.injEq] at hret
        exact Or.inl hret.2.symm
      · simp only [pure, Except.pure, Except.ok.injEq, Turn.next.injEq] at hret
        obtain ⟨-, rfl⟩ := hret
        exact Or.inr ⟨a, b, new, removed, pre, post, tmp, rfl, rfl, hwho, hnew, hrem, hlt, hc, hm⟩

/-- The second phase keeps the parts apart and the dictionary free of wrong parts. -/
theorem reducing_dense {s₀ : State V} (hd : Dense P s₀) (hl : Looks s₀) {i : Nat}
    (h : Reducing P width s₀ i s) : Dense P s ∧ Looks s := by
  induction h with
  | start => exact ⟨hd, hl⟩
  | turn _ ht ih =>
    obtain ⟨hd, hl⟩ := ih
    rcases reduceStep_cases hd hl ht with rfl |
      ⟨a, b, new, removed, pre, post, tmp, -, -, -, hnew, hrem, hlt, -, hm⟩
    · exact ⟨hd, hl⟩
    · exact ⟨hm.dense hd hnew hrem hlt fun v => mem_joined (by simp), hm.looks hd hrem hl⟩

/-- A `while` loop that ends has gone through the state it ends in. -/
theorem reducing_of_reduceLoop {s₀ t : State V} {fuel i : Nat} (hr : Reducing P width s₀ i s)
    (h : P.reduceLoop width fuel i s = some (.ok t)) : ∃ j, Reducing P width s₀ j t := by
  induction fuel generalizing i s with
  | zero => simp [Problem.reduceLoop] at h
  | succ fuel ih =>
    unfold Problem.reduceLoop at h
    cases hst : P.reduceStep width i s with
    | error e => simp [hst] at h
    | ok turn =>
      cases turn with
      | next i' s' =>
        simp only [hst] at h
        exact ih (hr.turn hst) h
      | done t' =>
        simp only [hst, Option.some.injEq, Except.ok.injEq] at h
        -- the loop ends in the state the turn began with
        have hsame : t' = s := by
          unfold Problem.reduceStep at hst
          cases hi : s.parts[i]? with
          | none => simp [hi] at hst
          | some a =>
            cases hj : s.parts[i + 1]? with
            | none =>
              simp only [hi, hj, Except.ok.injEq, Turn.done.injEq] at hst
              exact hst.symm
            | some b =>
              simp only [hi, hj] at hst
              obtain ⟨⟨part, t⟩, -, hret⟩ := bind_ok.mp hst
              cases part <;> simp [pure, Except.pure] at hret
        rw [← h, hsame]
        exact ⟨i, hr⟩

/-- Between any two merges the parts are apart and no wrong part is in the dictionary. -/
theorem visited_dense (hnd : P.dag.nodes.Nodup)
    (hcl : ∀ e ∈ P.dag.edges, e.1 ∈ P.dag.nodes ∧ e.2 ∈ P.dag.nodes)
    (h : Visited P width s) : Dense P s ∧ Looks s := by
  rcases h with ⟨k, hk⟩ | ⟨s₁, s₂, i, hz, hs, hr⟩
  · obtain ⟨t, ht, hl⟩ := edges_listed width hnd hcl k
    obtain rfl := Except.ok.inj (ht.symm.trans hk)
    exact ⟨hl.dense, hl.table.looks⟩
  · obtain ⟨t, ht, hl⟩ := zeroEdges_listed width hnd hcl
    obtain rfl := Except.ok.inj (ht.symm.trans hz)
    obtain ⟨parts, hp, rfl⟩ := sortParts_cases hs
    exact reducing_dense (hl.dense.perm hp)
      (fun ref hm => hl.table.looks ref (hp.mem_iff.mp hm)) hr

end Parts

section Results

variable {V : Type} [LinearOrder V] {P : Problem V} {width : Digraph V → (V → Nat) → Nat}
  {t : State V} {topoSorted : List V} {fuel n : Nat} {lpl : Int}

/-- What `partition_dag` returns, step by step. -/
theorem partitionDag_cases (h : P.partitionDag width topoSorted fuel = some (.ok (n, lpl, t))) :
    ∃ s₁ s₂ path, P.zeroEdges width = .ok s₁ ∧ P.sortParts s₁ = .ok s₂ ∧
      P.reduceLoop width fuel 0 s₂ = some (.ok t) ∧
      getLongestPath P.dag (P.weightsOf t) 1 topoSorted = .ok (path, lpl) ∧
      n = t.stGid - (P.dropCount + 1) := by
  unfold Problem.partitionDag Problem.reducePartitions at h
  cases hz : P.zeroEdges width with
  | error e => simp [hz] at h
  | ok s₁ =>
    cases hs : P.sortParts s₁ with
    | error e => simp [hz, hs] at h
    | ok s₂ =>
      simp only [hz, hs] at h
      cases hr : P.reduceLoop width fuel 0 s₂ with
      | none => simp [hr] at h
      | some res =>
        cases res with
        | error e => simp [hr] at h
        | ok t' =>
          simp only [hr, Option.some.injEq] at h
          obtain ⟨⟨path, lp⟩, hlp, hret⟩ := bind_ok.mp h
          simp only [pure, Except.pure, Except.ok.injEq, Prod.mk.injEq] at hret
          obtain ⟨rfl, rfl, rfl⟩ := hret
          exact ⟨s₁, s₂, path, rfl, hs, hr, hlp, rfl⟩

/-- The parts `partition_dag` returns have been visited. -/
theorem visited_of_partitionDag
    (h : P.partitionDag width topoSorted fuel = some (.ok (n, lpl, t))) : Visited P width t := by
  obtain ⟨s₁, s₂, -, hz, hs, hr, -⟩ := partitionDag_cases h
  obtain ⟨j, hj⟩ := reducing_of_reduceLoop .start hr
  exact Or.inr ⟨s₁, s₂, j, hz, hs, hj⟩

/-- Whatever is merged, the parts divide the nodes among them, their ids are the consecutive
numbers from the number of drops plus one on, and every node has the id of its part: between any
two merges, and in what is returned. -/
theorem parts_dense (hnd : P.dag.nodes.Nodup)
    (hcl : ∀ e ∈ P.dag.edges, e.1 ∈ P.dag.nodes ∧ e.2 ∈ P.dag.nodes) :
    (∀ s, Visited P width s → Dense P s) ∧ ∀ topoSorted fuel n lpl t,
      P.partitionDag width topoSorted fuel = some (.ok (n, lpl, t)) → Dense P t :=
  ⟨fun _ h => (visited_dense hnd hcl h).1,
    fun _ _ _ _ _ h => (visited_dense hnd hcl (visited_of_partitionDag h)).1⟩

/-- Four nodes in two pairs, three drops besides, and room for two nodes side by side. -/
def twoPairs : Problem Nat where
  dag := { nodes := [1, 2, 3, 4], edges := [(1, 2), (3, 4)] }
  edgeWeight u _ := u
  dropCount := 7
  maxDop := .number 2

/-- The width of disjoint chains of nodes of weight one. -/
def chains (G : Digraph Nat) (_ : Nat → Nat) : Nat := G.nodes.length - G.edges.length

/-- Each pair becomes a part, and then both together. -/
theorem twoPairs_dense :
    (twoPairs.partitionDag chains [1, 2, 3, 4] 3).map
      (Except.map fun r => r.2.2.parts.map r.2.2.nodesOf) = some (.ok [[1, 2, 3, 4]]) ∧
    (∀ s, Visited twoPairs chains s → Dense twoPairs s) ∧
    ∀ topoSorted fuel n lpl t,
      twoPairs.partitionDag chains topoSorted fuel = some (.ok (n, lpl, t)) →
        Dense twoPairs t :=
  ⟨by decide +kernel, parts_dense (by decide) (by decide)⟩

end Results

end Daliuge.Partition
