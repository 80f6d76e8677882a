import Daliuge.Partition.Sarkar

/-!
# What a merge does to the parts

The loop over the parts in `_merge_two_parts` lowers the ids above the removed one, and with them
the entries of the dictionary and the ids kept at the nodes, in whatever order the list has.
-/
namespace Daliuge.Partition

open Collect

variable {V : Type} [DecidableEq V] {s s' s₁ : State V} {r ref : Nat} {refs : List Nat} {v : V}

/-- The id of a part once the ids above another one have gone down. -/
def lowered (r id : Nat) : Nat := if r < id then id - 1 else id

/-- Some parts have been lowered, and nothing else has changed. -/
structure Lowered (r : Nat) (refs : List Nat) (s s' : State V) : Prop where
  parts : s'.parts = s.parts
  edgeWeight : s'.edgeWeight = s.edgeWeight
  partEdges : s'.partEdges = s.partEdges
  stGid : s'.stGid = s.stGid
  heap : ∀ ref, s'.heap ref = if ref ∈ refs then
    { s.heap ref with partitionId := lowered r (s.idOf ref) } else s.heap ref
  entry : ∀ ref ∈ refs, r < s.idOf ref → s'.partDict (s.idOf ref - 1) = some ref
  others : ∀ k, (∀ ref ∈ refs, r < s.idOf ref → s.idOf ref - 1 ≠ k) → s'.partDict k = s.partDict k
  stamped : ∀ ref ∈ refs, r < s.idOf ref → ∀ v ∈ s.nodesOf ref, s'.gid v = some (s.idOf ref - 1)
  unstamped : ∀ v, (∀ ref ∈ refs, r < s.idOf ref → v ∉ s.nodesOf ref) → s'.gid v = s.gid v

/-- No two of the parts that will be lowered have an id or a node in common. -/
structure Apart (r : Nat) (refs : List Nat) (s : State V) : Prop where
  nodup : refs.Nodup
  ids : ∀ a ∈ refs, ∀ b ∈ refs, r < s.idOf a → s.idOf a = s.idOf b → a = b
  nodes : ∀ a ∈ refs, ∀ b ∈ refs, r < s.idOf a → r < s.idOf b → ∀ v ∈ s.nodesOf a,
    v ∈ s.nodesOf b → a = b

omit [DecidableEq V] in
theorem Lowered.nil : Lowered r [] s s where
  parts := rfl
  edgeWeight := rfl
  partEdges := rfl
  stGid := rfl
  heap := by simp
  entry := by simp
  others _ _ := rfl
  stamped := by simp
  unstamped _ _ := rfl

section Lower

variable {a : Nat}

omit [DecidableEq V] in
theorem Apart.tail (h : Apart r (a :: refs) s) : Apart r refs s where
  nodup := (List.nodup_cons.mp h.nodup).2
  ids b hb c hc := h.ids b (by simp [hb]) c (by simp [hc])
  nodes b hb c hc := h.nodes b (by simp [hb]) c (by simp [hc])

@[simp] theorem lower_heap_of_ne (hne : ref ≠ a) : (s.lower a).heap ref = s.heap ref := by
  simp [State.lower, State.stamp, hne]

theorem lower_idOf (hne : ref ≠ a) : (s.lower a).idOf ref = s.idOf ref := by
  simp [State.idOf, hne]

theorem lower_nodesOf : (s.lower a).nodesOf ref = s.nodesOf ref := by
  by_cases hne : ref = a
  · subst hne
    simp [State.lower, State.stamp, State.nodesOf]
  · simp [State.nodesOf, hne]

theorem Apart.lower (h : Apart r (a :: refs) s) : Apart r refs (s.lower a) := by
  have hna : ∀ b ∈ refs, b ≠ a := fun b hb he => (List.nodup_cons.mp h.nodup).1 (he ▸ hb)
  constructor
  · exact h.tail.nodup
  · intro b hb c hc
    rw [lower_idOf (hna b hb), lower_idOf (hna c hc)]
    exact h.tail.ids b hb c hc
  · intro b hb c hc
    rw [lower_idOf (hna b hb), lower_idOf (hna c hc), lower_nodesOf, lower_nodesOf]
    exact h.tail.nodes b hb c hc

/-- A part above the removed one is lowered first. -/
theorem Lowered.cons (hap : Apart r (a :: refs) s) (ha : r < s.idOf a)
    (h : Lowered r refs (s.lower a) s') : Lowered r (a :: refs) s s' := by
  have hna : ∀ b ∈ refs, b ≠ a := fun b hb he => (List.nodup_cons.mp hap.nodup).1 (he ▸ hb)
  have hid : ∀ b ∈ refs, (s.lower a).idOf b = s.idOf b := fun b hb => lower_idOf (hna b hb)
  constructor
  case parts => exact h.parts
  case edgeWeight => exact h.edgeWeight
  case partEdges => exact h.partEdges
  case stGid => exact h.stGid
  case heap =>
    intro ref
    rw [h.heap ref]
    by_cases hra : ref = a
    · subst hra
      have hn : ref ∉ refs := fun hm => hna ref hm rfl
      simp [hn, State.lower, State.stamp, lowered, ha]
    · by_cases hm : ref ∈ refs
      · simp [hm, hra, hid ref hm]
      · simp [hm, hra]
  case entry =>
    intro ref hm hr
    rcases List.mem_cons.mp hm with rfl | hm
    · rw [h.others]
      · simp [State.lower, State.stamp]
      · intro b hb hrb he
        rw [hid b hb] at hrb he
        exact hna b hb (hap.ids b (by simp [hb]) ref (by simp) hrb (by omega))
    · have he := h.entry ref hm
      rw [hid ref hm] at he
      exact he hr
  case others =>
    intro k hk
    rw [h.others]
    · have hne : k ≠ s.idOf a - 1 := (hk a (by simp) ha).symm
      simp [State.lower, State.stamp, hne]
    · intro b hb hrb
      rw [hid b hb] at hrb ⊢
      exact hk b (by simp [hb]) hrb
  case stamped =>
    intro ref hm hr v hv
    rcases List.mem_cons.mp hm with rfl | hm
    · rw [h.unstamped]
      · simp [State.lower, State.stamp, hv]
      · intro b hb hrb hvb
        rw [hid b hb] at hrb
        rw [lower_nodesOf] at hvb
        exact hna b hb (hap.nodes b (by simp [hb]) ref (by simp) hrb hr v hvb hv)
    · have he := h.stamped ref hm
      rw [hid ref hm, lower_nodesOf] at he
      exact he hr v hv
  case unstamped =>
    intro v hv
    rw [h.unstamped]
    · have hn := hv a (by simp) ha
      simp [State.lower, State.stamp, hn]
    · intro b hb hrb
      rw [hid b hb] at hrb
      rw [lower_nodesOf]
      exact hv b (by simp [hb]) hrb

omit [DecidableEq V] in
/-- A part below the removed one is passed over. -/
theorem Lowered.pass (ha : ¬ r < s.idOf a) (h : Lowered r refs s s') :
    Lowered r (a :: refs) s s' := by
  constructor
  case parts => exact h.parts
  case edgeWeight => exact h.edgeWeight
  case partEdges => exact h.partEdges
  case stGid => exact h.stGid
  case heap =>
    intro ref
    rw [h.heap ref]
    by_cases hm : ref ∈ refs
    · simp [hm]
    · by_cases hra : ref = a
      · subst hra
        have hl : lowered r (s.idOf ref) = (s.heap ref).partitionId := if_neg ha
        simp [hm, hl]
      · simp [hm, hra]
  case entry =>
    intro ref hm hr
    rcases List.mem_cons.mp hm with rfl | hm
    · exact absurd hr ha
    · exact h.entry ref hm hr
  case others => exact fun k hk => h.others k fun ref hm => hk ref (by simp [hm])
  case stamped =>
    intro ref hm hr
    rcases List.mem_cons.mp hm with rfl | hm
    · exact absurd hr ha
    · exact h.stamped ref hm hr
  case unstamped => exact fun v hv => h.unstamped v fun ref hm => hv ref (by simp [hm])

end Lower

/-- The loop over parts none of which is the removed one. -/
theorem renumber_ok (xs : List (Nat × Nat)) (index : Option Nat)
    (hap : Apart r (xs.map Prod.fst) s) (hne : ∀ x ∈ xs, s.idOf x.1 ≠ r) :
    ∃ s', xs.foldlM (State.renumber r) (s, index) = .ok (s', index) ∧
      Lowered r (xs.map Prod.fst) s s' := by
  induction xs generalizing s with
  | nil => exact ⟨s, rfl, .nil⟩
  | cons x xs ih =>
    obtain ⟨a, i⟩ := x
    have hna : ∀ b ∈ xs.map Prod.fst, b ≠ a := fun b hb he =>
      (List.nodup_cons.mp hap.nodup).1 (he ▸ hb)
    by_cases ha : r < s.idOf a
    · obtain ⟨s', hrun, hl⟩ := ih (Apart.lower hap) fun x hx => by
        rw [lower_idOf (hna x.1 (List.mem_map_of_mem hx))]
        exact hne x (by simp [hx])
      refine ⟨s', ?_, hl.cons hap ha⟩
      rw [List.foldlM_cons, State.renumber, if_pos ha]
      exact hrun
    · obtain ⟨s', hrun, hl⟩ := ih (Apart.tail hap) fun x hx => hne x (by simp [hx])
      refine ⟨s', ?_, hl.pass ha⟩
      rw [List.foldlM_cons, State.renumber, if_neg ha, if_neg (hne (a, i) (by simp))]
      exact hrun

/-! The merge as a whole. -/

/-- The parts in the list are different ones, with ids and nodes of their own. -/
structure Separate (s : State V) : Prop where
  nodup : s.parts.Nodup
  ids : ∀ a ∈ s.parts, ∀ b ∈ s.parts, s.idOf a = s.idOf b → a = b
  nodes : ∀ a ∈ s.parts, ∀ b ∈ s.parts, ∀ v ∈ s.nodesOf a, v ∈ s.nodesOf b → a = b

/-- One part has taken in another one, which is gone from the list. -/
structure Merged (new removed : Nat) (uv : Option (V × V)) (tmp : String → Nat)
    (pre post : List Nat) (s s' : State V) : Prop where
  before : s.parts = pre ++ removed :: post
  parts : s'.parts = pre ++ post
  edgeWeight : s'.edgeWeight = s.edgeWeight
  partEdges : s'.partEdges = s.partEdges
  stGid : s'.stGid = s.stGid
  heap : ∀ ref ∈ s.parts, s'.heap ref =
    { (if ref = new then (s.heap new).merge (s.heap removed) uv tmp else s.heap ref) with
      partitionId := lowered (s.idOf removed) (s.idOf ref) }
  entryPost : ∀ ref ∈ post, s.idOf removed < s.idOf ref →
    s'.partDict (s.idOf ref - 1) = some ref
  entryPre : ∀ ref ∈ pre, s.idOf removed < s.idOf ref →
    s'.partDict (s.idOf ref - 1) = if s.idOf ref - 1 = s.idOf removed then none else some ref
  below : ∀ k < s.idOf removed, s'.partDict k = s.partDict k
  stamped : ∀ ref ∈ s.parts, s.idOf removed < s.idOf ref → ∀ v ∈ s.nodesOf ref,
    s'.gid v = some (s.idOf ref - 1)
  taken : ∀ v ∈ s.nodesOf removed, s'.gid v = some (s.idOf new)
  unstamped : ∀ v, v ∉ s.nodesOf removed →
    (∀ ref ∈ s.parts, s.idOf removed < s.idOf ref → v ∉ s.nodesOf ref) → s'.gid v = s.gid v

section Merge

variable {new removed : Nat} {uv : Option (V × V)} {tmp : String → Nat} {l : Nat}

theorem absorb_idOf : (s.absorb new removed uv tmp l).idOf ref = s.idOf ref := by
  by_cases h : ref = new
  · subst h
    simp [State.absorb, State.stamp, State.idOf, KFamilyPartition.merge]
  · simp [State.absorb, State.stamp, State.idOf, h]

theorem absorb_nodesOf (h : ref ≠ new) :
    (s.absorb new removed uv tmp l).nodesOf ref = s.nodesOf ref := by
  simp [State.absorb, State.stamp, State.nodesOf, h]

theorem absorb_gid (hne : removed ≠ new) : (s.absorb new removed uv tmp l).gid v =
    if v ∈ s.nodesOf removed then some l else s.gid v := by
  have hn : (s.absorb new removed uv tmp l).nodesOf removed = s.nodesOf removed :=
    absorb_nodesOf hne
  rw [← hn]
  rfl

omit [DecidableEq V] in
theorem Lowered.idOf_of_notMem (h : Lowered r refs s s') (hn : ref ∉ refs) :
    s'.idOf ref = s.idOf ref := by
  simp [State.idOf, h.heap, hn]

omit [DecidableEq V] in
theorem Lowered.nodesOf (h : Lowered r refs s s') : s'.nodesOf ref = s.nodesOf ref := by
  by_cases hm : ref ∈ refs <;> simp [State.nodesOf, h.heap, hm]

omit [DecidableEq V] in
theorem Separate.ne (hlt : s.idOf new < s.idOf removed) : removed ≠ new := by
  rintro rfl
  exact lt_irrefl _ hlt

variable (uv tmp) in
/-- Taking the nodes over keeps the parts that will be lowered apart. -/
theorem Separate.absorb (hs : Separate s) (hlt : s.idOf new < s.idOf removed) (hn : refs.Nodup)
    (hm : ∀ ref ∈ refs, ref ∈ s.parts) :
    Apart (s.idOf removed) refs (s.absorb new removed uv tmp (s.idOf new)) := by
  have hup : ∀ ref, s.idOf removed < s.idOf ref → ref ≠ new := by
    rintro ref hr rfl
    omega
  constructor
  · exact hn
  · intro a ha b hb _ he
    rw [absorb_idOf, absorb_idOf] at he
    exact hs.ids a (hm a ha) b (hm b hb) he
  · intro a ha b hb hra hrb v hva hvb
    rw [absorb_idOf] at hra hrb
    rw [absorb_nodesOf (hup a hra)] at hva
    rw [absorb_nodesOf (hup b hrb)] at hvb
    exact hs.nodes a (hm a ha) b (hm b hb) v hva hvb

/-- The loop over a numbered list none of whose parts is the removed one. -/
theorem renumber_zipIdx_ok (refs : List Nat) (k : Nat) (index : Option Nat)
    (hap : Apart r refs s) (hne : ∀ ref ∈ refs, s.idOf ref ≠ r) :
    ∃ s', (refs.zipIdx k).foldlM (State.renumber r) (s, index) = .ok (s', index) ∧
      Lowered r refs s s' := by
  have hfst : (refs.zipIdx k).map Prod.fst = refs := by simp
  obtain ⟨s', hrun, hl⟩ := renumber_ok (refs.zipIdx k) index (by rwa [hfst]) fun x hx =>
    hne x.1 (hfst ▸ List.mem_map_of_mem hx)
  exact ⟨s', hrun, hfst ▸ hl⟩

variable {pre post : List Nat} {s₂ : State V}

/-- The loop over the parts lowers those before the removed one and those after it, and forgets
its entry in between. -/
structure TwoPasses (new removed : Nat) (uv : Option (V × V)) (tmp : String → Nat)
    (pre post : List Nat) (s s₁ s₂ : State V) : Prop where
  separate : Separate s
  below : s.idOf new < s.idOf removed
  split : s.parts = pre ++ removed :: post
  first : Lowered (s.idOf removed) pre (s.absorb new removed uv tmp (s.idOf new)) s₁
  second : Lowered (s.idOf removed) post (s₁.forget (s.idOf removed)) s₂

namespace TwoPasses

variable (h : TwoPasses new removed uv tmp pre post s s₁ s₂)

include h

theorem disjoint : ∀ ref ∈ post, ref ∉ pre := by
  intro ref hq hp
  have hnd : (pre ++ removed :: post).Nodup := h.split ▸ h.separate.nodup
  exact List.disjoint_of_nodup_append hnd hp (by simp [hq])

theorem mem_pre (hm : ref ∈ pre) : ref ∈ s.parts := by simp [h.split, hm]

theorem mem_post (hm : ref ∈ post) : ref ∈ s.parts := by simp [h.split, hm]

/-- A part above the removed one is not the one that takes it in. -/
theorem absorbed_nodesOf (hr : s.idOf removed < s.idOf ref) :
    (s.absorb new removed uv tmp (s.idOf new)).nodesOf ref = s.nodesOf ref := by
  refine absorb_nodesOf ?_
  rintro rfl
  have := h.below
  omega

theorem idOf_post (hm : ref ∈ post) : (s₁.forget (s.idOf removed)).idOf ref = s.idOf ref :=
  (h.first.idOf_of_notMem (h.disjoint ref hm)).trans absorb_idOf

theorem nodesOf_post (hr : s.idOf removed < s.idOf ref) :
    (s₁.forget (s.idOf removed)).nodesOf ref = s.nodesOf ref :=
  h.first.nodesOf.trans (h.absorbed_nodesOf hr)

/-- A node of no lowered part keeps what it has got from the merge. -/
theorem gid_eq (hv : ∀ ref ∈ s.parts, s.idOf removed < s.idOf ref → v ∉ s.nodesOf ref) :
    s₂.gid v = (s.absorb new removed uv tmp (s.idOf new)).gid v := by
  have hsecond : s₂.gid v = s₁.gid v := by
    refine h.second.unstamped v fun ref hm hr => ?_
    rw [h.idOf_post hm] at hr
    rw [h.nodesOf_post hr]
    exact hv ref (h.mem_post hm) hr
  rw [hsecond]
  refine h.first.unstamped v fun ref hm hr => ?_
  rw [absorb_idOf] at hr
  rw [h.absorbed_nodesOf hr]
  exact hv ref (h.mem_pre hm) hr

theorem heap_eq (hm : ref ∈ s.parts) : s₂.heap ref =
    { (if ref = new then (s.heap new).merge (s.heap removed) uv tmp else s.heap ref) with
      partitionId := lowered (s.idOf removed) (s.idOf ref) } := by
  have hbase : (s.absorb new removed uv tmp (s.idOf new)).heap ref =
      if ref = new then (s.heap new).merge (s.heap removed) uv tmp else s.heap ref := by
    simp only [State.absorb, State.stamp, Function.update_apply]
  rw [← hbase, h.second.heap ref]
  by_cases hq : ref ∈ post
  · have h₁ : (s₁.forget (s.idOf removed)).heap ref =
        (s.absorb new removed uv tmp (s.idOf new)).heap ref :=
      (h.first.heap ref).trans (if_neg (h.disjoint ref hq))
    rw [if_pos hq, h.idOf_post hq, h₁]
  · rw [if_neg hq]
    change s₁.heap ref = _
    rw [h.first.heap ref]
    by_cases hp : ref ∈ pre
    · rw [if_pos hp, absorb_idOf]
    · obtain rfl : ref = removed := by
        rw [h.split] at hm
        simpa [hp, hq] using hm
      have hself : lowered (s.idOf ref) (s.idOf ref) =
          ((s.absorb new ref uv tmp (s.idOf new)).heap ref).partitionId :=
        (if_neg (lt_irrefl _)).trans absorb_idOf.symm
      rw [if_neg hp, hself]

theorem entry_post (hm : ref ∈ post) (hr : s.idOf removed < s.idOf ref) :
    s₂.partDict (s.idOf ref - 1) = some ref := by
  have he := h.second.entry ref hm
  rw [h.idOf_post hm] at he
  exact he hr

theorem entry_pre (hm : ref ∈ pre) (hr : s.idOf removed < s.idOf ref) :
    s₂.partDict (s.idOf ref - 1) =
      if s.idOf ref - 1 = s.idOf removed then none else some ref := by
  -- the second pass leaves the entry alone
  have hout : ∀ b ∈ post, s.idOf removed < (s₁.forget (s.idOf removed)).idOf b →
      (s₁.forget (s.idOf removed)).idOf b - 1 ≠ s.idOf ref - 1 := by
    intro b hb hrb he
    rw [h.idOf_post hb] at hrb he
    have := h.separate.ids b (h.mem_post hb) ref (h.mem_pre hm) (by omega)
    exact h.disjoint b hb (this ▸ hm)
  rw [h.second.others _ hout]
  have he := h.first.entry ref hm
  rw [absorb_idOf] at he
  by_cases hk : s.idOf ref - 1 = s.idOf removed
  · simp [State.forget, hk]
  · simpa [State.forget, hk] using he hr

theorem partDict_below {k : Nat} (hk : k < s.idOf removed) : s₂.partDict k = s.partDict k := by
  rw [h.second.others]
  · have hne : k ≠ s.idOf removed := by omega
    simp only [State.forget, ne_eq, hne, not_false_eq_true, Function.update_of_ne]
    rw [h.first.others k]
    · rfl
    · intro ref _ hr
      omega
  · intro ref _ hr
    omega

theorem stamped_eq (hm : ref ∈ s.parts) (hr : s.idOf removed < s.idOf ref)
    (hv : v ∈ s.nodesOf ref) : s₂.gid v = some (s.idOf ref - 1) := by
  by_cases hq : ref ∈ post
  · have he := h.second.stamped ref hq
    rw [h.idOf_post hq, h.nodesOf_post hr] at he
    exact he hr v hv
  · have hp : ref ∈ pre := by
      have hrr : ref ≠ removed := by
        rintro rfl
        exact lt_irrefl _ hr
      rw [h.split] at hm
      simpa [hq, hrr] using hm
    -- no part of the second pass has the node
    have hsecond : s₂.gid v = s₁.gid v := by
      refine h.second.unstamped v fun b hb hrb hvb => ?_
      rw [h.idOf_post hb] at hrb
      rw [h.nodesOf_post hrb] at hvb
      have hbr := h.separate.nodes b (h.mem_post hb) ref (h.mem_pre hp) v hvb hv
      exact h.disjoint b hb (hbr ▸ hp)
    rw [hsecond]
    have he := h.first.stamped ref hp
    rw [absorb_idOf, h.absorbed_nodesOf hr] at he
    exact he hr v hv

/-- The two passes make the merge. -/
theorem merged : Merged new removed uv tmp pre post s { s₂ with parts := pre ++ post } := by
  constructor
  case before => exact h.split
  case parts => rfl
  case edgeWeight => exact h.second.edgeWeight.trans h.first.edgeWeight
  case partEdges => exact h.second.partEdges.trans h.first.partEdges
  case stGid => exact h.second.stGid.trans h.first.stGid
  case heap => exact fun ref hm => h.heap_eq hm
  case entryPost => exact fun ref hm hr => h.entry_post hm hr
  case entryPre => exact fun ref hm hr => h.entry_pre hm hr
  case below => exact fun k hk => h.partDict_below hk
  case stamped => exact fun ref hm hr v hv => h.stamped_eq hm hr hv
  case taken =>
    intro v hv
    have hother : ∀ b ∈ s.parts, s.idOf removed < s.idOf b → v ∉ s.nodesOf b := by
      intro b hb hrb hvb
      have hbr := h.separate.nodes b hb removed (by simp [h.split]) v hvb hv
      rw [hbr] at hrb
      exact lt_irrefl _ hrb
    exact (h.gid_eq hother).trans ((absorb_gid (Separate.ne h.below)).trans (if_pos hv))
  case unstamped =>
    intro v hv hn
    exact (h.gid_eq hn).trans ((absorb_gid (Separate.ne h.below)).trans (if_neg hv))

end TwoPasses

/-- What the loop does is two passes, with the removed part in between. -/
theorem mergeInto_eq {k : Nat} (hsplit : s.parts = pre ++ removed :: post)
    (hrun₁ : pre.zipIdx.foldlM (State.renumber (s.idOf removed))
      (s.absorb new removed uv tmp (s.idOf new), none) = .ok (s₁, none))
    (hid : s₁.idOf removed = s.idOf removed) (hk : s₁.partDict (s.idOf removed) = some k)
    (hrun₂ : (post.zipIdx (pre.length + 1)).foldlM (State.renumber (s.idOf removed))
      (s₁.forget (s.idOf removed), some pre.length) = .ok (s₂, some pre.length))
    (hparts : s₂.parts = pre ++ removed :: post) :
    s.mergeInto new removed uv tmp (s.idOf new) (s.idOf removed) =
      .ok { s₂ with parts := pre ++ post } := by
  have hsap : (s.absorb new removed uv tmp (s.idOf new)).parts = pre ++ removed :: post := hsplit
  have hzip : (pre ++ removed :: post).zipIdx =
      pre.zipIdx ++ (removed, pre.length) :: post.zipIdx (pre.length + 1) := by
    rw [List.zipIdx_append, List.zipIdx_cons]
    simp
  have hstep : State.renumber (s.idOf removed) (s₁, none) (removed, pre.length) =
      .ok (s₁.forget (s.idOf removed), some pre.length) := by
    simp only [State.renumber, hid, lt_irrefl, if_false, if_true, hk, look, ok_bind]
    rfl
  have herase : (pre ++ removed :: post).eraseIdx pre.length = pre ++ post := by
    rw [List.eraseIdx_append_of_length_le le_rfl]
    simp
  rw [State.mergeInto]
  simp only [hsap, hzip, List.foldlM_append, List.foldlM_cons]
  rw [hrun₁, ok_bind, hstep, ok_bind, hrun₂, ok_bind]
  simp only [hparts, herase]
  rfl

omit [DecidableEq V] in
/-- After the first pass the removed part still has an entry to be forgotten. -/
theorem Lowered.entry_of_removed (h : Lowered r refs s s') (hd : s.partDict r ≠ none) :
    s'.partDict r ≠ none := by
  by_cases hex : ∃ ref ∈ refs, r < s.idOf ref ∧ s.idOf ref - 1 = r
  · obtain ⟨ref, hm, hr, he⟩ := hex
    have := h.entry ref hm hr
    rw [he] at this
    simp [this]
  · push Not at hex
    rw [h.others _ fun ref hm hr => hex ref hm hr]
    exact hd

variable (uv tmp) in
/-- Once the parts may be merged nothing can go wrong. -/
theorem mergeInto_ok (hs : Separate s) (hrem : removed ∈ s.parts)
    (hlt : s.idOf new < s.idOf removed) (hd : s.partDict (s.idOf removed) ≠ none) :
    ∃ pre post s', s.mergeInto new removed uv tmp (s.idOf new) (s.idOf removed) = .ok s' ∧
      Merged new removed uv tmp pre post s s' := by
  obtain ⟨pre, post, hsplit⟩ := List.append_of_mem hrem
  have hnd : (pre ++ removed :: post).Nodup := hsplit ▸ hs.nodup
  obtain ⟨hpre, hafter, -⟩ := List.nodup_append.mp hnd
  obtain ⟨hpost, hndpost⟩ := List.nodup_cons.mp hafter
  have hnotpre : removed ∉ pre := fun hm => List.disjoint_of_nodup_append hnd hm (by simp)
  have hdisj : ∀ ref ∈ post, ref ∉ pre := fun ref hq hp =>
    List.disjoint_of_nodup_append hnd hp (by simp [hq])
  have hmp : ∀ ref ∈ pre, ref ∈ s.parts := fun ref hm => by simp [hsplit, hm]
  have hmq : ∀ ref ∈ post, ref ∈ s.parts := fun ref hm => by simp [hsplit, hm]
  have hneid : ∀ ref ∈ s.parts, ref ≠ removed → s.idOf ref ≠ s.idOf removed :=
    fun ref hm hr he => hr (hs.ids ref hm removed hrem he)
  -- before the removed part
  obtain ⟨s₁, hrun₁, hl₁⟩ := renumber_zipIdx_ok pre 0 none
    (hs.absorb uv tmp hlt hpre hmp) fun ref hm => by
      rw [absorb_idOf]
      exact hneid ref (hmp ref hm) fun he => hnotpre (he ▸ hm)
  have hid₁ : ∀ ref, ref ∉ pre → s₁.idOf ref = s.idOf ref := fun ref hn =>
    (hl₁.idOf_of_notMem hn).trans absorb_idOf
  obtain ⟨k, hk⟩ := Option.ne_none_iff_exists'.mp (hl₁.entry_of_removed hd)
  -- after it
  have hap₂ : Apart (s.idOf removed) post (s₁.forget (s.idOf removed)) := by
    have hid : ∀ ref ∈ post, (s₁.forget (s.idOf removed)).idOf ref =
        (s.absorb new removed uv tmp (s.idOf new)).idOf ref :=
      fun ref hq => (hid₁ ref (hdisj ref hq)).trans absorb_idOf.symm
    have hnodes : ∀ ref, (s₁.forget (s.idOf removed)).nodesOf ref =
        (s.absorb new removed uv tmp (s.idOf new)).nodesOf ref := fun ref => hl₁.nodesOf
    have h := hs.absorb uv tmp hlt hndpost hmq
    constructor
    · exact h.nodup
    · intro a ha b hb
      rw [hid a ha, hid b hb]
      exact h.ids a ha b hb
    · intro a ha b hb
      rw [hid a ha, hid b hb, hnodes, hnodes]
      exact h.nodes a ha b hb
  obtain ⟨s₂, hrun₂, hl₂⟩ := renumber_zipIdx_ok post (pre.length + 1) (some pre.length) hap₂
    fun ref hm => by
      have hid : (s₁.forget (s.idOf removed)).idOf ref = s.idOf ref := hid₁ ref (hdisj ref hm)
      rw [hid]
      exact hneid ref (hmq ref hm) fun he => hpost (he ▸ hm)
  have hparts : s₂.parts = pre ++ removed :: post := by
    rw [hl₂.parts]
    change s₁.parts = _
    rw [hl₁.parts]
    exact hsplit
  have hpasses : TwoPasses new removed uv tmp pre post s s₁ s₂ := ⟨hs, hlt, hsplit, hl₁, hl₂⟩
  exact ⟨pre, post, _, mergeInto_eq hsplit hrun₁ (hid₁ removed hnotpre) hk hrun₂ hparts,
    hpasses.merged⟩

end Merge

end Daliuge.Partition
