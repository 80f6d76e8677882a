import Daliuge.Unroll.Plan

/-!
# The ends of the edges

Every handler joins drops of the link's source with drops of its target, and so does everything
that is planned from the links: directly, or through the inputs and outputs of a Gather.
-/
namespace Daliuge.Unroll

open Collect Enumeration

section Pieces

variable {α β : Type} {ls c : List α} {cs : List (List α)} {bs : List β} {r : List (α × β)}
  {a : α} {b : β} {n : Int} {i : Nat}

/-- What is in a piece of a list is in the list. -/
theorem mem_of_mem_splitList (h : splitList ls n = .ok cs) (hc : c ∈ cs) (ha : a ∈ c) : a ∈ ls := by
  unfold splitList at h
  split at h
  · simp at h
  split at h
  · cases h
    simp at hc
  · cases h
    exact mem_of_mem_chunks hc ha

theorem mem_of_item (h : item ls i = .ok a) : a ∈ ls := by
  unfold item at h
  split at h
  · rename_i x hx
    cases h
    exact List.mem_of_getElem? hx
  · simp at h

/-- A pair has an element of some piece, and an element of the other list. -/
theorem mem_pairChunks (h : pairChunks cs bs = .ok r) (hp : (a, b) ∈ r) :
    (∃ c ∈ cs, a ∈ c) ∧ b ∈ bs := by
  induction cs generalizing bs r with
  | nil =>
    cases h
    simp at hp
  | cons c cs ih =>
    cases bs with
    | nil =>
      cases c with
      | nil =>
        obtain ⟨⟨c, hc, ha⟩, hb⟩ := ih h hp
        exact ⟨⟨c, by simp [hc], ha⟩, hb⟩
      | cons x c => simp [pairChunks] at h
    | cons b' bs =>
      have h : (do return c.map (·, b') ++ (← pairChunks cs bs)) = Except.ok r := by
        cases c <;> exact h
      obtain ⟨rest, hrest, h⟩ := bind_ok.mp h
      obtain rfl := pure_ok.mp h
      rcases List.mem_append.mp hp with hp | hp
      · obtain ⟨x, hx, he⟩ := List.mem_map.mp hp
        obtain ⟨rfl, rfl⟩ := Prod.mk.inj he
        exact ⟨⟨c, by simp, hx⟩, by simp⟩
      · obtain ⟨⟨c, hc, ha⟩, hb⟩ := ih hrest hp
        exact ⟨⟨c, by simp [hc], ha⟩, by simp [hb]⟩

end Pieces

/-- Edges from drops of one list to drops of another. -/
def Within (ss ts : List Drop) (edges : List (Drop × Drop)) : Prop :=
  ∀ e ∈ edges, e.1 ∈ ss ∧ e.2 ∈ ts

section Handlers

variable {lg : LG} {source target slgn tlgn : LGNode} {sources targets ss ts : List Drop}
  {edges : List (Drop × Drop)} {size loopSize position : Int} {lk : Link} {placed : List Placed}

theorem within_nil : Within ss ts [] := by simp [Within]

theorem within_swap (h : Within ts ss edges) : Within ss ts (edges.map Prod.swap) := by
  intro e he
  obtain ⟨e', he', rfl⟩ := List.mem_map.mp he
  exact (h e' he').symm

/-- Pairing pieces of one list with another list makes edges between the two. -/
theorem within_pieces (h : (splitList ss size >>= fun cs => pairChunks cs ts) = .ok edges) :
    Within ss ts edges := by
  obtain ⟨cs, hcs, h⟩ := bind_ok.mp h
  intro e he
  obtain ⟨⟨c, hc, ha⟩, hb⟩ := mem_pairChunks h he
  exact ⟨mem_of_mem_splitList hcs hc ha, hb⟩

theorem leafEdges_within (h : leafEdges lg source target ss ts = .ok edges) :
    Within ss ts edges := by
  unfold leafEdges at h
  split at h
  · cases h
    exact within_nil
  · obtain ⟨size, -, h⟩ := bind_ok.mp h
    split at h
    · exact within_pieces h
    · obtain ⟨cs, hcs, h⟩ := bind_ok.mp h
      obtain ⟨edges', he, h⟩ := bind_ok.mp h
      obtain rfl := pure_ok.mp h
      exact within_swap (within_pieces (bind_ok.mpr ⟨cs, hcs, he⟩))

theorem scatterEdges_within (h : scatterEdges source target ss ts = .ok edges) :
    Within ss ts edges := by
  unfold scatterEdges at h
  split at h
  · simp at h
  · cases h
    exact fun e he => List.of_mem_zip he

theorem gatherEdges_within (h : gatherEdges lg source target ss ts = .ok edges) :
    Within ss ts edges := by
  unfold gatherEdges at h
  split at h
  · simp at h
  · obtain ⟨size, hsize, h⟩ := bind_ok.mp h
    exact within_pieces h

/-- An edge of an iteration: its drop is in a piece, and the other one is at the piece's place. -/
theorem mem_everyIteration (h : everyIteration loopSize position ss ts size = .ok edges)
    {e : Drop × Drop} (he : e ∈ edges) : ∃ pieces, splitList ss size = .ok pieces ∧
      ∃ piece index, (piece, index) ∈ pieces.zipIdx ∧ e.1 ∈ piece ∧
        item ts index = .ok e.2 := by
  obtain ⟨pieces, hp, h⟩ := bind_ok.mp h
  obtain ⟨⟨piece, index⟩, hm, es, hes, he⟩ := exists_of_mem_collect h he
  obtain ⟨⟨drop, iteration⟩, hd, es', hes', he⟩ := exists_of_mem_collect hes he
  refine ⟨pieces, hp, piece, index, hm, ?_⟩
  simp only at hes'
  split at hes'
  · simp at hes'
  split at hes'
  · obtain ⟨other, ho, hes'⟩ := bind_ok.mp hes'
    obtain rfl := pure_ok.mp hes'
    obtain rfl := List.mem_singleton.mp he
    exact ⟨List.fst_mem_of_mem_zipIdx hd, ho⟩
  · cases hes'
    simp at he

theorem everyIteration_within (h : everyIteration loopSize position ss ts size = .ok edges) :
    Within ss ts edges := by
  intro e he
  obtain ⟨pieces, hp, piece, index, hm, ha, hb⟩ := mem_everyIteration h he
  exact ⟨mem_of_mem_splitList hp (List.fst_mem_of_mem_zipIdx hm) ha, mem_of_item hb⟩

/-- An edge of the circle: from some place of the list to the place after it. -/
theorem mem_circleEdges (h : circleEdges ss ts loopSize = .ok edges) {e : Drop × Drop}
    (he : e ∈ edges) : ∃ pieces, splitList ss loopSize = .ok pieces ∧
      ∃ piece index iteration, (piece, index) ∈ pieces.zipIdx ∧ (e.1, iteration) ∈ piece.zipIdx ∧
        (iteration : Int) < loopSize - 1 ∧
        item ts (index * loopSize.toNat + iteration + 1) = .ok e.2 := by
  obtain ⟨pieces, hp, h⟩ := bind_ok.mp h
  obtain ⟨⟨piece, index⟩, hm, es, hes, he⟩ := exists_of_mem_collect h he
  obtain ⟨⟨drop, iteration⟩, hd, es', hes', he⟩ := exists_of_mem_collect hes he
  simp only at hes'
  split at hes'
  · rename_i hlt
    obtain ⟨other, ho, hes'⟩ := bind_ok.mp hes'
    obtain rfl := pure_ok.mp hes'
    obtain rfl := List.mem_singleton.mp he
    exact ⟨pieces, hp, piece, index, iteration, hm, hd, hlt, ho⟩
  · cases hes'
    simp at he

theorem circleEdges_within (h : circleEdges ss ts loopSize = .ok edges) :
    Within ss ts edges := by
  intro e he
  obtain ⟨pieces, hp, piece, index, iteration, hm, ha, -, hb⟩ := mem_circleEdges h he
  exact ⟨mem_of_mem_splitList hp (List.fst_mem_of_mem_zipIdx hm) (List.fst_mem_of_mem_zipIdx ha),
    mem_of_item hb⟩

theorem loopEdges_within {loopAware : Bool}
    (h : loopEdges lg source target ss ts loopAware = .ok edges) : Within ss ts edges := by
  unfold loopEdges at h
  split at h
  · split at h
    · simp at h
    · obtain ⟨size, -, h⟩ := bind_ok.mp h
      exact circleEdges_within h
  split at h
  · cases h
    intro e he
    obtain ⟨s, hs, he⟩ := List.mem_flatMap.mp he
    obtain ⟨t, ht, rfl⟩ := List.mem_map.mp he
    exact ⟨hs, List.mem_of_mem_filter ht⟩
  split at h
  · obtain ⟨loopSize, -, h⟩ := bind_ok.mp h
    obtain ⟨size, -, h⟩ := bind_ok.mp h
    exact everyIteration_within h
  split at h
  · obtain ⟨loopSize, -, h⟩ := bind_ok.mp h
    obtain ⟨size, -, h⟩ := bind_ok.mp h
    obtain ⟨edges', he, h⟩ := bind_ok.mp h
    obtain rfl := pure_ok.mp h
    exact within_swap (everyIteration_within he)
  · cases h
    exact within_nil

theorem groupByEdges_within (h : groupByEdges lg source target ss ts = .ok edges) :
    Within ss ts edges := by
  obtain ⟨layers, -, h⟩ := bind_ok.mp h
  obtain ⟨keyed, hkeyed, h⟩ := bind_ok.mp h
  have hmem : ∀ p ∈ keyed, p.2 ∈ ss := by
    intro p hp
    obtain ⟨d, hd, h⟩ := exists_of_mem_mapM hkeyed hp
    obtain ⟨key, -, h⟩ := bind_ok.mp h
    obtain rfl := pure_ok.mp h
    exact hd
  simp only at h
  split at h
  · simp at h
  split at h
  · simp at h
  · obtain rfl := pure_ok.mp h
    intro e he
    obtain ⟨⟨key, t⟩, hkt, he⟩ := List.mem_flatMap.mp he
    obtain ⟨p, hp, rfl⟩ := List.mem_map.mp he
    exact ⟨hmem p (List.mem_of_mem_filter hp), (List.of_mem_zip hkt).2⟩

/-- The edges of a link run from the drops of its source to those of its target. -/
theorem resolveEdges_within (h : resolveEdges lg placed slgn tlgn lk = .ok edges) :
    Within (dropsOf placed slgn.id) (dropsOf placed tlgn.id) edges := by
  unfold resolveEdges at h
  simp only at h
  split at h
  · split at h
    · exact gatherEdges_within h
    split at h
    · cases h
      exact within_nil
    · exact scatterEdges_within h
  split at h
  · split at h
    · exact groupByEdges_within h
    split at h
    · exact gatherEdges_within h
    split at h
    · cases h
      exact within_nil
    · simp at h
  split at h
  · exact loopEdges_within h
  · exact leafEdges_within h

end Handlers

end Daliuge.Unroll
