import Mathlib.Data.List.Infix

/-! Texts made of pieces with a separator between them, and how one of them lies in another. -/
namespace Separated

variable {α : Type*} {s : α} {us ws vs : List (List α)} {v w : List α}

theorem intercalate_append (hu : us ≠ []) (hw : ws ≠ []) :
    [s].intercalate (us ++ ws) = [s].intercalate us ++ s :: [s].intercalate ws := by
  induction us with
  | nil => exact absurd rfl hu
  | cons u us ih =>
    cases us with
    | nil => simp [List.intercalate_cons_of_ne_nil hw]
    | cons u' us => simpa using ih (by simp)

theorem prefix_intercalate_cons (w : List α) (ws : List (List α)) :
    w <+: [s].intercalate (w :: ws) := by
  cases ws <;> simp

/-- Pieces that two texts have in common at their start tell nothing. -/
theorem intercalate_append_prefix_iff (hv : vs ≠ []) (hw : ws ≠ []) :
    [s].intercalate (us ++ vs) <+: [s].intercalate (us ++ ws) ↔
      [s].intercalate vs <+: [s].intercalate ws := by
  by_cases hu : us = []
  · simp [hu]
  · rw [intercalate_append hu hv, intercalate_append hu hw, List.prefix_append_right_inj,
      List.cons_prefix_cons]
    simp

/-- Where two texts meet, the last piece of the one and the first of the other become one. -/
theorem intercalate_meet (us : List (List α)) (v w : List α) (ws : List (List α)) :
    [s].intercalate (us ++ [v]) ++ [s].intercalate (w :: ws) =
      [s].intercalate (us ++ (v ++ w) :: ws) := by
  induction us with
  | nil => cases ws <;> simp
  | cons u us ih =>
    have hl : us ++ [v] ≠ [] := by simp
    have hr : us ++ (v ++ w) :: ws ≠ [] := by simp
    simp only [List.cons_append, List.intercalate_cons_of_ne_nil hl,
      List.intercalate_cons_of_ne_nil hr, ← ih, List.append_assoc]

theorem intercalate_between (us us' inner : List (List α)) (v first last w : List α) :
    [s].intercalate (us ++ [v]) ++ [s].intercalate (first :: (inner ++ [last])) ++
        [s].intercalate (w :: us') =
      [s].intercalate (us ++ (v ++ first) :: (inner ++ (last ++ w) :: us')) := by
  have h := intercalate_meet (s := s) (us ++ (v ++ first) :: inner) last w us'
  simpa [intercalate_meet] using h

/-- Pieces can be cut further at the separator. -/
theorem intercalate_flatMap {cut : List α → List (List α)}
    (hc : ∀ w ∈ ws, cut w ≠ [] ∧ [s].intercalate (cut w) = w) :
    [s].intercalate (ws.flatMap cut) = [s].intercalate ws := by
  induction ws with
  | nil => rfl
  | cons w ws ih =>
    obtain ⟨hne, hw⟩ := hc w (by simp)
    have hws := ih fun w hw => hc w (by simp [hw])
    cases ws with
    | nil => simp [hw]
    | cons w' ws =>
      have hne' : (w' :: ws).flatMap cut ≠ [] := by
        simpa using fun h => absurd h (hc w' (by simp)).1
      rw [List.flatMap_cons, intercalate_append hne hne', hw, hws]
      simp

/-- The one list of pieces lies in the other: its first piece ends a piece there, its last one
starts a piece, and those between are the same. -/
def Within (ws vs : List (List α)) : Prop :=
  ∃ us v first inner last w us', ws = first :: (inner ++ [last]) ∧
    vs = us ++ (v ++ first) :: (inner ++ (last ++ w) :: us')

theorem intercalate_isInfix (h : Within ws vs) :
    [s].intercalate ws <:+: [s].intercalate vs := by
  obtain ⟨us, v, first, inner, last, w, us', rfl, rfl⟩ := h
  refine ⟨[s].intercalate (us ++ [v]), [s].intercalate (w :: us'), ?_⟩
  exact intercalate_between us us' inner v first last w

theorem notMem_of_mem_splitOn [BEq α] [LawfulBEq α] {text : List α} (h : w ∈ text.splitOn s) :
    s ∉ w := by
  induction text generalizing w with
  | nil =>
    have hw : w = [] := by simpa [List.splitOn_nil] using h
    simp [hw]
  | cons x text ih =>
    rw [List.splitOn_cons_eq_if_modifyHead] at h
    by_cases hx : (x == s) = true
    · rw [if_pos hx] at h
      rcases List.mem_cons.mp h with rfl | h
      · simp
      · exact ih h
    · rw [if_neg hx] at h
      obtain ⟨v, vs, hv⟩ := List.exists_cons_of_ne_nil (List.splitOn_ne_nil s text)
      rw [hv] at ih h
      rcases List.mem_cons.mp h with rfl | h
      · have hne : s ≠ x := fun he => hx (by simp [he])
        simp [hne, ih List.mem_cons_self]
      · exact ih (List.mem_cons_of_mem v h)

/-- When no piece holds the separator, that is the only way for a text of several pieces to
lie in another one. -/
theorem isInfix_iff [BEq α] [LawfulBEq α] (hws : ∀ w ∈ ws, s ∉ w) (hvs : ∀ v ∈ vs, s ∉ v)
    (hv : vs ≠ []) (hw : 1 < ws.length) :
    [s].intercalate ws <:+: [s].intercalate vs ↔ Within ws vs := by
  refine ⟨fun h => ?_, intercalate_isInfix⟩
  obtain ⟨before, after, h⟩ := h
  obtain ⟨first, rest, rfl⟩ := List.exists_cons_of_length_pos (show 0 < ws.length by omega)
  have hrest : rest ≠ [] := by
    rintro rfl
    simp at hw
  obtain ⟨inner, last, rfl⟩ := (List.eq_nil_or_concat' rest).resolve_left hrest
  -- the texts before and after are made of pieces as well
  obtain ⟨us, v, hus⟩ :=
    (List.eq_nil_or_concat' (before.splitOn s)).resolve_left (List.splitOn_ne_nil s before)
  obtain ⟨w, us', hus'⟩ := List.exists_cons_of_ne_nil (List.splitOn_ne_nil s after)
  have hjoin : [s].intercalate (us ++ (v ++ first) :: (inner ++ (last ++ w) :: us')) =
      [s].intercalate vs := by
    have hbefore : [s].intercalate (before.splitOn s) = before := List.intercalate_splitOn s
    have hafter : [s].intercalate (after.splitOn s) = after := List.intercalate_splitOn s
    rw [hus] at hbefore
    rw [hus'] at hafter
    rw [← intercalate_between, hbefore, hafter, h]
  have hpieces : ∀ u ∈ us ++ (v ++ first) :: (inner ++ (last ++ w) :: us'), s ∉ u := by
    have hbefore : ∀ u ∈ us ++ [v], s ∉ u := fun u hu => notMem_of_mem_splitOn (hus ▸ hu)
    have hafter : ∀ u ∈ w :: us', s ∉ u := fun u hu => notMem_of_mem_splitOn (hus' ▸ hu)
    simp only [List.mem_append, List.mem_cons, List.not_mem_nil, or_false] at hbefore hafter hws
    intro u hu
    simp only [List.mem_append, List.mem_cons] at hu
    rcases hu with hu | rfl | hu | rfl | hu
    · exact hbefore u (Or.inl hu)
    · simp [hbefore v (Or.inr rfl), hws first (Or.inl rfl)]
    · exact hws u (Or.inr (Or.inl hu))
    · simp [hws last (Or.inr (Or.inr rfl)), hafter w (Or.inl rfl)]
    · exact hafter u (Or.inr hu)
  refine ⟨us, v, first, inner, last, w, us', rfl, ?_⟩
  rw [← List.splitOn_intercalate s hvs hv, ← hjoin, List.splitOn_intercalate s hpieces (by simp)]

end Separated
