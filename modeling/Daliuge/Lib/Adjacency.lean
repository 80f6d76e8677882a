import Mathlib.Data.List.Basic
import Mathlib.Logic.Function.Basic

/-! A relation kept as two families of lists, one for each side, and extended one pair at a time. -/
namespace Adjacency

variable {α β : Type*} [DecidableEq α] [DecidableEq β] {l : α → List β} {r : β → List α}
  {a x : α} {b y : β}

/-- The two families list the same pairs, and no pair twice. -/
structure Matched (l : α → List β) (r : β → List α) : Prop where
  mem_iff : ∀ a b, b ∈ l a ↔ a ∈ r b
  left_nodup : ∀ a, (l a).Nodup
  right_nodup : ∀ b, (r b).Nodup

/-- Append to one list of a family. -/
def push (l : α → List β) (a : α) (b : β) : α → List β := Function.update l a (l a ++ [b])

omit [DecidableEq β] in
@[simp] theorem mem_push : y ∈ push l a b x ↔ y ∈ l x ∨ x = a ∧ y = b := by
  unfold push
  by_cases hx : x = a
  · subst hx
    simp
  · simp [hx]

omit [DecidableEq β] in
theorem nodup_push (h : (l x).Nodup) (hb : b ∉ l a) : (push l a b x).Nodup := by
  unfold push
  by_cases hx : x = a
  · subst hx
    simpa [List.nodup_append] using ⟨h, fun y hy => by rintro rfl; exact hb hy⟩
  · simpa [hx] using h

/-- A new pair entered on both sides keeps the families matched. -/
theorem Matched.push (h : Matched l r) (hb : b ∉ l a) :
    Matched (push l a b) (push r b a) := by
  have ha : a ∉ r b := fun ha => hb ((h.mem_iff a b).mpr ha)
  refine ⟨fun x y => ?_, fun x => nodup_push (h.left_nodup x) hb,
    fun y => nodup_push (h.right_nodup y) ha⟩
  rw [mem_push, mem_push, h.mem_iff, and_comm]

end Adjacency
