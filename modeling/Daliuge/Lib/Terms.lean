import Mathlib.Algebra.Order.BigOperators.Group.List
import Mathlib.Algebra.Order.Ring.Nat

/-!
# Hash values as terms

A hash of a list of values taken as the free term of that list, with weights of terms that
add up over what a term is made of.
-/
namespace Terms

/-- Values that are given, and the two kinds of hash of a list of values. -/
inductive Term (α : Type)
  | atom (a : α)
  | tree (l : List (Term α))
  | plain (l : List (Term α))

namespace Term

variable {α : Type} (f : Term α → Nat)

mutual

/-- The weights of a term and of all that occurs in it. -/
def weigh : Term α → Nat
  | atom a => f (atom a)
  | tree l => f (tree l) + weighAll l
  | plain l => f (plain l) + weighAll l

def weighAll : List (Term α) → Nat
  | [] => 0
  | t :: l => weigh t + weighAll l

end

variable {f} {t s : Term α} {l : List (Term α)}

theorem weighAll_eq_sum : weighAll f l = (l.map (weigh f)).sum := by
  induction l with
  | nil => simp [weighAll]
  | cons t l ih => simp [weighAll, ih]

theorem weigh_tree : weigh f (tree l) = f (tree l) + (l.map (weigh f)).sum := by
  rw [weigh, weighAll_eq_sum]

/-- How many terms occur in a term, with itself. -/
def size (t : Term α) : Nat := weigh (fun _ => 1) t

theorem size_tree : size (tree l) = 1 + (l.map size).sum := weigh_tree

theorem size_lt_tree (h : t ∈ l) : size t < size (tree l) := by
  have hle : size t ≤ (l.map size).sum :=
    List.single_le_sum (fun _ _ => Nat.zero_le _) _ (List.mem_map_of_mem h)
  rw [size_tree]
  omega

/-- How often a term occurs in another one. -/
def occurrences [DecidableEq (Term α)] (s : Term α) : Term α → Nat :=
  weigh fun t => if t = s then 1 else 0

variable [DecidableEq (Term α)]

theorem occurrences_self_pos : 0 < occurrences s s := by
  cases s <;> simp [occurrences, weigh]

mutual

/-- A term does not occur in one that is not larger, itself apart. -/
theorem occurrences_eq_zero (s : Term α) :
    ∀ t : Term α, size t ≤ size s → t ≠ s → occurrences s t = 0
  | atom a, _, hne => by simp [occurrences, weigh, hne]
  | tree l, hle, hne => by
    have hl := occurrencesAll_eq_zero s l (by simpa [size, weigh] using hle)
    simp [occurrences, weigh, hne, hl]
  | plain l, hle, hne => by
    have hl := occurrencesAll_eq_zero s l (by simpa [size, weigh] using hle)
    simp [occurrences, weigh, hne, hl]

theorem occurrencesAll_eq_zero (s : Term α) : ∀ l : List (Term α),
    1 + weighAll (fun _ => 1) l ≤ size s → weighAll (fun t => if t = s then 1 else 0) l = 0
  | [], _ => rfl
  | t :: l, hle => by
    rw [weighAll] at hle
    have ht : size t < size s := by
      change weigh (fun _ => 1) t < _
      omega
    have hne : t ≠ s := by
      rintro rfl
      omega
    have h1 := occurrences_eq_zero s t (by omega) hne
    have h2 := occurrencesAll_eq_zero s l (by omega)
    rw [weighAll, h2]
    exact h1

end

end Term

end Terms
