import Mathlib.Algebra.BigOperators.Group.List.Basic
import Mathlib.Algebra.Order.Ring.Nat
import Mathlib.Data.List.Nodup

/-!
# Numbers in mixed radix

The number whose digits stand at the places of a list, each place with a size of its own; the
first one counts most. Places of size 1 count nothing, and the others can be read off the values
of the unit digits.
-/
namespace MixedRadix

variable {ι : Type*} (size digit : ι → Nat)

def value : List ι → Nat
  | [] => 0
  | c :: cs => digit c * (cs.map size).prod + value cs

/-- The digits that are 1 at one place. -/
def unit [DecidableEq ι] (e : ι) : ι → Nat := fun c => if c = e then 1 else 0

variable {size digit} {cs cs' : List ι}

theorem value_lt (h : ∀ c ∈ cs, digit c < size c) : value size digit cs < (cs.map size).prod := by
  induction cs with
  | nil => exact Nat.one_pos
  | cons c cs ih =>
    have hc := h c List.mem_cons_self
    have hcs := ih fun c' hc' => h c' (List.mem_cons_of_mem c hc')
    rw [value, List.map_cons, List.prod_cons]
    calc digit c * (cs.map size).prod + value size digit cs
        < digit c * (cs.map size).prod + (cs.map size).prod := Nat.add_lt_add_left hcs _
      _ = (digit c + 1) * (cs.map size).prod := (Nat.succ_mul _ _).symm
      _ ≤ size c * (cs.map size).prod := Nat.mul_le_mul_right _ hc

theorem prod_pos (h : ∀ c ∈ cs, 0 < size c) : 0 < (cs.map size).prod := by
  have hlt : value size (fun _ => 0) cs < (cs.map size).prod := value_lt h
  omega

theorem prod_squeeze (h : ∀ c ∈ cs, 0 < size c) :
    ((cs.filter fun c => 2 ≤ size c).map size).prod = (cs.map size).prod := by
  induction cs with
  | nil => rfl
  | cons c cs ih =>
    have hcs := ih fun c' hc' => h c' (List.mem_cons_of_mem c hc')
    rw [List.filter_cons]
    split
    · rw [List.map_cons, List.map_cons, List.prod_cons, List.prod_cons, hcs]
    · rename_i hc
      have hpos := h c List.mem_cons_self
      have hone : size c = 1 := by
        simp only [decide_eq_true_eq] at hc
        omega
      rw [hcs, List.map_cons, List.prod_cons, hone, Nat.one_mul]

/-- Places of size 1 count nothing. -/
theorem value_squeeze (h : ∀ c ∈ cs, digit c < size c) :
    value size digit (cs.filter fun c => 2 ≤ size c) = value size digit cs := by
  induction cs with
  | nil => rfl
  | cons c cs ih =>
    have hrest : ∀ c' ∈ cs, digit c' < size c' := fun c' hc' => h c' (List.mem_cons_of_mem c hc')
    rw [List.filter_cons]
    split
    · rw [value, value, ih hrest, prod_squeeze fun c' hc' => by have := hrest c' hc'; omega]
    · rename_i hc
      have hlt := h c List.mem_cons_self
      have hzero : digit c = 0 := by
        simp only [decide_eq_true_eq] at hc
        omega
      rw [ih hrest, value, hzero, Nat.zero_mul, Nat.zero_add]

variable [DecidableEq ι] {e : ι}

theorem value_unit_of_notMem (h : e ∉ cs) : value size (unit e) cs = 0 := by
  induction cs with
  | nil => rfl
  | cons c cs ih =>
    rw [List.mem_cons, not_or] at h
    rw [value, unit, if_neg (Ne.symm h.1), ih h.2]
    simp

theorem unit_lt (hpos : ∀ c ∈ cs, 0 < size c) (he : 2 ≤ size e) : ∀ c ∈ cs, unit e c < size c := by
  intro c hc
  rw [unit]
  split
  · rename_i h
    subst h
    omega
  · exact hpos c hc

/-- The values of the unit digits say what the places are. -/
theorem eq_of_units (hn : cs.Nodup) (hn' : cs'.Nodup) (hs : ∀ c ∈ cs, 2 ≤ size c)
    (hs' : ∀ c ∈ cs', 2 ≤ size c)
    (h : ∀ e ∈ cs ++ cs', value size (unit e) cs = value size (unit e) cs') : cs = cs' := by
  induction cs generalizing cs' with
  | nil =>
    cases cs' with
    | nil => rfl
    | cons e cs' =>
      have he := h e (by simp)
      have hpos : 0 < (cs'.map size).prod := prod_pos fun c hc => by
        have := hs' c (List.mem_cons_of_mem e hc)
        omega
      rw [value, value, unit, if_pos rfl] at he
      omega
  | cons c cs ih =>
    have hpos : ∀ c' ∈ cs, 0 < size c' := fun c' hc' => by
      have := hs c' (List.mem_cons_of_mem c hc')
      omega
    obtain ⟨hnc, hncs⟩ := List.nodup_cons.mp hn
    have hself : value size (unit c) (c :: cs) = (cs.map size).prod := by
      rw [value, unit, if_pos rfl, value_unit_of_notMem hnc]
      simp
    cases cs' with
    | nil =>
      have he := h c (by simp)
      rw [hself, value] at he
      have := prod_pos hpos
      omega
    | cons e cs' =>
      have hpos' : ∀ c' ∈ cs', 0 < size c' := fun c' hc' => by
        have := hs' c' (List.mem_cons_of_mem e hc')
        omega
      obtain ⟨hne, hncs'⟩ := List.nodup_cons.mp hn'
      have hself' : value size (unit e) (e :: cs') = (cs'.map size).prod := by
        rw [value, unit, if_pos rfl, value_unit_of_notMem hne]
        simp
      have hc := h c (by simp)
      have he := h e (by simp)
      rw [hself] at hc
      rw [hself'] at he
      have hce : c = e := by
        by_contra hne'
        -- each of the two would count more than all the places after the other one
        rw [value, unit, if_neg (Ne.symm hne'), Nat.zero_mul, Nat.zero_add] at hc
        rw [value, unit, if_neg hne', Nat.zero_mul, Nat.zero_add] at he
        have hlt := value_lt (unit_lt hpos' (hs c List.mem_cons_self))
        have hlt' := value_lt (unit_lt hpos (hs' e List.mem_cons_self))
        omega
      subst hce
      rw [hself'] at hc
      refine congrArg _ (ih hncs hncs' (fun c' hc' => hs c' (List.mem_cons_of_mem c hc'))
        (fun c' hc' => hs' c' (List.mem_cons_of_mem c hc')) fun e' he' => ?_)
      have hunit := h e' (by
        rw [List.mem_append] at he' ⊢
        exact he'.imp (List.mem_cons_of_mem c) (List.mem_cons_of_mem c))
      rw [value, value, hc] at hunit
      omega

end MixedRadix
