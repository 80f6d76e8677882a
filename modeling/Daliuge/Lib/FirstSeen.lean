import Mathlib.Data.List.Range
import Mathlib.Data.List.Nodup

/-! The elements of a list in the order in which they first occur. -/
namespace FirstSeen

variable {α β : Type*} [DecidableEq α] [DecidableEq β] {l pre : List α} {ms : List Nat} {a x : α}
  {n : Nat}

theorem eraseDups_snoc :
    (l ++ [a]).eraseDups = if a ∈ l then l.eraseDups else l.eraseDups ++ [a] := by
  rw [List.eraseDups_append]
  split
  · rename_i h
    simp [List.removeAll, h]
  · rename_i h
    have hr : [a].removeAll l = [a] := by simp [List.removeAll, h]
    rw [hr, List.eraseDups_cons]
    simp

/-- What a loop that appends what is not there yet ends with. -/
theorem foldl_append_new :
    l.foldl (fun ks k => if k ∈ ks then ks else ks ++ [k]) [] = l.eraseDups := by
  induction l using List.reverseRecOn with
  | nil => rfl
  | append_singleton l a ih =>
    rw [List.foldl_append, ih, eraseDups_snoc]
    simp

theorem nodup_eraseDups : l.eraseDups.Nodup := by
  induction l using List.reverseRecOn with
  | nil => simp
  | append_singleton l a ih =>
    rw [eraseDups_snoc]
    split
    · exact ih
    · rename_i h
      refine List.nodup_append'.mpr ⟨ih, List.nodup_singleton a, ?_⟩
      simpa using h

theorem eraseDups_map {f : α → β} (hf : Function.Injective f) :
    (l.map f).eraseDups = l.eraseDups.map f := by
  induction l using List.reverseRecOn with
  | nil => rfl
  | append_singleton l a ih =>
    have hm : f a ∈ l.map f ↔ a ∈ l := List.mem_map_of_injective hf
    rw [List.map_append, List.map_singleton, eraseDups_snoc, eraseDups_snoc, ih]
    by_cases ha : a ∈ l
    · rw [if_pos (hm.mpr ha), if_pos ha]
    · rw [if_neg (fun h => ha (hm.mp h)), if_neg ha, List.map_append, List.map_singleton]

/-- No number occurs before all below it have. -/
def InOrder (ms : List Nat) : Prop :=
  ∀ pre x post, ms = pre ++ x :: post → ∀ y < x, y ∈ pre

theorem inOrder_snoc {m : Nat} : InOrder (ms ++ [m]) ↔ InOrder ms ∧ ∀ y < m, y ∈ ms := by
  constructor
  · intro h
    refine ⟨fun pre x post he => h pre x (post ++ [m]) (by simp [he]), h ms m [] rfl⟩
  · rintro ⟨h, hm⟩ pre x post he
    rcases List.eq_nil_or_concat post with rfl | ⟨post, b, rfl⟩
    · obtain ⟨rfl, h1⟩ := List.append_inj' he rfl
      obtain rfl := (List.cons.inj h1).1
      exact hm
    · rw [List.concat_eq_append, ← List.cons_append, ← List.append_assoc] at he
      exact h pre x post (List.append_inj' he rfl).1

/-- The numbers are first seen from 0 on, without a gap. -/
theorem inOrder_iff : InOrder ms ↔ ms.eraseDups = List.range ms.eraseDups.length := by
  induction ms using List.reverseRecOn with
  | nil => simp [InOrder]
  | append_singleton ms m ih =>
    rw [inOrder_snoc, ih, eraseDups_snoc]
    split
    · rename_i hm
      refine and_iff_left_of_imp fun h y hy => ?_
      have hlt : m < ms.eraseDups.length := by
        have := List.mem_eraseDups.mpr hm
        rw [h] at this
        exact List.mem_range.mp this
      refine List.mem_eraseDups.mp ?_
      rw [h]
      exact List.mem_range.mpr (by omega)
    · rename_i hm
      rw [List.length_append, List.length_singleton, List.range_succ]
      constructor
      · rintro ⟨h, hall⟩
        rw [← h]
        congr 2
        -- all below `m` are there, and `m` is not
        have h1 : ¬ m < ms.eraseDups.length := by
          intro hlt
          refine hm (List.mem_eraseDups.mp ?_)
          rw [h]
          exact List.mem_range.mpr hlt
        have h2 : ¬ ms.eraseDups.length < m := by
          intro hlt
          have hmem := List.mem_eraseDups.mpr (hall _ hlt)
          rw [h] at hmem
          simp at hmem
        omega
      · intro h
        obtain ⟨hr, hm'⟩ := List.append_inj' h rfl
        refine ⟨hr, fun y hy => List.mem_eraseDups.mp ?_⟩
        rw [hr, List.mem_range, ← (List.cons.inj hm').1]
        exact hy

end FirstSeen
