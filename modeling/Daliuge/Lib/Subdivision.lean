import Mathlib.Logic.Relation

/-! A relation some of whose pairs go through new elements, each between the two elements of one
pair. -/
namespace Subdivision

open Relation

variable {α : Type*} {r s : α → α → Prop} {old : α → Prop} {a b c : α}

/-- `s` is `r` with some pairs replaced by two, through elements that are not `old`. -/
structure Subdivides (r s : α → α → Prop) (old : α → Prop) : Prop where
  ends : ∀ a b, r a b → old a ∧ old b
  direct : ∀ a b, s a b → old a → old b → r a b
  through : ∀ a b, s a b → ¬ old b → old a ∧ ∀ c, s b c → old c ∧ r a c
  path : ∀ a b, r a b → s a b ∨ ∃ m, s a m ∧ s m b

namespace Subdivides

/-- A path from an old element ends in an old one that `r` reaches, or one step after it. -/
theorem of_transGen (h : Subdivides r s old) (ha : old a) (hs : TransGen s a b) :
    (old b → TransGen r a b) ∧ (¬ old b → ∃ c, ReflTransGen r a c ∧ s c b) := by
  induction hs with
  | single hb => exact ⟨fun hob => .single (h.direct _ _ hb ha hob), fun _ => ⟨a, .refl, hb⟩⟩
  | @tail b c _ hbc ih =>
    by_cases hob : old b
    · have hr := ih.1 hob
      exact ⟨fun hoc => hr.tail (h.direct _ _ hbc hob hoc), fun _ => ⟨b, hr.to_reflTransGen, hbc⟩⟩
    · obtain ⟨c', hr, hs⟩ := ih.2 hob
      obtain ⟨hoc, hrc⟩ := (h.through _ _ hs hob).2 _ hbc
      exact ⟨fun _ => TransGen.tail' hr hrc, fun hc => absurd hoc hc⟩

/-- Old elements reach the same old elements. -/
theorem transGen_iff (h : Subdivides r s old) (ha : old a) (hb : old b) :
    TransGen s a b ↔ TransGen r a b := by
  constructor
  · exact fun hs => (h.of_transGen ha hs).1 hb
  · intro hr
    induction hr with
    | single hab =>
      rcases h.path _ _ hab with hs | ⟨m, hm, hs⟩
      · exact .single hs
      · exact (TransGen.single hm).tail hs
    | tail _ hbc ih =>
      have hs := ih (h.ends _ _ hbc).1
      rcases h.path _ _ hbc with hbc | ⟨m, hm, hmc⟩
      · exact hs.tail hbc
      · exact (hs.tail hm).tail hmc

/-- No cycle comes up. -/
theorem acyclic (h : Subdivides r s old) (hr : ∀ a, ¬ TransGen r a a) : ∀ a, ¬ TransGen s a a := by
  intro a hs
  by_cases ha : old a
  · exact hr a ((h.transGen_iff ha ha).mp hs)
  · -- the old elements around a new one are on a cycle of their own
    obtain ⟨b, hab, hba⟩ := TransGen.head'_iff.mp hs
    rcases ReflTransGen.cases_tail hba with rfl | ⟨d, hbd, hda⟩
    · obtain ⟨c, -, hca⟩ := TransGen.tail'_iff.mp hs
      exact ha ((h.through _ _ hca ha).2 _ hab).1
    · obtain ⟨hod, hout⟩ := h.through _ _ hda ha
      obtain ⟨hob, hdb⟩ := hout b hab
      rcases reflTransGen_iff_eq_or_transGen.mp hbd with rfl | hbd
      · exact hr d (.single hdb)
      · exact hr d (.head hdb ((h.transGen_iff hob hod).mp hbd))

end Subdivides

end Subdivision
