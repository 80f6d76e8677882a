import Mathlib.Data.List.Basic

/-! Texts that are put together with separators, and how they are taken apart again. -/
namespace Text

variable {α : Type*} {c : α} {l₁ l₂ r₁ r₂ : List α} {n m : Nat} {ks : List Nat} {x : Char}

/-- The last separator tells the two parts. -/
theorem append_cons_inj (h : l₁ ++ c :: r₁ = l₂ ++ c :: r₂) (h₁ : c ∉ r₁) (h₂ : c ∉ r₂) :
    l₁ = l₂ ∧ r₁ = r₂ := by
  rcases List.append_eq_append_iff.mp h with ⟨xs, rfl, hx⟩ | ⟨xs, rfl, hx⟩
  · cases xs with
    | nil => simpa using hx
    | cons y ys =>
      obtain ⟨rfl, rfl⟩ := List.cons.inj hx
      simp at h₁
  · cases xs with
    | nil => simpa using hx.symm
    | cons y ys =>
      obtain ⟨rfl, rfl⟩ := List.cons.inj hx
      simp at h₂

theorem isDigit_of_mem_repr (h : x ∈ n.repr.toList) : x.isDigit = true := by
  rw [Nat.toList_repr] at h
  exact Nat.isDigit_of_mem_toDigits (by decide) (by decide) h

theorem repr_inj (h : n.repr.toList = m.repr.toList) : n = m := by
  rw [Nat.toList_repr, Nat.toList_repr] at h
  have hn := Nat.ofDigitChars_ten_toDigits (n := n)
  rw [h, Nat.ofDigitChars_ten_toDigits] at hn
  exact hn.symm

/-- No digit stands first. -/
def NoDigitFirst (t : List Char) : Prop := ∀ x ∈ t.head?, x.isDigit = false

theorem noDigitFirst_append {t t' : List Char} (h : NoDigitFirst t) (h' : NoDigitFirst t') :
    NoDigitFirst (t ++ t') := by
  cases t with
  | nil => exact h'
  | cons y t => exact h

/-- A number is over where something else than a digit follows. -/
theorem repr_append_inj {t t' : List Char} (ht : NoDigitFirst t) (ht' : NoDigitFirst t')
    (h : n.repr.toList ++ t = m.repr.toList ++ t') : n = m := by
  have digits : ∀ (k : Nat) {u : List Char}, NoDigitFirst u →
      (k.repr.toList ++ u).takeWhile Char.isDigit = k.repr.toList := by
    intro k u hu
    rw [List.takeWhile_append_of_pos fun x hx => isDigit_of_mem_repr hx]
    cases u with
    | nil => simp
    | cons y u => simp [hu y rfl]
  have hd := congrArg (List.takeWhile Char.isDigit) h
  rw [digits n ht, digits m ht'] at hd
  exact repr_inj hd

/-- What stands in a joined text stands in a part or in the separator. -/
theorem mem_intercalate {sep : List α} {parts : List (List α)} (h : c ∈ sep.intercalate parts) :
    (∃ part ∈ parts, c ∈ part) ∨ c ∈ sep := by
  induction parts with
  | nil => simp at h
  | cons p parts ih =>
    cases parts with
    | nil => exact Or.inl ⟨p, by simp, by simpa using h⟩
    | cons q parts =>
      rw [List.intercalate_cons_cons] at h
      simp only [List.mem_append] at h
      rcases h with (h | h) | h
      · exact Or.inl ⟨p, by simp, h⟩
      · exact Or.inr h
      · rcases ih h with ⟨part, hp, h⟩ | h
        · exact Or.inl ⟨part, by simp [hp], h⟩
        · exact Or.inr h

/-- Numbers joined by dashes. -/
theorem mem_dashed (h : x ∈ ("-".intercalate (ks.map toString)).toList) :
    x.isDigit = true ∨ x = '-' := by
  rw [String.toList_intercalate] at h
  rcases mem_intercalate h with ⟨part, hp, h⟩ | h
  · simp only [List.map_map, List.mem_map, Function.comp_apply] at hp
    obtain ⟨k, -, rfl⟩ := hp
    exact Or.inl (isDigit_of_mem_repr h)
  · exact Or.inr (by simpa using h)

end Text
