import Mathlib.Data.List.Infix
import Mathlib.Data.List.DropRight

/-!
# Numbers written as text

Which texts are read as an integer or as a floating point number: blanks around a sign and groups
of digits between which an underscore may stand.
-/
namespace Numeral

/-- The digits and blanks of the character set; only its printable ASCII part is fixed. -/
structure Alphabet where
  digit : Char → Option Nat
  space : Char → Bool
  digit_ascii : ∀ x : Char, x.toNat < 128 →
    digit x = if x.isDigit then some (x.toNat - '0'.toNat) else none
  space_printable : ∀ x : Char, 32 < x.toNat → x.toNat < 127 → space x = false

/-- The ASCII characters. -/
def Alphabet.ascii : Alphabet where
  digit := fun x => if x.isDigit then some (x.toNat - '0'.toNat) else none
  space := Char.isWhitespace
  digit_ascii := fun _ _ => rfl
  space_printable := by
    intro x hx _
    simp only [Char.isWhitespace, Bool.or_eq_false_iff, decide_eq_false_iff_not]
    refine ⟨⟨⟨?_, ?_⟩, ?_⟩, ?_⟩ <;> rintro rfl <;> exact absurd hx (by decide)

instance lawfulBEqChars : LawfulBEq (List Char) := inferInstance

variable (A : Alphabet) {l : List Char} {x : Char}

/-- Without the blanks around it. -/
def strip (l : List Char) : List Char := (l.dropWhile A.space).rdropWhile A.space

/-- Digits, with at most one underscore between two of them. -/
def digitPart : List Char → Option (List Nat)
  | [] => none
  | [x] => (A.digit x).map fun d => [d]
  | x :: '_' :: l => (A.digit x).bind fun d => (digitPart l).map fun ds => d :: ds
  | x :: l => (A.digit x).bind fun d => (digitPart l).map fun ds => d :: ds

def isDigits (l : List Char) : Bool := (digitPart A l).isSome

def unsigned : List Char → List Char
  | '+' :: l => l
  | '-' :: l => l
  | l => l

def natural (l : List Char) : Option Nat :=
  (digitPart A l).map fun ds => ds.foldl (fun n d => 10 * n + d) 0

def integer (l : List Char) : Option Int :=
  match strip A l with
  | '-' :: l => (natural A l).map fun n => -(n : Int)
  | l => (natural A (unsigned l)).map fun n => (n : Int)

/-- Digits with a point before, in or after them, or with none. -/
def isPointed (l : List Char) : Bool :=
  match l.dropWhile (· ≠ '.') with
  | [] => isDigits A l
  | _ :: fraction =>
    let whole := l.takeWhile (· ≠ '.')
    whole.isEmpty && isDigits A fraction ||
      isDigits A whole && (fraction.isEmpty || isDigits A fraction)

def isExponential (l : List Char) : Bool :=
  match l.dropWhile fun x => x ≠ 'e' ∧ x ≠ 'E' with
  | [] => isPointed A l
  | _ :: exponent =>
    isPointed A (l.takeWhile fun x => x ≠ 'e' ∧ x ≠ 'E') && isDigits A (unsigned exponent)

/-- The texts that are read as a floating point number. -/
def isFloating (l : List Char) : Bool :=
  let number := unsigned (strip A l)
  decide (number.map Char.toLower ∈ ["inf".toList, "infinity".toList, "nan".toList]) ||
    isExponential A number

variable {A}

/-! What stands in such texts. -/

theorem mem_of_isDigits (h : isDigits A l = true) (hx : x ∈ l) :
    (A.digit x).isSome = true ∨ x = '_' := by
  fun_induction digitPart A l with
  | case1 => simp at hx
  | case2 y =>
    obtain rfl := List.mem_singleton.mp hx
    exact Or.inl (by simpa [isDigits, digitPart] using h)
  | case3 y l ih =>
    cases hd : A.digit y with
    | none => simp [isDigits, digitPart, hd] at h
    | some d =>
      rcases List.mem_cons.mp hx with rfl | hx
      · exact Or.inl (by simp [hd])
      · rcases List.mem_cons.mp hx with rfl | hx
        · exact Or.inr rfl
        · exact ih (by simpa [isDigits, digitPart, hd] using h) hx
  | case4 y l hne hsep ih =>
    cases hd : A.digit y with
    | none => simp [isDigits, digitPart, hd] at h
    | some d =>
      rcases List.mem_cons.mp hx with rfl | hx
      · exact Or.inl (by simp [hd])
      · exact ih (by simpa [isDigits, digitPart, hd] using h) hx

theorem mem_strip (h : x ∈ l) (hx : A.space x = false) : x ∈ strip A l := by
  have hdrop : ∀ l : List Char, x ∈ l → x ∈ l.dropWhile A.space := by
    intro l hl
    rw [← List.takeWhile_append_dropWhile (p := A.space) (l := l), List.mem_append] at hl
    rcases hl with hl | hl
    · exact absurd (List.mem_takeWhile_imp hl) (by simp [hx])
    · exact hl
  rw [strip, List.rdropWhile, List.mem_reverse]
  exact hdrop _ (List.mem_reverse.mpr (hdrop l h))

theorem mem_unsigned (h : x ∈ l) (hp : x ≠ '+') (hm : x ≠ '-') : x ∈ unsigned l := by
  unfold unsigned
  split
  · exact (List.mem_cons.mp h).resolve_left hp
  · exact (List.mem_cons.mp h).resolve_left hm
  · exact h

/-- A brace stands in no number. -/
theorem digit_brace : A.digit '{' = none := by
  rw [A.digit_ascii '{' (by decide)]
  rfl

theorem space_brace : A.space '{' = false := A.space_printable '{' (by decide) (by decide)

theorem brace_notMem_of_isDigits (h : isDigits A l = true) : '{' ∉ l := by
  intro hm
  rcases mem_of_isDigits h hm with hd | hu
  · simp [digit_brace] at hd
  · exact absurd hu (by decide)

/-- The parts of a text around its first separator. -/
theorem mem_of_mem_parts {p : Char → Bool} {y : Char} {ys : List Char}
    (hs : l.dropWhile p = y :: ys) (hx : x ∈ l) : x ∈ l.takeWhile p ∨ x = y ∨ x ∈ ys := by
  rw [← List.takeWhile_append_dropWhile (p := p) (l := l), hs, List.mem_append,
    List.mem_cons] at hx
  exact hx

theorem not_of_dropWhile {p : Char → Bool} {y : Char} {ys : List Char}
    (hs : l.dropWhile p = y :: ys) : p y = false := by
  have hne : l.dropWhile p ≠ [] := by rw [hs]; exact List.cons_ne_nil y ys
  have := List.head_dropWhile_not p hne
  simpa only [hs, List.head_cons] using this

theorem brace_notMem_of_isPointed (h : isPointed A l = true) : '{' ∉ l := by
  intro hm
  rw [isPointed] at h
  split at h
  · exact brace_notMem_of_isDigits h hm
  · rename_i y fraction hs
    have hy : y = '.' := by simpa using not_of_dropWhile hs
    have hdigits : ∀ l : List Char, l.isEmpty = true ∨ isDigits A l = true → '{' ∉ l := by
      rintro l (h | h)
      · simp [List.isEmpty_iff.mp h]
      · exact brace_notMem_of_isDigits h
    simp only [Bool.or_eq_true, Bool.and_eq_true] at h
    rcases mem_of_mem_parts hs hm with hw | rfl | hf
    · exact hdigits _ (h.elim (fun h => Or.inl h.1) fun h => Or.inr h.1) hw
    · exact absurd hy (by decide)
    · exact hdigits _ (h.elim (fun h => Or.inr h.2) fun h => h.2) hf

theorem brace_notMem_of_isExponential (h : isExponential A l = true) : '{' ∉ l := by
  intro hm
  rw [isExponential] at h
  split at h
  · exact brace_notMem_of_isPointed h hm
  · rename_i y exponent hs
    have hy : y = 'e' ∨ y = 'E' := by
      have := of_decide_eq_false (not_of_dropWhile hs)
      tauto
    rw [Bool.and_eq_true] at h
    rcases mem_of_mem_parts hs hm with hw | rfl | he
    · exact brace_notMem_of_isPointed h.1 hw
    · rcases hy with hy | hy <;> exact absurd hy (by decide)
    · exact brace_notMem_of_isDigits h.2 (mem_unsigned he (by decide) (by decide))

theorem isDigits_of_integer (h : (integer A l).isSome = true) :
    isDigits A (unsigned (strip A l)) = true := by
  rw [integer] at h
  split at h
  · rename_i l' hl
    rw [hl, unsigned, isDigits]
    cases hd : digitPart A l' with
    | none => simp [natural, hd] at h
    | some ds => rfl
  · rw [isDigits]
    cases hd : digitPart A (unsigned (strip A l)) with
    | none => simp [natural, hd] at h
    | some ds => rfl

theorem brace_notMem_of_integer (h : (integer A l).isSome = true) : '{' ∉ l := by
  intro hm
  exact brace_notMem_of_isDigits (isDigits_of_integer h)
    (mem_unsigned (mem_strip hm space_brace) (by decide) (by decide))

theorem brace_notMem_of_isFloating (h : isFloating A l = true) : '{' ∉ l := by
  intro hm
  have hnumber := mem_unsigned (mem_strip hm (space_brace (A := A))) (by decide) (by decide)
  simp only [isFloating, Bool.or_eq_true, decide_eq_true_eq] at h
  rcases h with h | h
  · have hlower : '{' ∈ (unsigned (strip A l)).map Char.toLower :=
      List.mem_map.mpr ⟨'{', hnumber, by decide⟩
    simp only [List.mem_cons, List.not_mem_nil, or_false] at h
    rcases h with h | h | h <;> rw [h] at hlower <;> exact absurd hlower (by decide)
  · exact brace_notMem_of_isExponential h hnumber

/-- An integer is read as a floating point number too. -/
theorem isFloating_of_integer (h : (integer A l).isSome = true) : isFloating A l = true := by
  have hd := isDigits_of_integer h
  have hno : ∀ y : Char, y.toNat < 128 → y.isDigit = false → y ≠ '_' →
      y ∉ unsigned (strip A l) := by
    intro y hy hdigit hu hm
    rcases mem_of_isDigits hd hm with hs | hs
    · simp [A.digit_ascii y hy, hdigit] at hs
    · exact hu hs
  have hpoint : (unsigned (strip A l)).dropWhile (· ≠ '.') = [] := by
    rw [List.dropWhile_eq_nil_iff]
    intro y hy
    have := hno '.' (by decide) (by decide) (by decide)
    simpa using fun he : y = '.' => this (he ▸ hy)
  have hexp : (unsigned (strip A l)).dropWhile (fun x => x ≠ 'e' ∧ x ≠ 'E') = [] := by
    rw [List.dropWhile_eq_nil_iff]
    intro y hy
    have he := hno 'e' (by decide) (by decide) (by decide)
    have hE := hno 'E' (by decide) (by decide) (by decide)
    refine decide_eq_true ⟨?_, ?_⟩
    · rintro rfl
      exact he hy
    · rintro rfl
      exact hE hy
  rw [isFloating, Bool.or_eq_true]
  refine Or.inr ?_
  rw [isExponential, hexp]
  simp only [isPointed, hpoint]
  exact hd

end Numeral
