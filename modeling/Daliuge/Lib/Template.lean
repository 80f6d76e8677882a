import Mathlib.Data.List.Infix
import Mathlib.Data.List.Nodup

/-!
# Texts with placeholders

A placeholder is a name in braces. A text is taken apart into characters and placeholders; what
replacing a placeholder does to it is read off its pieces, as long as no value brings in a new one.
-/
namespace Template

def placeholder (name : String) : List Char := '{' :: name.toList ++ ['}']

/-- Names without braces: two placeholders in a text then never overlap. -/
def Plain (name : String) : Prop := '{' ∉ name.toList ∧ '}' ∉ name.toList

instance (name : String) : Decidable (Plain name) :=
  inferInstanceAs (Decidable ('{' ∉ name.toList ∧ '}' ∉ name.toList))

/-- Replace all occurrences from left to right; `skip` counts what is left of the last one. -/
def replaceFrom (pattern value : List Char) : Nat → List Char → List Char
  | _, [] => []
  | skip + 1, _ :: l => replaceFrom pattern value skip l
  | 0, x :: l =>
    if pattern <+: x :: l then value ++ replaceFrom pattern value (pattern.length - 1) l
    else x :: replaceFrom pattern value 0 l

def replace (pattern value l : List Char) : List Char := replaceFrom pattern value 0 l

inductive Piece
  | char (x : Char)
  | hole (name : String)
  deriving DecidableEq, Repr

def piecesFrom (names : List String) : Nat → List Char → List Piece
  | _, [] => []
  | skip + 1, _ :: l => piecesFrom names skip l
  | 0, x :: l =>
    match names.find? fun n => decide (placeholder n <+: x :: l) with
    | some n => .hole n :: piecesFrom names (n.toList.length + 1) l
    | none => .char x :: piecesFrom names 0 l

/-- A text, taken apart. -/
def pieces (names : List String) (l : List Char) : List Piece := piecesFrom names 0 l

/-- What a piece reads as when some variables have values. -/
def Piece.text (values : String → Option (List Char)) : Piece → List Char
  | .char x => [x]
  | .hole n => (values n).getD (placeholder n)

def render (values : String → Option (List Char)) (ps : List Piece) : List Char :=
  ps.flatMap (Piece.text values)

/-- The pieces of the text that results when no value brings in a placeholder. -/
def Piece.settle (values : String → Option (List Char)) : Piece → List Piece
  | .char x => [.char x]
  | .hole n =>
    match values n with
    | none => [.hole n]
    | some v => v.map Piece.char

def settle (values : String → Option (List Char)) (ps : List Piece) : List Piece :=
  ps.flatMap (Piece.settle values)

variable {names : List String} {name m n : String} {l r v : List Char} {ps : List Piece} {x : Char}
  {values values' : String → Option (List Char)}

/-! One placeholder at the start of a text. -/

theorem length_placeholder (n : String) : (placeholder n).length = n.toList.length + 2 := by
  simp [placeholder]

/-- The first separator tells the two parts. -/
theorem append_cons_inj_left {α : Type*} {c : α} {l₁ l₂ r₁ r₂ : List α}
    (h : l₁ ++ c :: r₁ = l₂ ++ c :: r₂) (h₁ : c ∉ l₁) (h₂ : c ∉ l₂) : l₁ = l₂ := by
  induction l₁ generalizing l₂ with
  | nil =>
    cases l₂ with
    | nil => rfl
    | cons y ys =>
      obtain ⟨rfl, -⟩ := List.cons.inj h
      simp at h₂
  | cons x xs ih =>
    cases l₂ with
    | nil =>
      obtain ⟨rfl, -⟩ := List.cons.inj h
      simp at h₁
    | cons y ys =>
      obtain ⟨rfl, hrest⟩ := List.cons.inj h
      rw [ih hrest (fun hm => h₁ (List.mem_cons_of_mem _ hm))
        fun hm => h₂ (List.mem_cons_of_mem _ hm)]

theorem placeholder_unique (hm : Plain m) (hn : Plain n) (h : placeholder m <+: l)
    (h' : placeholder n <+: l) : m = n := by
  obtain ⟨r, rfl⟩ := h
  obtain ⟨r', h'⟩ := h'
  simp only [placeholder, List.cons_append, List.append_assoc, List.nil_append,
    List.cons.injEq, true_and] at h'
  exact (String.toList_injective (append_cons_inj_left h' hn.2 hm.2)).symm

/-- An opening brace is not inside of a name. -/
theorem infix_append_of_notMem (h : '{' ∉ l) :
    '{' :: v <:+: l ++ r ↔ '{' :: v <:+: r := by
  induction l with
  | nil => rfl
  | cons x l ih =>
    have hx : '{' ≠ x := fun he => h (by rw [he]; exact List.mem_cons_self)
    have hl : '{' ∉ l := fun hm => h (List.mem_cons_of_mem x hm)
    rw [List.cons_append, List.infix_cons_iff, ih hl]
    constructor
    · rintro (hp | hi)
      · exact absurd (List.cons_prefix_cons.mp hp).1 hx
      · exact hi
    · exact Or.inr

/-! Taking a text apart. -/

theorem replaceFrom_drop (pattern value : List Char) (skip : Nat) (l : List Char) :
    replaceFrom pattern value skip l = replace pattern value (l.drop skip) := by
  induction skip generalizing l with
  | zero => rfl
  | succ skip ih =>
    cases l with
    | nil => rfl
    | cons x l => exact ih l

theorem piecesFrom_drop (names : List String) (skip : Nat) (l : List Char) :
    piecesFrom names skip l = pieces names (l.drop skip) := by
  induction skip generalizing l with
  | zero => rfl
  | succ skip ih =>
    cases l with
    | nil => rfl
    | cons x l => exact ih l

@[simp] theorem pieces_nil : pieces names [] = [] := rfl

theorem replace_placeholder :
    replace (placeholder n) v (placeholder n ++ l) = v ++ replace (placeholder n) v l := by
  have hp : placeholder n <+: '{' :: (n.toList ++ ['}'] ++ l) := by
    simp [placeholder]
  have hcons : placeholder n ++ l = '{' :: (n.toList ++ ['}'] ++ l) := rfl
  rw [hcons, replace, replaceFrom, if_pos hp, replaceFrom_drop, length_placeholder]
  simp

theorem replace_cons (h : ¬ v <+: x :: l) :
    replace v r (x :: l) = x :: replace v r l := by
  rw [replace, replaceFrom, if_neg h]
  rfl

theorem replace_append_of_notMem (h : '{' ∉ l) :
    replace (placeholder n) v (l ++ r) = l ++ replace (placeholder n) v r := by
  induction l with
  | nil => rfl
  | cons y l ih =>
    have hy : '{' ≠ y := fun he => h (by rw [he]; exact List.mem_cons_self)
    have hl : '{' ∉ l := fun hm => h (List.mem_cons_of_mem y hm)
    have hstart : ¬ placeholder n <+: y :: (l ++ r) := fun hp => hy (List.cons_prefix_cons.mp hp).1
    rw [List.cons_append, replace_cons hstart, ih hl]
    rfl

theorem pieces_placeholder (hp : ∀ m ∈ names, Plain m) (hn : n ∈ names) :
    pieces names (placeholder n ++ l) = .hole n :: pieces names l := by
  have hfirst : placeholder n <+: '{' :: (n.toList ++ ['}'] ++ l) := by
    simp [placeholder]
  rw [pieces, placeholder, List.cons_append, List.cons_append, piecesFrom]
  cases hf : names.find? fun m => decide (placeholder m <+: '{' :: (n.toList ++ ['}'] ++ l)) with
  | none =>
    rw [List.find?_eq_none] at hf
    exact absurd (by simpa using hfirst) (hf n hn)
  | some m =>
    have hm : placeholder m <+: '{' :: (n.toList ++ ['}'] ++ l) := by
      simpa using List.find?_some hf
    obtain rfl := placeholder_unique (hp m (List.mem_of_find?_eq_some hf)) (hp n hn) hm hfirst
    simp [piecesFrom_drop]

theorem pieces_cons (h : ∀ m ∈ names, ¬ placeholder m <+: x :: l) :
    pieces names (x :: l) = .char x :: pieces names l := by
  have hf : names.find? (fun m => decide (placeholder m <+: x :: l)) = none := by
    rw [List.find?_eq_none]
    intro m hm
    simpa using h m hm
  rw [pieces, piecesFrom, hf]
  rfl

/-- A text is empty, starts with a placeholder, or with a character that starts none. -/
theorem text_induction (names : List String) {P : List Char → Prop} (nil : P [])
    (hole : ∀ n ∈ names, ∀ l, P l → P (placeholder n ++ l))
    (char : ∀ x l, (∀ m ∈ names, ¬ placeholder m <+: x :: l) → P l → P (x :: l))
    (l : List Char) : P l := by
  induction h : l.length using Nat.strong_induction_on generalizing l with
  | _ k ih =>
    cases l with
    | nil => exact nil
    | cons x l =>
      by_cases hv : ∃ n ∈ names, placeholder n <+: x :: l
      · obtain ⟨n, hn, r, hr⟩ := hv
        rw [← hr] at h ⊢
        rw [List.length_append, length_placeholder] at h
        exact hole n hn r (ih r.length (by omega) r rfl)
      · refine char x l (fun m hm hp => hv ⟨m, hm, hp⟩) (ih l.length ?_ l rfl)
        rw [← h, List.length_cons]
        omega

theorem render_append (ps qs : List Piece) :
    render values (ps ++ qs) = render values ps ++ render values qs := by
  simp [render]

@[simp] theorem render_char (x : Char) (ps : List Piece) :
    render values (.char x :: ps) = x :: render values ps := rfl

theorem render_hole (n : String) (ps : List Piece) : render values (.hole n :: ps) =
    (values n).getD (placeholder n) ++ render values ps := rfl

theorem render_pieces (hp : ∀ m ∈ names, Plain m) (l : List Char) :
    render (fun _ => none) (pieces names l) = l := by
  induction l using text_induction names with
  | nil => rfl
  | hole n hn l ih => rw [pieces_placeholder hp hn, render_hole, ih]; rfl
  | char x l h ih => rw [pieces_cons h, render_char, ih]

/-- Replacing one placeholder changes its pieces and no others. -/
theorem replace_eq_render (hp : ∀ m ∈ names, Plain m) (hn : n ∈ names) (l : List Char) :
    replace (placeholder n) v l =
      render (fun m => if m = n then some v else none) (pieces names l) := by
  induction l using text_induction names with
  | nil => rfl
  | hole m hm l ih =>
    rw [pieces_placeholder hp hm, render_hole]
    by_cases hmn : m = n
    · subst hmn
      rw [replace_placeholder, ih, if_pos rfl]
      rfl
    · have hother : ∀ l', ¬ placeholder n <+: placeholder m ++ l' := fun l' hpre =>
        hmn (placeholder_unique (hp m hm) (hp n hn) (List.prefix_append _ _) hpre)
      have hrest : replace (placeholder n) v (m.toList ++ ['}'] ++ l) = _ :=
        replace_append_of_notMem (by simpa using (hp m hm).1)
      have hstart : replace (placeholder n) v (placeholder m ++ l) =
          '{' :: replace (placeholder n) v (m.toList ++ ['}'] ++ l) := replace_cons (hother l)
      rw [hstart, hrest, ih, if_neg hmn]
      rfl
  | char x l h ih =>
    rw [pieces_cons h, render_char, replace_cons (h n hn), ih]

/-- A placeholder stands in a text where it is one of its pieces. -/
theorem hole_mem_pieces (hp : ∀ m ∈ names, Plain m) (hn : n ∈ names) (l : List Char) :
    .hole n ∈ pieces names l ↔ placeholder n <:+: l := by
  induction l using text_induction names with
  | nil => simp [placeholder]
  | hole m hm l ih =>
    rw [pieces_placeholder hp hm, List.mem_cons, ih]
    have hrest : placeholder n <:+: m.toList ++ ['}'] ++ l ↔ placeholder n <:+: l :=
      infix_append_of_notMem (by simpa using (hp m hm).1)
    have hsplit : placeholder n <:+: placeholder m ++ l ↔
        placeholder n <+: placeholder m ++ l ∨ placeholder n <:+: m.toList ++ ['}'] ++ l :=
      List.infix_cons_iff
    rw [hsplit, hrest]
    constructor
    · rintro (h | h)
      · obtain rfl := Piece.hole.inj h
        exact Or.inl (List.prefix_append _ _)
      · exact Or.inr h
    · rintro (h | h)
      · have := placeholder_unique (hp n hn) (hp m hm) h (List.prefix_append _ _)
        exact Or.inl (by rw [this])
      · exact Or.inr h
  | char x l h ih =>
    rw [pieces_cons h, List.mem_cons, ih, List.infix_cons_iff]
    simp [h n hn]

/-- The order of the names does not matter. -/
theorem pieces_congr {names' : List String} (hp : ∀ m ∈ names, Plain m)
    (h : ∀ m, m ∈ names ↔ m ∈ names') (l : List Char) : pieces names l = pieces names' l := by
  have hp' : ∀ m ∈ names', Plain m := fun m hm => hp m ((h m).mpr hm)
  induction l using text_induction names with
  | nil => rfl
  | hole n hn l ih => rw [pieces_placeholder hp hn, pieces_placeholder hp' ((h n).mp hn), ih]
  | char x l hx ih =>
    rw [pieces_cons hx, pieces_cons fun m hm => hx m ((h m).mpr hm), ih]

/-- Names that are not in a text do not matter. -/
theorem pieces_of_subset {names' : List String} (hp : ∀ m ∈ names, Plain m)
    (hsub : ∀ m ∈ names', m ∈ names)
    (h : ∀ m ∈ names, .hole m ∈ pieces names l → m ∈ names') :
    pieces names' l = pieces names l := by
  have hp' : ∀ m ∈ names', Plain m := fun m hm => hp m (hsub m hm)
  induction l using text_induction names with
  | nil => rfl
  | hole n hn l ih =>
    rw [pieces_placeholder hp hn] at h ⊢
    rw [pieces_placeholder hp' (h n hn List.mem_cons_self),
      ih fun m hm hl => h m hm (List.mem_cons_of_mem _ hl)]
  | char x l hx ih =>
    rw [pieces_cons hx] at h ⊢
    rw [pieces_cons fun m hm => hx m (hsub m hm),
      ih fun m hm hl => h m hm (List.mem_cons_of_mem _ hl)]

/-! Values for some of the variables. -/

theorem render_map_char (v : List Char) : render values (v.map Piece.char) = v := by
  induction v with
  | nil => rfl
  | cons x v ih => rw [List.map_cons, render_char, ih]

/-- Values given one after the other. -/
theorem render_settle (ps : List Piece) : render values' (settle values ps) =
    render (fun n => (values n).or (values' n)) ps := by
  induction ps with
  | nil => rfl
  | cons p ps ih =>
    have hcons : settle values (p :: ps) = p.settle values ++ settle values ps := rfl
    rw [hcons, render_append, ih]
    cases p with
    | char x => rfl
    | hole n =>
      rw [render_hole]
      congr 1
      simp only [Piece.settle]
      cases values n with
      | none =>
        rw [render_hole]
        exact List.append_nil _
      | some v => simp [render_map_char]

theorem hole_mem_settle : .hole n ∈ settle values ps ↔ .hole n ∈ ps ∧ values n = none := by
  rw [settle, List.mem_flatMap]
  constructor
  · rintro ⟨p, hp, hn⟩
    cases p with
    | char x => simp [Piece.settle] at hn
    | hole m =>
      simp only [Piece.settle] at hn
      cases hv : values m with
      | none =>
        rw [hv, List.mem_singleton] at hn
        obtain rfl := Piece.hole.inj hn
        exact ⟨hp, hv⟩
      | some v => simp [hv] at hn
  · rintro ⟨hp, hv⟩
    exact ⟨_, hp, by simp [Piece.settle, hv]⟩

theorem render_congr (h : ∀ n, .hole n ∈ ps → values n = values' n) :
    render values ps = render values' ps := by
  refine List.flatMap_congr fun p hp => ?_
  cases p with
  | char x => rfl
  | hole n => simp only [Piece.text, h n hp]

theorem settle_congr (h : ∀ n, .hole n ∈ ps → values n = values' n) :
    settle values ps = settle values' ps := by
  refine List.flatMap_congr fun p hp => ?_
  cases p with
  | char x => rfl
  | hole n => simp only [Piece.settle, h n hp]

theorem settle_none (ps : List Piece) : settle (fun _ => none) ps = ps := by
  induction ps with
  | nil => rfl
  | cons p ps ih =>
    have hcons : settle (fun _ => none) (p :: ps) =
        p.settle (fun _ => none) ++ settle (fun _ => none) ps := rfl
    rw [hcons, ih]
    cases p <;> rfl

/-- A placeholder that has no value leaves its braces in the text. -/
theorem mem_render (h : .hole n ∈ ps) (hv : values n = none) : '{' ∈ render values ps := by
  rw [render, List.mem_flatMap]
  exact ⟨_, h, by simp [Piece.text, hv, placeholder]⟩

end Template
