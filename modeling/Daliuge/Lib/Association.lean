import Mathlib.Data.List.Perm.Basic
import Mathlib.Data.List.Nodup

/-! Lists of keys with values, each key occurring once. -/
namespace Association

variable {α β : Type*} [DecidableEq α] {l l' : List (α × β)} {a : α} {b : β}

theorem mem_iff_lookup (h : (l.map Prod.fst).Nodup) : (a, b) ∈ l ↔ l.lookup a = some b := by
  induction l with
  | nil => simp
  | cons p l ih =>
    obtain ⟨hp, hl⟩ := List.nodup_cons.mp h
    obtain ⟨k, v⟩ := p
    by_cases hk : a = k
    · subst hk
      have hn : (a, b) ∉ l := fun hm => hp (List.mem_map.mpr ⟨(a, b), hm, rfl⟩)
      simp [hn, eq_comm]
    · simp [ih hl, List.lookup_cons, hk, beq_eq_false_iff_ne.mpr hk]

theorem mem_of_lookup (h : l.lookup a = some b) : (a, b) ∈ l := by
  induction l with
  | nil => cases h
  | cons p l ih =>
    obtain ⟨k, v⟩ := p
    by_cases hk : a = k
    · subst hk
      obtain rfl : v = b := by simpa using h
      exact List.mem_cons_self
    · refine List.mem_cons_of_mem _ (ih ?_)
      simpa [List.lookup_cons, beq_eq_false_iff_ne.mpr hk] using h

theorem isSome_lookup_iff : (l.lookup a).isSome = true ↔ a ∈ l.map Prod.fst := by
  induction l with
  | nil => simp
  | cons p l ih =>
    obtain ⟨k, v⟩ := p
    by_cases hk : a = k
    · simp [hk]
    · rw [List.lookup_cons, beq_eq_false_iff_ne.mpr hk, List.map_cons, List.mem_cons, ← ih]
      simp [hk]

/-- Two of them that say the same differ in their order only. -/
theorem perm_of_lookup (h : (l.map Prod.fst).Nodup) (h' : (l'.map Prod.fst).Nodup)
    (hl : ∀ a, l.lookup a = l'.lookup a) : l.Perm l' := by
  refine (List.perm_ext_iff_of_nodup (.of_map _ h) (.of_map _ h')).mpr fun p => ?_
  rw [mem_iff_lookup h, mem_iff_lookup h', hl]

/-- One of them with the values that the other has under the same keys. -/
theorem perm_updated (h : (l.map Prod.fst).Nodup) (h' : (l'.map Prod.fst).Nodup)
    (hk : ∀ a, (l'.lookup a).isSome = (l.lookup a).isSome) :
    (l.map fun p => (p.1, (l'.lookup p.1).getD p.2)).Perm l' := by
  have hkeys : ((l.map fun p => (p.1, (l'.lookup p.1).getD p.2)).map Prod.fst) =
      l.map Prod.fst := by simp
  refine perm_of_lookup (hkeys ▸ h) h' fun a => ?_
  cases hl : l.lookup a with
  | none =>
    have hn' : l'.lookup a = none := by simpa [hl] using hk a
    rw [hn', ← Option.not_isSome_iff_eq_none, isSome_lookup_iff, hkeys, ← isSome_lookup_iff, hl]
    simp
  | some b =>
    obtain ⟨b', hb'⟩ : ∃ b', l'.lookup a = some b' := by
      simpa [hl, Option.isSome_iff_exists] using hk a
    rw [hb']
    refine (mem_iff_lookup (hkeys ▸ h)).mp (List.mem_map.mpr ⟨(a, b), mem_of_lookup hl, ?_⟩)
    simp [hb']

/-- The element a key belongs to, where no two have one key. -/
theorem find?_key {γ : Type*} {f : γ → α} {l : List γ} (h : (l.map f).Nodup) {x : γ}
    (hx : x ∈ l) : l.find? (fun y => f y = f x) = some x := by
  induction l with
  | nil => simp at hx
  | cons y l ih =>
    obtain ⟨hy, hl⟩ := List.nodup_cons.mp h
    rcases List.mem_cons.mp hx with rfl | hx
    · simp
    · have hne : f y ≠ f x := fun he => hy (he ▸ List.mem_map_of_mem hx)
      simpa [hne] using ih hl hx

/-! Writing into them, as a dictionary is written into. -/

/-- The value under a key, replaced in its place or put last. -/
def set (l : List (α × β)) (a : α) (b : β) : List (α × β) :=
  match l with
  | [] => [(a, b)]
  | p :: l => if p.1 = a then (p.1, b) :: l else p :: set l a b

/-- All of a second list written into a first one. -/
def merge (l l' : List (α × β)) : List (α × β) := l'.foldl (fun l p => set l p.1 p.2) l

theorem set_nil : set [] a b = [(a, b)] := rfl

theorem set_cons {p : α × β} :
    set (p :: l) a b = if p.1 = a then (p.1, b) :: l else p :: set l a b := rfl

theorem mem_keys_set {k : α} : k ∈ (set l a b).map Prod.fst ↔ k = a ∨ k ∈ l.map Prod.fst := by
  induction l with
  | nil => simp [set_nil]
  | cons p l ih =>
    rw [set_cons]
    split
    · rename_i h
      simp only [List.map_cons, List.mem_cons, h]
      tauto
    · simp only [List.map_cons, List.mem_cons, ih]
      tauto

theorem keys_set_of_mem (h : a ∈ l.map Prod.fst) : (set l a b).map Prod.fst = l.map Prod.fst := by
  induction l with
  | nil => simp at h
  | cons p l ih =>
    rw [set_cons]
    split
    · rfl
    · rename_i hne
      rw [List.map_cons, List.mem_cons] at h
      rw [List.map_cons, List.map_cons, ih (h.resolve_left (Ne.symm hne))]

theorem nodup_set (h : (l.map Prod.fst).Nodup) : ((set l a b).map Prod.fst).Nodup := by
  induction l with
  | nil => simp [set_nil]
  | cons p l ih =>
    obtain ⟨hp, hl⟩ := List.nodup_cons.mp h
    rw [set_cons]
    split
    · exact h
    · rename_i hne
      refine List.nodup_cons.mpr ⟨?_, ih hl⟩
      rw [mem_keys_set]
      exact fun hm => hm.elim hne hp

theorem mem_set (h : (l.map Prod.fst).Nodup) {x : α} {y : β} :
    (x, y) ∈ set l a b ↔ x = a ∧ y = b ∨ x ≠ a ∧ (x, y) ∈ l := by
  induction l with
  | nil => simp [set_nil]
  | cons p l ih =>
    obtain ⟨k, v⟩ := p
    obtain ⟨hp, hl⟩ := List.nodup_cons.mp h
    have hkey : ∀ {y}, (k, y) ∉ l := fun hm => hp (List.mem_map.mpr ⟨_, hm, rfl⟩)
    rw [set_cons]
    split
    · rename_i hk
      simp only at hk
      subst hk
      by_cases hx : x = k
      · subst hx
        simp [hkey]
      · simp [hx]
    · rename_i hk
      simp only at hk
      rw [List.mem_cons, List.mem_cons, ih hl]
      by_cases hx : x = a
      · subst hx
        simp [Ne.symm hk]
      · simp [hx]

theorem set_of_notMem (h : a ∉ l.map Prod.fst) : set l a b = l ++ [(a, b)] := by
  induction l with
  | nil => rfl
  | cons p l ih =>
    rw [List.map_cons, List.mem_cons, not_or] at h
    rw [set_cons, if_neg (Ne.symm h.1), ih h.2]
    rfl

/-- Writing distinct new keys puts them last. -/
theorem merge_of_nodup (h : ((l ++ l').map Prod.fst).Nodup) : merge l l' = l ++ l' := by
  induction l' generalizing l with
  | nil => simp [merge]
  | cons p l' ih =>
    have hp : p.1 ∉ l.map Prod.fst := by
      rw [List.map_append, List.nodup_append] at h
      intro hm
      exact h.2.2 _ hm _ (by simp) rfl
    have hset : set l p.1 p.2 = l ++ [p] := set_of_notMem hp
    have hstep : merge l (p :: l') = merge (set l p.1 p.2) l' := rfl
    rw [hstep, hset, ih (by simpa using h)]
    simp

theorem lookup_set {x : α} {y : β} (h : (set l a b).lookup x = some y) :
    y = b ∨ l.lookup x = some y := by
  induction l with
  | nil =>
    rw [set_nil, List.lookup_cons] at h
    split at h
    · exact Or.inl (Option.some.inj h).symm
    · cases h
  | cons q l ih =>
    rw [set_cons] at h
    split at h
    · rw [List.lookup_cons] at h ⊢
      split at h
      · exact Or.inl (Option.some.inj h).symm
      · exact Or.inr h
    · rw [List.lookup_cons] at h ⊢
      split at h
      · exact Or.inr h
      · exact ih h

theorem lookup_set_ne {x : α} (h : x ≠ a) : (set l a b).lookup x = l.lookup x := by
  induction l with
  | nil => simp [set_nil, List.lookup_cons, beq_eq_false_iff_ne.mpr h]
  | cons q l ih =>
    obtain ⟨k, v⟩ := q
    rw [set_cons]
    split
    · rename_i hq
      simp only at hq
      subst hq
      simp [List.lookup_cons, beq_eq_false_iff_ne.mpr h]
    · rw [List.lookup_cons, List.lookup_cons, ih]

theorem lookup_set_self : (set l a b).lookup a = some b := by
  induction l with
  | nil => simp [set_nil]
  | cons q l ih =>
    obtain ⟨k, v⟩ := q
    rw [set_cons]
    split
    · rename_i hq
      simp only at hq
      subst hq
      simp
    · rename_i hq
      rw [List.lookup_cons, beq_eq_false_iff_ne.mpr (Ne.symm hq)]
      exact ih

theorem mem_of_mem_set {p : α × β} (h : p ∈ set l a b) : p = (a, b) ∨ p ∈ l := by
  induction l with
  | nil => exact Or.inl (List.mem_singleton.mp h)
  | cons q l ih =>
    rw [set_cons] at h
    split at h
    · rename_i hq
      rcases List.mem_cons.mp h with rfl | h
      · exact Or.inl (by rw [hq])
      · exact Or.inr (List.mem_cons_of_mem _ h)
    · rcases List.mem_cons.mp h with rfl | h
      · exact Or.inr List.mem_cons_self
      · exact (ih h).imp_right (List.mem_cons_of_mem _)

theorem mem_of_mem_merge {p : α × β} (h : p ∈ merge l l') : p ∈ l ∨ p ∈ l' := by
  induction l' generalizing l with
  | nil => exact Or.inl h
  | cons q l' ih =>
    rcases ih h with h | h
    · rcases mem_of_mem_set h with rfl | h
      · exact Or.inr List.mem_cons_self
      · exact Or.inl h
    · exact Or.inr (List.mem_cons_of_mem _ h)

theorem nodup_merge (h : (l.map Prod.fst).Nodup) : ((merge l l').map Prod.fst).Nodup := by
  induction l' generalizing l with
  | nil => exact h
  | cons p l' ih => exact ih (nodup_set h)

/-- Two lists that do not disagree say together what each of them says. -/
theorem mem_merge_of_agree (h : (l.map Prod.fst).Nodup) {f : α → β → Prop}
    (hf : ∀ a b b', f a b → f a b' → b = b') (hl : ∀ p ∈ l, f p.1 p.2)
    (hl' : ∀ p ∈ l', f p.1 p.2) {p : α × β} : p ∈ merge l l' ↔ p ∈ l ∨ p ∈ l' := by
  induction l' generalizing l with
  | nil => simp [merge]
  | cons q l' ih =>
    obtain ⟨x, y⟩ := p
    obtain ⟨a, b⟩ := q
    have hq : f a b := hl' (a, b) (by simp)
    have hset : ∀ p ∈ set l a b, f p.1 p.2 := by
      rintro ⟨x, y⟩ hp
      rcases (mem_set h).mp hp with ⟨rfl, rfl⟩ | ⟨-, hp⟩
      · exact hq
      · exact hl _ hp
    have hrest := ih (nodup_set (a := a) (b := b) h) hset fun p hp => hl' p (by simp [hp])
    change (x, y) ∈ merge (set l a b) l' ↔ _
    rw [hrest, mem_set h, List.mem_cons, Prod.mk.injEq]
    constructor
    · rintro ((⟨rfl, rfl⟩ | ⟨-, hm⟩) | hm)
      · exact Or.inr (Or.inl ⟨rfl, rfl⟩)
      · exact Or.inl hm
      · exact Or.inr (Or.inr hm)
    · rintro (hm | ⟨rfl, rfl⟩ | hm)
      · by_cases hx : x = a
        · subst hx
          exact Or.inl (Or.inl ⟨rfl, hf x y b (hl _ hm) hq⟩)
        · exact Or.inl (Or.inr ⟨hx, hm⟩)
      · exact Or.inl (Or.inl ⟨rfl, rfl⟩)
      · exact Or.inr hm

theorem nodup_foldl_merge {γ : Type*} {F : γ → List (α × β)} {ks : List γ}
    (h : (l.map Prod.fst).Nodup) :
    ((ks.foldl (fun l k => merge l (F k)) l).map Prod.fst).Nodup := by
  induction ks generalizing l with
  | nil => exact h
  | cons k ks ih => exact ih (nodup_merge h)

/-- Many lists that do not disagree. -/
theorem mem_foldl_merge_of_agree {γ : Type*} {F : γ → List (α × β)} {ks : List γ}
    (h : (l.map Prod.fst).Nodup) {f : α → β → Prop} (hf : ∀ a b b', f a b → f a b' → b = b')
    (hl : ∀ p ∈ l, f p.1 p.2) (hF : ∀ k ∈ ks, ∀ p ∈ F k, f p.1 p.2) {p : α × β} :
    p ∈ ks.foldl (fun l k => merge l (F k)) l ↔ p ∈ l ∨ ∃ k ∈ ks, p ∈ F k := by
  induction ks generalizing l with
  | nil => simp
  | cons k ks ih =>
    have hmem : ∀ {p}, p ∈ merge l (F k) ↔ p ∈ l ∨ p ∈ F k :=
      mem_merge_of_agree h hf hl (hF k (by simp))
    have hall : ∀ p ∈ merge l (F k), f p.1 p.2 := fun p hp =>
      (hmem.mp hp).elim (hl p) (hF k (by simp) p)
    rw [List.foldl_cons, ih (nodup_merge h) hall fun k' hk' => hF k' (by simp [hk']), hmem]
    simp [or_assoc]

end Association
