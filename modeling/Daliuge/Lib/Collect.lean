import Mathlib.Data.List.Perm.Basic

/-! Computations that can fail: what a successful one went through, and the results of a fallible
function put together along a list. -/
namespace Collect

section Bind

variable {α β ε : Type} {x : Except ε α} {f : α → Except ε β} {a b' : α} {b : β}

theorem bind_ok : (x >>= f) = .ok b ↔ ∃ a, x = .ok a ∧ f a = .ok b := by
  constructor
  · intro h
    cases x with
    | error e => cases h
    | ok a => exact ⟨a, rfl, h⟩
  · rintro ⟨a, rfl, h⟩
    exact h

theorem ok_bind : (Except.ok a >>= f) = f a := rfl

theorem error_bind {e : ε} : (Except.error e >>= f) = .error e := rfl

theorem pure_ok : (pure a : Except ε α) = .ok b' ↔ a = b' := by
  constructor
  · exact Except.ok.inj
  · rintro rfl
    rfl

theorem exists_of_mem_mapM {l : List α} {r : List β} (h : l.mapM f = .ok r) (hb : b ∈ r) :
    ∃ a ∈ l, f a = .ok b := by
  induction l generalizing r with
  | nil =>
    obtain rfl := pure_ok.mp h
    simp at hb
  | cons a l ih =>
    rw [List.mapM_cons] at h
    obtain ⟨x, hx, h⟩ := bind_ok.mp h
    obtain ⟨xs, hxs, h⟩ := bind_ok.mp h
    obtain rfl := pure_ok.mp h
    rcases List.mem_cons.mp hb with rfl | hb
    · exact ⟨a, by simp, hx⟩
    · obtain ⟨a', ha', hb⟩ := ih hxs hb
      exact ⟨a', by simp [ha'], hb⟩

theorem ok_of_mapM {l : List α} {r : List β} (h : l.mapM f = .ok r) (ha : a ∈ l) :
    ∃ b, f a = .ok b := by
  induction l generalizing r with
  | nil => simp at ha
  | cons a' l ih =>
    rw [List.mapM_cons] at h
    obtain ⟨x, hx, h⟩ := bind_ok.mp h
    obtain ⟨xs, hxs, -⟩ := bind_ok.mp h
    rcases List.mem_cons.mp ha with rfl | ha
    · exact ⟨x, hx⟩
    · exact ih hxs ha

theorem mem_of_mapM {l : List α} {r : List β} (h : l.mapM f = .ok r) (ha : a ∈ l)
    (hb : f a = .ok b) : b ∈ r := by
  induction l generalizing r with
  | nil => simp at ha
  | cons a' l ih =>
    rw [List.mapM_cons] at h
    obtain ⟨x, hx, h⟩ := bind_ok.mp h
    obtain ⟨xs, hxs, h⟩ := bind_ok.mp h
    obtain rfl := pure_ok.mp h
    rcases List.mem_cons.mp ha with rfl | ha
    · obtain rfl := Except.ok.inj (hx.symm.trans hb)
      exact List.mem_cons_self
    · exact List.mem_cons_of_mem _ (ih hxs ha)

/-- When every call succeeds. -/
theorem mapM_eq_map {l : List α} {g : α → β} (h : ∀ a ∈ l, f a = .ok (g a)) :
    l.mapM f = .ok (l.map g) := by
  induction l with
  | nil => rfl
  | cons a l ih =>
    rw [List.mapM_cons, h a (by simp), ok_bind, ih fun b hb => h b (by simp [hb]), ok_bind]
    rfl

/-- One more pass over what is related to a list. -/
theorem mapM_related {γ : Type} {l : List γ} {m : List α} {R : γ → α → Prop} {S : γ → β → Prop}
    (hl : List.Forall₂ R l m) (h : ∀ c ∈ l, ∀ a, R c a → ∃ b, f a = .ok b ∧ S c b) :
    ∃ r, m.mapM f = .ok r ∧ List.Forall₂ S l r := by
  induction hl with
  | nil => exact ⟨[], rfl, .nil⟩
  | @cons c a l m hca hl ih =>
    obtain ⟨b, hb, hcb⟩ := h c (by simp) a hca
    obtain ⟨r, hr, hlr⟩ := ih fun c' hc => h c' (by simp [hc])
    refine ⟨b :: r, ?_, .cons hcb hlr⟩
    rw [List.mapM_cons, hb, ok_bind, hr]
    rfl

theorem mapM_congr (f f' : α → Except ε β) {l : List α} (h : ∀ a ∈ l, f' a = f a) :
    l.mapM f' = l.mapM f := by
  induction l with
  | nil => rfl
  | cons a l ih =>
    rw [List.mapM_cons, List.mapM_cons, h a (by simp), ih fun b hb => h b (by simp [hb])]

theorem forM_ok {f : α → Except ε Unit} {l : List α} :
    l.forM f = .ok () ↔ ∀ a ∈ l, f a = .ok () := by
  induction l with
  | nil => simp [List.forM_nil, pure_ok]
  | cons a l ih =>
    have hcons : (a :: l).forM f = (f a >>= fun _ => l.forM f) := List.forM_cons
    rw [hcons, bind_ok, List.forall_mem_cons, ← ih]
    constructor
    · rintro ⟨_, ha, hl⟩
      exact ⟨ha, hl⟩
    · rintro ⟨ha, hl⟩
      exact ⟨(), ha, hl⟩

end Bind

variable {α β ε : Type*} {f : α → Except ε (List β)} {l m : List α} {r : List β} {a : α}

/-- The results in order, or the first failure. -/
def collect (f : α → Except ε (List β)) : List α → Except ε (List β)
  | [] => .ok []
  | a :: l =>
    match f a with
    | .error e => .error e
    | .ok r =>
      match collect f l with
      | .error e => .error e
      | .ok rs => .ok (r ++ rs)

@[simp] theorem collect_nil : collect f [] = .ok [] := rfl

theorem collect_cons : collect f (a :: l) =
    (f a).bind fun r => (collect f l).map fun rs => r ++ rs := by
  rw [collect]
  cases f a with
  | error e => rfl
  | ok r => cases collect f l <;> rfl

theorem collect_map {γ : Type*} {g : γ → α} {ks : List γ} :
    collect f (ks.map g) = collect (fun k => f (g k)) ks := by
  induction ks with
  | nil => rfl
  | cons k ks ih => rw [List.map_cons, collect_cons, collect_cons, ih]

theorem collect_cons_ok : collect f (a :: l) = .ok r ↔
    ∃ r₁ r₂, f a = .ok r₁ ∧ collect f l = .ok r₂ ∧ r = r₁ ++ r₂ := by
  rw [collect_cons]
  cases f a with
  | error e => simp [Except.bind]
  | ok r₁ =>
    cases collect f l with
    | error e => simp [Except.bind, Except.map]
    | ok r₂ => simp [Except.bind, Except.map, eq_comm]

/-- When every call succeeds, so does the whole. -/
theorem collect_eq_flatMap {g : α → List β} (h : ∀ a ∈ l, f a = .ok (g a)) :
    collect f l = .ok (l.flatMap g) := by
  induction l with
  | nil => rfl
  | cons a l ih =>
    have ha := h a (by simp)
    have hl := ih fun b hb => h b (by simp [hb])
    exact collect_cons_ok.mpr ⟨_, _, ha, hl, rfl⟩

/-- Calls that may look at the position, whose results do not depend on it. -/
theorem collect_zipIdx {γ : Type*} {f : α × Nat → Except ε (List β)} {g : γ → α}
    {k : γ → List β} {l : List γ} (n : Nat)
    (h : ∀ i c, l[i]? = some c → f (g c, i + n) = .ok (k c)) :
    collect f ((l.map g).zipIdx n) = .ok (l.flatMap k) := by
  induction l generalizing n with
  | nil => rfl
  | cons c l ih =>
    have hc : f (g c, n) = .ok (k c) := by simpa using h 0 c rfl
    have hl := ih (n + 1) fun i d hd => by
      rw [Nat.add_left_comm, Nat.add_comm n]
      exact h (i + 1) d (by simpa using hd)
    exact collect_cons_ok.mpr ⟨_, _, hc, hl, rfl⟩

/-- When the whole succeeds, so does every call. -/
theorem exists_of_collect (h : collect f l = .ok r) :
    ∃ g : α → List β, (∀ a ∈ l, f a = .ok (g a)) ∧ r = l.flatMap g := by
  refine ⟨fun a => match f a with | .ok r => r | .error _ => [], fun a ha => ?_, ?_⟩
  · induction l generalizing r with
    | nil => simp at ha
    | cons b l ih =>
      obtain ⟨r₁, r₂, hb, hl, -⟩ := collect_cons_ok.mp h
      rcases List.mem_cons.mp ha with rfl | ha
      · simp [hb]
      · exact ih hl ha
  · induction l generalizing r with
    | nil => simpa using h.symm
    | cons b l ih =>
      obtain ⟨r₁, r₂, hb, hl, rfl⟩ := collect_cons_ok.mp h
      simp [hb, ← ih hl]

/-- An element of the whole comes from one call. -/
theorem exists_of_mem_collect {b : β} (h : collect f l = .ok r) (hb : b ∈ r) :
    ∃ a ∈ l, ∃ s, f a = .ok s ∧ b ∈ s := by
  obtain ⟨g, hg, rfl⟩ := exists_of_collect h
  obtain ⟨a, ha, hb⟩ := List.mem_flatMap.mp hb
  exact ⟨a, ha, g a, hg a ha, hb⟩

theorem exists_collect_iff : (∃ r, collect f l = .ok r) ↔ ∀ a ∈ l, ∃ s, f a = .ok s := by
  constructor
  · rintro ⟨r, h⟩ a ha
    obtain ⟨g, hg, -⟩ := exists_of_collect h
    exact ⟨g a, hg a ha⟩
  · intro h
    choose! g hg using h
    exact ⟨_, collect_eq_flatMap hg⟩

theorem mem_collect {b : β} (h : collect f l = .ok r) :
    b ∈ r ↔ ∃ a ∈ l, ∃ s, f a = .ok s ∧ b ∈ s := by
  constructor
  · exact exists_of_mem_collect h
  · rintro ⟨a, ha, s, hs, hb⟩
    obtain ⟨g, hg, rfl⟩ := exists_of_collect h
    obtain rfl : g a = s := Except.ok.inj ((hg a ha).symm.trans hs)
    exact List.mem_flatMap.mpr ⟨a, ha, hb⟩

theorem collect_congr {f' : α → Except ε (List β)} (h : ∀ a ∈ l, f' a = f a) :
    collect f' l = collect f l := by
  induction l with
  | nil => rfl
  | cons a l ih =>
    rw [collect_cons, collect_cons, h a (by simp), ih fun b hb => h b (by simp [hb])]

/-- The calls in another order. -/
theorem collect_perm (h : collect f l = .ok r) (hm : m.Perm l) :
    ∃ r', collect f m = .ok r' ∧ r'.Perm r := by
  obtain ⟨g, hg, rfl⟩ := exists_of_collect h
  exact ⟨m.flatMap g, collect_eq_flatMap fun a ha => hg a (hm.subset ha), hm.flatMap_right g⟩

/-- Calls that give the same in another order. -/
theorem collect_related (f' : α → Except ε (List β))
    (h : ∀ a ∈ l, ∀ r, f a = .ok r → ∃ r', f' a = .ok r' ∧ r'.Perm r)
    (hr : collect f l = .ok r) : ∃ r', collect f' l = .ok r' ∧ r'.Perm r := by
  induction l generalizing r with
  | nil => exact ⟨r, hr, List.Perm.refl _⟩
  | cons a l ih =>
    obtain ⟨r₁, r₂, h₁, h₂, rfl⟩ := collect_cons_ok.mp hr
    obtain ⟨r₁', h₁', hp₁⟩ := h a (by simp) r₁ h₁
    obtain ⟨r₂', h₂', hp₂⟩ := ih (fun b hb => h b (by simp [hb])) h₂
    exact ⟨_, collect_cons_ok.mpr ⟨_, _, h₁', h₂', rfl⟩, hp₁.append hp₂⟩

/-- A loop whose steps plan what to do without looking at the state plans everything first. -/
theorem foldlM_eq_map_collect {σ : Type*} {step : σ → α → Except ε σ} {act : σ → β → σ}
    (h : ∀ s a, step s a = (f a).map fun r => r.foldl act s) (s : σ) :
    l.foldlM step s = (collect f l).map fun r => r.foldl act s := by
  induction l generalizing s with
  | nil => rfl
  | cons a l ih =>
    rw [List.foldlM_cons, h s a, collect_cons]
    cases f a with
    | error e => rfl
    | ok r =>
      have hr := ih (r.foldl act s)
      cases hl : collect f l with
      | error e => simpa [hl, Except.map, bind, Except.bind] using hr
      | ok rs => simpa [hl, Except.map, bind, Except.bind] using hr

/-- A loop that succeeds at every step, whatever has been done so far. -/
theorem foldlM_prefix {σ : Type*} {step : σ → α → Except ε σ} {I : List α → σ → Prop} {s : σ}
    (h : ∀ pre a post s, l = pre ++ a :: post → I pre s →
      ∃ s', step s a = .ok s' ∧ I (pre ++ [a]) s') (hi : I [] s) :
    ∃ s', l.foldlM step s = .ok s' ∧ I l s' := by
  suffices hgen : ∀ post pre s, l = pre ++ post → I pre s →
      ∃ s', post.foldlM step s = .ok s' ∧ I l s' from hgen l [] s rfl hi
  intro post
  induction post with
  | nil =>
    intro pre s he hi
    obtain rfl : l = pre := by simpa using he
    exact ⟨s, rfl, hi⟩
  | cons a post ih =>
    intro pre s he hi
    obtain ⟨s', hs', hi'⟩ := h pre a post s he hi
    obtain ⟨s'', hs'', hi''⟩ := ih (pre ++ [a]) s' (by simp [he]) hi'
    refine ⟨s'', ?_, hi''⟩
    rw [List.foldlM_cons, hs']
    exact hs''

/-- What every step keeps, of the state and of what has been done, holds where a loop ends. -/
theorem foldlM_prefix_kept {σ : Type*} {step : σ → α → Except ε σ} {I : List α → σ → Prop}
    {s t : σ} (h : ∀ pre a post s s', l = pre ++ a :: post → I pre s → step s a = .ok s' →
      I (pre ++ [a]) s') (hi : I [] s) (ht : l.foldlM step s = .ok t) : I l t := by
  suffices hgen : ∀ post pre s, l = pre ++ post → I pre s → post.foldlM step s = .ok t → I l t from
    hgen l [] s rfl hi ht
  intro post
  induction post with
  | nil =>
    intro pre s he hi ht
    obtain rfl : l = pre := by simpa using he
    obtain rfl : s = t := by simpa [pure, Except.pure] using ht
    exact hi
  | cons a post ih =>
    intro pre s he hi ht
    rw [List.foldlM_cons] at ht
    cases hs : step s a with
    | error e => simp [hs, bind, Except.bind] at ht
    | ok s' =>
      exact ih (pre ++ [a]) s' (by simp [he]) (h pre a post s s' he hi hs)
        (by simpa [hs, bind, Except.bind] using ht)

/-- What every step keeps holds where a loop ends. -/
theorem foldlM_kept {σ : Type*} {step : σ → α → Except ε σ} {I : σ → Prop} {s t : σ}
    (h : ∀ a ∈ l, ∀ s s', I s → step s a = .ok s' → I s') (hi : I s)
    (ht : l.foldlM step s = .ok t) : I t := by
  induction l generalizing s with
  | nil =>
    obtain rfl : s = t := by simpa [pure, Except.pure] using ht
    exact hi
  | cons a l ih =>
    rw [List.foldlM_cons] at ht
    cases hs : step s a with
    | error e => simp [hs, bind, Except.bind] at ht
    | ok s' =>
      refine ih (fun b hb => h b (by simp [hb])) (h a (by simp) s s' hi hs) ?_
      simpa [hs, bind, Except.bind] using ht

/-- Two loops whose steps keep their states related. -/
theorem foldlM_related {σ σ' : Type*} {R : σ → σ' → Prop} {step : σ → α → Except ε σ}
    {step' : σ' → α → Except ε σ'}
    (h : ∀ a ∈ l, ∀ s s' t, R s s' → step s a = .ok t → ∃ t', step' s' a = .ok t' ∧ R t t')
    {s t : σ} {s' : σ'} (hs : R s s') (ht : l.foldlM step s = .ok t) :
    ∃ t', l.foldlM step' s' = .ok t' ∧ R t t' := by
  induction l generalizing s s' with
  | nil =>
    obtain rfl : s = t := by simpa [pure, Except.pure] using ht
    exact ⟨s', rfl, hs⟩
  | cons a l ih =>
    rw [List.foldlM_cons] at ht
    cases hu : step s a with
    | error e => simp [hu, bind, Except.bind] at ht
    | ok u =>
      obtain ⟨u', hu', hr⟩ := h a (by simp) s s' u hs hu
      obtain ⟨t', ht', hr'⟩ := ih (fun b hb => h b (by simp [hb])) hr
        (by simpa [hu, bind, Except.bind] using ht)
      exact ⟨t', by simpa [hu', bind, Except.bind] using ht', hr'⟩

end Collect
