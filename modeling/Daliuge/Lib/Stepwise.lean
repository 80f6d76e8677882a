import Mathlib.Data.List.Nodup

/-!
# Runs that keep what they have done

Steps taken one after the other until one fails; the state that was reached by then stays.
-/
namespace Stepwise

section Definitions

variable {σ α ε : Type*} (step : σ → α → σ × Option ε)

/-- The state after the steps, and what stopped them. -/
def run (s : σ) : List α → σ × Option ε
  | [] => (s, none)
  | a :: l =>
    match step s a with
    | (s', none) => run s' l
    | (s', some e) => (s', some e)

/-- No step that is come to changes the state. -/
def Unmoved (s : σ) (l : List α) : Prop :=
  ∀ pre a post, l = pre ++ a :: post → (∀ b ∈ pre, (step s b).2 = none) → (step s a).1 = s

/-- A step that would be the first to fail if the state stayed as it is. -/
def FailsFirst (s : σ) (l : List α) (e : ε) : Prop :=
  ∃ pre a post, l = pre ++ a :: post ∧ (∀ b ∈ pre, (step s b).2 = none) ∧ (step s a).2 = some e

end Definitions

variable {σ α ε κ β : Type*} {step : σ → α → σ × Option ε} {s s' : σ} {a : α} {l : List α} {e : ε}

theorem run_cons_ok (h : (step s a).2 = none) : run step s (a :: l) = run step (step s a).1 l := by
  rw [run]
  split
  · rename_i hs
    rw [hs]
  · rename_i hs
    rw [hs] at h
    cases h

theorem run_cons_failed (h : (step s a).2 = some e) :
    run step s (a :: l) = ((step s a).1, some e) := by
  rw [run]
  split
  · rename_i hs
    rw [hs] at h
    cases h
  · rename_i hs
    rw [hs] at h ⊢
    cases h
    rfl

/-- The first element, and those after it if it does not fail. -/
theorem forall_split_cons {P Q : α → Prop} {a : α} :
    (∀ pre b post, a :: l = pre ++ b :: post → (∀ c ∈ pre, P c) → Q b) ↔
      Q a ∧ (P a → ∀ pre b post, l = pre ++ b :: post → (∀ c ∈ pre, P c) → Q b) := by
  constructor
  · intro h
    refine ⟨h [] a l rfl (by simp), fun ha pre b post he hp => ?_⟩
    refine h (a :: pre) b post (by rw [he]; rfl) fun c hc => ?_
    rcases List.mem_cons.mp hc with rfl | hc
    · exact ha
    · exact hp c hc
  · rintro ⟨ha, h⟩ pre b post he hp
    cases pre with
    | nil =>
      rw [List.nil_append] at he
      cases he
      exact ha
    | cons c pre =>
      rw [List.cons_append] at he
      cases he
      exact h (hp a List.mem_cons_self) pre b post rfl fun d hd => hp d (List.mem_cons_of_mem _ hd)

theorem unmoved_cons : Unmoved step s (a :: l) ↔
    (step s a).1 = s ∧ ((step s a).2 = none → Unmoved step s l) := forall_split_cons

theorem failsFirst_cons : FailsFirst step s (a :: l) e ↔
    (step s a).2 = some e ∨ (step s a).2 = none ∧ FailsFirst step s l e := by
  have hneg := forall_split_cons (l := l) (P := fun b => (step s b).2 = none)
    (Q := fun b => (step s b).2 ≠ some e) (a := a)
  have hf : ∀ l, FailsFirst step s l e ↔ ¬ ∀ pre b post, l = pre ++ b :: post →
      (∀ c ∈ pre, (step s c).2 = none) → (step s b).2 ≠ some e := by
    intro l
    simp only [FailsFirst]
    push Not
    rfl
  rw [hf, hneg, hf]
  tauto

/-- Where nothing moves the state, the run fails as the first failing step does. -/
theorem run_of_unmoved (h : Unmoved step s l) :
    (run step s l).1 = s ∧ ∀ e, (run step s l).2 = some e ↔ FailsFirst step s l e := by
  induction l with
  | nil => exact ⟨rfl, fun e => by simp [run, FailsFirst]⟩
  | cons a l ih =>
    obtain ⟨ha, hl⟩ := unmoved_cons.mp h
    cases he : (step s a).2 with
    | none =>
      rw [run_cons_ok he, ha]
      obtain ⟨hs, hf⟩ := ih (hl he)
      refine ⟨hs, fun e => ?_⟩
      rw [hf, failsFirst_cons, he]
      simp
    | some e' =>
      rw [run_cons_failed he]
      refine ⟨ha, fun e => ?_⟩
      rw [failsFirst_cons, he]
      simp

section Components

variable (key : α → κ) (get : κ → σ → β)

/-- A run leaves the components alone that none of its steps is about. -/
theorem get_run (hother : ∀ s a k, k ≠ key a → get k (step s a).1 = get k s) {k : κ}
    (hk : k ∉ l.map key) (s : σ) : get k (run step s l).1 = get k s := by
  induction l generalizing s with
  | nil => rfl
  | cons a l ih =>
    rw [List.map_cons, List.mem_cons, not_or] at hk
    cases he : (step s a).2 with
    | none => rw [run_cons_ok he, ih hk.2, hother s a k hk.1]
    | some e => rw [run_cons_failed he, hother s a k hk.1]

/-- Steps about different components that leave the state as it was in the end have left it so all
the time. -/
theorem run_eq_self_iff (hself : ∀ s a, get (key a) (step s a).1 = get (key a) s → (step s a).1 = s)
    (hother : ∀ s a k, k ≠ key a → get k (step s a).1 = get k s) (hn : (l.map key).Nodup) :
    (run step s l).1 = s ↔ Unmoved step s l := by
  refine ⟨fun h => ?_, fun h => (run_of_unmoved h).1⟩
  induction l with
  | nil =>
    intro pre a post he
    simp at he
  | cons a l ih =>
    obtain ⟨ha, hl⟩ := List.nodup_cons.mp (show (key a :: l.map key).Nodup from hn)
    have hstay : (step s a).1 = s := by
      apply hself
      cases he : (step s a).2 with
      | none =>
        rw [run_cons_ok he] at h
        rw [← get_run key get hother ha (step s a).1, h]
      | some e =>
        rw [run_cons_failed he] at h
        exact congrArg (get (key a)) h
    refine unmoved_cons.mpr ⟨hstay, fun he => ih hl ?_⟩
    rwa [run_cons_ok he, hstay] at h

/-- When a run leaves the state as it is and does not fail in a given way. -/
theorem run_calm_iff (hself : ∀ s a, get (key a) (step s a).1 = get (key a) s → (step s a).1 = s)
    (hother : ∀ s a k, k ≠ key a → get k (step s a).1 = get k s) (hn : (l.map key).Nodup) (e : ε) :
    (run step s l).1 = s ∧ (run step s l).2 ≠ some e ↔
      ∀ pre a post, l = pre ++ a :: post → (∀ b ∈ pre, (step s b).2 = none) →
        (step s a).1 = s ∧ (step s a).2 ≠ some e := by
  rw [run_eq_self_iff key get hself hother hn]
  constructor
  · rintro ⟨hu, hf⟩ pre a post he hp
    refine ⟨hu pre a post he hp, fun ha => hf ?_⟩
    exact ((run_of_unmoved hu).2 e).mpr ⟨pre, a, post, he, hp, ha⟩
  · intro h
    have hu : Unmoved step s l := fun pre a post he hp => (h pre a post he hp).1
    refine ⟨hu, fun hf => ?_⟩
    obtain ⟨pre, a, post, he, hp, ha⟩ := ((run_of_unmoved hu).2 e).mp hf
    exact (h pre a post he hp).2 ha

end Components

/-- A run succeeds where every step does in any state it may come to. -/
theorem run_succeeds_iff {I : σ → Prop} {P : α → Prop} (hs : I s)
    (hkeep : ∀ s a, I s → I (step s a).1) (hok : ∀ s a, I s → ((step s a).2 = none ↔ P a)) :
    (run step s l).2 = none ↔ ∀ a ∈ l, P a := by
  induction l generalizing s with
  | nil => simp [run]
  | cons a l ih =>
    rw [List.forall_mem_cons, ← hok s a hs]
    cases he : (step s a).2 with
    | none =>
      rw [run_cons_ok he, ih (hkeep s a hs)]
      simp
    | some e =>
      rw [run_cons_failed he]
      simp

/-- What every step keeps is kept. -/
theorem run_kept {I : σ → Prop} (hs : I s) (hkeep : ∀ s a, I s → I (step s a).1) :
    I (run step s l).1 := by
  induction l generalizing s with
  | nil => exact hs
  | cons a l ih =>
    cases he : (step s a).2 with
    | none =>
      rw [run_cons_ok he]
      exact ih (hkeep s a hs)
    | some e =>
      rw [run_cons_failed he]
      exact hkeep s a hs

/-- Steps that do what the steps of a fold do, which forgets its state when it fails. -/
theorem run_of_foldlM (step : σ → α → σ × Option ε) {τ γ δ : Type*} {f : τ → γ → Except δ τ}
    (x : τ → σ) (g : γ → α) (e : ε)
    (hok : ∀ t c t', f t c = .ok t' → step (x t) (g c) = (x t', none))
    (herr : ∀ t c d, f t c = .error d → (step (x t) (g c)).2 = some e) (t : τ) (l : List γ) :
    (∀ t', l.foldlM f t = .ok t' → run step (x t) (l.map g) = (x t', none)) ∧
      ∀ d, l.foldlM f t = .error d → (run step (x t) (l.map g)).2 = some e := by
  induction l generalizing t with
  | nil =>
    refine ⟨fun t' h => ?_, fun d h => ?_⟩
    · cases h
      rfl
    · cases h
  | cons c l ih =>
    rw [List.foldlM_cons]
    cases hc : f t c with
    | error d =>
      refine ⟨fun t' h => (nomatch h), fun d' _ => ?_⟩
      have hs := herr t c d hc
      rw [List.map_cons, run_cons_failed hs]
    | ok t₁ =>
      have hs := hok t c t₁ hc
      have hrun : run step (x t) ((c :: l).map g) = run step (x t₁) (l.map g) := by
        rw [List.map_cons, run_cons_ok (by rw [hs]), hs]
      rw [hrun]
      exact ih t₁

end Stepwise
