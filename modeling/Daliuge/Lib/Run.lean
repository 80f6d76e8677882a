import Mathlib.Data.List.Basic

/-! Finite runs of a deterministic labelled transition function, and guards checked along a run. -/
namespace Run

variable {σ α : Type*} {step : σ → α → σ} {ok ok' : σ → α → Prop} {s : σ} {a : α}
  {as bs : List α}

/-- The state after performing the labels in order. -/
def run (step : σ → α → σ) (s : σ) (as : List α) : σ := as.foldl step s

/-- The guard holds at every label, in the state that label finds. -/
def Along (step : σ → α → σ) (ok : σ → α → Prop) : σ → List α → Prop
  | _, [] => True
  | s, a :: as => ok s a ∧ Along step ok (step s a) as

@[simp] theorem run_nil : run step s [] = s := rfl

@[simp] theorem run_cons : run step s (a :: as) = run step (step s a) as := rfl

@[simp] theorem run_append : run step s (as ++ bs) = run step (run step s as) bs :=
  List.foldl_append

@[simp] theorem along_nil : Along step ok s [] := trivial

@[simp] theorem along_cons :
    Along step ok s (a :: as) ↔ ok s a ∧ Along step ok (step s a) as := Iff.rfl

theorem along_append :
    Along step ok s (as ++ bs) ↔ Along step ok s as ∧ Along step ok (run step s as) bs := by
  induction as generalizing s with
  | nil => simp
  | cons a as ih => simp [ih, and_assoc]

/-- A guard along a run is the guard at every point of the run. -/
theorem along_iff_forall : Along step ok s as ↔
    ∀ pre a post, as = pre ++ a :: post → ok (run step s pre) a := by
  constructor
  · rintro h pre a post rfl
    exact (along_append.mp h).2.1
  · intro h
    induction as generalizing s with
    | nil => trivial
    | cons a as ih =>
      refine ⟨h [] a as rfl, ih ?_⟩
      rintro pre b post rfl
      exact h (a :: pre) b post rfl

theorem along_congr (h : ∀ s a, ok s a ↔ ok' s a) : Along step ok s as ↔ Along step ok' s as := by
  induction as generalizing s with
  | nil => exact Iff.rfl
  | cons a as ih => exact and_congr (h s a) ih

theorem along_mono (h : ∀ s a, ok s a → ok' s a) (hs : Along step ok s as) :
    Along step ok' s as := by
  induction as generalizing s with
  | nil => trivial
  | cons a as ih => exact ⟨h s a hs.1, ih hs.2⟩

/-- Preserved by every guarded step, hence along every guarded run. -/
theorem invariant_run {I : σ → Prop} (hstep : ∀ s a, ok s a → I s → I (step s a))
    (h : Along step ok s as) (hi : I s) : I (run step s as) := by
  induction as generalizing s with
  | nil => exact hi
  | cons a as ih => exact ih h.2 (hstep s a h.1 hi)

/-- The unguarded case: an invariant of every step is an invariant of every run. -/
theorem invariant_run_all {I : σ → Prop} (hstep : ∀ s a, I s → I (step s a)) (hi : I s) :
    I (run step s as) := by
  induction as generalizing s with
  | nil => exact hi
  | cons a as ih => exact ih (hstep s a hi)

end Run
