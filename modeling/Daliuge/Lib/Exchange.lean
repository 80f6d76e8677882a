import Mathlib.Data.List.Basic

/-! Steps that can be exchanged: one block of steps with another, whatever the order inside, and
steps that a view of the state does not notice. -/
namespace Exchange

variable {σ α : Type*} {f : σ → α → σ} {l l' : List α}

/-- A step past a block it can be exchanged with. -/
theorem foldl_step_comm {a : α} (h : ∀ b ∈ l, ∀ s, f (f s a) b = f (f s b) a) (s : σ) :
    l.foldl f (f s a) = f (l.foldl f s) a := by
  induction l generalizing s with
  | nil => rfl
  | cons b l ih =>
    rw [List.foldl_cons, h b (by simp), ih fun c hc => h c (by simp [hc])]
    rfl

/-- Two blocks whose steps can be exchanged. -/
theorem foldl_foldl_comm (h : ∀ a ∈ l, ∀ b ∈ l', ∀ s, f (f s a) b = f (f s b) a) (s : σ) :
    l'.foldl f (l.foldl f s) = l.foldl f (l'.foldl f s) := by
  induction l generalizing s with
  | nil => rfl
  | cons a l ih =>
    rw [List.foldl_cons, ih fun b hb => h b (by simp [hb]),
      foldl_step_comm fun b hb s => h a (by simp) b hb s]
    rfl

/-- A view that some steps leave alone sees the others only. -/
theorem view_foldl_filter {τ : Type*} (view : σ → τ) {p : α → Bool}
    (hkeep : ∀ s a, p a = false → view (f s a) = view s)
    (hcongr : ∀ s s' a, view s = view s' → view (f s a) = view (f s' a)) (s : σ) :
    view (l.foldl f s) = view ((l.filter p).foldl f s) := by
  have hview : ∀ (l : List α) s s', view s = view s' →
      view (l.foldl f s) = view (l.foldl f s') := by
    intro l
    induction l with
    | nil => exact fun s s' h => h
    | cons a l ih => exact fun s s' h => ih _ _ (hcongr s s' a h)
  induction l generalizing s with
  | nil => rfl
  | cons a l ih =>
    cases hp : p a with
    | true => simp [hp, ih]
    | false =>
      rw [List.foldl_cons, List.filter_cons_of_neg (by simp [hp]), hview l _ _ (hkeep s a hp), ih]

end Exchange
