import Mathlib.Data.List.Basic

/-! Texts that are read piece by piece, and readers that may give less than they are asked for. -/
namespace Reader

variable {β : Type*} {σ : Type*}

/-- The text cut into pieces of the given sizes, as far as it goes. -/
def pieces : List Nat → List β → List (List β)
  | [], _ => []
  | n :: ns, t => t.take n :: pieces ns (t.drop n)

@[simp] theorem pieces_nil (t : List β) : pieces [] t = [] := rfl

@[simp] theorem pieces_cons (n : Nat) (ns : List Nat) (t : List β) :
    pieces (n :: ns) t = t.take n :: pieces ns (t.drop n) := rfl

/-- How much is asked for. -/
def total : List Nat → Nat
  | [] => 0
  | n :: ns => n + total ns

theorem flatten_pieces (ns : List Nat) (t : List β) :
    (pieces ns t).flatten = t.take (total ns) := by
  induction ns generalizing t with
  | nil => rfl
  | cons n ns ih => rw [pieces_cons, List.flatten_cons, ih, total, List.take_add]

theorem length_le_total {ns : List Nat} (h : ∀ n ∈ ns, 0 < n) : ns.length ≤ total ns := by
  induction ns with
  | nil => exact Nat.zero_le _
  | cons n ns ih =>
    have hpos := h n List.mem_cons_self
    have hle := ih fun m hm => h m (List.mem_cons_of_mem _ hm)
    rw [List.length_cons, total]
    omega

/-- A reader of `β`s: a read takes at most `n` of what is left, and something if there is anything
left. -/
structure Source (σ β : Type*) where
  read : σ → Nat → List β × σ
  rest : σ → List β
  read_append : ∀ s n, (read s n).1 ++ rest (read s n).2 = rest s
  length_read_le : ∀ s n, (read s n).1.length ≤ n
  rest_of_read_nil : ∀ s n, 0 < n → (read s n).1 = [] → rest s = []

namespace Source

variable (src : Source σ β)

/-- A text that is read from the front. -/
def ofList : Source (List β) β where
  read t n := (t.take n, t.drop n)
  rest t := t
  read_append t n := List.take_append_drop n t
  length_read_le t n := List.length_take_le n t
  rest_of_read_nil t n hn h := by
    cases t with
    | nil => rfl
    | cons x t =>
      cases n with
      | zero => exact absurd hn (Nat.lt_irrefl 0)
      | succ n => cases h

/-- A read that gives something leaves less. -/
theorem length_rest_lt {s : σ} {n : Nat} (h : (src.read s n).1 ≠ []) :
    (src.rest (src.read s n).2).length < (src.rest s).length := by
  have hl := congrArg List.length (src.read_append s n)
  have hp := List.length_pos_of_ne_nil h
  rw [List.length_append] at hl
  omega

/-- A read that gives nothing leaves what there was. -/
theorem rest_read_nil {s : σ} {n : Nat} (h : (src.read s n).1 = []) :
    src.rest (src.read s n).2 = src.rest s := by
  have ha := src.read_append s n
  rwa [h, List.nil_append] at ha

/-- That is nothing, if something has been asked for. -/
theorem rest_read {s : σ} {n : Nat} (hn : 0 < n) (h : (src.read s n).1 = []) :
    src.rest (src.read s n).2 = [] :=
  (src.rest_read_nil h).trans (src.rest_of_read_nil s n hn h)

/-- As a file gives them: no read is short but the last. -/
def Full : Prop := ∀ s n, (src.read s n).1.length < n → src.rest (src.read s n).2 = []

theorem full_ofList : (ofList : Source (List β) β).Full := by
  intro t n h
  have hl : (t.take n).length < n := h
  rw [List.length_take] at hl
  exact List.drop_eq_nil_of_le (by omega)

end Source

end Reader
