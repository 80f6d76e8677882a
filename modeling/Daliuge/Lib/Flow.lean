import Mathlib.Algebra.BigOperators.Group.Finset.Piecewise
import Mathlib.Algebra.Order.BigOperators.Group.Finset
import Mathlib.Algebra.Order.Ring.Int
import Mathlib.Data.Int.LeastGreatest
import Mathlib.Logic.Relation

/-!
# Flows

Flows of whole numbers in a finite network: what flows out of the source is at most what a cut
lets through, and for a maximum flow it is what the nodes that the residual network still reaches
let through.
-/
namespace Flow

open Finset

variable {N : Type*} {ns : Finset N} {cap f g : N → N → ℤ} {s t n : N}

/-- What leaves a node less what enters it. -/
def net (ns : Finset N) (f : N → N → ℤ) (w : N) : ℤ := ∑ v ∈ ns, f w v - ∑ v ∈ ns, f v w

/-- Between nothing and the capacity, and neither lost nor made on the way. -/
structure Feasible (ns : Finset N) (cap : N → N → ℤ) (s t : N) (f : N → N → ℤ) : Prop where
  nonneg : ∀ u v, 0 ≤ f u v
  le : ∀ u v, f u v ≤ cap u v
  conserve : ∀ w ∈ ns, w ≠ s → w ≠ t → net ns f w = 0

/-- No other flow takes more out of the source. -/
structure Maximum (ns : Finset N) (cap : N → N → ℤ) (s t : N) (f : N → N → ℤ) : Prop extends
    Feasible ns cap s t f where
  best : ∀ g, Feasible ns cap s t g → net ns g s ≤ net ns f s

/-- More can go from one node to the other, or some of what comes from there can be sent back. -/
def Residual (ns : Finset N) (cap f : N → N → ℤ) (u v : N) : Prop :=
  u ∈ ns ∧ v ∈ ns ∧ (f u v < cap u v ∨ 0 < f v u)

/-! Paths. -/

section Paths

variable {R : N → N → Prop} {l : List N}

/-- A path that comes to no node twice, with its nodes from the last one on. -/
inductive Path (R : N → N → Prop) (s : N) : List N → N → Prop
  | start : Path R s [s] s
  | step {l : List N} {u v : N} (h : Path R s l u) (hr : R u v) (hv : v ∉ l) :
      Path R s (v :: l) v

theorem Path.of_mem (h : Path R s l n) : ∀ w ∈ l, ∃ l', Path R s l' w := by
  induction h with
  | start =>
    intro w hw
    obtain rfl : w = s := by simpa using hw
    exact ⟨_, .start⟩
  | step h hr hv ih =>
    intro w hw
    rcases List.mem_cons.mp hw with rfl | hw
    · exact ⟨_, h.step hr hv⟩
    · exact ih w hw

theorem exists_path (h : Relation.ReflTransGen R s n) : ∃ l, Path R s l n := by
  induction h with
  | refl => exact ⟨_, .start⟩
  | @tail u v _ hr ih =>
    obtain ⟨l, hl⟩ := ih
    by_cases hv : v ∈ l
    · exact hl.of_mem v hv
    · exact ⟨_, hl.step hr hv⟩

end Paths

/-! Pushing a unit along a path. -/

section Push

variable [DecidableEq N] {l : List N} {a b : N} {c : ℤ}

/-- Some more on one arc. -/
def add (f : N → N → ℤ) (a b : N) (c : ℤ) (u v : N) : ℤ :=
  f u v + if u = a ∧ v = b then c else 0

theorem add_of_ne {u v : N} (h : u ≠ a ∨ v ≠ b) : add f a b c u v = f u v := by
  have hno : ¬ (u = a ∧ v = b) := by
    rintro ⟨rfl, rfl⟩
    exact h.elim (· rfl) (· rfl)
  rw [add, if_neg hno, add_zero]

@[simp] theorem add_self : add f a b c a b = f a b + c := by simp [add]

theorem net_add (ha : a ∈ ns) (hb : b ∈ ns) (w : N) : net ns (add f a b c) w =
    net ns f w + (if w = a then c else 0) - (if w = b then c else 0) := by
  have hout : ∑ v ∈ ns, (if w = a ∧ v = b then c else 0) = if w = a then c else 0 := by
    by_cases hw : w = a <;> simp [hw, hb]
  have hin : ∑ v ∈ ns, (if v = a ∧ w = b then c else 0) = if w = b then c else 0 := by
    by_cases hw : w = b <;> simp [hw, ha]
  simp only [net, add, sum_add_distrib, hout, hin]
  omega

/-- A unit more goes from the source to where a path of the residual network ends; off the path
nothing changes. -/
theorem exists_pushed (hf : ∀ u v, 0 ≤ f u v ∧ f u v ≤ cap u v)
    (h : Path (Residual ns cap f) s l n) : ∃ g, (∀ u v, 0 ≤ g u v ∧ g u v ≤ cap u v) ∧
      (∀ u v, u ∉ l ∨ v ∉ l → g u v = f u v) ∧
      ∀ w, net ns g w = net ns f w + (if w = s then 1 else 0) - (if w = n then 1 else 0) := by
  induction h with
  | start => exact ⟨f, hf, fun _ _ _ => rfl, fun w => by omega⟩
  | @step l u v hp hr hv ih =>
    obtain ⟨g, hg, hoff, hnet⟩ := ih
    obtain ⟨hu, hvn, hr⟩ := hr
    have huv : g u v = f u v := hoff u v (Or.inr hv)
    have hvu : g v u = f v u := hoff v u (Or.inl hv)
    have hul : u ∈ l := by cases hp <;> simp
    -- the last arc is not on the path so far, so it has as much room as it had
    rcases hr with hr | hr
    · refine ⟨add g u v 1, fun x y => ?_, fun x y hxy => ?_, fun w => ?_⟩
      · by_cases hxy : x = u ∧ y = v
        · obtain ⟨rfl, rfl⟩ := hxy
          have := hg x y
          rw [add_self]
          omega
        · rw [add_of_ne (not_and_or.mp hxy)]
          exact hg x y
      · simp only [List.mem_cons, not_or] at hxy
        rw [add_of_ne, hoff x y]
        · exact hxy.imp And.right And.right
        · rcases hxy with hx | hy
          · exact Or.inl fun he => hx.2 (he ▸ hul)
          · exact Or.inr hy.1
      · rw [net_add hu hvn, hnet w]
        omega
    · refine ⟨add g v u (-1), fun x y => ?_, fun x y hxy => ?_, fun w => ?_⟩
      · by_cases hxy : x = v ∧ y = u
        · obtain ⟨rfl, rfl⟩ := hxy
          have := hg x y
          rw [add_self]
          omega
        · rw [add_of_ne (not_and_or.mp hxy)]
          exact hg x y
      · simp only [List.mem_cons, not_or] at hxy
        rw [add_of_ne, hoff x y]
        · exact hxy.imp And.right And.right
        · rcases hxy with hx | hy
          · exact Or.inl hx.1
          · exact Or.inr fun he => hy.2 (he ▸ hul)
      · rw [net_add hvn hu, hnet w]
        split_ifs <;> omega

/-- The residual network of a maximum flow does not reach the sink. -/
theorem Maximum.sink_not_reached (hf : Maximum ns cap s t f) (hst : s ≠ t) :
    ¬ Relation.ReflTransGen (Residual ns cap f) s t := by
  intro hr
  obtain ⟨l, hl⟩ := exists_path hr
  obtain ⟨g, hg, -, hnet⟩ := exists_pushed (fun u v => ⟨hf.nonneg u v, hf.le u v⟩) hl
  have hfeas : Feasible ns cap s t g := by
    refine ⟨fun u v => (hg u v).1, fun u v => (hg u v).2, fun w hw hs ht => ?_⟩
    rw [hnet w, if_neg hs, if_neg ht, hf.conserve w hw hs ht]
    rfl
  have hle := hf.best g hfeas
  rw [hnet s, if_pos rfl, if_neg hst] at hle
  omega

end Push

/-! Cuts. -/

section Cuts

open Classical in
/-- What goes from some nodes to the others. -/
noncomputable def across (ns : Finset N) (T : N → Prop) (f : N → N → ℤ) : ℤ :=
  ∑ u ∈ ns, ∑ v ∈ ns, if T u ∧ ¬ T v then f u v else 0

variable {T : N → Prop}

/-- What leaves the source goes through every cut. -/
theorem Feasible.net_eq_across (hf : Feasible ns cap s t f) (hs : s ∈ ns) (hsT : T s)
    (htT : ¬ T t) : net ns f s = across ns T fun u v => f u v - f v u := by
  classical
  have hone : ∑ u ∈ ns, (if T u then net ns f u else 0) = net ns f s := by
    rw [sum_eq_single s, if_pos hsT]
    · intro u hu hus
      split_ifs with hT
      · exact hf.conserve u hu hus fun he => htT (he ▸ hT)
      · rfl
    · exact fun h => absurd hs h
  have hspread : ∀ u, (if T u then net ns f u else 0) =
      ∑ v ∈ ns, ((if T u ∧ ¬ T v then f u v - f v u else 0) +
        ((if T u ∧ T v then f u v else 0) - if T v ∧ T u then f v u else 0)) := by
    intro u
    by_cases hu : T u
    · rw [if_pos hu, net, ← sum_sub_distrib]
      refine sum_congr rfl fun v _ => ?_
      by_cases hv : T v <;> simp [hu, hv]
    · simp [hu]
  -- what goes between the nodes of one side goes away
  have hinside : ∑ u ∈ ns, ∑ v ∈ ns, (if T v ∧ T u then f v u else 0) =
      ∑ u ∈ ns, ∑ v ∈ ns, if T u ∧ T v then f u v else 0 := sum_comm
  rw [← hone, sum_congr rfl fun u _ => hspread u]
  simp only [sum_add_distrib, sum_sub_distrib, hinside, sub_self, add_zero]
  rfl

theorem across_le (h : ∀ u v, T u → ¬ T v → f u v ≤ g u v) : across ns T f ≤ across ns T g := by
  classical
  refine sum_le_sum fun u _ => sum_le_sum fun v _ => ?_
  split_ifs with hT
  · exact h u v hT.1 hT.2
  · exact le_rfl

/-- A flow is at most what a cut lets through. -/
theorem Feasible.net_le_across (hf : Feasible ns cap s t f) (hs : s ∈ ns) (hsT : T s)
    (htT : ¬ T t) : net ns f s ≤ across ns T cap := by
  rw [hf.net_eq_across hs hsT htT]
  refine across_le fun u v _ _ => ?_
  have h1 := hf.le u v
  have h2 := hf.nonneg v u
  omega

/-- A maximum flow is what the nodes reached by the residual network let through. -/
theorem Maximum.net_eq_across_reached (hf : Maximum ns cap s t f) (hs : s ∈ ns) (hst : s ≠ t)
    (hcap : ∀ u v, u ∉ ns ∨ v ∉ ns → cap u v = 0) : net ns f s =
      across ns (Relation.ReflTransGen (Residual ns cap f) s) cap := by
  classical
  rw [hf.toFeasible.net_eq_across hs .refl (hf.sink_not_reached hst)]
  refine le_antisymm (across_le fun u v _ _ => ?_) (across_le fun u v hu hv => ?_)
  · have h1 := hf.le u v
    have h2 := hf.nonneg v u
    omega
  · have hout : ∀ x y, u ∉ ns ∨ v ∉ ns → (x = u ∧ y = v) ∨ (x = v ∧ y = u) → f x y = 0 := by
      intro x y hn hxy
      have h1 := hf.nonneg x y
      have h2 := hf.le x y
      have h3 : cap x y = 0 := by
        refine hcap x y ?_
        rcases hxy with ⟨rfl, rfl⟩ | ⟨rfl, rfl⟩
        · exact hn
        · exact hn.symm
      omega
    by_cases hn : u ∈ ns ∧ v ∈ ns
    · have hr : ¬ Residual ns cap f u v := fun hr => hv (hu.tail hr)
      simp only [Residual, hn.1, hn.2, true_and, not_or, not_lt] at hr
      omega
    · have hn := not_and_or.mp hn
      have h1 := hout u v hn (Or.inl ⟨rfl, rfl⟩)
      have h2 := hout v u hn (Or.inr ⟨rfl, rfl⟩)
      have h3 := hcap u v hn
      omega

end Cuts

/-- Of the flows, which the capacities at the source bound, one is greatest. -/
theorem exists_maximum (hcap : ∀ u v, 0 ≤ cap u v) : ∃ f, Maximum ns cap s t f := by
  have hbound : ∀ z, (∃ f, Feasible ns cap s t f ∧ net ns f s = z) → z ≤ ∑ v ∈ ns, cap s v := by
    rintro z ⟨f, hf, rfl⟩
    have hout : ∑ v ∈ ns, f s v ≤ ∑ v ∈ ns, cap s v := sum_le_sum fun v _ => hf.le s v
    have hin : 0 ≤ ∑ v ∈ ns, f v s := sum_nonneg fun v _ => hf.nonneg v s
    unfold net
    omega
  have hzero : Feasible ns cap s t fun _ _ => 0 :=
    ⟨fun _ _ => le_rfl, hcap, fun w _ _ _ => by simp [net]⟩
  obtain ⟨z, ⟨f, hf, rfl⟩, hbest⟩ := Int.exists_greatest_of_bdd ⟨_, hbound⟩ ⟨_, _, hzero, rfl⟩
  exact ⟨f, hf, fun g hg => hbest _ ⟨g, hg, rfl⟩⟩

end Flow
