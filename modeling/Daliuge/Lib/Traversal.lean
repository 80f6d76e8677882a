import Mathlib.Data.Finset.Card
import Mathlib.Data.List.Nodup
import Mathlib.Data.List.Perm.Subperm
import Mathlib.Logic.Relation
import Mathlib.Data.Set.Basic

/-!
# Traversals

Two ways to go through a graph given by the lists of the successors of its nodes: breadth first with
a queue, and depth first with a list of visited nodes that is looked at before the successors of a
node are gone through, and not again.
-/
namespace Traversal

open Relation

section Definitions

variable {α : Type*} [DecidableEq α] (succ : α → List α)

/-- One node leads to the next. -/
def Step (x y : α) : Prop := y ∈ succ x

/-- Reachable, each node from itself too. -/
abbrev Reach : α → α → Prop := ReflTransGen (Step succ)

/-- The nodes in the order in which they leave the queue, within so many steps. -/
def breadthFirst : Nat → List α → List α → Option (List α)
  | _, [], _ => some []
  | 0, _ :: _, _ => none
  | fuel + 1, node :: queue, visited =>
    let next := (succ node).filter (· ∉ visited)
    (breadthFirst fuel (queue ++ next) (visited ++ next)).map (node :: ·)

/-- The visited nodes after those before and those below a node, within such a depth. -/
def depthFirst : Nat → α → List α → Option (List α)
  | 0, _, _ => none
  | fuel + 1, node, visited =>
    let visited := visited ++ [node]
    ((succ node).filter (· ∉ visited)).foldlM (fun visited next => depthFirst fuel next visited)
      visited

/-- What can be reached from one of these. -/
def reached (l : List α) : Set α := {y | ∃ x ∈ l, Reach succ x y}

/-- A node that is first come to with the nodes of a set behind: each step leads to a successor
that is reached neither from there nor from a successor listed earlier. -/
inductive FirstVisit : α → Set α → α → Set α → Prop
  | here (node : α) (behind : Set α) : FirstVisit node behind node behind
  | there {node next x : α} {behind T : Set α} {pre post : List α}
      (hs : succ node = pre ++ next :: post) (hn : next ∉ behind ∪ reached succ pre)
      (h : FirstVisit next (behind ∪ reached succ pre) x T) : FirstVisit node behind x T

/-- No successor of a node, when it is first come to, is reached from one listed earlier, unless
it is behind. -/
def Untangled (node : α) (behind : Set α) : Prop :=
  ∀ x T pre next post, FirstVisit succ node behind x T → succ x = pre ++ next :: post →
    next ∈ reached succ pre → next ∈ T

/-- A list of exactly the nodes that can be reached, each once. -/
structure Covers (starts : List α) (visits : List α) : Prop where
  nodup : visits.Nodup
  mem_iff : ∀ x, x ∈ visits ↔ x ∈ reached succ starts

end Definitions

variable {α : Type*} [DecidableEq α] {succ : α → List α} {x y node : α}
  {l pre post visited queue visits all : List α} {fuel : Nat} {behind : Set α}

/-! Reachability from a list of nodes. -/

omit [DecidableEq α] in
@[simp] theorem reached_nil : reached succ [] = ∅ := by
  ext x
  simp [reached]

omit [DecidableEq α] in
theorem reached_append : reached succ (pre ++ post) = reached succ pre ∪ reached succ post := by
  ext x
  simp only [reached, List.mem_append, Set.mem_ofPred_eq, Set.mem_union]
  constructor
  · rintro ⟨z, hz | hz, h⟩
    · exact Or.inl ⟨z, hz, h⟩
    · exact Or.inr ⟨z, hz, h⟩
  · rintro (⟨z, hz, h⟩ | ⟨z, hz, h⟩)
    · exact ⟨z, Or.inl hz, h⟩
    · exact ⟨z, Or.inr hz, h⟩

omit [DecidableEq α] in
theorem mem_reached_singleton : y ∈ reached succ [x] ↔ Reach succ x y := by
  simp [reached]

omit [DecidableEq α] in
theorem mem_reached_cons {d : α} :
    x ∈ reached succ (d :: l) ↔ Reach succ d x ∨ x ∈ reached succ l := by
  rw [← List.singleton_append, reached_append, Set.mem_union, mem_reached_singleton]

omit [DecidableEq α] in
/-- What is reached is closed under successors. -/
theorem reached_closed (hx : x ∈ reached succ l) (hy : y ∈ succ x) : y ∈ reached succ l := by
  obtain ⟨z, hz, h⟩ := hx
  exact ⟨z, hz, h.tail hy⟩

omit [DecidableEq α] in
theorem mem_reached_self (h : x ∈ l) : x ∈ reached succ l := ⟨x, h, .refl⟩

omit [DecidableEq α] in
/-- A closed set holds all that is reached from it. -/
theorem mem_of_reach {S : Set α} (hS : ∀ x ∈ S, ∀ y ∈ succ x, y ∈ S) (hx : x ∈ S)
    (h : Reach succ x y) : y ∈ S := by
  induction h with
  | refl => exact hx
  | tail _ hy ih => exact hS _ ih _ hy

omit [DecidableEq α] in
/-- Reached from a node: the node itself, or reached from its successors. -/
theorem reach_iff : Reach succ x y ↔ y = x ∨ y ∈ reached succ (succ x) := by
  constructor
  · intro h
    rcases h.cases_head with rfl | ⟨z, hz, h⟩
    · exact Or.inl rfl
    · exact Or.inr ⟨z, hz, h⟩
  · rintro (rfl | ⟨z, hz, h⟩)
    · exact .refl
    · exact .head hz h

/-! Breadth first. -/

/-- Where the queue stands: the nodes that left it and those in it are visited, each once, and
the successors of those that left it are visited. -/
structure Queued (succ : α → List α) (all finished queue visited : List α) : Prop where
  mem_iff : ∀ x, x ∈ visited ↔ x ∈ finished ++ queue
  nodup : (finished ++ queue).Nodup
  within : ∀ x ∈ finished ++ queue, x ∈ all
  closed : ∀ x ∈ finished, ∀ y ∈ succ x, y ∈ finished ++ queue

variable {finished : List α}

omit [DecidableEq α] in
theorem Queued.length_le (h : Queued succ all finished queue visited) :
    finished.length + queue.length ≤ all.length := by
  have hl := (List.subperm_of_subset h.nodup h.within).length_le
  rwa [List.length_append] at hl

/-- The node in front leaves the queue, and those of its successors that are new enter it. -/
theorem Queued.step (h : Queued succ all finished (node :: queue) visited)
    (hd : (succ node).Nodup) (ha : ∀ y ∈ succ node, y ∈ all) :
    Queued succ all (finished ++ [node])
      (queue ++ (succ node).filter (· ∉ visited))
      (visited ++ (succ node).filter (· ∉ visited)) where
  mem_iff x := by
    simp only [List.mem_append, h.mem_iff, List.mem_cons, List.not_mem_nil, or_false]
    tauto
  nodup := by
    have hsplit : finished ++ [node] ++ (queue ++ (succ node).filter (· ∉ visited)) =
        finished ++ node :: queue ++ (succ node).filter (· ∉ visited) := by simp
    rw [hsplit, List.nodup_append']
    refine ⟨h.nodup, hd.filter _, fun x hx hf => ?_⟩
    have hnew := (List.mem_filter.mp hf).2
    simp only [decide_eq_true_eq] at hnew
    exact hnew ((h.mem_iff x).mpr hx)
  within x hx := by
    simp only [List.mem_append, List.mem_singleton] at hx
    rcases hx with (hx | rfl) | hx | hx
    · exact h.within x (List.mem_append_left _ hx)
    · exact h.within x (by simp)
    · exact h.within x (by simp [hx])
    · exact ha x (List.mem_filter.mp hx).1
  closed x hx y hy := by
    rw [List.mem_append, List.mem_singleton] at hx
    rcases hx with hx | rfl
    · have := h.closed x hx y hy
      simp only [List.mem_append, List.mem_cons, List.not_mem_nil, or_false] at this ⊢
      tauto
    · by_cases hv : y ∈ visited
      · have := (h.mem_iff y).mp hv
        simp only [List.mem_append, List.mem_cons, List.not_mem_nil, or_false] at this ⊢
        tauto
      · exact List.mem_append_right _ (List.mem_append_right _
          (List.mem_filter.mpr ⟨hy, by simpa using hv⟩))

theorem breadthFirst_queued (hd : ∀ x ∈ all, (succ x).Nodup) (ha : ∀ x ∈ all, ∀ y ∈ succ x, y ∈ all)
    (h : Queued succ all finished queue visited)
    (hf : all.length ≤ fuel + finished.length) :
    ∃ out, breadthFirst succ fuel queue visited = some out ∧ (finished ++ out).Nodup ∧
      (∀ x ∈ queue, x ∈ out) ∧ (∀ x ∈ finished ++ out, ∀ y ∈ succ x, y ∈ finished ++ out) ∧
      ∀ x ∈ out, x ∈ reached succ queue := by
  induction fuel generalizing finished queue visited with
  | zero =>
    cases queue with
    | nil => exact ⟨[], rfl, by simpa using h.nodup, by simp, by simpa using h.closed, by simp⟩
    | cons node queue =>
      have := h.length_le
      rw [List.length_cons] at this
      omega
  | succ fuel ih =>
    cases queue with
    | nil => exact ⟨[], rfl, by simpa using h.nodup, by simp, by simpa using h.closed, by simp⟩
    | cons node queue =>
      have hin := h.within node (by simp)
      have hs := h.step (hd node hin) (ha node hin)
      obtain ⟨out, hout, hnd, hq, hcl, hr⟩ := ih hs (by simp; omega)
      refine ⟨node :: out, by simp only [breadthFirst, hout, Option.map_some], by simpa using hnd,
        ?_, by simpa using hcl, ?_⟩
      · intro x hx
        rcases List.mem_cons.mp hx with rfl | hx
        · exact List.mem_cons_self
        · exact List.mem_cons_of_mem _ (hq x (List.mem_append_left _ hx))
      · intro x hx
        rcases List.mem_cons.mp hx with rfl | hx
        · exact mem_reached_self List.mem_cons_self
        · obtain ⟨z, hz, hzx⟩ := hr x hx
          rcases List.mem_append.mp hz with hz | hz
          · exact ⟨z, List.mem_cons_of_mem _ hz, hzx⟩
          · exact ⟨node, List.mem_cons_self, .head (List.mem_filter.mp hz).1 hzx⟩

/-- Breadth first, every node that can be reached is visited once. -/
theorem breadthFirst_covers (all : List α) {starts : List α} (hd : ∀ x ∈ all, (succ x).Nodup)
    (ha : ∀ x ∈ all, ∀ y ∈ succ x, y ∈ all) (hs : starts.Nodup) (hsub : ∀ x ∈ starts, x ∈ all)
    (hf : all.length ≤ fuel) :
    ∃ out, breadthFirst succ fuel starts starts = some out ∧ Covers succ starts out := by
  have hq : Queued succ all [] starts starts :=
    ⟨by simp, by simpa using hs, by simpa using hsub, by simp⟩
  obtain ⟨out, hout, hnd, hmem, hcl, hr⟩ := breadthFirst_queued hd ha hq (by simpa using hf)
  refine ⟨out, hout, by simpa using hnd, fun x => ⟨hr x, ?_⟩⟩
  rintro ⟨s, hs, h⟩
  exact mem_of_reach (S := {x | x ∈ out}) (by simpa using hcl) (hmem s hs) h

omit [DecidableEq α] in
/-- Where every step goes up, no path comes back. -/
theorem acyclic_of_lt {β : Type*} [Preorder β] {r : α → α → Prop} (f : α → β)
    (h : ∀ x y, r x y → f x < f y) (x : α) : ¬ TransGen r x x := by
  intro hx
  have hlt : TransGen (· < ·) (f x) (f x) := TransGen.lift f h x x hx
  rw [transGen_eq_self] at hlt
  exact lt_irrefl _ hlt

omit [DecidableEq α] in
/-- Where finitely many nodes lead on and no path comes back, no path comes from for ever. -/
theorem wellFounded_of_acyclic {r : α → α → Prop} (hl : ∀ x y, r x y → x ∈ l)
    (hac : ∀ x, ¬ TransGen r x x) : WellFounded r := by
  classical
  refine Subrelation.wf (fun {x y} hxy => ?_)
    (measure fun y => (l.toFinset.filter fun x => TransGen r x y).card).wf
  apply Finset.card_lt_card
  refine ⟨fun z hz => ?_, fun hsub => ?_⟩
  · rw [Finset.mem_filter] at hz ⊢
    exact ⟨hz.1, hz.2.tail hxy⟩
  · have hx := hsub (Finset.mem_filter.mpr ⟨List.mem_toFinset.mpr (hl x y hxy), .single hxy⟩)
    exact hac x (Finset.mem_filter.mp hx).2

omit [DecidableEq α] in
/-- Where no path comes from for ever, every node is reached from one that nothing leads to. -/
theorem exists_start (hwf : WellFounded (Step succ)) (x : α) :
    ∃ r, Reach succ r x ∧ ∀ z, ¬ Step succ z r := by
  induction x using hwf.induction with
  | _ x ih =>
    by_cases h : ∃ z, Step succ z x
    · obtain ⟨z, hz⟩ := h
      obtain ⟨r, hr, hno⟩ := ih z hz
      exact ⟨r, hr.tail hz, hno⟩
    · push Not at h
      exact ⟨x, .refl, h⟩

/-! Depth first. -/

omit [DecidableEq α] in
/-- One step of `Untangled`: it concerns the successors that are not behind. -/
theorem untangled_iff : Untangled succ node behind ↔
    ∀ pre next post, succ node = pre ++ next :: post → next ∉ behind →
      next ∉ reached succ pre ∧ Untangled succ next (behind ∪ reached succ pre) := by
  constructor
  · intro h pre next post hs hb
    have hr : next ∉ reached succ pre := fun hr => hb (h node behind _ _ _ (.here _ _) hs hr)
    refine ⟨hr, fun x T pre' next' post' hv hs' hr' => ?_⟩
    exact h x T _ _ _ (.there hs (by simp [hb, hr]) hv) hs' hr'
  · intro h x T pre next post hv hs hr
    cases hv with
    | here =>
      by_contra hb
      exact (h _ _ _ hs hb).1 hr
    | there hs' hn hv =>
      rw [Set.mem_union, not_or] at hn
      exact (h _ _ _ hs' hn.1).2 _ _ _ _ _ hv hs hr

omit [DecidableEq α] in
/-- Where no successor is reached from one listed earlier, the graph is untangled from any node. -/
theorem untangled_of_reduced
    (h : ∀ x pre next post, succ x = pre ++ next :: post → next ∉ reached succ pre) :
    Untangled succ node behind :=
  fun x _ pre next post _ hs hr => absurd hr (h x pre next post hs)

/-- A node whose successors are visited is just visited. -/
theorem depthFirst_revisit (h : ∀ y ∈ succ node, y ∈ visited) :
    depthFirst succ (fuel + 1) node visited = some (visited ++ [node]) := by
  have hf : (succ node).filter (· ∉ visited ++ [node]) = [] := by
    rw [List.filter_eq_nil_iff]
    intro y hy
    simp [h y hy]
  simp only [depthFirst, hf, List.foldlM_nil]
  rfl

omit [DecidableEq α] in
theorem foldlM_extends {β : Type*} {f : List α → β → Option (List α)} {l : List β}
    {V V' : List α} (hf : ∀ y ∈ l, ∀ V V', f V y = some V' → ∃ out, V' = V ++ out)
    (h : l.foldlM f V = some V') : ∃ out, V' = V ++ out := by
  induction l generalizing V with
  | nil =>
    cases h
    exact ⟨[], by simp⟩
  | cons y l ih =>
    rw [List.foldlM_cons] at h
    obtain ⟨V₁, hy, h⟩ := Option.bind_eq_some_iff.mp h
    obtain ⟨out₁, rfl⟩ := hf y List.mem_cons_self V V₁ hy
    obtain ⟨out, rfl⟩ := ih (fun z hz => hf z (List.mem_cons_of_mem _ hz)) h
    exact ⟨out₁ ++ out, by simp⟩

/-- Visited nodes are only added to. -/
theorem depthFirst_extends {visited' : List α}
    (h : depthFirst succ fuel node visited = some visited') : ∃ out, visited' = visited ++ out := by
  induction fuel generalizing node visited visited' with
  | zero => simp [depthFirst] at h
  | succ fuel ih =>
    obtain ⟨out, rfl⟩ := foldlM_extends (fun y _ V V' => ih) h
    exact ⟨node :: out, by simp⟩

theorem foldlM_depthFirst_extends {V V' : List α}
    (h : l.foldlM (fun visited next => depthFirst succ fuel next visited) V = some V') :
    ∃ out, V' = V ++ out :=
  foldlM_extends (fun _ _ _ _ => depthFirst_extends) h

/-- A node is come to for the first time: what is visited lies above it or in a closed set. -/
structure Entered (succ : α → List α) (above done : Set α) (visited : List α) (node : α) :
    Prop where
  mem_iff : ∀ x, x ∈ visited ↔ x ∈ above ∨ x ∈ done
  closed : ∀ x ∈ done, ∀ y ∈ succ x, y ∈ done
  leads : ∀ x ∈ above, TransGen (Step succ) x node
  fresh : node ∉ done

/-- What the recursion does within a given depth. -/
def Explores (succ : α → List α) (fuel : Nat) : Prop :=
  ∀ node visited visited' above done, Entered succ above done visited node →
    depthFirst succ fuel node visited = some visited' →
    (∀ x, x ∈ visited' ↔ x ∈ visited ∨ Reach succ node x) ∧
    (visited.Nodup → (visited'.Nodup ↔ Untangled succ node done))

variable {above done : Set α} {visited' V V' : List α}

omit [DecidableEq α] in
/-- A successor is neither the node nor above it. -/
theorem Entered.mem_visited_iff (hac : ∀ x, ¬ TransGen (Step succ) x x)
    (h : Entered succ above done visited node) (hy : y ∈ succ node) :
    y ∈ visited ++ [node] ↔ y ∈ done := by
  have hne : y ≠ node := by
    rintro rfl
    exact hac y (.single hy)
  have hab : y ∉ above := fun hm => hac y ((h.leads y hm).tail hy)
  simp [h.mem_iff, hab, hne]

/-- What has become of the visited nodes after some of the successors of a node, those after
`pre`: each of them is reached, and none was visited again if they are untangled. -/
structure Through (succ : α → List α) (done : Set α) (pre l V V' : List α) : Prop where
  mem_iff : ∀ x, x ∈ V' ↔ x ∈ V ∨ x ∈ reached succ l
  nodup_iff : V.Nodup → (V'.Nodup ↔ ∀ mid next post, l = mid ++ next :: post → next ∉ done →
    next ∉ reached succ (pre ++ mid) ∧ Untangled succ next (done ∪ reached succ (pre ++ mid)))

omit [DecidableEq α] in
/-- The first of some nodes, and those after it with it before them. -/
theorem forall_successors {Q : List α → α → Prop} {d : α} :
    (∀ mid next post, d :: l = mid ++ next :: post → Q (pre ++ mid) next) ↔
      Q pre d ∧ ∀ mid next post, l = mid ++ next :: post → Q (pre ++ [d] ++ mid) next := by
  have happ : ∀ mid, pre ++ [d] ++ mid = pre ++ d :: mid := by simp
  simp only [happ]
  constructor
  · intro hq
    refine ⟨?_, fun mid next post he => hq (d :: mid) next post (by rw [he]; rfl)⟩
    simpa using hq [] d l rfl
  · rintro ⟨hq, hq'⟩ mid next post he
    cases mid with
    | nil =>
      rw [List.nil_append] at he
      cases he
      rwa [List.append_nil]
    | cons m mid =>
      rw [List.cons_append] at he
      cases he
      exact hq' mid next post rfl

variable {d : α} {V₁ : List α}

omit [DecidableEq α] in
/-- A successor that lies behind is passed over. -/
theorem Through.passed (h : Through succ done (pre ++ [d]) l V V') (hd : d ∈ done)
    (hsub : ∀ x, Reach succ d x → x ∈ V) : Through succ done pre (d :: l) V V' where
  mem_iff x := by
    rw [h.mem_iff, mem_reached_cons, ← or_assoc, or_iff_left_of_imp (hsub x)]
  nodup_iff hn := by
    rw [h.nodup_iff hn, forall_successors (Q := fun before next => next ∉ done →
      next ∉ reached succ before ∧ Untangled succ next (done ∪ reached succ before))]
    exact (and_iff_right fun hno => absurd hd hno).symm

omit [DecidableEq α] in
/-- A successor that was visited below one listed earlier is visited again. -/
theorem Through.again (h : Through succ done (pre ++ [d]) l (V ++ [d]) V') (hd : d ∉ done)
    (hr : d ∈ reached succ pre) (hsub : ∀ x, Reach succ d x → x ∈ V)
    (hext : ∃ out, V' = V ++ [d] ++ out) : Through succ done pre (d :: l) V V' where
  mem_iff x := by
    have hmem : x ∈ V ++ [d] ↔ x ∈ V := by
      rw [List.mem_append, List.mem_singleton]
      refine or_iff_left_of_imp ?_
      rintro rfl
      exact hsub x .refl
    rw [h.mem_iff, hmem, mem_reached_cons, ← or_assoc, or_iff_left_of_imp (hsub x)]
  nodup_iff _ := by
    refine iff_of_false (fun hn => ?_) fun hq => ?_
    · obtain ⟨out, rfl⟩ := hext
      have hn' := (List.nodup_append'.mp hn).1
      exact (List.nodup_append'.mp hn').2.2 (hsub d .refl) (by simp)
    · exact (hq [] d l rfl hd).1 (by simpa using hr)

omit [DecidableEq α] in
/-- A successor that is come to for the first time. -/
theorem Through.first (h : Through succ done (pre ++ [d]) l V₁ V') (hd : d ∉ done)
    (hr : d ∉ reached succ pre) (hmem : ∀ x, x ∈ V₁ ↔ x ∈ V ∨ Reach succ d x)
    (hnd : V.Nodup → (V₁.Nodup ↔ Untangled succ d (done ∪ reached succ pre)))
    (hext : ∃ out, V' = V₁ ++ out) : Through succ done pre (d :: l) V V' where
  mem_iff x := by
    rw [h.mem_iff, hmem, mem_reached_cons, or_assoc]
  nodup_iff hn := by
    rw [forall_successors (Q := fun before next => next ∉ done →
      next ∉ reached succ before ∧ Untangled succ next (done ∪ reached succ before)), ← hnd hn]
    constructor
    · intro hn'
      have hn₁ : V₁.Nodup := by
        obtain ⟨out, rfl⟩ := hext
        exact (List.nodup_append'.mp hn').1
      exact ⟨fun _ => ⟨hr, hn₁⟩, (h.nodup_iff hn₁).mp hn'⟩
    · rintro ⟨hfirst, hq⟩
      exact (h.nodup_iff (hfirst hd).2).mpr hq

/-- The successors of a node from some point of their list on. -/
theorem explores_successors (hac : ∀ x, ¬ TransGen (Step succ) x x) (ih : Explores succ fuel)
    (h : Entered succ above done visited node) (hs : succ node = pre ++ l)
    (hV : ∀ x, x ∈ V ↔ (x ∈ above ∨ x = node) ∨ x ∈ done ∪ reached succ pre)
    (hrun : (l.filter (· ∉ visited ++ [node])).foldlM
      (fun visited next => depthFirst succ fuel next visited) V = some V') :
    Through succ done pre l V V' := by
  induction l generalizing pre V with
  | nil =>
    simp only [List.filter_nil, List.foldlM_nil] at hrun
    cases hrun
    exact ⟨by simp, fun hn => iff_of_true hn (by simp)⟩
  | cons d l hl =>
    have hd : d ∈ succ node := by rw [hs]; simp
    have hs' : succ node = (pre ++ [d]) ++ l := by rw [hs]; simp
    -- Where all below the successor is counted already, it adds nothing.
    have hsame : (∀ x, Reach succ d x → x ∈ done ∪ reached succ pre) →
        done ∪ reached succ (pre ++ [d]) = done ∪ reached succ pre := by
      intro hsub
      rw [reached_append, ← Set.union_assoc]
      exact Set.union_eq_left.mpr fun x hx => hsub x (mem_reached_singleton.mp hx)
    by_cases hdone : d ∈ done
    · have hf : (d :: l).filter (· ∉ visited ++ [node]) = l.filter (· ∉ visited ++ [node]) := by
        rw [List.filter_cons_of_neg]
        simp [(h.mem_visited_iff hac hd).mpr hdone]
      have hsub : ∀ x, Reach succ d x → x ∈ done ∪ reached succ pre :=
        fun x hx => Or.inl (mem_of_reach h.closed hdone hx)
      rw [hf] at hrun
      exact (hl hs' (by rw [hsame hsub]; exact hV) hrun).passed hdone
        fun x hx => (hV x).mpr (Or.inr (hsub x hx))
    · have hf : (d :: l).filter (· ∉ visited ++ [node]) =
          d :: l.filter (· ∉ visited ++ [node]) := by
        rw [List.filter_cons_of_pos]
        have := (h.mem_visited_iff hac hd).not.mpr hdone
        simpa using this
      rw [hf, List.foldlM_cons] at hrun
      obtain ⟨V₁, hV₁, hrun⟩ := Option.bind_eq_some_iff.mp hrun
      by_cases hr : d ∈ reached succ pre
      · have hsub : ∀ x, Reach succ d x → x ∈ done ∪ reached succ pre := fun x hx =>
          Or.inr (mem_of_reach (fun _ hx _ hy => reached_closed hx hy) hr hx)
        have hin : ∀ x, Reach succ d x → x ∈ V := fun x hx => (hV x).mpr (Or.inr (hsub x hx))
        obtain rfl : V₁ = V ++ [d] := by
          cases fuel with
          | zero => simp [depthFirst] at hV₁
          | succ fuel =>
            rw [depthFirst_revisit fun y hy => hin y (.single hy)] at hV₁
            exact (Option.some.inj hV₁).symm
        have hV' : ∀ x, x ∈ V ++ [d] ↔
            (x ∈ above ∨ x = node) ∨ x ∈ done ∪ reached succ (pre ++ [d]) := by
          intro x
          rw [hsame hsub, ← hV, List.mem_append, List.mem_singleton]
          refine or_iff_left_of_imp ?_
          rintro rfl
          exact hin x .refl
        exact (hl hs' hV' hrun).again hdone hr hin (foldlM_depthFirst_extends hrun)
      · have hent : Entered succ (above ∪ {node}) (done ∪ reached succ pre) V d := by
          refine ⟨hV, ?_, ?_, by simp [hdone, hr]⟩
          · rintro x (hx | hx) y hy
            · exact Or.inl (h.closed x hx y hy)
            · exact Or.inr (reached_closed hx hy)
          · rintro x (hx | rfl)
            · exact (h.leads x hx).tail hd
            · exact .single hd
        obtain ⟨hmem, hnd⟩ := ih d V V₁ _ _ hent hV₁
        have hV' : ∀ x, x ∈ V₁ ↔
            (x ∈ above ∨ x = node) ∨ x ∈ done ∪ reached succ (pre ++ [d]) := by
          intro x
          rw [hmem, hV, reached_append, ← Set.union_assoc, Set.mem_union (b := reached succ [d]),
            mem_reached_singleton, or_assoc]
        exact (hl hs' hV' hrun).first hdone hr hmem hnd (foldlM_depthFirst_extends hrun)

theorem explores (hac : ∀ x, ¬ TransGen (Step succ) x x) (fuel : Nat) : Explores succ fuel := by
  induction fuel with
  | zero =>
    intro node visited visited' above done _ hrun
    simp [depthFirst] at hrun
  | succ fuel ih =>
    intro node visited visited' above done h hrun
    have hself : node ∉ visited := by
      rw [h.mem_iff, not_or]
      exact ⟨fun hm => hac node (h.leads node hm), h.fresh⟩
    obtain ⟨hmem, hnd⟩ := explores_successors hac ih h (List.nil_append (succ node)).symm
      (V := visited ++ [node])
      (fun x => by
        rw [List.mem_append, List.mem_singleton, h.mem_iff, reached_nil, Set.union_empty]
        tauto) hrun
    refine ⟨fun x => ?_, fun hn => ?_⟩
    · rw [hmem, reach_iff, List.mem_append, List.mem_singleton, or_assoc]
    · have hn' : (visited ++ [node]).Nodup := by
        rw [List.nodup_append']
        exact ⟨hn, by simp, by simpa using hself⟩
      rw [hnd hn', untangled_iff]
      simp only [List.nil_append]

/-- More depth changes nothing. -/
theorem depthFirst_le {fuel' : Nat} (h : depthFirst succ fuel node visited = some visited')
    (hf : fuel ≤ fuel') : depthFirst succ fuel' node visited = some visited' := by
  induction fuel generalizing fuel' node visited visited' with
  | zero => simp [depthFirst] at h
  | succ fuel ih =>
    obtain ⟨fuel', rfl⟩ : ∃ n, fuel' = n + 1 := ⟨fuel' - 1, by omega⟩
    have hfold : ∀ (l V : List α), l.foldlM (fun visited next => depthFirst succ fuel next visited)
        V = some visited' →
        l.foldlM (fun visited next => depthFirst succ fuel' next visited) V = some visited' := by
      intro l
      induction l with
      | nil => exact fun V hV => hV
      | cons y l hl =>
        intro V hV
        rw [List.foldlM_cons] at hV ⊢
        obtain ⟨V₁, hy, hV⟩ := Option.bind_eq_some_iff.mp hV
        rw [ih hy (by omega)]
        exact hl V₁ hV
    exact hfold _ _ h

theorem isSome_foldlM {β γ : Type*} {f : γ → β → Option γ} {l : List β}
    (h : ∀ y ∈ l, ∀ c, (f c y).isSome = true) (c : γ) : (l.foldlM f c).isSome = true := by
  induction l generalizing c with
  | nil => rfl
  | cons y l ih =>
    obtain ⟨c', hc⟩ := Option.isSome_iff_exists.mp (h y List.mem_cons_self c)
    rw [List.foldlM_cons, hc]
    exact ih (fun z hz => h z (List.mem_cons_of_mem _ hz)) c'

/-- One bound for all of a list. -/
theorem exists_bound {β : Type*} {P : β → Nat → Prop} {l : List β}
    (h : ∀ y ∈ l, ∃ k, ∀ n, k ≤ n → P y n) : ∃ k, ∀ y ∈ l, ∀ n, k ≤ n → P y n := by
  induction l with
  | nil => exact ⟨0, by simp⟩
  | cons y l ih =>
    obtain ⟨k, hk⟩ := h y List.mem_cons_self
    obtain ⟨k', hk'⟩ := ih fun z hz => h z (List.mem_cons_of_mem _ hz)
    refine ⟨max k k', fun z hz n hn => ?_⟩
    rcases List.mem_cons.mp hz with rfl | hz
    · exact hk n (le_trans (le_max_left _ _) hn)
    · exact hk' z hz n (le_trans (le_max_right _ _) hn)

/-- With enough depth the recursion comes to an end. -/
theorem exists_fuel (hwf : WellFounded fun y x => Step succ x y) (node : α) :
    ∃ k, ∀ fuel, k ≤ fuel → ∀ visited, (depthFirst succ fuel node visited).isSome = true := by
  induction node using hwf.induction with
  | _ node ih =>
    obtain ⟨k, hk⟩ := exists_bound ih
    refine ⟨k + 1, fun fuel hf visited => ?_⟩
    obtain ⟨fuel, rfl⟩ : ∃ n, fuel = n + 1 := ⟨fuel - 1, by omega⟩
    exact isSome_foldlM (fun y hy => hk y (List.mem_filter.mp hy).1 fuel (by omega)) _

omit [DecidableEq α] in
/-- Where no path goes on for ever, none comes back. -/
theorem acyclic_of_wellFounded (hwf : WellFounded fun y x => Step succ x y) (x : α) :
    ¬ TransGen (Step succ) x x := by
  intro h
  have hwf' : WellFounded (TransGen fun y x => Step succ x y) := hwf.transGen
  exact hwf'.asymmetric x x (transGen_swap.mpr h) (transGen_swap.mpr h)

/-- Depth first, the nodes that can be reached are visited, and once each exactly when the graph is
untangled. -/
theorem depthFirst_covers_iff (hwf : WellFounded fun y x => Step succ x y) (node : α) :
    (∃ k out, (∀ fuel, k ≤ fuel → depthFirst succ fuel node [] = some out) ∧
      Covers succ [node] out) ↔ Untangled succ node ∅ := by
  have hac := acyclic_of_wellFounded hwf
  have hent : Entered succ ∅ ∅ [] node := ⟨by simp, by simp, by simp, by simp⟩
  obtain ⟨k, hk⟩ := exists_fuel hwf node
  constructor
  · rintro ⟨k', out, hout, hcov⟩
    obtain ⟨-, hnd⟩ := explores hac k' node [] out ∅ ∅ hent (hout k' le_rfl)
    exact (hnd List.nodup_nil).mp hcov.nodup
  · intro hu
    obtain ⟨out, hout⟩ := Option.isSome_iff_exists.mp (hk k le_rfl [])
    refine ⟨k, out, fun fuel hf => depthFirst_le hout hf, ?_⟩
    · obtain ⟨hmem, hnd⟩ := explores hac k node [] out ∅ ∅ hent hout
      refine ⟨(hnd List.nodup_nil).mpr hu, fun x => ?_⟩
      rw [hmem, mem_reached_singleton]
      simp

end Traversal
