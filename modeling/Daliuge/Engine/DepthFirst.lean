import Daliuge.Engine.Loading

/-!
# Depth first

`depthFirstTraverse` hands one list of visited drops down its recursion, but looks at it before it
goes through the successors of a drop, and not again.
-/
namespace Daliuge.Engine.Linking

open Relation Traversal

section Definitions

variable {U : Type} [DecidableEq U] (w : U → Links U)

/-- What a drop leads to. -/
abbrev downstream (x : U) : List U := getDownstreamObjects (w x)

/-- `depthFirstTraverse`, for a caller that leaves the lists alone: the drops it yields, and the
list of visited drops after that, within such a depth of the recursion. -/
def depthFirstTraverse : Nat → U → List U → Option (List U × List U)
  | 0, _, _ => none
  | fuel + 1, node, visited =>
    let dependencies := getDownstreamObjects (w node)
    let visited := visited ++ [node]
    (dependencies.filter (· ∉ visited)).foldlM
      (fun s drop => (depthFirstTraverse fuel drop s.2).map fun r => (s.1 ++ r.1, r.2))
      ([node], visited)

/-- The iteration comes to an end, and yields exactly the drops that can be reached, each once. -/
def YieldsEachOnce (node : U) : Prop :=
  ∃ depth yielded visited,
    (∀ fuel, depth ≤ fuel → depthFirstTraverse w fuel node [] = some (yielded, visited)) ∧
      Covers (downstream w) [node] yielded

end Definitions

variable {U : Type} [DecidableEq U] {w : U → Links U} {node x : U}
    {drops l yielded visited : List U}
  {fuel : Nat}

/-- What is yielded is what is added to the visited drops. -/
theorem depthFirstTraverse_iff {visited' : List U} :
    depthFirstTraverse w fuel node visited = some (yielded, visited') ↔
      depthFirst (downstream w) fuel node visited = some visited' ∧
        visited' = visited ++ yielded := by
  induction fuel generalizing node visited yielded visited' with
  | zero => simp [depthFirstTraverse, depthFirst]
  | succ fuel ih =>
    -- Over the successors, from the drops that are yielded so far.
    have hfold : ∀ (l before V yielded V' : List U),
        l.foldlM (fun s drop => (depthFirstTraverse w fuel drop s.2).map fun r =>
          (s.1 ++ r.1, r.2)) (before, V) = some (yielded, V') ↔
        ∃ out, l.foldlM (fun V drop => depthFirst (downstream w) fuel drop V) V = some V' ∧
          V' = V ++ out ∧ yielded = before ++ out := by
      intro l
      induction l with
      | nil =>
        intro before V yielded V'
        constructor
        · intro h
          cases h
          exact ⟨[], rfl, by simp, by simp⟩
        · rintro ⟨out, h, he, rfl⟩
          cases h
          obtain rfl : out = [] := by simpa using he.symm
          simp
      | cons drop l hl =>
        intro before V yielded V'
        simp only [List.foldlM_cons, Option.bind_eq_bind, Option.bind_eq_some_iff,
          Option.map_eq_some_iff]
        constructor
        · rintro ⟨_, ⟨⟨y, V₁⟩, hd, rfl⟩, h⟩
          obtain ⟨hd, rfl⟩ := ih.mp hd
          obtain ⟨out, hl, rfl, rfl⟩ := (hl _ _ _ _).mp h
          exact ⟨y ++ out, ⟨_, hd, hl⟩, by simp, by simp⟩
        · rintro ⟨out, ⟨V₁, hd, h⟩, he, rfl⟩
          obtain ⟨y, rfl⟩ := depthFirst_extends hd
          obtain ⟨out', rfl⟩ := foldlM_depthFirst_extends h
          obtain rfl : out = y ++ out' := by simpa using he.symm
          exact ⟨_, ⟨(y, V ++ y), ih.mpr ⟨hd, rfl⟩, rfl⟩,
            (hl _ _ _ _).mpr ⟨out', h, by simp, by simp⟩⟩
    simp only [depthFirstTraverse, depthFirst]
    rw [hfold]
    constructor
    · rintro ⟨out, h, rfl, rfl⟩
      exact ⟨h, by simp⟩
    · rintro ⟨h, rfl⟩
      obtain ⟨out, he⟩ := foldlM_depthFirst_extends h
      exact ⟨out, h, he, by simpa using he⟩

/-- From the start all visited drops are yielded. -/
theorem depthFirstTraverse_nil_iff : depthFirstTraverse w fuel node [] = some (yielded, visited) ↔
    depthFirst (downstream w) fuel node [] = some visited ∧ visited = yielded := by
  rw [depthFirstTraverse_iff]
  simp

omit [DecidableEq U] in
/-- In a finite graph without cycles no path goes on for ever. -/
theorem wellFounded_downstream (hl : ∀ x, ∀ y ∈ downstream w x, y ∈ drops)
    (hac : ∀ x, ¬ TransGen (Step (downstream w)) x x) :
    WellFounded fun y x => Step (downstream w) x y := by
  refine wellFounded_of_acyclic (l := drops) (fun y x h => hl x y h) fun x h => ?_
  exact hac x (transGen_swap.mp h)

/-- Through a finite graph of drops without cycles the depth-first iteration yields every drop
that can be reached once, exactly when no successor of a drop, where the iteration first comes to
it, is reached from one listed earlier and not left behind. -/
theorem yieldsEachOnce_iff (hl : ∀ x, ∀ y ∈ downstream w x, y ∈ drops)
    (hac : ∀ x, ¬ TransGen (Step (downstream w)) x x) (node : U) :
    YieldsEachOnce w node ↔ Untangled (downstream w) node ∅ := by
  rw [← depthFirst_covers_iff (wellFounded_downstream hl hac)]
  constructor
  · rintro ⟨depth, yielded, visited, h, hcov⟩
    have heq := (depthFirstTraverse_nil_iff.mp (h depth le_rfl)).2
    subst heq
    exact ⟨depth, visited, fun fuel hf => (depthFirstTraverse_nil_iff.mp (h fuel hf)).1, hcov⟩
  · rintro ⟨depth, out, h, hcov⟩
    exact ⟨depth, out, out,
      fun fuel hf => depthFirstTraverse_nil_iff.mpr ⟨h fuel hf, rfl⟩, hcov⟩

/-- The breadth-first iteration yields every drop that can be reached once, whatever the shape of
the graph. -/
theorem breadFirstTraverse_covers (hw : Symmetric w) (hl : ∀ x, ∀ y ∈ downstream w x, y ∈ drops)
    (hn : node ∈ drops) : ∃ yielded, breadFirstTraverse w drops.length [node] = some yielded ∧
      Covers (downstream w) [node] yielded :=
  breadthFirst_covers drops (fun x _ => hw.downstream_nodup x)
    (fun x _ => hl x) (by simp) (by simpa using hn) le_rfl

/-- Where no successor of a drop is reached from another, the iteration yields each drop once. -/
theorem yieldsEachOnce_of_reduced (hl : ∀ x, ∀ y ∈ downstream w x, y ∈ drops)
    (hac : ∀ x, ¬ TransGen (Step (downstream w)) x x)
    (hr : ∀ x pre next post, downstream w x = pre ++ next :: post →
      next ∉ reached (downstream w) pre) (node : U) : YieldsEachOnce w node := by
  obtain ⟨depth, out, h, hcov⟩ :=
    (depthFirst_covers_iff (wellFounded_downstream hl hac) node).mpr (untangled_of_reduced hr)
  exact ⟨depth, out, out, fun fuel hf => depthFirstTraverse_nil_iff.mpr ⟨h fuel hf, rfl⟩, hcov⟩

/-- A data drop and the applications that read it, in this order; the application 1 writes the data
drop 2, which the application 3 reads as well. -/
def sharedReader (readers : List (Fin 4)) : Fin 4 → Links (Fin 4) :=
  (calls (fun n => if n = 1 ∨ n = 3 then { dropClass := .app .inputFired } else {})
    (readers.map (⟨.addConsumer, 0, ·, true⟩) ++
      [⟨.addOutput, 1, 2, true⟩, ⟨.addConsumer, 2, 3, true⟩])).1

/-- Where the application 3 is the first reader of the first drop, it is there already when the data
drop 2 leads to it, and is yielded once. -/
theorem yieldsEachOnce_twoWays :
    3 ∈ downstream (sharedReader [3, 1]) 0 ∧ 3 ∈ downstream (sharedReader [3, 1]) 2 ∧
      YieldsEachOnce (sharedReader [3, 1]) 0 := by
  have hup : ∀ x y, Step (downstream (sharedReader [3, 1])) x y → x < y := by
    unfold Step
    decide
  have hall : ∀ x, ∀ y ∈ downstream (sharedReader [3, 1]) x, y ∈ [(0 : Fin 4), 1, 2, 3] := by
    decide
  refine ⟨by decide, by decide, (yieldsEachOnce_iff hall (acyclic_of_lt id hup) 0).mpr ?_⟩
  -- Only the first drop has two successors, and nothing follows the one listed earlier.
  have hend : downstream (sharedReader [3, 1]) 3 = [] := by decide
  have htwo : ∀ x, x = 0 ∨ (downstream (sharedReader [3, 1]) x).length ≤ 1 := by decide
  have hroot : downstream (sharedReader [3, 1]) 0 = [3, 1] := by decide
  apply untangled_of_reduced
  intro x pre next post hs
  rcases htwo x with rfl | hlen
  · rw [hroot] at hs
    cases pre with
    | nil => simp
    | cons y pre =>
      obtain ⟨rfl, hs⟩ := List.cons.inj hs
      obtain ⟨rfl, rfl, rfl⟩ : pre = [] ∧ next = 1 ∧ post = [] := by
        cases pre <;> simp_all
      rw [mem_reached_singleton, reach_iff, hend]
      simp
  · have hpre : pre = [] := by
      rw [hs, List.length_append, List.length_cons] at hlen
      exact List.eq_nil_of_length_eq_zero (by omega)
    simp [hpre]

/-- The application 3 is yielded a second time, where it was to be visited after the first. -/
theorem sharedReader_yielded_twice :
    (∀ x, ¬ TransGen (Step (downstream (sharedReader [1, 3]))) x x) ∧
    (depthFirstTraverse (sharedReader [1, 3]) 4 0 []).map Prod.fst = some [0, 1, 2, 3, 3] ∧
    breadFirstTraverse (sharedReader [1, 3]) 4 [0] = some [0, 1, 3, 2] ∧
    ¬ YieldsEachOnce (sharedReader [1, 3]) 0 := by
  have hup : ∀ x y, Step (downstream (sharedReader [1, 3])) x y → x < y := by
    unfold Step
    decide
  refine ⟨acyclic_of_lt id hup, by decide, by decide, ?_⟩
  rintro ⟨depth, yielded, visited, h, hcov⟩
  have hrun : depthFirstTraverse (sharedReader [1, 3]) 4 0 [] =
      some ([0, 1, 2, 3, 3], [0, 1, 2, 3, 3]) := by decide
  have hmore := depthFirst_le (depthFirstTraverse_nil_iff.mp hrun).1 (le_max_left 4 depth)
  have hend := depthFirstTraverse_nil_iff.mp (h _ (le_max_right 4 depth))
  rw [hmore] at hend
  have heq : yielded = [0, 1, 2, 3, 3] := by rw [← hend.2, ← Option.some.inj hend.1]
  exact absurd hcov.nodup (by rw [heq]; decide)

end Daliuge.Engine.Linking
