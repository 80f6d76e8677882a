import Daliuge.Lib.Separated
import Daliuge.Unroll.LoopEdges

/-!
# Hierarchically related

`h_related` looks for one group hierarchy in the other as a text: the ids of the groups, with
dashes between them. What it should find is that the groups around one node are the outer
groups around the other. Ids that start alike make it find siblings, and ids that end in a zero
or hold dashes make it find a hierarchy in the middle of another one.
-/
namespace Daliuge.Unroll

open Separated

variable {f : Forest} {a b : LGNode} {x y : Node} {groups gs inner : List Node}

/-- The groups around a node, from the outermost inwards. -/
def LGNode.enclosing (n : LGNode) : List Node := n.groups.reverse

/-- The groups around one of the nodes are the outer groups around the other. -/
def LGNode.Aligned (a b : LGNode) : Prop :=
  a.enclosing <+: b.enclosing ∨ b.enclosing <+: a.enclosing

/-- `h_related` says of every two nodes whether they are aligned, and `validate_hierarchy` lets
a link between members that are not both in Loops pass only when they are. -/
def Forest.RelatedByGroups (f : Forest) : Prop :=
  ∀ a ∈ f.nodes [], ∀ b ∈ f.nodes [], (a.hRelated b = true ↔ a.Aligned b) ∧
    ∀ lg inputs, (a.inLoop && b.inLoop) = false →
      validateHierarchy lg inputs a b = .ok () → a.Aligned b

/-- What the dashes leave of an id. -/
def Node.pieces (n : Node) : List (List Char) := n.id.text.toList.splitOn '-'

/-- What they leave of the ids of groups, from the outermost inwards. -/
def piecesOf (groups : List Node) : List (List Char) := groups.reverse.flatMap Node.pieces

/-- `x` and `y` are two groups side by side, with nodes in them. No id of such a group starts
another one's id, and around no node in `y` is there a piece that ends in a zero and goes on with
the pieces of the way to `x`. -/
structure Forest.PathsApart (f : Forest) : Prop where
  siblings : ∀ a ∈ f.nodes [], ∀ b ∈ f.nodes [], ∀ x y gs, a.groups = x :: gs →
    b.groups = y :: gs → x ≠ y → ¬ x.id.text.toList <+: y.id.text.toList
  paths : ∀ a ∈ f.nodes [], ∀ b ∈ f.nodes [], ∀ x y gs inner, a.groups = x :: gs →
    b.groups = inner ++ y :: gs → x ≠ y → ¬ Within (['0'] :: piecesOf a.groups) (piecesOf b.groups)

theorem aligned_iff : a.Aligned b ↔ a.groups <:+ b.groups ∨ b.groups <:+ a.groups := by
  simp [LGNode.Aligned, LGNode.enclosing]

/-! The hierarchy as a text of pieces. -/

def textsOf (groups : List Node) : List (List Char) :=
  groups.reverse.map fun g => g.id.text.toList

theorem toList_groupHierarchy (n : LGNode) :
    n.groupHierarchy.toList = ['-'].intercalate (['0'] :: textsOf n.groups) := by
  simp [LGNode.groupHierarchy, String.toList_intercalate, textsOf, Function.comp_def]

theorem piecesOf_eq (groups : List Node) :
    piecesOf groups = (textsOf groups).flatMap (List.splitOn '-') := by
  rw [piecesOf, textsOf, List.flatMap_map]
  rfl

theorem intercalate_piecesOf (groups : List Node) :
    ['-'].intercalate (piecesOf groups) = ['-'].intercalate (textsOf groups) := by
  rw [piecesOf_eq]
  exact intercalate_flatMap fun w _ => ⟨List.splitOn_ne_nil '-' w, List.intercalate_splitOn '-'⟩

theorem piecesOf_ne_nil (h : groups ≠ []) : piecesOf groups ≠ [] := by
  obtain ⟨g, gs, rfl⟩ := List.exists_cons_of_ne_nil h
  simp [piecesOf, Node.pieces, List.splitOn_ne_nil]

theorem dash_notMem_piecesOf : ∀ w ∈ piecesOf groups, '-' ∉ w := by
  intro w hw
  obtain ⟨g, -, hw⟩ := List.mem_flatMap.mp hw
  exact notMem_of_mem_splitOn hw

/-- Under a group the hierarchy goes on after the zero. -/
theorem toList_groupHierarchy_cons (h : a.groups ≠ []) :
    a.groupHierarchy.toList = '0' :: '-' :: ['-'].intercalate (textsOf a.groups) := by
  have ht : textsOf a.groups ≠ [] := by simpa [textsOf] using h
  rw [toList_groupHierarchy, List.intercalate_cons_of_ne_nil ht]
  simp

theorem toList_groupHierarchy_pieces (h : a.groups ≠ []) :
    a.groupHierarchy.toList = ['-'].intercalate (['0'] :: piecesOf a.groups) := by
  rw [toList_groupHierarchy_cons h, List.intercalate_cons_of_ne_nil (piecesOf_ne_nil h),
    intercalate_piecesOf]
  simp

/-- A hierarchy lies in another one at its start or among the pieces of its groups. -/
theorem isInfix_groupHierarchy_iff (ha : a.groups ≠ []) (hb : b.groups ≠ []) :
    a.groupHierarchy.toList <:+: b.groupHierarchy.toList ↔
      a.groupHierarchy.toList <+: b.groupHierarchy.toList ∨
        Within (['0'] :: piecesOf a.groups) (piecesOf b.groups) := by
  have hlen : 1 < (['0'] :: piecesOf a.groups).length := by
    have := List.length_pos_of_ne_nil (piecesOf_ne_nil ha)
    simpa using this
  have hzero : ∀ w ∈ ['0'] :: piecesOf a.groups, '-' ∉ w := by
    intro w hw
    rcases List.mem_cons.mp hw with rfl | hw
    · decide
    · exact dash_notMem_piecesOf w hw
  rw [← isInfix_iff hzero dash_notMem_piecesOf (piecesOf_ne_nil hb) hlen,
    ← toList_groupHierarchy_pieces ha, intercalate_piecesOf]
  conv_lhs => rw [toList_groupHierarchy_cons hb, List.infix_cons_iff, List.infix_cons_iff]
  -- the hierarchy starts with a zero, and after the zero of the other one stands a dash
  have hdash : ¬ a.groupHierarchy.toList <+: '-' :: ['-'].intercalate (textsOf b.groups) := by
    rw [toList_groupHierarchy_cons ha, List.cons_prefix_cons]
    exact fun h => absurd h.1 (by decide)
  rw [toList_groupHierarchy_cons hb]
  simp [hdash]

/-- Groups side by side: one hierarchy starts the other only when one id starts the other. -/
theorem ids_of_hierarchy_prefix (ha : a.groups = x :: gs) (hb : b.groups = inner ++ y :: gs)
    (h : a.groupHierarchy.toList <+: b.groupHierarchy.toList) :
    x.id.text.toList <+: y.id.text.toList ∨ y.id.text.toList <+: x.id.text.toList := by
  have htexts : ['-'].intercalate (textsOf gs ++ [x.id.text.toList]) <+:
      ['-'].intercalate (textsOf gs ++ y.id.text.toList :: textsOf inner) := by
    rw [toList_groupHierarchy_cons (by simp [ha]), toList_groupHierarchy_cons (by simp [hb]), ha,
      hb] at h
    simpa [textsOf] using h
  rw [intercalate_append_prefix_iff (by simp) (by simp), List.intercalate_singleton] at htexts
  exact List.prefix_or_prefix_of_prefix htexts (prefix_intercalate_cons _ _)

theorem hierarchy_prefix_of_ids (ha : a.groups = x :: gs) (hb : b.groups = y :: gs)
    (h : x.id.text.toList <+: y.id.text.toList) :
    a.groupHierarchy.toList <+: b.groupHierarchy.toList := by
  have htexts : ['-'].intercalate (textsOf gs ++ [x.id.text.toList]) <+:
      ['-'].intercalate (textsOf gs ++ [y.id.text.toList]) := by
    rw [intercalate_append_prefix_iff (by simp) (by simp)]
    simpa using h
  rw [toList_groupHierarchy_cons (by simp [ha]), toList_groupHierarchy_cons (by simp [hb]), ha, hb,
    List.cons_prefix_cons, List.cons_prefix_cons]
  exact ⟨rfl, rfl, by simpa [textsOf] using htexts⟩

/-- Two lists neither of which ends the other part at some place from their end. -/
theorem exists_parting {α : Type*} {xs ys : List α} (h : ¬ xs <:+ ys) (h' : ¬ ys <:+ xs) :
    ∃ xs' ys' x y zs, xs = xs' ++ x :: zs ∧ ys = ys' ++ y :: zs ∧ x ≠ y := by
  induction xs using List.reverseRecOn generalizing ys with
  | nil => exact absurd (List.nil_suffix) h
  | append_singleton xs x ih =>
    rcases List.eq_nil_or_concat' ys with rfl | ⟨ys, y, rfl⟩
    · exact absurd (List.nil_suffix) h'
    · by_cases hxy : x = y
      · subst hxy
        have hxs : ¬ xs <:+ ys := by
          rintro ⟨t, rfl⟩
          exact h ⟨t, by simp⟩
        have hys : ¬ ys <:+ xs := by
          rintro ⟨t, rfl⟩
          exact h' ⟨t, by simp⟩
        obtain ⟨xs', ys', x', y', zs, rfl, rfl, hne⟩ := ih hxs hys
        exact ⟨xs', ys', x', y', zs ++ [x], by simp, by simp, hne⟩
      · exact ⟨xs, ys, x, y, [], rfl, rfl, hxy⟩

theorem not_aligned (ha : a.groups = x :: gs) (hb : b.groups = inner ++ y :: gs) (hne : x ≠ y) :
    ¬ a.Aligned b := by
  rw [aligned_iff, ha, hb]
  rintro (h | h)
  · have hx := List.suffix_of_suffix_length_le h (List.suffix_append inner (y :: gs)) (by simp)
    exact hne (List.cons.inj (hx.eq_of_length (by simp))).1
  · have hy := List.suffix_of_suffix_length_le ((List.suffix_append inner (y :: gs)).trans h)
      (List.suffix_refl (x :: gs)) (by simp)
    exact hne (List.cons.inj (hy.eq_of_length (by simp))).1.symm

/-- A group around a node has a node directly in it. -/
theorem exists_member (ha : a ∈ f.nodes []) (h : a.groups = inner ++ x :: gs) :
    ∃ m ∈ f.nodes [], m.groups = x :: gs := by
  rcases List.eq_nil_or_concat' inner with rfl | ⟨inner, z, rfl⟩
  · exact ⟨a, ha, h⟩
  · exact ⟨_, mem_nodes_of_groups ha (by simpa using h) List.nil_suffix, rfl⟩

/-- With the paths apart no hierarchy lies in that of a node it is not aligned with. -/
theorem Forest.PathsApart.not_isInfix (hp : f.PathsApart) (ha : a ∈ f.nodes [])
    (hb : b ∈ f.nodes []) (h : ¬ a.Aligned b) :
    ¬ a.groupHierarchy.toList <:+: b.groupHierarchy.toList := by
  intro hin
  rw [aligned_iff, not_or] at h
  obtain ⟨xs, ys, x, y, gs, hax, hby, hne⟩ := exists_parting h.1 h.2
  -- the groups part at `x` and `y`, and a member of `x` is found as well
  obtain ⟨m, hm, hmx⟩ := exists_member ha hax
  obtain ⟨n, hn, hny⟩ := exists_member hb hby
  have hma : m.groupHierarchy.toList <+: a.groupHierarchy.toList :=
    hierarchy_of_suffix ⟨xs, by rw [hmx, hax]⟩
  rcases (isInfix_groupHierarchy_iff (by simp [hmx]) (by simp [hby])).mp
    (hma.isInfix.trans hin) with hpre | hwithin
  · rcases ids_of_hierarchy_prefix hmx hby hpre with hx | hy
    · exact hp.siblings m hm n hn x y gs hmx hny hne hx
    · exact hp.siblings n hn m hm y x gs hny hmx hne.symm hy
  · exact hp.paths m hm b hb x y gs ys hmx hby hne hwithin

/-- The two lengths never add up to one: every hierarchy starts with a zero. -/
theorem hRelated_iff : a.hRelated b = true ↔
    a.groupHierarchy.toList <:+: b.groupHierarchy.toList ∨
      b.groupHierarchy.toList <:+: a.groupHierarchy.toList := by
  have hpos (n : LGNode) : 0 < n.groupHierarchy.length := by
    have hz : ['0'] <+: n.groupHierarchy.toList := by
      rw [toList_groupHierarchy]
      exact prefix_intercalate_cons _ _
    have hlen := hz.length_le
    rwa [String.length_toList] at hlen
  have ha := hpos a
  have hb := hpos b
  have hshort : ¬ b.groupHierarchy.length + a.groupHierarchy.length ≤ 1 := by omega
  simp [LGNode.hRelated, LGNode.finds, hshort]

theorem Forest.PathsApart.aligned (hp : f.PathsApart) (ha : a ∈ f.nodes []) (hb : b ∈ f.nodes [])
    (h : a.hRelated b = true) : a.Aligned b := by
  by_contra hal
  rcases hRelated_iff.mp h with h | h
  · exact hp.not_isInfix ha hb hal h
  · exact hp.not_isInfix hb ha (fun hba => hal hba.symm) h

theorem Forest.RelatedByGroups.pathsApart (h : f.RelatedByGroups) : f.PathsApart := by
  constructor
  · intro a ha b hb x y gs hax hby hne hid
    have hpre := hierarchy_prefix_of_ids hax hby hid
    have hal := (h a ha b hb).1.mp (hRelated_iff.mpr (Or.inl hpre.isInfix))
    rw [← List.nil_append (y :: gs)] at hby
    exact not_aligned hax hby hne hal
  · intro a ha b hb x y gs inner hax hby hne hwithin
    have hin := (isInfix_groupHierarchy_iff (by simp [hax]) (by simp [hby])).mpr (Or.inr hwithin)
    exact not_aligned hax hby hne ((h a ha b hb).1.mp (hRelated_iff.mpr (Or.inl hin)))

/-- The hierarchy test means what it should on the graphs whose paths are apart, and on no
others. -/
theorem relatedByGroups_iff (f : Forest) : f.RelatedByGroups ↔ f.PathsApart := by
  refine ⟨Forest.RelatedByGroups.pathsApart, fun hp a ha b hb => ⟨⟨hp.aligned ha hb, ?_⟩, ?_⟩⟩
  · intro hal
    rw [aligned_iff] at hal
    exact hRelated_of_suffix hal.symm
  · intro lg inputs hloop hv
    apply hp.aligned ha hb
    by_contra hr
    simp [validateHierarchy, hr, hloop] at hv

/-- Two Scatters beside each other with the keys -1 and -12, and a link from one to the other. -/
def scattersBeside : LogicalGraph where
  sessionId := "s"
  forest :=
    .cons { id := .int (-1), category := .scatter, categoryType := .construct, isGroup := true }
      (.cons { id := .int (-2), category := .pythonApp, categoryType := .application } .nil .nil)
      (.cons { id := .int (-12), category := .scatter, categoryType := .construct
               isGroup := true }
        (.cons { id := .int (-3), category := .file, categoryType := .data } .nil .nil) .nil)
  links := [{ source := .int (-2), target := .int (-3) }]
  ids_nodup := by decide
  ids_ne_newAdded := by decide

theorem scattersBeside_linked : (∃ lg, scattersBeside.init = .ok lg) ∧
    ¬ scattersBeside.forest.RelatedByGroups := by
  refine ⟨⟨_, rfl⟩, fun h => ?_⟩
  have hal := (h _ (List.getElem_mem (n := 1) (by decide)) _
    (List.getElem_mem (n := 3) (by decide))).1.mp (by decide)
  rcases hal with hal | hal <;> exact absurd hal (by decide)

end Daliuge.Unroll
