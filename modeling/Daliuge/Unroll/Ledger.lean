import Daliuge.Unroll.Plan

/-!
# What the relation lists say

The relation lists of all drops after a list of writes. Bridges are named by the number of
those before them; once they have their names, a list of writes is a list of relations.
-/
namespace Daliuge.Unroll

/-- Whether a relation list of a drop holds an oid. -/
def Relations.Lists (r : Relations) (i : Ident) (key : RelationKey) (oid : String) : Prop :=
  ∃ e, (i, key, e) ∈ r ∧ e.oid = oid

/-- The two entries a relation makes. -/
def Relation.Tells (e : Relation) (i : Ident) (key : RelationKey) (oid : String) : Prop :=
  i = e.source.ident ∧ key = e.kind.forward ∧ oid = e.target.oid ∨
    i = e.target.ident ∧ key = e.kind.backward ∧ oid = e.source.oid

section Lists

variable {r : Relations} {d other : Drop} {name : Option String} {key k : RelationKey}
  {isInput : Bool} {i : Ident} {oid : String} {e : Relation} {es : List Relation}

theorem oid_entry : (Relations.entry oid name).oid = oid := by
  cases name with
  | none => rfl
  | some name =>
    simp only [Relations.entry]
    split <;> rfl

theorem lists_append {r r' : Relations} :
    Relations.Lists (r ++ r') i k oid ↔ r.Lists i k oid ∨ Relations.Lists r' i k oid := by
  simp [Relations.Lists, or_and_right, exists_or]

theorem lists_singleton {j : Ident} {x : Entry} :
    Relations.Lists [(j, key, x)] i k oid ↔ i = j ∧ k = key ∧ oid = x.oid := by
  constructor
  · rintro ⟨e, he, rfl⟩
    simp only [List.mem_singleton, Prod.mk.injEq] at he
    exact ⟨he.1, he.2.1, by rw [he.2.2]⟩
  · rintro ⟨rfl, rfl, rfl⟩
    exact ⟨x, by simp, rfl⟩

theorem lists_addSomething : (r.addSomething d other name key).Lists i k oid ↔
    r.Lists i k oid ∨ (i = d.ident ∧ k = key ∧ oid = other.oid) := by
  unfold Relations.addSomething
  split
  · rename_i hm
    constructor
    · exact Or.inl
    · rintro (h | ⟨rfl, rfl, rfl⟩)
      · exact h
      · exact ⟨_, hm, rfl⟩
  · rw [lists_append, lists_singleton, oid_entry]

theorem lists_add (hk : k ≠ .ports) : (r.add d other name key isInput).Lists i k oid ↔
    r.Lists i k oid ∨ (i = d.ident ∧ k = key ∧ oid = other.oid) := by
  unfold Relations.add Relations.addPort
  rw [lists_append, lists_singleton, lists_addSomething]
  simp [hk]

theorem lists_relate (hk : k ≠ .ports) :
    (r.relate e).Lists i k oid ↔ r.Lists i k oid ∨ e.Tells i k oid := by
  rw [Relations.relate, lists_add hk, lists_add hk, Relation.Tells, or_assoc]

theorem lists_foldl_relate (hk : k ≠ .ports) : (es.foldl Relations.relate r).Lists i k oid ↔
    r.Lists i k oid ∨ ∃ e ∈ es, e.Tells i k oid := by
  induction es generalizing r with
  | nil => simp
  | cons e es ih => simp [ih, lists_relate hk, or_assoc]

end Lists

/-! Bridges with their names. -/

def intoBridge (s bridge : Drop) : Relation :=
  ⟨.output, s, bridge, some "stream", some "stream"⟩

def outOfBridge (bridge t : Drop) : Relation :=
  ⟨.streaming, bridge, t, some "stream", some "stream"⟩

/-- The relations of a bridge. -/
def bridgeRelations (s t bridge : Drop) : List Relation :=
  [intoBridge s bridge, outOfBridge bridge t]

theorem mem_bridgeRelations {s t bridge : Drop} {e : Relation} :
    e ∈ bridgeRelations s t bridge ↔ e = intoBridge s bridge ∨ e = outOfBridge bridge t := by
  simp [bridgeRelations]

/-- All relations of a list of writes, after the bridges that are there already. -/
def expand (sessionId : String) : List Drop → List Write → List Relation
  | _, [] => []
  | bridges, .relate e :: xs => e :: expand sessionId bridges xs
  | bridges, .bridge s t :: xs =>
    let bridge := bridgeDrop sessionId s t (bridgesBetween bridges s t)
    bridgeRelations s t bridge ++ expand sessionId (bridges ++ [bridge]) xs

section Expand

variable {sid : String} {xs : List Write} {w : Ledger} {b s t : Drop} {e : Relation}

theorem write_relate_relations : (w.write sid (.relate e)).relations = w.relations.relate e := by
  obtain ⟨kind, s, t, sname, tname⟩ := e
  cases kind <;> rfl

theorem write_relate_bridges : (w.write sid (.relate e)).bridges = w.bridges := by
  obtain ⟨kind, s, t, sname, tname⟩ := e
  cases kind <;> rfl

theorem write_bridge_bridges : (w.write sid (.bridge s t)).bridges =
    w.bridges ++ [bridgeDrop sid s t (bridgesBetween w.bridges s t)] := rfl

theorem relations_foldl_write : (xs.foldl (Ledger.write sid) w).relations =
    (expand sid w.bridges xs).foldl Relations.relate w.relations := by
  induction xs generalizing w with
  | nil => rfl
  | cons x xs ih =>
    rw [List.foldl_cons, ih]
    cases x with
    | relate e => rw [write_relate_relations, write_relate_bridges]; rfl
    | bridge s t => rw [write_bridge_bridges]; rfl

/-- Where a bridge comes from. -/
theorem mem_bridges (h : b ∈ (xs.foldl (Ledger.write sid) w).bridges) : b ∈ w.bridges ∨
    ∃ s t n, .bridge s t ∈ xs ∧ b = bridgeDrop sid s t n ∧
      bridgeRelations s t b ⊆ expand sid w.bridges xs := by
  induction xs generalizing w with
  | nil => exact Or.inl h
  | cons x xs ih =>
    rcases ih h with h | ⟨s, t, n, hm, hb, hs⟩
    · cases x with
      | relate e =>
        rw [write_relate_bridges] at h
        exact Or.inl h
      | bridge s t =>
        rw [write_bridge_bridges, List.mem_append, List.mem_singleton] at h
        rcases h with h | rfl
        · exact Or.inl h
        · exact Or.inr ⟨s, t, _, by simp, rfl, List.subset_append_left _ _⟩
    · refine Or.inr ⟨s, t, n, by simp [hm], hb, ?_⟩
      cases x with
      | relate e =>
        rw [write_relate_bridges] at hs
        exact List.subset_cons_of_subset _ hs
      | bridge s t =>
        rw [write_bridge_bridges] at hs
        exact List.subset_append_of_subset_right _ hs

theorem bridges_subset : w.bridges ⊆ (xs.foldl (Ledger.write sid) w).bridges := by
  induction xs generalizing w with
  | nil => exact List.Subset.refl _
  | cons x xs ih =>
    refine List.Subset.trans ?_ ih
    cases x with
    | relate e => rw [write_relate_bridges]; exact List.Subset.refl _
    | bridge s t => rw [write_bridge_bridges]; exact List.subset_append_left _ _

/-- Every bridge that is planned gets made. -/
theorem exists_bridge (h : .bridge s t ∈ xs) : ∃ n,
    bridgeDrop sid s t n ∈ (xs.foldl (Ledger.write sid) w).bridges ∧
      bridgeRelations s t (bridgeDrop sid s t n) ⊆ expand sid w.bridges xs := by
  induction xs generalizing w with
  | nil => simp at h
  | cons x xs ih =>
    rcases List.mem_cons.mp h with rfl | h
    · refine ⟨_, bridges_subset (w := w.write sid (.bridge s t)) ?_, List.subset_append_left _ _⟩
      rw [write_bridge_bridges]
      simp
    · obtain ⟨n, hn, hs⟩ := ih (w := w.write sid x) h
      refine ⟨n, hn, ?_⟩
      cases x with
      | relate e =>
        rw [write_relate_bridges] at hs
        exact List.subset_cons_of_subset _ hs
      | bridge s t =>
        rw [write_bridge_bridges] at hs
        exact List.subset_append_of_subset_right _ hs

/-- A relation is written as such or belongs to a bridge. -/
theorem mem_expand (h : e ∈ expand sid w.bridges xs) : .relate e ∈ xs ∨
    ∃ s t n, .bridge s t ∈ xs ∧
      bridgeDrop sid s t n ∈ (xs.foldl (Ledger.write sid) w).bridges ∧
      e ∈ bridgeRelations s t (bridgeDrop sid s t n) := by
  induction xs generalizing w with
  | nil => simp [expand] at h
  | cons x xs ih =>
    cases x with
    | relate e' =>
      rcases List.mem_cons.mp h with rfl | h
      · exact Or.inl (by simp)
      · have ih' := ih (w := w.write sid (.relate e')) (by rwa [write_relate_bridges])
        rcases ih' with h | ⟨s, t, n, hm, hb, he⟩
        · exact Or.inl (by simp [h])
        · exact Or.inr ⟨s, t, n, by simp [hm], hb, he⟩
    | bridge s t =>
      rcases List.mem_append.mp h with h | h
      · refine Or.inr ⟨s, t, _, by simp, bridges_subset (w := w.write sid (.bridge s t)) ?_, h⟩
        rw [write_bridge_bridges]
        simp
      · rcases ih (w := w.write sid (.bridge s t)) h with h | ⟨s, t, n, hm, hb, he⟩
        · exact Or.inl (by simp [h])
        · exact Or.inr ⟨s, t, n, by simp [hm], hb, he⟩

theorem relate_mem_expand {bridges : List Drop} (h : .relate e ∈ xs) :
    e ∈ expand sid bridges xs := by
  induction xs generalizing bridges with
  | nil => simp at h
  | cons x xs ih =>
    rcases List.mem_cons.mp h with rfl | hm
    · exact List.mem_cons_self
    · cases x with
      | relate e' => exact List.mem_cons_of_mem _ (ih hm)
      | bridge s t => exact List.mem_append_right _ (ih hm)

end Expand

end Daliuge.Unroll
