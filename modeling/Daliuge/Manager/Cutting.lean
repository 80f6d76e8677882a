import Mathlib.Algebra.Order.BigOperators.Group.List
import Mathlib.Algebra.Order.Group.Nat
import Mathlib.Algebra.Order.Ring.Nat
import Daliuge.Manager.Splitting

/-!
# Cutting

What cutting the relations that leave a list of drop specifications is to do, and the relation
lists it does that for.
-/
namespace Daliuge.Manager

open Collect

section Definitions

variable (oids : List String)

/-- The entries of a relation that stay among these drops. -/
def stayingRefs (refs : List Ref) : List Ref := refs.filter fun ref => oids.contains ref.oid

/-- The oids of a relation that are elsewhere, one for each entry. -/
def leavingOids (refs : List Ref) : List String :=
  (refs.map Ref.oid).filter fun o => !oids.contains o

/-- The relations of a drop to others that are elsewhere, each with its kind and direction. -/
def DropSpec.leavingRels (d : DropSpec) : List (DROPRel String) :=
  (ToMany.all.flatMap fun k =>
    (leavingOids oids ((d.relations k).getD [])).map fun o => ⟨o, k.link, d.oid⟩) ++
  (leavingOids oids d.parent.toList).map fun o => ⟨o, .parent, d.oid⟩

/-- A drop whose relations are those to drops that are here, written as before. -/
structure DropSpec.Keeps (d d' : DropSpec) : Prop where
  rest : { d' with relations := d.relations, parent := d.parent } = d
  relations : ∀ k, (d'.relations k).getD [] = stayingRefs oids ((d.relations k).getD [])
  parent : d'.parent.toList = stayingRefs oids d.parent.toList

end Definitions

/-- The cut takes out what leaves the list, returns each such relation once, and leaves the rest. -/
structure CutsExactly (ds : List DropSpec) (rels : List (DROPRel String)) (ds' : List DropSpec) :
    Prop where
  keeps : List.Forall₂ (DropSpec.Keeps (ds.map (·.oid))) ds ds'
  returned : rels.Perm (ds.flatMap (DropSpec.leavingRels (ds.map (·.oid))))

/-- A relation list that is cut as it should be: no empty one; after an oid only oids; and after a
dictionary either everything is here, or everything elsewhere, as it is written and as it is
read. -/
def Severable (oids : List String) (refs : List Ref) : Prop :=
  match refs with
  | [] => False
  | .plain _ :: _ => ∀ ref ∈ refs, ref.isNamed = false
  | .named _ _ :: _ => Ref.plain "" ∉ refs ∧
    ((∀ ref ∈ refs, ref.oid ∈ oids ∧ ref.key ∈ oids) ∨
      ∀ ref ∈ refs, ref.oid ∉ oids ∧ ref.key = ref.oid)

/-- What the cut reports for one drop, where it does not fail. -/
def DropSpec.reported (oids : List String) (d : DropSpec) : List (DROPRel String) :=
  (ToMany.all.flatMap fun k =>
    (leaving oids ((d.relations k).getD [])).map fun o => ⟨o, k.link, d.oid⟩) ++
  (leavingOids oids d.parent.toList).map fun o => ⟨o, .parent, d.oid⟩

variable {oids : List String} {refs : List Ref} {ds : List DropSpec} {d d' : DropSpec}
  {rels : List (DROPRel String)} {ds' : List DropSpec} {ref : Ref}

/-! What the cut comes to. -/

theorem leaving_of_cutRelation {x : List String × Option (List Ref)}
    (h : cutRelation oids refs = .ok x) : x.1 = leaving oids refs := by
  rcases refs with _ | ⟨o | ⟨o, n⟩, refs⟩
  · cases h
  · exact (cutRelation_plain h).2.1
  · exact (cutRelation_named.mp h).2.1

theorem unmet_of_legible (h : d.Legible oids) : d.unmet oids = .ok (d.reported oids) := by
  have hkeys : collect (fun k => do return (← cutKey oids d k).1) ToMany.all =
      .ok (ToMany.all.flatMap fun k =>
        (leaving oids ((d.relations k).getD [])).map fun o => ⟨o, k.link, d.oid⟩) := by
    apply collect_eq_flatMap
    intro k _
    rw [bind_ok]
    cases hk : d.relations k with
    | none => exact ⟨_, cutKey_ok.mpr (Or.inl ⟨hk, rfl⟩), by simp [leaving, pure_ok]⟩
    | some refs =>
      obtain ⟨x, hx⟩ := h k refs hk
      refine ⟨_, cutKey_ok.mpr (Or.inr ⟨refs, x, hk, hx, rfl⟩), ?_⟩
      rw [pure_ok, leaving_of_cutRelation hx]
      rfl
  have hparent : (cutParent oids d).1 =
      (leavingOids oids d.parent.toList).map fun o => ⟨o, .parent, d.oid⟩ := by
    rw [cutParent, leavingOids]
    cases d.parent with
    | none => rfl
    | some ref => by_cases hr : ref.oid ∈ oids <;> simp [hr]
  rw [DropSpec.unmet, hkeys, ok_bind, hparent]
  rfl

theorem removeUnmetRelationships_ok :
    removeUnmetRelationships ds = .ok (rels, ds') ↔
      (∀ d ∈ ds, d.Legible (ds.map (·.oid))) ∧
        rels = ds.flatMap (DropSpec.reported (ds.map (·.oid))) ∧
        ds' = ds.map (DropSpec.cut (ds.map (·.oid))) := by
  simp only [removeUnmetRelationships, bind_ok, pure_ok]
  constructor
  · rintro ⟨us, hus, he⟩
    obtain ⟨rfl, rfl⟩ := Prod.mk.inj he
    have hleg : ∀ d ∈ ds, d.Legible (ds.map (·.oid)) := by
      intro d hd
      obtain ⟨r, hr⟩ := exists_collect_iff.mp ⟨_, hus⟩ d hd
      exact exists_unmet_iff.mp ⟨r, hr⟩
    rw [collect_eq_flatMap fun d hd => unmet_of_legible (hleg d hd)] at hus
    exact ⟨hleg, (Except.ok.inj hus).symm, rfl⟩
  · rintro ⟨hleg, rfl, rfl⟩
    exact ⟨_, collect_eq_flatMap fun d hd => unmet_of_legible (hleg d hd), rfl⟩

/-- One relation list is cut without failing, and keeps what is here. -/
def Trims (oids : List String) (refs : List Ref) : Prop :=
  ∃ x, cutRelation oids refs = .ok x ∧ x.2.getD [] = stayingRefs oids refs

/-- The other parts of a drop are always cut as they should be. -/
theorem keeps_cut_iff (h : d.Legible oids) : d.Keeps oids (d.cut oids) ↔
    ∀ k refs, d.relations k = some refs → Trims oids refs := by
  have hkey : ∀ k refs x, d.relations k = some refs → cutRelation oids refs = .ok x →
      (d.cut oids).relations k = x.2 := by
    intro k refs x hk hx
    simp only [DropSpec.cut, cutKey, hk, hx, ok_bind]
    rfl
  constructor
  · intro hkeep k refs hk
    obtain ⟨x, hx⟩ := h k refs hk
    have hrel := hkeep.relations k
    rw [hkey k refs x hk hx, hk] at hrel
    exact ⟨x, hx, hrel⟩
  · intro htrim
    refine ⟨rfl, fun k => ?_, ?_⟩
    · cases hk : d.relations k with
      | none => simp [DropSpec.cut, cutKey, hk, stayingRefs]
      | some refs =>
        obtain ⟨x, hx, hkept⟩ := htrim k refs hk
        rw [hkey k refs x hk hx, hkept]
        rfl
    · simp only [DropSpec.cut, cutParent, stayingRefs]
      cases d.parent with
      | none => rfl
      | some ref => by_cases hr : ref.oid ∈ oids <;> simp [hr]

/-! Comparing what is reported with what leaves. An oid is read as its first letter where it is
misread, so a misread oid counts for more. -/

def misread (o : String) : Nat := if o.length ≤ 1 then 2 else 1

def weight (l : List String) : Nat := (l.map misread).sum

theorem misread_pos (o : String) : 0 < misread o := by
  unfold misread
  split <;> omega

theorem misread_le (o : String) : misread o ≤ 2 := by
  unfold misread
  split <;> omega

theorem misread_key_plain (o : String) : misread (Ref.plain o).key = 2 :=
  if_pos (by simp [Ref.key])

theorem misread_oid_le (ref : Ref) : misread ref.oid ≤ misread ref.key := by
  cases ref with
  | named o n => exact le_rfl
  | plain o =>
    rw [misread_key_plain]
    exact misread_le o

theorem key_eq_of_misread (h : misread ref.key ≤ misread ref.oid) : ref.key = ref.oid := by
  cases ref with
  | named o n => rfl
  | plain o =>
    have ho : o.length ≤ 1 := by
      by_contra hlong
      rw [misread_key_plain, Ref.oid, misread, if_neg hlong] at h
      omega
    simp only [Ref.oid, Ref.key]
    rw [List.take_of_length_le (by rwa [String.length_toList]), String.ofList_toList]

theorem weight_pos {l : List String} (h : l ≠ []) : 0 < weight l := by
  cases l with
  | nil => exact absurd rfl h
  | cons o l =>
    have := misread_pos o
    simp only [weight, List.map_cons, List.sum_cons]
    omega

/-- At least what leaves a list is reported, and no more only if the list is cut as it should be. -/
theorem Trims.weight_le (h : Trims oids refs) :
    weight (leavingOids oids refs) ≤ weight (leaving oids refs) ∧
      (weight (leaving oids refs) ≤ weight (leavingOids oids refs) → Severable oids refs) := by
  obtain ⟨x, hx, hkept⟩ := h
  rcases refs with _ | ⟨o | ⟨o, n⟩, refs⟩
  · cases hx
  · exact ⟨le_rfl, fun _ => (cutRelation_plain hx).1⟩
  · obtain ⟨hne, -, h₂⟩ := cutRelation_named.mp hx
    simp only [Severable, leaving]
    generalize Ref.named o n :: refs = l at *
    by_cases hall : ∀ ref ∈ l, ref.key ∉ oids
    · rw [h₂, if_pos hall] at hkept
      have hout : ∀ ref ∈ l, ref.oid ∉ oids := by
        simpa [stayingRefs] using hkept.symm
      have hkeys : (l.map Ref.key).filter (fun o => !oids.contains o) = l.map Ref.key := by
        simpa [List.filter_eq_self] using hall
      have hoids : leavingOids oids l = l.map Ref.oid := by
        simpa [leavingOids, List.filter_eq_self] using hout
      have hle : ∀ ref ∈ l, (misread ∘ Ref.oid) ref ≤ (misread ∘ Ref.key) ref :=
        fun ref _ => misread_oid_le ref
      rw [hkeys, hoids, weight, weight, List.map_map, List.map_map]
      refine ⟨List.sum_le_sum hle, fun hw => ⟨hne, Or.inr fun ref href => ⟨hout ref href, ?_⟩⟩⟩
      by_contra hkey
      refine absurd (List.sum_lt_sum _ _ hle ⟨ref, href, ?_⟩) (not_lt_of_ge hw)
      exact not_le.mp fun hm => hkey (key_eq_of_misread hm)
    · rw [h₂, if_neg hall] at hkept
      have hin : ∀ ref ∈ l, ref.oid ∈ oids := by
        simpa [stayingRefs, List.filter_eq_self] using hkept.symm
      have hoids : leavingOids oids l = [] := by
        simpa [leavingOids] using hin
      rw [hoids]
      refine ⟨Nat.zero_le _, fun hw => ⟨hne, Or.inl fun ref href => ⟨hin ref href, ?_⟩⟩⟩
      by_contra hkey
      have hsome : (l.map Ref.key).filter (fun o => !oids.contains o) ≠ [] := by
        have hm : ref.key ∈ (l.map Ref.key).filter (fun o => !oids.contains o) :=
          List.mem_filter.mpr ⟨List.mem_map_of_mem href, by simpa using hkey⟩
        exact List.ne_nil_of_mem hm
      exact absurd (weight_pos hsome) (by simpa [weight] using hw)

/-- A list that is cut as it should be. -/
theorem Severable.trims (h : Severable oids refs) :
    Trims oids refs ∧ leaving oids refs = leavingOids oids refs := by
  rcases refs with _ | ⟨o | ⟨o, n⟩, refs⟩
  · exact h.elim
  · obtain ⟨x, hx⟩ := exists_cutRelation_plain oids h
    refine ⟨⟨x, hx, ?_⟩, rfl⟩
    rw [(cutRelation_plain hx).2.2, stayingRefs]
    have hplain : ∀ ref ∈ Ref.plain o :: refs, Ref.plain ref.oid = ref := by
      intro ref href
      have := h ref href
      cases ref with
      | plain o => rfl
      | named o n => cases this
    rw [List.filter_map, List.map_map]
    exact (List.map_congr_left fun ref href => hplain ref (List.mem_filter.mp href).1).trans
      (List.map_id _)
  · obtain ⟨hne, hcases⟩ := h
    have hhead : Ref.named o n ∈ Ref.named o n :: refs := List.mem_cons_self
    have hx : cutRelation oids (.named o n :: refs) = .ok (leaving oids (.named o n :: refs),
        if ∀ ref ∈ Ref.named o n :: refs, ref.key ∉ oids then none
          else some (.named o n :: refs)) := cutRelation_named.mpr ⟨hne, rfl, rfl⟩
    refine ⟨⟨_, hx, ?_⟩, ?_⟩
    · rcases hcases with hin | hout
      · rw [if_neg fun hall => hall _ hhead (hin _ hhead).2]
        symm
        exact List.filter_eq_self.mpr fun ref href => by simpa using (hin ref href).1
      · rw [if_pos fun ref href => by rw [(hout ref href).2]; exact (hout ref href).1]
        symm
        exact List.filter_eq_nil_iff.mpr fun ref href => by simpa using (hout ref href).1
    · simp only [leaving, leavingOids]
      rcases hcases with hin | hout
      · have hkeys : ((Ref.named o n :: refs).map Ref.key).filter (fun o => !oids.contains o) =
            [] := by
          simp only [List.filter_eq_nil_iff, List.forall_mem_map]
          exact fun ref href => by simpa using (hin ref href).2
        have hoids : ((Ref.named o n :: refs).map Ref.oid).filter (fun o => !oids.contains o) =
            [] := by
          simp only [List.filter_eq_nil_iff, List.forall_mem_map]
          exact fun ref href => by simpa using (hin ref href).1
        rw [hkeys, hoids]
      · rw [List.map_congr_left fun ref href => (hout ref href).2]

/-! From one list to all of them. -/

/-- Where no part weighs less, the whole does not, and weighs the same only if each part does. -/
theorem sum_flatMap_le {α β : Type*} (w : β → Nat) (f f' : α → List β) {l : List α}
    (h : ∀ a ∈ l, ((f a).map w).sum ≤ ((f' a).map w).sum) :
    ((l.flatMap f).map w).sum ≤ ((l.flatMap f').map w).sum ∧
      (((l.flatMap f').map w).sum ≤ ((l.flatMap f).map w).sum →
        ∀ a ∈ l, ((f' a).map w).sum ≤ ((f a).map w).sum) := by
  induction l with
  | nil => simp
  | cons a l ih =>
    obtain ⟨hle, heq⟩ := ih fun b hb => h b (List.mem_cons_of_mem _ hb)
    have ha := h a List.mem_cons_self
    simp only [List.flatMap_cons, List.map_append, List.sum_append]
    refine ⟨by omega, fun hw b hb => ?_⟩
    rcases List.mem_cons.mp hb with rfl | hb
    · omega
    · exact heq (by omega) b hb

/-- The weight of the oids of some relations. -/
abbrev DROPRel.misread (rel : DROPRel String) : Nat := Manager.misread rel.lhs

theorem sum_misread_map {k : LinkType} {o : String} (l : List String) :
    ((l.map fun o' => (⟨o', k, o⟩ : DROPRel String)).map DROPRel.misread).sum = weight l := by
  rw [List.map_map]
  rfl

/-- For one drop that is trimmed: at least what leaves is reported, and no more only if its lists
are cut as they should be. -/
theorem weight_reported (h : ∀ k refs, d.relations k = some refs → Trims oids refs) :
    ((d.leavingRels oids).map DROPRel.misread).sum ≤
      ((d.reported oids).map DROPRel.misread).sum ∧
    (((d.reported oids).map DROPRel.misread).sum ≤
      ((d.leavingRels oids).map DROPRel.misread).sum →
        ∀ k refs, d.relations k = some refs → Severable oids refs) := by
  have hkey : ∀ k, weight (leavingOids oids ((d.relations k).getD [])) ≤
      weight (leaving oids ((d.relations k).getD [])) := by
    intro k
    cases hk : d.relations k with
    | none => exact le_rfl
    | some refs => exact (h k refs hk).weight_le.1
  obtain ⟨hle, heq⟩ := sum_flatMap_le DROPRel.misread
    (fun k => (leavingOids oids ((d.relations k).getD [])).map fun o =>
      (⟨o, k.link, d.oid⟩ : DROPRel String))
    (fun k => (leaving oids ((d.relations k).getD [])).map fun o => ⟨o, k.link, d.oid⟩)
    (l := ToMany.all) (fun k _ => by simpa only [sum_misread_map] using hkey k)
  simp only [DropSpec.leavingRels, DropSpec.reported, List.map_append, List.sum_append]
  refine ⟨by omega, fun hw k refs hk => (h k refs hk).weight_le.2 ?_⟩
  have := heq (by omega) k (mem_all k)
  rw [sum_misread_map, sum_misread_map, hk] at this
  exact this

theorem forall₂_map_cut {R : DropSpec → DropSpec → Prop} :
    List.Forall₂ R ds (ds.map (DropSpec.cut oids)) ↔ ∀ d ∈ ds, R d (d.cut oids) := by
  rw [List.forall₂_map_right_iff, List.forall₂_same]

/-- The relations that leave a list of drop specifications are cut exactly if and only if every
relation list is one that can be severed. -/
theorem cutsExactly_iff (ds : List DropSpec) :
    (∃ rels ds', removeUnmetRelationships ds = .ok (rels, ds') ∧ CutsExactly ds rels ds') ↔
      ∀ d ∈ ds, ∀ k refs, d.relations k = some refs → Severable (ds.map (·.oid)) refs := by
  constructor
  · rintro ⟨rels, ds', h, hcut⟩
    obtain ⟨hleg, rfl, rfl⟩ := removeUnmetRelationships_ok.mp h
    have htrim : ∀ d ∈ ds, ∀ k refs, d.relations k = some refs → Trims (ds.map (·.oid)) refs :=
      fun d hd => (keeps_cut_iff (hleg d hd)).mp (forall₂_map_cut.mp hcut.keeps d hd)
    have hsum : ((ds.flatMap (DropSpec.reported (ds.map (·.oid)))).map DROPRel.misread).sum =
        ((ds.flatMap (DropSpec.leavingRels (ds.map (·.oid)))).map DROPRel.misread).sum :=
      (hcut.returned.map _).sum_eq
    have hle : ∀ d ∈ ds, ((d.leavingRels (ds.map (·.oid))).map DROPRel.misread).sum ≤
        ((d.reported (ds.map (·.oid))).map DROPRel.misread).sum :=
      fun d hd => (weight_reported (htrim d hd)).1
    have heq := (sum_flatMap_le DROPRel.misread _ _ hle).2 hsum.le
    exact fun d hd => (weight_reported (htrim d hd)).2 (heq d hd)
  · intro h
    have hleg : ∀ d ∈ ds, d.Legible (ds.map (·.oid)) := by
      intro d hd k refs hk
      obtain ⟨x, hx, -⟩ := (h d hd k refs hk).trims.1
      exact ⟨x, hx⟩
    have hrel : ∀ d ∈ ds, d.reported (ds.map (·.oid)) = d.leavingRels (ds.map (·.oid)) := by
      intro d hd
      have hkey : ∀ k, leaving (ds.map (·.oid)) ((d.relations k).getD []) =
          leavingOids (ds.map (·.oid)) ((d.relations k).getD []) := by
        intro k
        cases hk : d.relations k with
        | none => rfl
        | some refs => exact (h d hd k refs hk).trims.2
      simp only [DropSpec.reported, DropSpec.leavingRels, hkey]
    refine ⟨_, _, removeUnmetRelationships_ok.mpr ⟨hleg, rfl, rfl⟩, ?_, ?_⟩
    · exact forall₂_map_cut.mpr fun d hd =>
        (keeps_cut_iff (hleg d hd)).mpr fun k refs hk => (h d hd k refs hk).trims.1
    · rw [List.flatMap_congr hrel]

/-- A drop with the given consumers, one of which may be here. -/
def consumedBy (refs : List Ref) : List DropSpec :=
  [{ oid := "A", partition := none, node := none,
     relations := fun k => if k = .consumers then some refs else none },
   { oid := "B", partition := none, node := none }]

/-- A consumer elsewhere stays where the list holds dictionaries and another consumer is here; an
empty list is refused. -/
theorem remote_consumer_stays :
    (¬ ∃ rels ds', removeUnmetRelationships (consumedBy [.named "B" "in", .named "C" "in"]) =
      .ok (rels, ds') ∧ CutsExactly (consumedBy [.named "B" "in", .named "C" "in"]) rels ds') ∧
    removeUnmetRelationships (consumedBy []) = .error .indexError := by
  refine ⟨?_, rfl⟩
  rintro ⟨rels, ds', h, hcut⟩
  have hds := (removeUnmetRelationships_ok.mp h).2.2
  subst hds
  have hkeep := (forall₂_map_cut.mp hcut.keeps _ List.mem_cons_self).relations .consumers
  exact absurd hkeep (by decide)

end Daliuge.Manager
