import Daliuge.Manager.Calls

/-!
# Splitting a graph over nodes

A graph that is split over the nodes of a manager and read back from them.
-/
namespace Daliuge.Manager

open Collect Association

/-- The oids a drop is related to under a key. -/
def DropSpec.related (d : DropSpec) (k : ToMany) : List String :=
  ((d.relations k).getD []).map Ref.oid

/-- One drop with the same relations, however they are written. -/
structure DropSpec.Same (d d' : DropSpec) : Prop where
  rest : { d' with relations := d.relations, parent := d.parent } = d
  related : ∀ k o, o ∈ d'.related k ↔ o ∈ d.related k
  parent : d'.parent.map Ref.oid = d.parent.map Ref.oid

/-- The oids of the drops that are placed where a drop is. -/
def locals (ds : List DropSpec) (d : DropSpec) : List String :=
  (ds.filter fun e => e.partition == d.partition).map (·.oid)

/-- A graph specification with every drop placed on one of the hosts. -/
structure GraphSpec (R : Type) (hosts : List String) where
  drops : List DropSpec
  padded : Bool := false
  reprodata : Option R := none
  distinct : (drops.map (·.oid)).Nodup
  placed : ∀ d ∈ drops, ∃ p ∈ hosts, d.partition = some p

namespace GraphSpec

variable {R : Type} {hosts : List String}

/-- The drops, and the empty element that may follow them. -/
def body (g : GraphSpec R hosts) : List (Item R) :=
  g.drops.map .drop ++ if g.padded then [.empty] else []

/-- The list as it is submitted. -/
def items (g : GraphSpec R hosts) : List (Item R) :=
  g.body ++ (g.reprodata.map .reprodata).toList

end GraphSpec

/-! When a relation survives. -/

/-- The text that is taken for the oid of an entry when its list begins with a dictionary: the
first letter of an entry that is none. -/
def Ref.key : Ref → String
  | .named o _ => o
  | .plain o => String.ofList (o.toList.take 1)

/-- A relation list whose oids survive on a node that has these drops. -/
def Readable (oids : List String) (refs : List Ref) : Prop :=
  match refs with
  | [] => False
  | .plain _ :: _ => ∀ ref ∈ refs, ref.isNamed = false
  | .named _ _ :: _ => Ref.plain "" ∉ refs ∧
    ((∃ ref ∈ refs, ref.key ∈ oids) →
      ∀ ref ∈ refs, ref.key ∉ oids → ref.key ∈ refs.map Ref.oid ∧ Ref.plain ref.key ∉ refs) ∧
    ((∀ ref ∈ refs, ref.key ∉ oids) → ∀ o, o ∈ refs.map Ref.key ↔ o ∈ refs.map Ref.oid)

/-- The oids of a relation list that are not on the node. -/
def leaving (oids : List String) (refs : List Ref) : List String :=
  (match refs with
    | .named _ _ :: _ => refs.map Ref.key
    | _ => refs.map Ref.oid).filter fun o => !oids.contains o

namespace Composite

variable {R : Type}

/-- The graph comes back from the nodes with every drop once and the same relations. -/
def Returns (m : Composite R) (session : String) (ds : List DropSpec) : Prop :=
  ∃ gr, m.getGraph session = .ok gr ∧ (gr.map Prod.fst).Perm (ds.map (·.oid)) ∧
    ∀ d ∈ ds, ∃ d', (d.oid, d') ∈ gr ∧ d.Same d'

/-- The graph is taken in, and comes back. -/
def RoundTrip (initPgReproData : List (Item R) → R → Except Err R) (m : Composite R)
    (session : String) {hosts : List String} (g : GraphSpec R hosts) : Prop :=
  ∃ m', m.addGraphSpec initPgReproData session g.items = (m', .ok ()) ∧
    m'.Returns session g.drops

/-- What it takes, where these drops are known already. -/
structure Splittable (initPgReproData : List (Item R) → R → Except Err R)
    (graph : String → Option DropSpec) {hosts : List String} (g : GraphSpec R hosts) : Prop where
  nonempty : g.drops = [] → g.padded = true ∧ hosts = []
  hashed : ∀ r, g.reprodata = some r → ∃ r', initPgReproData g.body r = .ok r'
  readable : ∀ d ∈ g.drops, ∀ k refs, d.relations k = some refs →
    Readable (locals g.drops d) refs
  parent : ∀ d ∈ g.drops, ∀ ref, d.parent = some ref → ref.oid ∈ locals g.drops d
  located : ∀ d ∈ g.drops, ∀ k refs, d.relations k = some refs →
    ∀ o ∈ leaving (locals g.drops d) refs, Located (registered graph g.drops) o ∧
      Located (registered graph g.drops) d.oid

end Composite

/-! What leaves one relation list. -/

section Cut

variable {oids : List String} {refs : List Ref} {ds : List DropSpec} {d : DropSpec}
  {rel : DROPRel String}

theorem firstKey_ok {ref : Ref} {o : String} :
    ref.firstKey = .ok o ↔ ref ≠ .plain "" ∧ o = ref.key := by
  cases ref with
  | named o' n => simp [Ref.firstKey, Ref.key, eq_comm]
  | plain o' =>
    simp only [Ref.firstKey, Ref.key]
    cases h : o'.toList with
    | nil => simp [String.toList_eq_nil_iff.mp h]
    | cons c cs =>
      have hne : o' ≠ "" := by
        rintro rfl
        simp at h
      simp [hne, eq_comm]

theorem hashable_ok {ref : Ref} {o : String} :
    ref.hashable = .ok o ↔ ref.isNamed = false ∧ o = ref.oid := by
  cases ref <;> simp [Ref.hashable, Ref.isNamed, Ref.oid, eq_comm]

theorem mapM_firstKey {ks : List String} :
    refs.mapM Ref.firstKey = .ok ks ↔ Ref.plain "" ∉ refs ∧ ks = refs.map Ref.key := by
  constructor
  · intro h
    have hkey : ∀ ref ∈ refs, ref ≠ .plain "" ∧ ref.firstKey = .ok ref.key := by
      intro ref href
      obtain ⟨o, ho⟩ := ok_of_mapM h href
      obtain ⟨hne, rfl⟩ := firstKey_ok.mp ho
      exact ⟨hne, ho⟩
    rw [mapM_eq_map fun ref href => (hkey ref href).2] at h
    exact ⟨fun hm => (hkey _ hm).1 rfl, (Except.ok.inj h).symm⟩
  · rintro ⟨hne, rfl⟩
    exact mapM_eq_map fun ref href => firstKey_ok.mpr ⟨fun he => hne (he ▸ href), rfl⟩

theorem mapM_hashable {ks : List String} :
    refs.mapM Ref.hashable = .ok ks ↔ (∀ ref ∈ refs, ref.isNamed = false) ∧
      ks = refs.map Ref.oid := by
  constructor
  · intro h
    have hkey : ∀ ref ∈ refs, ref.isNamed = false ∧ ref.hashable = .ok ref.oid := by
      intro ref href
      obtain ⟨o, ho⟩ := ok_of_mapM h href
      obtain ⟨hne, rfl⟩ := hashable_ok.mp ho
      exact ⟨hne, ho⟩
    rw [mapM_eq_map fun ref href => (hkey ref href).2] at h
    exact ⟨fun ref href => (hkey ref href).1, (Except.ok.inj h).symm⟩
  · rintro ⟨hne, rfl⟩
    exact mapM_eq_map fun ref href => hashable_ok.mpr ⟨hne ref href, rfl⟩

/-- What a list that begins with a dictionary comes to. -/
theorem cutRelation_named {o n : String} {x : List String × Option (List Ref)} :
    cutRelation oids (.named o n :: refs) = .ok x ↔
      Ref.plain "" ∉ Ref.named o n :: refs ∧ x.1 = leaving oids (.named o n :: refs) ∧
        x.2 = if ∀ ref ∈ Ref.named o n :: refs, ref.key ∉ oids then none
          else some (.named o n :: refs) := by
  have hall : (leaving oids (.named o n :: refs)).length =
      ((Ref.named o n :: refs).map Ref.key).length ↔
      ∀ ref ∈ Ref.named o n :: refs, ref.key ∉ oids := by
    simp only [leaving, List.length_filter_eq_length_iff, List.forall_mem_map]
    simp
  simp only [cutRelation, bind_ok, mapM_firstKey]
  constructor
  · rintro ⟨ks, ⟨hne, rfl⟩, hx⟩
    obtain rfl := pure_ok.mp hx
    exact ⟨hne, rfl, if_congr hall rfl rfl⟩
  · rintro ⟨hne, h₁, h₂⟩
    refine ⟨_, ⟨hne, rfl⟩, pure_ok.mpr (Prod.ext h₁.symm ?_)⟩
    rw [h₂]
    exact if_congr hall rfl rfl

/-- What a list that begins with an oid comes to. -/
theorem cutRelation_plain {o : String} {x : List String × Option (List Ref)}
    (h : cutRelation oids (.plain o :: refs) = .ok x) :
    (∀ ref ∈ Ref.plain o :: refs, ref.isNamed = false) ∧
      x.1 = leaving oids (.plain o :: refs) ∧
      x.2.getD [] =
        (((Ref.plain o :: refs).map Ref.oid).filter fun o => oids.contains o).map .plain := by
  simp only [cutRelation, bind_ok, mapM_hashable] at h
  obtain ⟨ks, ⟨hne, rfl⟩, hx⟩ := h
  obtain rfl := pure_ok.mp hx
  refine ⟨hne, rfl, ?_⟩
  split
  · rename_i he
    rw [List.isEmpty_iff.mp he]
    rfl
  · rfl

theorem exists_cutRelation_plain (oids : List String) {o : String}
    (h : ∀ ref ∈ Ref.plain o :: refs, ref.isNamed = false) :
    ∃ x, cutRelation oids (.plain o :: refs) = .ok x := by
  simp only [cutRelation, bind_ok, mapM_hashable]
  exact ⟨_, _, ⟨h, rfl⟩, rfl⟩

/-- The oids of a list come back when those that left it can be added again, and nothing else
has left it. -/
def Survives (oids : List String) (refs : List Ref) (Q : String → Prop) : Prop :=
  ∃ x, cutRelation oids refs = .ok x ∧ (∀ o ∈ x.1, Q o ∧ Ref.plain o ∉ x.2.getD []) ∧
    ∀ o, o ∈ (x.2.getD []).map Ref.oid ∨ o ∈ x.1 ↔ o ∈ refs.map Ref.oid

theorem survives_plain {o : String} {Q : String → Prop} :
    Survives oids (.plain o :: refs) Q ↔ Readable oids (.plain o :: refs) ∧
      ∀ o' ∈ leaving oids (.plain o :: refs), Q o' := by
  constructor
  · rintro ⟨x, hx, hq, -⟩
    obtain ⟨hne, h₁, -⟩ := cutRelation_plain hx
    exact ⟨hne, fun o' ho' => (hq o' (h₁ ▸ ho')).1⟩
  · rintro ⟨hne, hq⟩
    obtain ⟨x, hx⟩ := exists_cutRelation_plain oids hne
    obtain ⟨-, h₁, h₂⟩ := cutRelation_plain hx
    have hleft : ∀ o', o' ∈ leaving oids (.plain o :: refs) ↔
        o' ∈ (Ref.plain o :: refs).map Ref.oid ∧ o' ∉ oids := by
      simp [leaving]
    refine ⟨x, hx, fun o' ho' => ⟨hq o' (h₁ ▸ ho'), ?_⟩, fun o' => ?_⟩
    · rw [h₂]
      intro hm
      obtain ⟨o'', hin, he⟩ := List.mem_map.mp hm
      obtain rfl := Ref.plain.inj he
      have hout := ((hleft o'').mp (h₁ ▸ ho')).2
      exact hout (by simpa using (List.mem_filter.mp hin).2)
    · have hplain : ((fun x => x.oid) ∘ Ref.plain) = (id : String → String) := rfl
      rw [h₁, hleft, h₂, List.map_map, hplain, List.map_id, List.mem_filter]
      by_cases ho : o' ∈ oids <;> simp [ho]

theorem survives_named {o n : String} {Q : String → Prop} :
    Survives oids (.named o n :: refs) Q ↔ Readable oids (.named o n :: refs) ∧
      ∀ o' ∈ leaving oids (.named o n :: refs), Q o' := by
  have hleft : ∀ o', o' ∈ leaving oids (.named o n :: refs) ↔
      o' ∈ (Ref.named o n :: refs).map Ref.key ∧ o' ∉ oids := by
    simp [leaving]
  simp only [Readable]
  generalize hrefs : Ref.named o n :: refs = l at *
  constructor
  · rintro ⟨x, hx, hq, hsame⟩
    rw [← hrefs, cutRelation_named, hrefs] at hx
    obtain ⟨hne, h₁, h₂⟩ := hx
    rw [h₁] at hq hsame
    refine ⟨⟨hne, fun hloc ref href hout => ?_, fun hout o' => ?_⟩, fun o' ho' => (hq o' ho').1⟩
    · have hstay : x.2 = some l := by
        obtain ⟨ref', href', hloc⟩ := hloc
        rw [h₂, if_neg fun hall => hall ref' href' hloc]
      have hin : ref.key ∈ leaving oids l := (hleft _).mpr ⟨List.mem_map_of_mem href, hout⟩
      exact ⟨(hsame _).mp (Or.inr hin), by simpa [hstay] using (hq _ hin).2⟩
    · rw [← hsame, h₂, if_pos hout]
      simp only [Option.getD_none, List.map_nil, List.not_mem_nil, false_or, hleft]
      refine ⟨fun hm => ⟨hm, ?_⟩, fun hm => hm.1⟩
      obtain ⟨ref, href, rfl⟩ := List.mem_map.mp hm
      exact hout ref href
  · rintro ⟨⟨hne, hstay, hgo⟩, hq⟩
    have hx : cutRelation oids l =
        .ok (leaving oids l, if ∀ ref ∈ l, ref.key ∉ oids then none else some l) := by
      subst hrefs
      exact cutRelation_named.mpr ⟨hne, rfl, rfl⟩
    refine ⟨_, hx, fun o' ho' => ⟨hq o' ho', ?_⟩, fun o' => ?_⟩
    · by_cases hall : ∀ ref ∈ l, ref.key ∉ oids
      · simp [if_pos hall]
      · obtain ⟨hm, hout⟩ := (hleft o').mp ho'
        obtain ⟨ref, href, rfl⟩ := List.mem_map.mp hm
        simpa [hall] using (hstay (by simpa using hall) ref href hout).2
    · simp only [hleft]
      by_cases hall : ∀ ref ∈ l, ref.key ∉ oids
      · rw [if_pos hall, ← hgo hall]
        simp only [Option.getD_none, List.map_nil, List.not_mem_nil, false_or]
        refine ⟨fun hm => hm.1, fun hm => ⟨hm, ?_⟩⟩
        obtain ⟨ref, href, rfl⟩ := List.mem_map.mp hm
        exact hall ref href
      · rw [if_neg hall]
        refine ⟨?_, Or.inl⟩
        rintro (hm | ⟨hm, hout⟩)
        · exact hm
        · obtain ⟨ref, href, rfl⟩ := List.mem_map.mp hm
          exact (hstay (by simpa using hall) ref href hout).1

theorem survives_iff {Q : String → Prop} :
    Survives oids refs Q ↔ Readable oids refs ∧ ∀ o ∈ leaving oids refs, Q o := by
  rcases refs with _ | ⟨o | ⟨o, n⟩, refs⟩
  · simp [Survives, Readable, cutRelation]
  · exact survives_plain
  · exact survives_named

end Cut

/-! What leaves the graph of a node, and the graph as a whole. -/

/-- A relation of a drop that leaves a node with these oids. -/
def DropSpec.Unmet (oids : List String) (d : DropSpec) (rel : DROPRel String) : Prop :=
  rel.rhs = d.oid ∧
    ((∃ k refs x, d.relations k = some refs ∧ cutRelation oids refs = .ok x ∧
        rel.rel = k.link ∧ rel.lhs ∈ x.1) ∨
      ∃ ref, d.parent = some ref ∧ ref.oid ∉ oids ∧ rel.rel = .parent ∧ rel.lhs = ref.oid)

/-- Every relation list of a drop can be read. -/
def DropSpec.Legible (oids : List String) (d : DropSpec) : Prop :=
  ∀ k refs, d.relations k = some refs → ∃ x, cutRelation oids refs = .ok x

section Unmet

variable {oids : List String} {ds : List DropSpec} {d : DropSpec} {rel : DROPRel String}
  {rels : List (DROPRel String)} {p : String}

theorem mem_all (k : ToMany) : k ∈ ToMany.all := by
  cases k <;> simp [ToMany.all]

theorem cutKey_ok {k : ToMany} {y : List (DROPRel String) × Option (List Ref)} :
    cutKey oids d k = .ok y ↔ d.relations k = none ∧ y = ([], none) ∨
      ∃ refs x, d.relations k = some refs ∧ cutRelation oids refs = .ok x ∧
        y = (x.1.map fun o => ⟨o, k.link, d.oid⟩, x.2) := by
  rw [cutKey]
  cases d.relations k with
  | none => simp [eq_comm]
  | some refs =>
    simp only [bind_ok, pure_ok]
    constructor
    · rintro ⟨x, hx, rfl⟩
      exact Or.inr ⟨refs, x, rfl, hx, rfl⟩
    · rintro (⟨h, -⟩ | ⟨refs', x, h, hx, rfl⟩)
      · simp at h
      · obtain rfl := Option.some.inj h
        exact ⟨x, hx, rfl⟩

theorem exists_unmet_iff : (∃ us, d.unmet oids = .ok us) ↔ d.Legible oids := by
  have hcollect : (∃ us, d.unmet oids = .ok us) ↔ ∃ us, collect
      (fun k => do return (← cutKey oids d k).1) ToMany.all = .ok us := by
    simp only [DropSpec.unmet, bind_ok, pure_ok]
    exact ⟨fun ⟨_, us, h, _⟩ => ⟨us, h⟩, fun ⟨us, h⟩ => ⟨_, us, h, rfl⟩⟩
  rw [hcollect, exists_collect_iff]
  simp only [bind_ok, pure_ok]
  constructor
  · intro h k refs hk
    obtain ⟨_, y, hy, -⟩ := h k (mem_all k)
    rcases cutKey_ok.mp hy with ⟨hn, -⟩ | ⟨refs', x, hk', hx, -⟩
    · simp [hk] at hn
    · obtain rfl := Option.some.inj (hk.symm.trans hk')
      exact ⟨x, hx⟩
  · intro h k _
    cases hk : d.relations k with
    | none => exact ⟨_, _, cutKey_ok.mpr (Or.inl ⟨hk, rfl⟩), rfl⟩
    | some refs =>
      obtain ⟨x, hx⟩ := h k refs hk
      exact ⟨_, _, cutKey_ok.mpr (Or.inr ⟨refs, x, hk, hx, rfl⟩), rfl⟩

theorem mem_cutParent : rel ∈ (cutParent oids d).1 ↔ rel.rhs = d.oid ∧
    ∃ ref, d.parent = some ref ∧ ref.oid ∉ oids ∧ rel.rel = .parent ∧ rel.lhs = ref.oid := by
  obtain ⟨lhs, kind, rhs⟩ := rel
  rw [cutParent]
  cases d.parent with
  | none => simp
  | some ref =>
    by_cases h : ref.oid ∈ oids
    · simp [h]
    · simp only [List.contains_eq_mem, h, decide_false, Bool.false_eq_true, if_false]
      simp only [List.mem_singleton, DROPRel.mk.injEq, Option.some.injEq, exists_eq_left', h,
        not_false_eq_true, true_and]
      tauto

theorem mem_unmet {us : List (DROPRel String)} (h : d.unmet oids = .ok us) :
    rel ∈ us ↔ d.Unmet oids rel := by
  simp only [DropSpec.unmet, bind_ok, pure_ok] at h
  obtain ⟨vs, hvs, rfl⟩ := h
  rw [List.mem_append, mem_collect hvs, mem_cutParent, DropSpec.Unmet, and_or_left]
  refine or_congr ?_ Iff.rfl
  simp only [bind_ok, pure_ok]
  constructor
  · rintro ⟨k, -, _, ⟨y, hy, rfl⟩, hrel⟩
    rcases cutKey_ok.mp hy with ⟨-, rfl⟩ | ⟨refs, x, hk, hx, rfl⟩
    · simp at hrel
    · obtain ⟨o, ho, rfl⟩ := List.mem_map.mp hrel
      exact ⟨rfl, k, refs, x, hk, hx, rfl, ho⟩
  · obtain ⟨lhs, kind, rhs⟩ := rel
    rintro ⟨rfl, k, refs, x, hk, hx, rfl, ho⟩
    exact ⟨k, mem_all k, _, ⟨_, cutKey_ok.mpr (Or.inr ⟨refs, x, hk, hx, rfl⟩), rfl⟩,
      List.mem_map_of_mem ho⟩

theorem mem_partitions : p ∈ Composite.partitions ds ↔ ∃ d ∈ ds, d.partition = some p := by
  simp [Composite.partitions]

theorem mem_perPartition : d ∈ Composite.perPartition ds p ↔ d ∈ ds ∧ d.partition = some p := by
  simp [Composite.perPartition]

theorem locals_eq (h : d.partition = some p) :
    (Composite.perPartition ds p).map (·.oid) = locals ds d := by
  rw [locals, h]
  rfl

theorem removeUnmetRelationships_fst {r : List (DROPRel String)} :
    (do return (← removeUnmetRelationships ds).1 : Except Err _) = .ok r ↔
      collect (DropSpec.unmet (ds.map (·.oid))) ds = .ok r := by
  simp only [removeUnmetRelationships, bind_ok, pure_ok]
  constructor
  · rintro ⟨_, ⟨us, hus, rfl⟩, rfl⟩
    exact hus
  · exact fun h => ⟨_, ⟨r, h, rfl⟩, rfl⟩

theorem exists_interPartitionRels_iff (hp : ∀ d ∈ ds, ∃ p, d.partition = some p) :
    (∃ rels, Composite.interPartitionRels ds = .ok rels) ↔
      ∀ d ∈ ds, d.Legible (locals ds d) := by
  simp only [Composite.interPartitionRels, exists_collect_iff, removeUnmetRelationships_fst,
    exists_unmet_iff]
  constructor
  · intro h d hd
    obtain ⟨p, hp⟩ := hp d hd
    have hl := h p (mem_partitions.mpr ⟨d, hd, hp⟩) d (mem_perPartition.mpr ⟨hd, hp⟩)
    rwa [locals_eq hp] at hl
  · intro h p _ d hd
    obtain ⟨hd, hp⟩ := mem_perPartition.mp hd
    rw [locals_eq hp]
    exact h d hd

theorem mem_interPartitionRels (hp : ∀ d ∈ ds, ∃ p, d.partition = some p)
    (h : Composite.interPartitionRels ds = .ok rels) :
    rel ∈ rels ↔ ∃ d ∈ ds, d.Unmet (locals ds d) rel := by
  rw [Composite.interPartitionRels] at h
  simp only [mem_collect h, removeUnmetRelationships_fst]
  constructor
  · rintro ⟨p, -, us, hus, hrel⟩
    obtain ⟨d, hd, vs, hvs, hrel⟩ := (mem_collect hus).mp hrel
    obtain ⟨hd, hp⟩ := mem_perPartition.mp hd
    rw [locals_eq hp] at hvs
    exact ⟨d, hd, (mem_unmet hvs).mp hrel⟩
  · rintro ⟨d, hd, hrel⟩
    obtain ⟨p, hp⟩ := hp d hd
    have hin := mem_partitions.mpr ⟨d, hd, hp⟩
    obtain ⟨us, hus⟩ := exists_collect_iff.mp ⟨rels, h⟩ p hin
    have hus' := removeUnmetRelationships_fst.mp hus
    have hd' := mem_perPartition.mpr ⟨hd, hp⟩
    obtain ⟨vs, hvs⟩ := exists_collect_iff.mp ⟨us, hus'⟩ d hd'
    refine ⟨p, hin, us, hus', (mem_collect hus').mpr ⟨d, hd', vs, hvs, ?_⟩⟩
    rw [locals_eq hp] at hvs
    exact (mem_unmet hvs).mpr hrel

end Unmet

/-! Adding the links again. -/

namespace Composite

section Relink

variable {g g' : NodeGraph} {rel : DROPRel String} {rels : List (DROPRel String)}
  {d d' : DropSpec} {oid : String}

/-- A link that can be added to a graph: its drop is there, takes many, and does not have it. -/
def Linkable (g : NodeGraph) (rel : DROPRel String) : Prop :=
  ∃ d, (rel.rhs, d) ∈ g ∧ ∃ k, rel.rel = k.link ∧ Ref.plain rel.lhs ∉ (d.relations k).getD []

/-- One drop before and after links have been added. -/
structure Linked (rels : List (DROPRel String)) (oid : String) (d d' : DropSpec) : Prop where
  rest : { d' with relations := d.relations } = d
  plain : ∀ k o, Ref.plain o ∈ (d.relations k).getD [] → Ref.plain o ∈ (d'.relations k).getD []
  new : ∀ k o, Ref.plain o ∈ (d'.relations k).getD [] → Ref.plain o ∈ (d.relations k).getD [] ∨
    ⟨o, k.link, oid⟩ ∈ rels
  related : ∀ k o, o ∈ d'.related k ↔ o ∈ d.related k ∨ ⟨o, k.link, oid⟩ ∈ rels

theorem toMany_eq {kind : LinkType} {k : ToMany} : kind.toMany = some k ↔ kind = k.link := by
  cases kind <;> cases k <;> simp [LinkType.toMany, ToMany.link]

theorem link_inj {k k' : ToMany} (h : k.link = k'.link) : k = k' :=
  Option.some.inj ((toMany_eq.mpr rfl).symm.trans ((congrArg _ h).trans (toMany_eq.mpr rfl)))

theorem addLink_ok : addLink rel.rel d rel.lhs = .ok d' ↔
    ∃ k, rel.rel = k.link ∧ Ref.plain rel.lhs ∉ (d.relations k).getD [] ∧
      d' = { d with
        relations := Function.update d.relations k
          (some ((d.relations k).getD [] ++ [.plain rel.lhs])) } := by
  rw [addLink]
  cases h : rel.rel.toMany with
  | none =>
    simp only [reduceCtorEq, false_iff]
    rintro ⟨k, hk, -⟩
    simp [toMany_eq.mpr hk] at h
  | some k =>
    have hk := toMany_eq.mp h
    simp only
    split
    · rename_i hc
      simp only [reduceCtorEq, false_iff]
      rintro ⟨k', hk', hn, -⟩
      obtain rfl := Option.some.inj (h.symm.trans (toMany_eq.mpr hk'))
      exact hn (by simpa using hc)
    · rename_i hc
      constructor
      · intro he
        exact ⟨k, hk, by simpa using hc, (Except.ok.inj he).symm⟩
      · rintro ⟨k', hk', -, rfl⟩
        obtain rfl := Option.some.inj (h.symm.trans (toMany_eq.mpr hk'))
        rfl

theorem linked_of_addLink (h : addLink rel.rel d rel.lhs = .ok d') :
    Linked [rel] rel.rhs d d' := by
  obtain ⟨lhs, kind, rhs⟩ := rel
  obtain ⟨k, hk, -, rfl⟩ := addLink_ok.mp h
  simp only at hk
  subst hk
  refine ⟨rfl, fun k' o ho => ?_, fun k' o ho => ?_, fun k' o => ?_⟩
  · by_cases hk' : k' = k
    · subst hk'
      simp [ho]
    · simpa [hk'] using ho
  · by_cases hk' : k' = k
    · subst hk'
      simpa using ho
    · exact Or.inl (by simpa [hk'] using ho)
  · by_cases hk' : k' = k
    · subst hk'
      simp [DropSpec.related, Ref.oid]
    · have hne : k'.link ≠ k.link := fun he => hk' (link_inj he)
      simp [DropSpec.related, hk', hne]

theorem Linked.trans {rels' : List (DROPRel String)} {d'' : DropSpec}
    (h : Linked rels oid d d') (h' : Linked rels' oid d' d'') :
    Linked (rels ++ rels') oid d d'' where
  rest := by
    rw [← h.rest, ← h'.rest]
  plain k o ho := h'.plain k o (h.plain k o ho)
  new k o ho := by
    rcases h'.new k o ho with ho | ho
    · exact (h.new k o ho).imp_right fun hm => List.mem_append_left _ hm
    · exact Or.inr (List.mem_append_right _ ho)
  related k o := by
    rw [h'.related, h.related, List.mem_append, or_assoc]

/-- What one link does to a graph. -/
theorem relink_ok (hg : (g.map Prod.fst).Nodup) :
    relink g rel = .ok g' ↔ ∃ d d', (rel.rhs, d) ∈ g ∧ addLink rel.rel d rel.lhs = .ok d' ∧
      g' = Association.set g rel.rhs d' := by
  rw [relink]
  cases h : g.lookup rel.rhs with
  | none =>
    simp only [reduceCtorEq, false_iff]
    rintro ⟨d, d', hd, -⟩
    simp [(mem_iff_lookup hg).mp hd] at h
  | some d =>
    have hd := (mem_iff_lookup hg).mpr h
    simp only [bind_ok, pure_ok]
    constructor
    · rintro ⟨d', hd', rfl⟩
      exact ⟨d, d', hd, hd', rfl⟩
    · rintro ⟨e, d', he, hd', rfl⟩
      obtain rfl := Option.some.inj (h.symm.trans ((mem_iff_lookup hg).mp he))
      exact ⟨d', hd', rfl⟩

theorem linked_of_ne (h : rel.rhs ≠ oid) : Linked [rel] oid d d where
  rest := rfl
  plain _ _ ho := ho
  new _ _ ho := Or.inl ho
  related k o := by
    obtain ⟨lhs, kind, rhs⟩ := rel
    simp [Ne.symm h]

/-- Every drop of the graph after one link. -/
theorem relink_spec (hg : (g.map Prod.fst).Nodup) (h : relink g rel = .ok g') :
    Linkable g rel ∧ g'.map Prod.fst = g.map Prod.fst ∧
      ∀ oid d, (oid, d) ∈ g → ∃ d', (oid, d') ∈ g' ∧ Linked [rel] oid d d' := by
  obtain ⟨d, d', hd, hadd, rfl⟩ := (relink_ok hg).mp h
  obtain ⟨k, hk, hn, -⟩ := addLink_ok.mp hadd
  refine ⟨⟨d, hd, k, hk, hn⟩, keys_set_of_mem (List.mem_map_of_mem hd), fun oid e he => ?_⟩
  by_cases ho : oid = rel.rhs
  · subst ho
    obtain rfl : e = d := Option.some.inj
      (((mem_iff_lookup hg).mp he).symm.trans ((mem_iff_lookup hg).mp hd))
    exact ⟨d', (mem_set hg).mpr (Or.inl ⟨rfl, rfl⟩), linked_of_addLink hadd⟩
  · exact ⟨e, (mem_set hg).mpr (Or.inr ⟨ho, he⟩), linked_of_ne (Ne.symm ho)⟩

/-- Every drop of the graph after all links. -/
theorem foldlM_relink (hg : (g.map Prod.fst).Nodup) (h : rels.foldlM relink g = .ok g') :
    (∀ rel ∈ rels, Linkable g rel) ∧ g'.map Prod.fst = g.map Prod.fst ∧
      ∀ oid d, (oid, d) ∈ g → ∃ d', (oid, d') ∈ g' ∧ Linked rels oid d d' := by
  induction rels generalizing g with
  | nil =>
    obtain rfl := pure_ok.mp h
    exact ⟨by simp, rfl, fun oid d hd => ⟨d, hd, rfl, fun _ _ ho => ho, fun _ _ ho => Or.inl ho,
      by simp⟩⟩
  | cons rel rels ih =>
    rw [List.foldlM_cons] at h
    obtain ⟨g₁, h₁, h⟩ := bind_ok.mp h
    obtain ⟨hrel, hkeys, hlink⟩ := relink_spec hg h₁
    obtain ⟨hrels, hkeys', hlink'⟩ := ih (hkeys ▸ hg) h
    refine ⟨fun rel' hrel' => ?_, hkeys'.trans hkeys, fun oid d hd => ?_⟩
    · rcases List.mem_cons.mp hrel' with rfl | hrel'
      · exact hrel
      -- what a drop does not have after a link it did not have before
      · obtain ⟨d₁, hd₁, k, hk, hn⟩ := hrels rel' hrel'
        have hin : rel'.rhs ∈ g.map Prod.fst := hkeys ▸ List.mem_map_of_mem hd₁
        obtain ⟨⟨oid, d⟩, hd, rfl⟩ := List.mem_map.mp hin
        obtain ⟨d₂, hd₂, hl⟩ := hlink _ d hd
        have hnd : (g₁.map Prod.fst).Nodup := hkeys ▸ hg
        obtain rfl : d₁ = d₂ := Option.some.inj
          (((mem_iff_lookup hnd).mp hd₁).symm.trans ((mem_iff_lookup hnd).mp hd₂))
        exact ⟨d, hd, k, hk, fun hm => hn (hl.plain k _ hm)⟩
    · obtain ⟨d₁, hd₁, hl₁⟩ := hlink oid d hd
      obtain ⟨d', hd', hl'⟩ := hlink' oid d₁ hd₁
      exact ⟨d', hd', hl₁.trans hl'⟩

/-- Links that can all be added, each once, are. -/
theorem exists_foldlM_relink (hg : (g.map Prod.fst).Nodup) (hr : rels.Nodup)
    (h : ∀ rel ∈ rels, Linkable g rel) : ∃ g', rels.foldlM relink g = .ok g' := by
  induction rels generalizing g with
  | nil => exact ⟨g, rfl⟩
  | cons rel rels ih =>
    obtain ⟨hnew, hr⟩ := List.nodup_cons.mp hr
    obtain ⟨d, hd, k, hk, hn⟩ := h rel (by simp)
    have hadd := addLink_ok.mpr ⟨k, hk, hn, rfl⟩
    have h₁ := (relink_ok hg).mpr ⟨d, _, hd, hadd, rfl⟩
    obtain ⟨-, hkeys, hlink⟩ := relink_spec hg h₁
    rw [List.foldlM_cons, h₁, ok_bind]
    refine ih (hkeys ▸ hg) hr fun rel' hrel' => ?_
    obtain ⟨e, he, k', hk', hn'⟩ := h rel' (by simp [hrel'])
    obtain ⟨e', he', hl⟩ := hlink _ e he
    refine ⟨e', he', k', hk', fun hm => ?_⟩
    rcases hl.new k' _ hm with hm | hm
    · exact hn' hm
    · have hsame : rel' = rel := by
        obtain ⟨lhs, kind, rhs⟩ := rel'
        simp only at hk'
        subst hk'
        simpa using hm
      exact hnew (hsame ▸ hrel')

end Relink

/-! What the nodes hold of a graph. -/

/-- A drop of a graph as its node gets it. -/
def Delivered (ds : List DropSpec) (oid : String) (e : DropSpec) : Prop :=
  ∃ d ∈ ds, oid = d.oid ∧ e = d.cut (locals ds d)

section Delivery

variable {R : Type} {m : Composite R} {session p oid : String} {ds : List DropSpec}
  {d e e' : DropSpec}

theorem eq_of_oid (hd : (ds.map (·.oid)).Nodup) (h : d ∈ ds) (he : e ∈ ds)
    (ho : d.oid = e.oid) : d = e := List.inj_on_of_nodup_map hd h he ho

theorem delivered_unique (hd : (ds.map (·.oid)).Nodup) (h : Delivered ds oid e)
    (h' : Delivered ds oid e') : e = e' := by
  obtain ⟨d, hm, ho, rfl⟩ := h
  obtain ⟨d', hm', ho', rfl⟩ := h'
  obtain rfl := eq_of_oid hd hm hm' (ho.symm.trans ho')
  rfl

theorem find_sentOf (m : Composite R) (ds : List DropSpec) (p : String) :
    (m.sentOf ds).find? (·.partition == p) = none ∧
      perPartition ds p = [] ∨
    ∃ x, (m.sentOf ds).find? (·.partition == p) = some x ∧
      x.drops = (perPartition ds p).map (DropSpec.cut ((perPartition ds p).map (·.oid))) := by
  cases h : (m.sentOf ds).find? (·.partition == p) with
  | none =>
    refine Or.inl ⟨rfl, List.eq_nil_iff_forall_not_mem.mpr fun d hd => ?_⟩
    obtain ⟨hd, hp⟩ := mem_perPartition.mp hd
    have hin := List.mem_map_of_mem (f := fun p => (⟨p, (perPartition ds p).map
      (DropSpec.cut ((perPartition ds p).map (·.oid))), m.reprodata⟩ : Sent R))
      (mem_partitions.mpr ⟨d, hd, hp⟩)
    simpa using List.find?_eq_none.mp h _ hin
  | some x =>
    refine Or.inr ⟨x, rfl, ?_⟩
    obtain ⟨p', -, rfl⟩ := List.mem_map.mp (List.mem_of_find?_eq_some h)
    obtain rfl : p' = p := by simpa using List.find?_some h
    rfl

theorem addGraphSpec_empty {l : List DropSpec} :
    NodeGraph.addGraphSpec [] l = some (merge [] (loadDropSpecs l)) := by
  simp [NodeGraph.addGraphSpec]

/-- A node that knows nothing of a session takes in what it is sent. -/
theorem receive_fresh (hf : m.nodes session p = []) :
    (m.receive session (m.sentOf ds) p).2 = false ∧
      (m.receive session (m.sentOf ds) p).1 = merge [] (loadDropSpecs ((perPartition ds p).map
        (DropSpec.cut ((perPartition ds p).map (·.oid))))) := by
  rcases find_sentOf m ds p with ⟨h, hp⟩ | ⟨x, h, hx⟩
  · simp only [receive, h, hf, hp]
    exact ⟨trivial, rfl⟩
  · simp only [receive, h, hf, hx, addGraphSpec_empty]
    exact ⟨trivial, trivial⟩

theorem mem_receive (hd : (ds.map (·.oid)).Nodup) (hf : m.nodes session p = [])
    {x : String × DropSpec} : x ∈ (m.receive session (m.sentOf ds) p).1 ↔
      ∃ d ∈ ds, d.partition = some p ∧ x = (d.oid, d.cut (locals ds d)) := by
  rw [(receive_fresh hf).2]
  have huniq : ∀ a b b', Delivered ds a b → Delivered ds a b' → b = b' :=
    fun _ _ _ => delivered_unique hd
  have hcut : ∀ x ∈ ((perPartition ds p).map (DropSpec.cut ((perPartition ds p).map
      (·.oid)))).map (fun d => (d.oid, d)), Delivered ds x.1 x.2 := by
    simp only [List.map_map, List.forall_mem_map]
    intro d hd
    obtain ⟨hd, hp⟩ := mem_perPartition.mp hd
    refine ⟨d, hd, rfl, ?_⟩
    rw [locals_eq hp]
    rfl
  have hload : ∀ {x}, x ∈ loadDropSpecs ((perPartition ds p).map (DropSpec.cut
      ((perPartition ds p).map (·.oid)))) ↔ x ∈ ((perPartition ds p).map (DropSpec.cut
      ((perPartition ds p).map (·.oid)))).map (fun d => (d.oid, d)) := by
    intro x
    simpa [loadDropSpecs] using
      mem_merge_of_agree (l := []) (p := x) (by simp) huniq (by simp) hcut
  rw [mem_merge_of_agree (by simp) huniq (by simp) fun x hx => hcut x (hload.mp hx), hload]
  simp only [List.not_mem_nil, false_or, List.map_map, List.mem_map, mem_perPartition]
  constructor
  · rintro ⟨d, ⟨hd, hp⟩, rfl⟩
    exact ⟨d, hd, hp, by simp [locals_eq hp, DropSpec.cut]⟩
  · rintro ⟨d, hd, hp, rfl⟩
    exact ⟨d, ⟨hd, hp⟩, by simp [locals_eq hp, DropSpec.cut]⟩

theorem deliver_fresh (m : Composite R) (ds : List DropSpec) (hf : ∀ p, m.nodes session p = []) :
    (m.deliver session (m.sentOf ds)).2 = .ok () ↔
      (partitions ds = [] → m.dmHosts = []) := by
  have hany : ((m.sentOf ds).any fun x =>
      (m.receive session (m.sentOf ds) x.partition).2) = false := by
    simp [(receive_fresh (hf _)).1]
  have hempty : (m.sentOf ds).isEmpty = (partitions ds).isEmpty := by
    simp [sentOf]
  simp only [deliver, hany, hempty]
  cases partitions ds with
  | nil => cases m.dmHosts <;> simp
  | cons p ps => simp

/-- The manager once the nodes have their parts of a graph. -/
def afterSplit (m : Composite R) (session : String) (ds : List DropSpec) : Composite R :=
  (m.deliver session (m.sentOf ds)).1

/-- The graphs of all nodes together. -/
theorem mem_allGraphs (hd : (ds.map (·.oid)).Nodup)
    (hp : ∀ d ∈ ds, ∃ p ∈ m.dmHosts, d.partition = some p)
    (hf : ∀ p, m.nodes session p = []) :
    (oid, e) ∈ (m.afterSplit session ds).allGraphs session ↔ Delivered ds oid e := by
  have hnode : ∀ p, (m.afterSplit session ds).nodes session p =
      (m.receive session (m.sentOf ds) p).1 := fun p => if_pos rfl
  have hin : ∀ p x, x ∈ (m.receive session (m.sentOf ds) p).1 → Delivered ds x.1 x.2 := by
    intro p x hx
    obtain ⟨d, hm, -, rfl⟩ := (mem_receive hd (hf p)).mp hx
    exact ⟨d, hm, rfl, rfl⟩
  rw [allGraphs, mem_foldl_merge_of_agree (f := Delivered ds) (by simp)
    (fun _ _ _ => delivered_unique hd) (by simp) fun p _ x hx => hin p x (hnode p ▸ hx)]
  simp only [List.not_mem_nil, false_or, hnode]
  constructor
  · rintro ⟨p, -, hx⟩
    exact hin p _ hx
  · rintro ⟨d, hm, rfl, rfl⟩
    obtain ⟨p, hp, hdp⟩ := hp d hm
    exact ⟨p, hp, (mem_receive hd (hf p)).mpr ⟨d, hm, hdp, rfl⟩⟩

theorem nodup_allGraphs (m : Composite R) (session : String) :
    ((m.allGraphs session).map Prod.fst).Nodup :=
  nodup_foldl_merge (by simp)

end Delivery

/-! The whole way. -/

section Trip

variable {R : Type} {m m' : Composite R} {session : String} {ds : List DropSpec} {d : DropSpec}
  {k : ToMany} {refs : List Ref} {x : List String × Option (List Ref)} {o : String}

/-- The relations of a drop under one key that leave its node. -/
theorem unmet_iff_mem (hd : (ds.map (·.oid)).Nodup) (hm : d ∈ ds) (hk : d.relations k = some refs)
    (hx : cutRelation (locals ds d) refs = .ok x) :
    (∃ e ∈ ds, e.Unmet (locals ds e) ⟨o, k.link, d.oid⟩) ↔ o ∈ x.1 := by
  constructor
  · rintro ⟨e, he, ho, ⟨k', refs', x', hk', hx', hkind, hin⟩ | ⟨ref, -, -, hkind, -⟩⟩
    · obtain rfl := eq_of_oid hd hm he ho
      obtain rfl := link_inj hkind
      obtain rfl := Option.some.inj (hk.symm.trans hk')
      obtain rfl := Except.ok.inj (hx.symm.trans hx')
      exact hin
    · cases k <;> simp [ToMany.link] at hkind
  · exact fun hin => ⟨d, hm, rfl, Or.inl ⟨k, refs, x, hk, hx, rfl, hin⟩⟩

theorem cut_relations (hk : d.relations k = some refs)
    (hx : cutRelation (locals ds d) refs = .ok x) :
    (d.cut (locals ds d)).relations k = x.2 := by
  have hcut : cutKey (locals ds d) d k = .ok (x.1.map fun o => ⟨o, k.link, d.oid⟩, x.2) :=
    cutKey_ok.mpr (Or.inr ⟨refs, x, hk, hx, rfl⟩)
  simp [DropSpec.cut, hcut]

theorem cut_relations_none (hk : d.relations k = none) :
    (d.cut (locals ds d)).relations k = none := by
  have hcut : cutKey (locals ds d) d k = .ok ([], none) := cutKey_ok.mpr (Or.inl ⟨hk, rfl⟩)
  simp [DropSpec.cut, hcut]

/-- The relations a manager has to know about, with both their ends. -/
def Survivor (graph : String → Option DropSpec) (ds : List DropSpec) (d : DropSpec) : Prop :=
  (∀ k refs, d.relations k = some refs →
    Survives (locals ds d) refs fun o => Located graph o ∧ Located graph d.oid) ∧
  ∀ ref, d.parent = some ref → ref.oid ∈ locals ds d

theorem Survivor.legible {graph : String → Option DropSpec} (h : Survivor graph ds d) :
    d.Legible (locals ds d) := by
  intro k refs hk
  obtain ⟨x, hx, -⟩ := h.1 k refs hk
  exact ⟨x, hx⟩

theorem Survivor.located {graph : String → Option DropSpec} (h : Survivor graph ds d)
    {rel : DROPRel String} (hr : d.Unmet (locals ds d) rel) :
    Located graph rel.lhs ∧ Located graph rel.rhs := by
  obtain ⟨hrhs, ⟨k, refs, x, hk, hx, -, hin⟩ | ⟨ref, hp, hout, -⟩⟩ := hr
  · obtain ⟨x', hx', hq, -⟩ := h.1 k refs hk
    obtain rfl := Except.ok.inj (hx.symm.trans hx')
    rw [hrhs]
    exact (hq _ hin).1
  · exact absurd (h.2 ref hp) hout

/-- A relation that leaves the node of a drop that survives can be added again. -/
theorem Survivor.linkable {graph : String → Option DropSpec} {g : NodeGraph}
    (h : Survivor graph ds d) (hg : (d.oid, d.cut (locals ds d)) ∈ g) {rel : DROPRel String}
    (hr : d.Unmet (locals ds d) rel) : Linkable g rel := by
  obtain ⟨hrhs, ⟨k, refs, x, hk, hx, hkind, hin⟩ | ⟨ref, hp, hout, -⟩⟩ := hr
  · obtain ⟨x', hx', hq, -⟩ := h.1 k refs hk
    obtain rfl := Except.ok.inj (hx.symm.trans hx')
    refine ⟨_, hrhs ▸ hg, k, hkind, ?_⟩
    rw [cut_relations hk hx]
    exact (hq _ hin).2
  · exact absurd (h.2 ref hp) hout

/-- The links that left a drop that survives give it back its relations. -/
theorem Survivor.same {graph : String → Option DropSpec} (h : Survivor graph ds d)
    (hd : (ds.map (·.oid)).Nodup) (hm : d ∈ ds) {rels : List (DROPRel String)}
    (hrels : ∀ rel, rel ∈ rels ↔ ∃ e ∈ ds, e.Unmet (locals ds e) rel) {d' : DropSpec}
    (hl : Linked rels d.oid (d.cut (locals ds d)) d') : d.Same d' where
  rest := by
    have hrest := hl.rest
    rw [DropSpec.mk.injEq] at hrest
    obtain ⟨ho, hu, hp, hn, -, -⟩ := hrest
    obtain ⟨oid, uid, partition, node, relations, parent⟩ := d
    simp_all [DropSpec.cut]
  related k o := by
    rw [hl.related, hrels]
    cases hk : d.relations k with
    | none =>
      have hnone : ¬ ∃ e ∈ ds, e.Unmet (locals ds e) ⟨o, k.link, d.oid⟩ := by
        rintro ⟨e, he, ho, ⟨k', refs, x, hk', -, hkind, -⟩ | ⟨ref, -, -, hkind, -⟩⟩
        · obtain rfl := eq_of_oid hd hm he ho
          obtain rfl := link_inj hkind
          simp [hk] at hk'
        · cases k <;> simp [ToMany.link] at hkind
      simp [DropSpec.related, cut_relations_none hk, hk, hnone]
    | some refs =>
      obtain ⟨x, hx, -, hsame⟩ := h.1 k refs hk
      rw [unmet_iff_mem hd hm hk hx, DropSpec.related, cut_relations hk hx, DropSpec.related, hk]
      exact hsame o
  parent := by
    have hp := congrArg DropSpec.parent hl.rest
    change d'.parent = _ at hp
    rw [hp]
    simp only [DropSpec.cut, cutParent]
    cases hpar : d.parent with
    | none => rfl
    | some ref => simp [h.2 ref hpar]

theorem getGraph_afterSplit {table : List TableEntry} (h : m.dropRels session = some table) :
    (m.afterSplit session ds).getGraph session = (table.map (·.rel)).dedup.foldlM relink
      ((m.afterSplit session ds).allGraphs session) := by
  simp [getGraph, deliver, afterSplit, h]

/-- A drop that comes back has survived. -/
theorem survivor_of_returns (hd : (ds.map (·.oid)).Nodup)
    (hp : ∀ d ∈ ds, ∃ p ∈ m.dmHosts, d.partition = some p) (hf : ∀ p, m.nodes session p = [])
    {graph : String → Option DropSpec} {table : List TableEntry}
    (htab : m.dropRels session = some table)
    (hrel : ∀ rel, rel ∈ (table.map (·.rel)).dedup ↔ ∃ e ∈ ds, e.Unmet (locals ds e) rel)
    (hloc : ∀ e ∈ ds, ∀ rel, e.Unmet (locals ds e) rel →
      Located graph rel.lhs ∧ Located graph rel.rhs)
    (hm : d ∈ ds) (hleg : d.Legible (locals ds d))
    (h : (m.afterSplit session ds).Returns session ds) : Survivor graph ds d := by
  obtain ⟨gr, hgr, hperm, hsame⟩ := h
  rw [getGraph_afterSplit htab] at hgr
  obtain ⟨hlink, hkeys, hlinked⟩ := foldlM_relink (nodup_allGraphs _ _) hgr
  have hdel : Delivered ds d.oid (d.cut (locals ds d)) := ⟨d, hm, rfl, rfl⟩
  have hneeds : ∀ rel, d.Unmet (locals ds d) rel → ∃ k, rel.rel = k.link ∧
      Ref.plain rel.lhs ∉ ((d.cut (locals ds d)).relations k).getD [] := by
    intro rel hr
    obtain ⟨e, he, k, hkind, hn⟩ := hlink rel ((hrel rel).mpr ⟨d, hm, hr⟩)
    rw [mem_allGraphs hd hp hf, hr.1] at he
    obtain rfl := delivered_unique hd he hdel
    exact ⟨k, hkind, hn⟩
  refine ⟨fun k refs hk => ?_, fun ref href => ?_⟩
  · obtain ⟨x, hx⟩ := hleg k refs hk
    refine ⟨x, hx, fun o ho => ?_, fun o => ?_⟩
    · have hr : d.Unmet (locals ds d) ⟨o, k.link, d.oid⟩ :=
        ⟨rfl, Or.inl ⟨k, refs, x, hk, hx, rfl, ho⟩⟩
      obtain ⟨k', hkind, hn⟩ := hneeds _ hr
      obtain rfl := link_inj hkind
      rw [cut_relations hk hx] at hn
      exact ⟨hloc d hm _ hr, hn⟩
    · obtain ⟨d₁, hd₁, hl⟩ := hlinked _ _ ((mem_allGraphs hd hp hf).mpr hdel)
      obtain ⟨d₂, hd₂, hs⟩ := hsame d hm
      have hnd : (gr.map Prod.fst).Nodup := hperm.nodup_iff.mpr hd
      obtain rfl : d₁ = d₂ := Option.some.inj
        (((mem_iff_lookup hnd).mp hd₁).symm.trans ((mem_iff_lookup hnd).mp hd₂))
      have hrelated := hs.related k o
      rw [hl.related, hrel, unmet_iff_mem hd hm hk hx, DropSpec.related, cut_relations hk hx,
        DropSpec.related, hk] at hrelated
      exact hrelated
  · by_contra hout
    obtain ⟨k, hkind, -⟩ := hneeds ⟨ref.oid, .parent, d.oid⟩
      ⟨rfl, Or.inr ⟨ref, href, hout, rfl, rfl⟩⟩
    cases k <;> simp [ToMany.link] at hkind

/-- Where every drop survives, the graph comes back. -/
theorem returns_of_survivor (hd : (ds.map (·.oid)).Nodup)
    (hp : ∀ d ∈ ds, ∃ p ∈ m.dmHosts, d.partition = some p) (hf : ∀ p, m.nodes session p = [])
    {graph : String → Option DropSpec} {table : List TableEntry}
    (htab : m.dropRels session = some table)
    (hrel : ∀ rel, rel ∈ (table.map (·.rel)).dedup ↔ ∃ e ∈ ds, e.Unmet (locals ds e) rel)
    (hsur : ∀ d ∈ ds, Survivor graph ds d) :
    (m.afterSplit session ds).Returns session ds := by
  have hin : ∀ d ∈ ds, (d.oid, d.cut (locals ds d)) ∈
      (m.afterSplit session ds).allGraphs session := fun d hm =>
    (mem_allGraphs hd hp hf).mpr ⟨d, hm, rfl, rfl⟩
  obtain ⟨gr, hgr⟩ := exists_foldlM_relink (nodup_allGraphs _ _) (List.nodup_dedup _)
    fun rel hr => by
      obtain ⟨e, he, hr⟩ := (hrel rel).mp hr
      exact (hsur e he).linkable (hin e he) hr
  obtain ⟨-, hkeys, hlinked⟩ := foldlM_relink (nodup_allGraphs _ _) hgr
  refine ⟨gr, (getGraph_afterSplit htab).trans hgr, ?_, fun d hm => ?_⟩
  · rw [hkeys]
    refine (List.perm_ext_iff_of_nodup (nodup_allGraphs _ _) hd).mpr fun o => ?_
    simp only [List.mem_map, Prod.exists, exists_and_right, exists_eq_right,
      mem_allGraphs hd hp hf]
    constructor
    · rintro ⟨e, d, hm, rfl, -⟩
      exact ⟨d, hm, rfl⟩
    · rintro ⟨d, hm, rfl⟩
      exact ⟨_, d, hm, rfl, rfl⟩
  · obtain ⟨d', hd', hl⟩ := hlinked _ _ (hin d hm)
    exact ⟨d', hd', (hsur d hm).same hd hm hrel hl⟩

/-- A graph that is split comes back if and only if every drop of it survives. -/
theorem split_returns_iff (hk : Keyed m.graph) (hf : ∀ p, m.nodes session p = [])
    (hd : (ds.map (·.oid)).Nodup) (hp : ∀ d ∈ ds, ∃ p ∈ m.dmHosts, d.partition = some p)
    (final : List TableEntry → Composite R)
    (hfinal : ∀ table, final table =
      { m with dropRels := Function.update m.dropRels session (some table) }) :
    (∃ table, m.dropRelsOf ds = .ok table ∧
      ((final table).afterSplit session ds).Returns session ds) ↔
      ∀ d ∈ ds, Survivor m.graph ds d := by
  have hpart : ∀ d ∈ ds, ∃ p, d.partition = some p := fun d hd =>
    (hp d hd).imp fun _ h => h.2
  have htable : ∀ table, (final table).dropRels session = some table := fun table => by
    simp [hfinal]
  have hp' : ∀ table, ∀ d ∈ ds, ∃ p ∈ (final table).dmHosts, d.partition = some p :=
    fun table => by simpa [hfinal] using hp
  have hf' : ∀ table p, (final table).nodes session p = [] := fun table p => by
    simpa [hfinal] using hf p
  constructor
  · rintro ⟨table, htab, hret⟩ d hm
    obtain ⟨rels, hrels, hloc, hmem⟩ := dropRelsOf_ok hk htab
    have hin : ∀ {rel}, rel ∈ rels ↔ ∃ e ∈ ds, e.Unmet (locals ds e) rel :=
      mem_interPartitionRels hpart hrels
    have hleg := (exists_interPartitionRels_iff hpart).mp ⟨rels, hrels⟩
    refine survivor_of_returns hd (hp' table) (hf' table) (htable table) (fun rel => ?_)
      (fun e he rel hr => hloc rel (hin.mpr ⟨e, he, hr⟩)) hm (hleg d hm) hret
    rw [List.mem_dedup, hmem, hin]
  · intro hsur
    obtain ⟨rels, hrels⟩ := (exists_interPartitionRels_iff hpart).mpr fun d hm =>
      (hsur d hm).legible
    have hin : ∀ {rel}, rel ∈ rels ↔ ∃ e ∈ ds, e.Unmet (locals ds e) rel :=
      mem_interPartitionRels hpart hrels
    obtain ⟨table, htab⟩ := exists_dropRelsOf hk hrels fun rel hrel => by
      obtain ⟨e, he, hr⟩ := hin.mp hrel
      exact (hsur e he).located hr
    obtain ⟨rels', hrels', -, hmem⟩ := dropRelsOf_ok hk htab
    obtain rfl := Except.ok.inj (hrels.symm.trans hrels')
    refine ⟨table, htab, returns_of_survivor hd (hp' table) (hf' table) (htable table)
      (fun rel => ?_) hsur⟩
    rw [List.mem_dedup, hmem, hin]

end Trip

section Whole

variable {R : Type} {initPgReproData : List (Item R) → R → Except Err R} {m : Composite R}
  {session : String} {hosts : List String} {g : GraphSpec R hosts} {ds : List DropSpec}

theorem admitted_drops (h : ∀ d ∈ ds, ∃ p ∈ hosts, d.partition = some p) :
    admitted hosts (ds.map (Item.drop (R := R))) = ds ∧
      allAdmitted hosts (ds.map (Item.drop (R := R))) = .ok () := by
  induction ds with
  | nil => exact ⟨rfl, rfl⟩
  | cons d ds ih =>
    obtain ⟨p, hp, hd⟩ := h d (by simp)
    obtain ⟨h₁, h₂⟩ := ih fun e he => h e (by simp [he])
    simp only [List.map_cons, admitted, allAdmitted, hd, List.contains_iff_mem.mpr hp, if_true]
    exact ⟨congrArg _ h₁, h₂⟩

theorem unpadded_body : Call.unpadded g.body = .ok (g.drops.map .drop) ∨
    Call.unpadded g.body = .error .indexError ∧ g.drops = [] ∧ g.padded = false := by
  simp only [GraphSpec.body]
  cases g.padded with
  | true => exact Or.inl (by simp [Call.unpadded])
  | false =>
    cases h : g.drops.getLast? with
    | none => exact Or.inr (by simp [Call.unpadded, List.getLast?_eq_none_iff.mp h])
    | some d => exact Or.inl (by simp [Call.unpadded, h])

/-- When a submitted graph gets as far as its drops. -/
theorem body_items {items : List (Item R)} :
    Call.body initPgReproData ⟨session, g.items⟩ = .ok items ↔
      (g.drops = [] → g.padded = true) ∧
      (∀ r, g.reprodata = some r → ∃ r', initPgReproData g.body r = .ok r') ∧
      items = g.drops.map .drop := by
  have hbody : Call.unpadded g.body = .ok items ↔
      (g.drops = [] → g.padded = true) ∧ items = g.drops.map .drop := by
    rcases unpadded_body (g := g) with h | ⟨h, he, hp⟩
    · have hne : g.drops = [] → g.padded = true := by
        intro he
        by_contra hp
        simp [GraphSpec.body, he, hp, Call.unpadded] at h
      simp only [h, Except.ok.injEq]
      exact ⟨fun heq => ⟨hne, heq.symm⟩, fun heq => heq.2.symm⟩
    · simp [h, he, hp]
  simp only [Call.body, Call.undated, GraphSpec.items]
  cases g.reprodata with
  | some r =>
    simp only [Option.map_some, Option.toList_some, List.getLast?_append, List.getLast?_singleton,
      Option.some_or, List.dropLast_concat, Option.some.injEq, forall_eq']
    cases initPgReproData g.body r with
    | error e => simp [Except.map, error_bind]
    | ok r' => simpa [Except.map, ok_bind] using hbody
  | none =>
    simp only [Option.map_none, Option.toList_none, List.append_nil, reduceCtorEq,
      false_implies, implies_true, true_and]
    rw [← hbody]
    cases h : g.body.getLast? with
    | none => simp [Call.unpadded, h, error_bind]
    | some item =>
      cases item with
      | drop d => rfl
      | empty => rfl
      | reprodata r =>
        have hin : Item.reprodata r ∈ g.body := List.mem_of_getLast? h
        cases hp : g.padded <;> simp [GraphSpec.body, hp] at hin

theorem drops_items {l : List DropSpec} :
    Call.drops initPgReproData hosts ⟨session, g.items⟩ = .ok l ↔
      (g.drops = [] → g.padded = true) ∧
      (∀ r, g.reprodata = some r → ∃ r', initPgReproData g.body r = .ok r') ∧ l = g.drops := by
  have hadm := admitted_drops (R := R) g.placed
  simp only [Call.drops, bind_ok, pure_ok, body_items]
  constructor
  · rintro ⟨items, ⟨hne, hhash, rfl⟩, -, -, rfl⟩
    exact ⟨hne, hhash, hadm.1⟩
  · rintro ⟨hne, hhash, rfl⟩
    exact ⟨_, ⟨hne, hhash, rfl⟩, (), hadm.2, hadm.1⟩

theorem admitted_items (session : String) (hne : g.drops = [] → g.padded = true)
    (hhash : ∀ r, g.reprodata = some r → ∃ r', initPgReproData g.body r = .ok r') :
    Call.admitted initPgReproData hosts ⟨session, g.items⟩ = g.drops := by
  have hbody : Call.body initPgReproData ⟨session, g.items⟩ = .ok (g.drops.map .drop) :=
    body_items.mpr ⟨hne, hhash, rfl⟩
  simp only [Call.admitted, hbody]
  exact (admitted_drops g.placed).1

theorem partitions_eq_nil (hp : ∀ d ∈ ds, ∃ p ∈ hosts, d.partition = some p) :
    partitions ds = [] ↔ ds = [] := by
  constructor
  · intro h
    refine List.eq_nil_iff_forall_not_mem.mpr fun d hd => ?_
    obtain ⟨p, -, hp⟩ := hp d hd
    have hin := mem_partitions.mpr ⟨d, hd, hp⟩
    simp [h] at hin
  · rintro rfl
    rfl

theorem survivor_iff {graph : String → Option DropSpec} {d : DropSpec} :
    Survivor graph ds d ↔
      (∀ k refs, d.relations k = some refs → Readable (locals ds d) refs) ∧
      (∀ k refs, d.relations k = some refs → ∀ o ∈ leaving (locals ds d) refs,
        Located graph o ∧ Located graph d.oid) ∧
      ∀ ref, d.parent = some ref → ref.oid ∈ locals ds d := by
  simp only [Survivor, survives_iff, ← and_assoc]
  refine and_congr_left fun _ => ⟨fun h => ⟨fun k refs hk => (h k refs hk).1,
    fun k refs hk => (h k refs hk).2⟩, fun h k refs hk => ⟨h.1 k refs hk, h.2 k refs hk⟩⟩

theorem deliver_ok {m' : Composite R} (hf : ∀ p, m.nodes session p = []) :
    m.deliver session (m.sentOf ds) = (m', .ok ()) ↔
      m' = m.afterSplit session ds ∧ (partitions ds = [] → m.dmHosts = []) := by
  rw [← deliver_fresh m ds hf]
  constructor
  · exact fun h => ⟨(congrArg Prod.fst h).symm, congrArg Prod.snd h⟩
  · rintro ⟨rfl, h⟩
    exact Prod.ext rfl h

/-- What is left of the question once the list has been read. -/
theorem roundTrip_iff (hk : Keyed m.graph) (hf : ∀ p, m.nodes session p = [])
    (g : GraphSpec R m.dmHosts) : RoundTrip initPgReproData m session g ↔
      ((g.drops = [] → g.padded = true) ∧
        ∀ r, g.reprodata = some r → ∃ r', initPgReproData g.body r = .ok r') ∧
      (g.drops = [] → m.dmHosts = []) ∧
      ∀ d ∈ g.drops, Survivor (registered m.graph g.drops) g.drops d := by
  have hok : ∀ m', m.addGraphSpec initPgReproData session g.items = (m', .ok ()) ↔ _ :=
    fun m' => m.addGraphSpec_ok initPgReproData ⟨session, g.items⟩
  simp only [RoundTrip, hok, tableOf, bind_ok, pure_ok, drops_items]
  constructor
  · rintro ⟨m', ⟨ds, table, ⟨_, ⟨hne, hhash, rfl⟩, _, htab, he⟩, hdel⟩, hret⟩
    obtain ⟨rfl, rfl⟩ := Prod.mk.inj he
    obtain ⟨rfl, hempty⟩ := (deliver_ok (m := m.recorded _ _ _) hf).mp hdel
    have hgraph := congrArg (registered m.graph) (admitted_items session hne hhash)
    refine ⟨⟨hne, hhash⟩, fun he => hempty ((partitions_eq_nil g.placed).mpr he), ?_⟩
    rw [← hgraph]
    exact (split_returns_iff (m := m.noted initPgReproData ⟨session, g.items⟩)
      (keyed_registered hk) hf g.distinct g.placed
      (m.recorded initPgReproData ⟨session, g.items⟩) fun _ => rfl).mp ⟨_, htab, hret⟩
  · rintro ⟨⟨hne, hhash⟩, hempty, hsur⟩
    have hgraph := congrArg (registered m.graph) (admitted_items session hne hhash)
    rw [← hgraph] at hsur
    obtain ⟨table, htab, hret⟩ := (split_returns_iff (m := m.noted initPgReproData
      ⟨session, g.items⟩) (keyed_registered hk) hf g.distinct g.placed
      (m.recorded initPgReproData ⟨session, g.items⟩) fun _ => rfl).mpr hsur
    exact ⟨_, ⟨_, table, ⟨_, ⟨hne, hhash, rfl⟩, table, htab, rfl⟩,
      (deliver_ok (m := m.recorded _ _ _) hf).mpr ⟨rfl,
        fun he => hempty ((partitions_eq_nil g.placed).mp he)⟩⟩, hret⟩

/-- A drop with two consumers on another node. -/
def fanOut (refs : List Ref) : GraphSpec Unit ["n1", "n2"] where
  drops :=
    [{ oid := "data", partition := some "n1", node := some "n1",
       relations := fun k => if k = .consumers then some refs else none },
     { oid := "left", partition := some "n2", node := some "n2" },
     { oid := "right", partition := some "n2", node := some "n2" }]
  distinct := by simp
  placed := by simp

end Whole

end Composite

end Daliuge.Manager
