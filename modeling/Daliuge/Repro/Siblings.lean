import Daliuge.Repro.Blockdag
import Daliuge.Repro.Passes
import Daliuge.Repro.Presentation
import Daliuge.Unroll.Wire

/-!
# Reproducibility data of sibling drops

Drops whose reprodata are copies of one dictionary share the entries of the modes. What a drop of an
unrolled template gets recorded is put beside what it would get with entries of its own, in a
template that has nothing but the drop and those that lead to it.
-/
namespace Daliuge.Repro

open Kahn Cascade Collect

variable {C O H : Type}

/-- A drop with entries of its own, without its edges to drops outside a part of the template. -/
def TemplateDrop.apart (A : O → Bool) (d : TemplateDrop C O) : TemplateDrop O O where
  oid := d.oid
  rmode := d.rmode
  iid := d.iid
  outputs := d.outputs.filter (A ·.oid)
  consumers := d.consumers.filter (A ·.oid)
  cell := d.oid
  get := d.get

/-- What is recorded of a drop for a mode. -/
def TemplateDrop.recordedFields (d : TemplateDrop C O) (m : Mode) : List (String × Value) :=
  d.unrollFields (d.categoryType.getD "") m

namespace Template

/-- A part of a template by itself, each drop with entries of its own. -/
def apart (A : O → Bool) (T : Template C O) : Template O O where
  drops := (T.drops.filter fun d => A d.oid).map (TemplateDrop.apart A)
  distinct := by
    have h : (fun d : TemplateDrop O O => d.oid) ∘ TemplateDrop.apart A =
        fun d : TemplateDrop C O => d.oid := rfl
    rw [List.map_map, h]
    exact T.distinct.sublist (List.filter_sublist.map _)

/-- With every drop, the part has those that lead to it. -/
def Closed (T : Template C O) (A : O → Bool) : Prop :=
  ∀ d ∈ T.drops, ∀ o ∈ d.toDrop.neighbours, A o = true → A d.oid = true

variable [DecidableEq O]

/-- The entries of a template, copied for every drop. -/
def copied (T : Template C O) (st : Store C O H) : Store O O H := fun o m =>
  (T.drops.find? (·.oid = o)).bind fun d => st d.cell m

/-- Nothing is wrong with a template: it has no cycles, and every drop has entries for the modes
it is kept in, among them those of the graph. -/
structure Hashable (T : Template C O) (level : Mode) (st : Store C O H) : Prop where
  dag : T.dropList.Dag
  mode : ∀ d ∈ T.drops, ∃ p, d.rmode = some p ∧
    (∀ m ∈ candidateRmodes level, m ∈ candidateRmodes p) ∧
    ∀ m ∈ candidateRmodes p, ∃ e, st d.cell m = some e
  category : ∀ d ∈ T.drops, ∃ t, d.categoryType = some t

/-- What a drop hands on, by its own category. -/
def kind (T : Template C O) (m : Mode) (d : TemplateDrop C O) : Kind :=
  match effective (d.rmode.getD reproDefault) m with
  | .nothing => .silent
  | .reproduce =>
    if isData (d.categoryType.getD "") && T.dropList.isRoot d.oid then .own else .relay
  | .rerun => if d.toDrop.onCriticalPath then .own else .silent
  | _ => .own

/-- How hashes are handed on in a template. -/
def handing (T : Template C O) (m : Mode) : Cascade.Graph O Unit where
  verts := T.dropList.oids
  succ := T.dropList.neighbours
  kind o := ((T.drops.find? (·.oid = o)).map (T.kind m)).getD .silent
  digest _ _ := ()

/-- Drops that share their entries are recorded with the same fields, and the same drops hand their
hashes to them. -/
def Alike (T : Template C O) (level : Mode) : Prop :=
  ∀ d ∈ T.drops, ∀ d' ∈ T.drops, d.cell = d'.cell → ∀ m ∈ candidateRmodes level,
    d.recordedFields m = d'.recordedFields m ∧ (T.handing m).Alike d.oid d'.oid

end Template

/-- Entries with the same data, hash and parent hashes of the template. -/
def SameData : Option (Entry O H) → Option (Entry O H) → Prop
  | none, none => True
  | some e, some e' => e'.pgtData = e.pgtData ∧ e'.blockhash .pgt = e.blockhash .pgt ∧
    Option.Rel List.Perm (e'.parenthashes .pgt) (e.parenthashes .pgt)
  | _, _ => False

/-- What is recorded of the drops in a part of the template that nothing leads into is what would
be recorded without the others, of drops with entries of their own. -/
def OwnData [DecidableEq C] [DecidableEq O] [LinearOrder H]
    (dataRoot : List (String × Value) → H) (M : Merkle H) (T : Template C O) (level : Mode)
    (st : Store C O H) : Prop :=
  ∀ A, T.Closed A → ∃ sigs st₁ sigs' st₂,
    T.initPgtUnrollReproData dataRoot M level st = .ok (sigs, st₁) ∧
    (T.apart A).initPgtUnrollReproData dataRoot M level (T.copied st) = .ok (sigs', st₂) ∧
    ∀ d ∈ T.drops, A d.oid = true → ∀ m ∈ candidateRmodes level,
      SameData (st₁ d.cell m) (st₂ d.oid m)

/-! The entries once the fields have been recorded. -/

section Stamped

variable [DecidableEq C] {T : Template C O} {level m : Mode} {st st₁ : Store C O H}
  {d d' : TemplateDrop C O} {dataRoot : List (String × Value) → H} {e : Entry O H}

/-- The entry of a drop with its fields recorded. -/
def TemplateDrop.stamped (dataRoot : List (String × Value) → H) (d : TemplateDrop C O) (m : Mode)
    (e : Entry O H) : Entry O H :=
  TemplateDrop.pgtStamp dataRoot (d.recordedFields m) e

omit [DecidableEq C] in
/-- The fields that were recorded before do not matter. -/
theorem stamped_stamped (h : d.recordedFields m = d'.recordedFields m) :
    d'.stamped dataRoot m (d.stamped dataRoot m e) = d.stamped dataRoot m e := by
  simp [TemplateDrop.stamped, TemplateDrop.pgtStamp, h]

theorem initDrop_ok (dataRoot : List (String × Value) → H) {p : Mode} (hp : d.rmode = some p)
    (hc : ∃ t, d.categoryType = some t)
    (he : ∀ m ∈ candidateRmodes p, ∃ e, st d.cell m = some e) :
    ∃ st₁, d.initPgtUnrollReproDropData dataRoot st = .ok st₁ ∧
      (∀ m ∈ candidateRmodes p, st₁ d.cell m = (st d.cell m).map (d.stamped dataRoot m)) ∧
      ∀ c m, (c = d.cell → m ∉ candidateRmodes p) → st₁ c m = st c m := by
  obtain ⟨t, ht⟩ := hc
  obtain ⟨st₁, hst₁, hin, hout⟩ := stampModes_ok (f := d.stamped dataRoot) he
  refine ⟨st₁, ?_, hin, hout⟩
  have hf : d.stamped dataRoot =
      fun m => TemplateDrop.pgtStamp (O := O) dataRoot (d.unrollFields t m) := by
    funext m e
    simp [TemplateDrop.stamped, TemplateDrop.recordedFields, ht]
  simp only [TemplateDrop.initPgtUnrollReproDropData, TemplateDrop.initPgtReproDropData, ht, key,
    ok_bind, TemplateDrop.withDefault, hp, Option.getD_some]
  rw [← hf]
  exact hst₁

variable (level dataRoot) in
/-- The first half of the pass, where drops that share entries have the same fields recorded. -/
theorem stampAll_ok {ds : List (TemplateDrop C O)}
    (halike : ∀ d ∈ ds, ∀ d' ∈ ds, d.cell = d'.cell → ∀ m ∈ candidateRmodes level,
      d.recordedFields m = d'.recordedFields m)
    (hmode : ∀ d ∈ ds, ∃ p, d.rmode = some p ∧
      (∀ m ∈ candidateRmodes level, m ∈ candidateRmodes p) ∧
      ∀ m ∈ candidateRmodes p, ∃ e, st d.cell m = some e)
    (hcat : ∀ d ∈ ds, ∃ t, d.categoryType = some t) :
    ∃ st₁, ds.foldlM (fun st d => d.initPgtUnrollReproDropData dataRoot st) st = .ok st₁ ∧
      (∀ d ∈ ds, ∀ m ∈ candidateRmodes level,
        st₁ d.cell m = (st d.cell m).map (d.stamped dataRoot m)) ∧
      ∀ c m, (∀ d ∈ ds, d.cell ≠ c) → st₁ c m = st c m := by
  induction ds generalizing st with
  | nil => exact ⟨st, rfl, by simp, fun _ _ _ => rfl⟩
  | cons d ds ih =>
    obtain ⟨p, hp, hsub, he⟩ := hmode d (by simp)
    obtain ⟨st₁, hst₁, hin, hout⟩ := initDrop_ok dataRoot hp (hcat d (by simp)) he
    have hkept : ∀ c m e, st c m = some e → ∃ e', st₁ c m = some e' := by
      intro c m e he
      by_cases hc : c = d.cell ∧ m ∈ candidateRmodes p
      · obtain ⟨rfl, hm⟩ := hc
        exact ⟨_, by rw [hin m hm, he]; rfl⟩
      · exact ⟨e, by rw [hout c m fun h hm => hc ⟨h, hm⟩, he]⟩
    obtain ⟨st₂, hst₂, hin₂, hout₂⟩ := ih
      (fun d hd d' hd' => halike d (by simp [hd]) d' (by simp [hd']))
      (fun d' hd' => by
        obtain ⟨p', hp', hsub', he'⟩ := hmode d' (by simp [hd'])
        refine ⟨p', hp', hsub', fun m hm => ?_⟩
        obtain ⟨e, he⟩ := he' m hm
        exact hkept _ m e he)
      (fun d' hd' => hcat d' (by simp [hd']))
    have hlater : ∀ d' ∈ ds, ∀ m ∈ candidateRmodes level,
        st₂ d'.cell m = (st d'.cell m).map (d'.stamped dataRoot m) := by
      intro d' hd' m hm
      rw [hin₂ d' hd' m hm]
      by_cases hc : d'.cell = d.cell
      · have hf := halike d (by simp) d' (by simp [hd']) hc.symm m hm
        have hd : d.stamped (O := O) dataRoot m = d'.stamped dataRoot m := by
          funext e
          simp [TemplateDrop.stamped, hf]
        rw [hc, hin m (hsub m hm), hd, Option.map_map]
        exact congrFun (congrArg _ (funext fun e => stamped_stamped rfl)) _
      · rw [hout _ m fun h => absurd h hc]
    refine ⟨st₂, ?_, fun d' hd' m hm => ?_, fun c m hc => ?_⟩
    · rw [List.foldlM_cons, hst₁, ok_bind, hst₂]
    · rcases List.mem_cons.mp hd' with rfl | hd'
      · by_cases hagain : ∃ d'' ∈ ds, d''.cell = d'.cell
        · obtain ⟨d'', hd'', hc⟩ := hagain
          have hf := halike d' (by simp) d'' (by simp [hd'']) hc.symm m hm
          have hd : d''.stamped (O := O) dataRoot m = d'.stamped dataRoot m := by
            funext e
            simp [TemplateDrop.stamped, hf]
          rw [← hc, hlater d'' hd'' m hm, hd]
        · rw [hout₂ _ m fun d'' hd'' hc => hagain ⟨d'', hd'', hc⟩, hin m (hsub m hm)]
      · exact hlater d' hd' m hm
    · rw [hout₂ c m fun d' hd' => hc d' (by simp [hd']),
        hout c m fun h => absurd h.symm (hc d (by simp))]

end Stamped

/-! What the pass computes. -/

section Pass

variable {T : Template C O} {level m : Mode} {st s : Store C O H} {d : TemplateDrop C O}
  {dataRoot : List (String × Value) → H} {M : Merkle H}

theorem effective_of_mem {p : Mode} (h : m ∈ candidateRmodes p) : effective p m = m := by
  by_cases hp : p = .all
  · simp [effective, hp]
  · have hm : m = p := by simpa [candidateRmodes, hp] using h
    simp [effective, hm]

variable (dataRoot) in
theorem record_category {t : String} (ht : d.categoryType = some t) (hm : m ≠ .nothing) :
    (record dataRoot (d.recordedFields m)).categoryType = some t := by
  have hget : d.get "categoryType" = some (.text t) := by
    unfold TemplateDrop.categoryType at ht
    split at ht
    · rename_i u hu
      rw [hu, Option.some.inj ht]
    · cases ht
  simp [record, TemplateDrop.recordedFields, TemplateDrop.unrollFields, pgtUnrollBlockFields, hm,
    extractFields, stored, hget, FieldOp.apply]

/-- The fields of a mode have been recorded in these entries. -/
def Template.Recorded (dataRoot : List (String × Value) → H) (T : Template C O) (m : Mode)
    (st s : Store C O H) : Prop :=
  ∀ d ∈ T.drops, s d.cell m = (st d.cell m).map (d.stamped dataRoot m)

theorem exists_of_mem_drops {x : Drop C O} (h : x ∈ T.dropList.drops) :
    ∃ d ∈ T.drops, d.toDrop = x := List.mem_map.mp h

theorem mem_dropList (h : d ∈ T.drops) : d.toDrop ∈ T.dropList.drops := List.mem_map_of_mem h

theorem mem_oids_template {o : O} : o ∈ T.dropList.oids ↔ ∃ d ∈ T.drops, d.oid = o := by
  simp [DropList.oids, Template.dropList, TemplateDrop.toDrop]

variable [DecidableEq O]

theorem find?_oid (h : d ∈ T.drops) : T.drops.find? (·.oid = d.oid) = some d :=
  Association.find?_key T.distinct h

theorem handing_kind (h : d ∈ T.drops) : (T.handing m).kind d.oid = T.kind m d := by
  simp [Template.handing, find?_oid h]

/-- Silent drops hand on nothing. -/
theorem not_feeds {k v : O} (h : ∀ d ∈ T.drops, T.kind m d = .silent) :
    ¬ (T.handing m).Feeds k v := by
  have hkind : ∀ u ∈ T.dropList.oids, (T.handing m).kind u = .silent := by
    intro u hu
    obtain ⟨d, hd, rfl⟩ := mem_oids_template.mp hu
    rw [handing_kind hd, h d hd]
  intro hf
  cases hf with
  | own he hk => simp [hkind _ he.1] at hk
  | relay he hk _ => simp [hkind _ he.1] at hk

theorem Template.Hashable.effective_eq (h : T.Hashable level st) (hd : d ∈ T.drops)
    (hm : m ∈ candidateRmodes level) : effective d.toDrop.rmode m = m := by
  obtain ⟨p, hp, hsub, -⟩ := h.mode d hd
  have hr : d.toDrop.rmode = p := by simp [TemplateDrop.toDrop, hp]
  rw [hr]
  exact effective_of_mem (hsub m hm)

/-- The entry the walk finds. -/
theorem Template.Hashable.entry (h : T.Hashable level st) (hr : T.Recorded dataRoot m st s)
    (hd : d ∈ T.drops) (hm : m ∈ candidateRmodes level) :
    ∃ e, st d.cell m = some e ∧ s d.cell m = some (d.stamped dataRoot m e) := by
  obtain ⟨p, -, hsub, he⟩ := h.mode d hd
  obtain ⟨e, he⟩ := he m (hsub m hm)
  exact ⟨e, he, by rw [hr d hd, he]; rfl⟩

/-- The category the walk finds. -/
theorem Template.Hashable.ctype (h : T.Hashable level st)
    (hr : T.Recorded dataRoot .reproduce st s) (hd : d ∈ T.drops)
    (hm : .reproduce ∈ candidateRmodes level) :
    ∃ t, d.categoryType = some t ∧ s.ctype (O := O) d.cell .reproduce = .ok t := by
  obtain ⟨t, ht⟩ := h.category d hd
  obtain ⟨e, -, he⟩ := h.entry hr hd hm
  have hc := record_category dataRoot ht (m := .reproduce) (by decide)
  refine ⟨t, ht, ?_⟩
  simp only [Store.ctype, Store.entry, he, key, ok_bind, TemplateDrop.stamped,
    TemplateDrop.pgtStamp, hc]

/-- What the walk takes a drop to hand on is what its own category says. -/
theorem Template.Hashable.kind_eq (h : T.Hashable level st) (hr : T.Recorded dataRoot m st s)
    (hd : d ∈ T.drops) (hm : m ∈ candidateRmodes level) :
    T.dropList.kind m s d.toDrop = T.kind m d := by
  have he := h.effective_eq hd hm
  have he' : effective (d.rmode.getD reproDefault) m = m := he
  cases m with
  | reproduce =>
    obtain ⟨t, ht, hct⟩ := h.ctype hr hd hm
    have hcell : s.ctype (O := O) d.toDrop.cell .reproduce = .ok t := hct
    simp only [DropList.kind, Template.kind, he, he', hcell, ht, Option.getD_some]
    rfl
  | _ => simp only [DropList.kind, Template.kind, he, he']

variable [Inhabited C]

/-- What the walk for a mode goes by. -/
def Template.graph (M : Merkle H) (T : Template C O) (m : Mode) (s : Store C O H) :
    Cascade.Graph O H :=
  (T.dropList.scheme M .pgt m s).cascade s M

/-- Where the hashes come from in the walk. -/
theorem Template.Hashable.feeds_iff (h : T.Hashable level st) (hr : T.Recorded dataRoot m st s)
    (hm : m ∈ candidateRmodes level) {k v : O} :
    (T.graph M m s).Feeds k v ↔ (T.handing m).Feeds k v := by
  have hkind : ∀ u ∈ T.dropList.oids, (T.graph M m s).kind u = (T.handing m).kind u := by
    intro u hu
    obtain ⟨d, hd, rfl⟩ := mem_oids_template.mp hu
    rw [handing_kind hd, ← h.kind_eq hr hd hm]
    exact DropList.scheme_kind (M := M) (a := .pgt) (mem_dropList hd)
  have hedge : ∀ {u v : O}, (T.graph M m s).Edge u v ↔ (T.handing m).Edge u v := Iff.rfl
  exact ⟨fun hf => hf.of_kind hedge.mp fun u hu => (hkind u hu).symm,
    fun hf => hf.of_kind hedge.mpr hkind⟩

theorem Template.Hashable.prepared (h : T.Hashable level st) (ha : T.Alike level)
    (hr : T.Recorded dataRoot m st s) (hm : m ∈ candidateRmodes level) :
    T.dropList.Prepared M .pgt m s where
  alike x hx y hy hc := by
    obtain ⟨d, hd, rfl⟩ := exists_of_mem_drops hx
    obtain ⟨d', hd', rfl⟩ := exists_of_mem_drops hy
    intro k
    have hgraph := fun v => h.feeds_iff (M := M) hr hm (k := k) (v := v)
    exact (hgraph _).trans (((ha d hd d' hd' hc m hm).2 k).trans (hgraph _).symm)
  entry x hx := by
    obtain ⟨d, hd, rfl⟩ := exists_of_mem_drops hx
    obtain ⟨e, -, he⟩ := h.entry hr hd hm
    exact ⟨_, _, he, rfl, by
      simp [TemplateDrop.stamped, TemplateDrop.pgtStamp, Abstraction.layer]⟩
  category x hx hx' := by
    obtain ⟨d, hd, rfl⟩ := exists_of_mem_drops hx
    rw [h.effective_eq hd hm] at hx'
    subst hx'
    obtain ⟨t, -, ht⟩ := h.ctype hr hd hm
    exact ⟨t, ht⟩

variable [DecidableEq C] [LinearOrder H]

/-- The pass over a template whose drops are alike where they share entries: the digests of the
graph in them. -/
theorem Template.Hashable.pass (h : T.Hashable level st) (ha : T.Alike level)
    (hl : level ≠ .nothing) (dataRoot : List (String × Value) → H) (M : Merkle H) :
    ∃ sigs st', T.initPgtUnrollReproData dataRoot M level st = .ok (sigs, st') ∧
      ∀ m ∈ candidateRmodes level, ∃ s B P, T.Recorded dataRoot m st s ∧
        (T.graph M m s).Solves B P ∧ ∀ d ∈ T.drops, st' d.cell m = (s d.cell m).map
          (Entry.written .pgt (some (B d.oid)) ((P d.oid).map fun k => (k, B k))) := by
  obtain ⟨st₁, hst₁, hrec, -⟩ := stampAll_ok level dataRoot
    (fun d hd d' hd' hc m hm => (ha d hd d' hd' hc m hm).1) h.mode h.category
  have hsigned : ∃ sigs st', signModes (fun m st => do
        let r ← buildBlockdag M T.dropList .pgt m st
        return (agglomerateLeaves M r.leaves, r.store)) level st₁ = .ok (sigs, st') ∧
      (∀ m ∈ candidateRmodes level, ∃ h, sigs m = some h ∧ ∃ s B P, T.Recorded dataRoot m st s ∧
        (T.graph M m s).Solves B P ∧ ∀ d ∈ T.drops, st' d.cell m = (s d.cell m).map
          (Entry.written .pgt (some (B d.oid)) ((P d.oid).map fun k => (k, B k)))) ∧
      ∀ c m, m ∉ candidateRmodes level → st' c m = st₁ c m := signModes_ok
    (Q := fun m _ s' => ∃ s B P, T.Recorded dataRoot m st s ∧ (T.graph M m s).Solves B P ∧
      ∀ d ∈ T.drops, s' d.cell m = (s d.cell m).map
        (Entry.written .pgt (some (B d.oid)) ((P d.oid).map fun k => (k, B k))))
    (fun m hm s hs => by
      have hr : T.Recorded dataRoot m st s := fun d hd => (hs d.cell).trans (hrec d hd m hm)
      obtain ⟨r, B, P, hok, -, -, hsol, -, hentry, hframe⟩ :=
        (h.prepared (M := M) ha hr hm).buildBlockdag_solves h.dag
      refine ⟨_, r.store, by rw [hok]; rfl, ⟨s, B, P, hr, hsol, fun d hd => ?_⟩,
        fun c m' hne => hframe c m' fun he => absurd he hne⟩
      exact hentry d.toDrop (mem_dropList hd))
    (fun m _ s s' hss' ⟨s₀, B, P, hr, hsol, hd⟩ =>
      ⟨s₀, B, P, hr, hsol, fun d hm => (hss' d.cell).trans (hd d hm)⟩)
  obtain ⟨sigs, st', hsign, hin, -⟩ := hsigned
  refine ⟨sigs, st', ?_, fun m hm => ?_⟩
  · rw [Template.initPgtUnrollReproData, Template.initReproData, if_neg hl, hst₁]
    exact hsign
  · obtain ⟨x, -, hq⟩ := hin m hm
    exact hq

end Pass

/-! A part of a template by itself. -/

section Part

variable {T : Template C O} {A : O → Bool} {level m : Mode} {st s : Store C O H}
  {s' : Store O O H} {d : TemplateDrop C O} {dataRoot : List (String × Value) → H} {M : Merkle H}
  {u v k : O}

theorem neighbours_apart :
    (d.apart A).toDrop.neighbours = d.toDrop.neighbours.filter fun o => A o := by
  simp [TemplateDrop.apart, TemplateDrop.toDrop, Drop.neighbours, List.filter_append,
    List.filter_map, Function.comp_def]

theorem mem_apart {x : TemplateDrop O O} :
    x ∈ (T.apart A).drops ↔ ∃ d ∈ T.drops, A d.oid = true ∧ d.apart A = x := by
  simp [Template.apart, and_assoc]

theorem apart_mem (hd : d ∈ T.drops) (ha : A d.oid = true) : d.apart A ∈ (T.apart A).drops :=
  mem_apart.mpr ⟨d, hd, ha, rfl⟩

theorem mem_oids_apart (ha : A v = true) :
    v ∈ T.dropList.oids ↔ v ∈ (T.apart A).dropList.oids := by
  rw [mem_oids_template, mem_oids_template]
  constructor
  · rintro ⟨d, hd, rfl⟩
    exact ⟨_, apart_mem hd ha, rfl⟩
  · rintro ⟨x, hx, rfl⟩
    obtain ⟨d, hd, -, rfl⟩ := mem_apart.mp hx
    exact ⟨d, hd, rfl⟩

variable [DecidableEq O]

theorem copied_oid (hd : d ∈ T.drops) : T.copied st d.oid m = st d.cell m := by
  simp [Template.copied, find?_oid hd]

theorem edge_template : Kahn.Edge T.dropList.oids T.dropList.neighbours u v ↔
    ∃ d ∈ T.drops, d.oid = u ∧ v ∈ d.toDrop.neighbours := by
  constructor
  · rintro ⟨hu, hv⟩
    obtain ⟨d, hd, rfl⟩ := mem_oids_template.mp hu
    have hn := DropList.neighbours_eq (mem_dropList hd)
    exact ⟨d, hd, rfl, hn ▸ hv⟩
  · rintro ⟨d, hd, rfl, hv⟩
    have hn := DropList.neighbours_eq (mem_dropList hd)
    exact ⟨mem_oids_template.mpr ⟨d, hd, rfl⟩, hn.symm ▸ hv⟩

theorem edge_apart (hc : T.Closed A) (ha : A v = true) :
    Kahn.Edge T.dropList.oids T.dropList.neighbours u v ↔
      Kahn.Edge (T.apart A).dropList.oids (T.apart A).dropList.neighbours u v := by
  rw [edge_template, edge_template]
  constructor
  · rintro ⟨d, hd, rfl, hv⟩
    refine ⟨_, apart_mem hd (hc d hd v hv ha), rfl, ?_⟩
    rw [neighbours_apart]
    exact List.mem_filter.mpr ⟨hv, ha⟩
  · rintro ⟨x, hx, rfl, hv⟩
    obtain ⟨d, hd, -, rfl⟩ := mem_apart.mp hx
    rw [neighbours_apart] at hv
    exact ⟨d, hd, rfl, (List.mem_filter.mp hv).1⟩

theorem edge_of_apart
    (h : Kahn.Edge (T.apart A).dropList.oids (T.apart A).dropList.neighbours u v) :
    Kahn.Edge T.dropList.oids T.dropList.neighbours u v := by
  obtain ⟨x, hx, rfl, hv⟩ := edge_template.mp h
  obtain ⟨d, hd, -, rfl⟩ := mem_apart.mp hx
  rw [neighbours_apart] at hv
  exact edge_template.mpr ⟨d, hd, rfl, (List.mem_filter.mp hv).1⟩

theorem Template.Hashable.apart (h : T.Hashable level st) (A : O → Bool) :
    (T.apart A).Hashable level (T.copied st) := by
  refine ⟨⟨fun x hx o ho => ?_, fun v hv => ?_⟩, fun x hx => ?_, fun x hx => ?_⟩
  · obtain ⟨y, hy, rfl⟩ := exists_of_mem_drops hx
    obtain ⟨d, hd, -, rfl⟩ := mem_apart.mp hy
    rw [neighbours_apart] at ho
    obtain ⟨ho, ha⟩ := List.mem_filter.mp ho
    exact (mem_oids_apart ha).mp (h.dag.closed _ (mem_dropList hd) o ho)
  · exact h.dag.acyclic v (Relation.TransGen.mono (fun _ _ => edge_of_apart) _ _ hv)
  · obtain ⟨d, hd, -, rfl⟩ := mem_apart.mp hx
    obtain ⟨p, hp, hsub, he⟩ := h.mode d hd
    exact ⟨p, hp, hsub, fun m hm => (copied_oid hd).symm ▸ he m hm⟩
  · obtain ⟨d, hd, -, rfl⟩ := mem_apart.mp hx
    exact h.category d hd

/-- Nothing is shared in it. -/
theorem alike_apart (T : Template C O) (A : O → Bool) (level : Mode) :
    (T.apart A).Alike level := by
  intro x hx y hy hc m _
  obtain ⟨d, hd, -, rfl⟩ := mem_apart.mp hx
  obtain ⟨d', hd', -, rfl⟩ := mem_apart.mp hy
  obtain rfl := List.inj_on_of_nodup_map T.distinct hd hd' hc
  exact ⟨rfl, fun _ => Iff.rfl⟩

theorem isRoot_apart (hc : T.Closed A) (ha : A v = true) :
    (T.apart A).dropList.isRoot v = T.dropList.isRoot v := by
  rw [Bool.eq_iff_iff, DropList.isRoot_iff, DropList.isRoot_iff]
  exact not_congr (exists_congr fun u => (edge_apart hc ha).symm)

theorem kind_apart (hc : T.Closed A) (ha : A d.oid = true) :
    (T.apart A).kind m (d.apart A) = T.kind m d := by
  have hroot : (T.apart A).dropList.isRoot (d.apart A).oid = T.dropList.isRoot d.oid :=
    isRoot_apart hc ha
  simp only [Template.kind, hroot]
  rfl

variable [Inhabited C] [Inhabited O]

/-- The graphs of a template and of a part that nothing leads into share that part. -/
theorem shares_apart (h : T.Hashable level st) (hm : m ∈ candidateRmodes level)
    (hc : T.Closed A) (hr : T.Recorded dataRoot m st s)
    (hr' : (T.apart A).Recorded dataRoot m (T.copied st) s') :
    Cascade.Graph.Shares (fun v => A v = true) (T.graph M m s) ((T.apart A).graph M m s') := by
  refine ⟨fun u v he ha => ?_, fun v ha => mem_oids_apart ha, fun u v ha => edge_apart hc ha,
    fun v hv ha => ?_, fun v hv ha => ?_⟩
  · obtain ⟨d, hd, rfl, hn⟩ := edge_template.mp he
    exact hc d hd v hn ha
  · obtain ⟨d, hd, rfl⟩ := mem_oids_template.mp hv
    have hk : (T.dropList.scheme M .pgt m s).kind d.toDrop.oid = T.dropList.kind m s d.toDrop :=
      DropList.scheme_kind (mem_dropList hd)
    have hk' : ((T.apart A).dropList.scheme M .pgt m s').kind (d.apart A).toDrop.oid =
        (T.apart A).dropList.kind m s' (d.apart A).toDrop :=
      DropList.scheme_kind (mem_dropList (apart_mem hd ha))
    rw [h.kind_eq hr hd hm] at hk
    rw [(h.apart A).kind_eq hr' (apart_mem hd ha) hm, kind_apart hc ha] at hk'
    exact hk'.trans hk.symm
  · obtain ⟨d, hd, rfl⟩ := mem_oids_template.mp hv
    obtain ⟨e, he, hs⟩ := h.entry hr hd hm
    obtain ⟨e', he', hs'⟩ := (h.apart A).entry hr' (apart_mem hd ha) hm
    obtain rfl : e = e' := Option.some.inj (he.symm.trans ((copied_oid hd).symm.trans he'))
    have hown := DropList.scheme_ownHashes (M := M) (a := .pgt) (mem_dropList hd) hs rfl
    have hown' := DropList.scheme_ownHashes (M := M) (a := .pgt)
      (mem_dropList (apart_mem hd ha)) hs' rfl
    funext hs
    exact congrArg (fun l => M.tree (l ++ hs)) (hown'.trans hown.symm)

variable [DecidableEq C] [LinearOrder H]

omit [Inhabited C] [DecidableEq C] in
/-- What the pass leaves of a drop of the part, by itself. -/
theorem Template.Hashable.pass_apart (h : T.Hashable level st) (hl : level ≠ .nothing)
    (dataRoot : List (String × Value) → H) (M : Merkle H) (A : O → Bool) :
    ∃ sigs st', (T.apart A).initPgtUnrollReproData dataRoot M level (T.copied st) =
        .ok (sigs, st') ∧
      ∀ m ∈ candidateRmodes level, ∃ s B P, (T.apart A).Recorded dataRoot m (T.copied st) s ∧
        ((T.apart A).graph M m s).Solves B P ∧ ∀ d ∈ T.drops, A d.oid = true →
          ∃ e, st d.cell m = some e ∧ st' d.oid m = some (Entry.written .pgt (some (B d.oid))
            ((P d.oid).map fun k => (k, B k)) (d.stamped dataRoot m e)) := by
  obtain ⟨sigs, st', hok, hpass⟩ := (h.apart A).pass (alike_apart T A level) hl dataRoot M
  refine ⟨sigs, st', hok, fun m hm => ?_⟩
  obtain ⟨s, B, P, hr, hsol, hentry⟩ := hpass m hm
  refine ⟨s, B, P, hr, hsol, fun d hd ha => ?_⟩
  obtain ⟨e, he, hs⟩ := (h.apart A).entry hr (apart_mem hd ha) hm
  have hst := hentry _ (apart_mem hd ha)
  rw [hs] at hst
  exact ⟨e, (copied_oid hd).symm.trans he, hst⟩

/-- Where drops that share entries are alike, each has data of its own. -/
theorem Template.Hashable.ownData (dataRoot : List (String × Value) → H) (M : Merkle H)
    (h : T.Hashable level st) (ha : T.Alike level) (hl : level ≠ .nothing) :
    OwnData dataRoot M T level st := by
  intro A hc
  obtain ⟨sigs, st₁, hok, hpass⟩ := h.pass ha hl dataRoot M
  obtain ⟨sigs', st₂, hok', hpass'⟩ := h.pass_apart hl dataRoot M A
  refine ⟨sigs, st₁, sigs', st₂, hok, hok', fun d hd ha m hm => ?_⟩
  obtain ⟨s, B, P, hr, hsol, hentry⟩ := hpass m hm
  obtain ⟨s', B', P', hr', hsol', hentry'⟩ := hpass' m hm
  have hshare := shares_apart (M := M) h hm hc hr hr'
  have hblock := hshare.block_eq h.dag.wf hsol hsol'
  have hv : d.oid ∈ (T.graph M m s).verts := mem_oids_template.mpr ⟨d, hd, rfl⟩
  obtain ⟨hb, hp⟩ := hblock d.oid hv ha
  obtain ⟨e, he, hs⟩ := h.entry hr hd hm
  obtain ⟨e', he', h₂⟩ := hentry' d hd ha
  obtain rfl : e = e' := Option.some.inj (he.symm.trans he')
  rw [hentry d hd, hs, h₂]
  refine ⟨rfl, by simp [hb], ?_⟩
  -- what is handed on comes from drops of the part, with the same digests
  have hhand : ((P' d.oid).map fun k => (k, B' k)).Perm ((P d.oid).map fun k => (k, B k)) := by
    refine (hp.map _).trans (List.Perm.of_eq (List.map_congr_left fun k hk => ?_))
    have hf := (hsol.mem_iff d.oid hv k).mp hk
    rw [(hblock k hf.mem_verts (hshare.feeds_mem hf ha)).1]
  simpa using Option.Rel.some hhand

omit [Inhabited C] [Inhabited O] in
/-- A graph kept in no mode is left alone. -/
theorem ownData_nothing (dataRoot : List (String × Value) → H) (M : Merkle H) :
    OwnData dataRoot M T .nothing st := by
  refine fun A _ => ⟨_, st, _, T.copied st, rfl, rfl, fun d hd _ m _ => ?_⟩
  rw [copied_oid hd]
  cases st d.cell m with
  | none => trivial
  | some e =>
    refine ⟨rfl, rfl, ?_⟩
    cases e.parenthashes .pgt with
    | none => exact .none
    | some l => exact .some (List.Perm.refl l)

omit [DecidableEq O] [Inhabited C] [Inhabited O] [DecidableEq C] [LinearOrder H] in
theorem SameData.eq_of_both {e : Option (Entry O H)} {e₁ e₂ : Entry O H}
    (h₁ : SameData e (some e₁)) (h₂ : SameData e (some e₂)) : e₁.pgtData = e₂.pgtData ∧
      ∀ l₁ l₂, e₁.parenthashes .pgt = some l₁ → e₂.parenthashes .pgt = some l₂ → l₁.Perm l₂ := by
  cases e with
  | none => exact h₁.elim
  | some e =>
    obtain ⟨hd₁, -, hp₁⟩ := h₁
    obtain ⟨hd₂, -, hp₂⟩ := h₂
    refine ⟨hd₁.trans hd₂.symm, fun l₁ l₂ hl₁ hl₂ => ?_⟩
    rw [hl₁] at hp₁
    rw [hl₂] at hp₂
    cases hl : e.parenthashes .pgt with
    | none =>
      rw [hl] at hp₁
      cases hp₁
    | some l =>
      rw [hl] at hp₁ hp₂
      cases hp₁ with
      | some hp₁ =>
        cases hp₂ with
        | some hp₂ => exact hp₁.trans hp₂.symm

omit [Inhabited C] in
/-- Drops that share entries and have data of their own are alike. -/
theorem Template.Hashable.alike (h : T.Hashable level st) (hl : level ≠ .nothing)
    (ho : OwnData dataRoot M T level st) : T.Alike level := by
  intro d hd d' hd' hcell m hm
  have hall : T.Closed fun _ => true := fun _ _ _ _ _ => rfl
  obtain ⟨sigs, st₁, sigs', st₂, -, hok, hsame⟩ := ho (fun _ => true) hall
  obtain ⟨sigs'', st', hok', hpass⟩ := h.pass_apart hl dataRoot M fun _ => true
  obtain ⟨rfl, rfl⟩ := Prod.mk.inj (Except.ok.inj (hok.symm.trans hok'))
  obtain ⟨s, B, P, hr, hsol, hentry⟩ := hpass m hm
  obtain ⟨e, -, hst⟩ := hentry d hd rfl
  obtain ⟨e', -, hst'⟩ := hentry d' hd' rfl
  have h₁ := hsame d hd rfl m hm
  have h₂ := hsame d' hd' rfl m hm
  rw [hst] at h₁
  rw [hst', ← hcell] at h₂
  obtain ⟨hdata, hpar⟩ := h₁.eq_of_both h₂
  have hfeeds : ∀ x ∈ T.drops, ∀ k, (T.handing m).Feeds k x.oid ↔ k ∈ P x.oid := by
    intro x hx k
    have hmem : x.oid ∈ (T.apart fun _ => true).dropList.oids :=
      (mem_oids_apart rfl).mp (mem_oids_template.mpr ⟨x, hx, rfl⟩)
    rw [hsol.mem_iff x.oid hmem, (h.apart _).feeds_iff hr hm]
    have hkind : ∀ u ∈ T.dropList.oids,
        ((T.apart fun _ => true).handing m).kind u = (T.handing m).kind u := by
      intro u hu
      obtain ⟨y, hy, rfl⟩ := mem_oids_template.mp hu
      rw [handing_kind hy, ← kind_apart hall rfl]
      exact handing_kind (apart_mem hy rfl)
    refine ⟨fun hf => hf.of_kind (edge_apart hall rfl).mp hkind, fun hf => ?_⟩
    exact hf.of_kind edge_of_apart fun u hu => (hkind u ((mem_oids_apart rfl).mpr hu)).symm
  refine ⟨?_, fun k => ?_⟩
  · have hrecord := Option.some.inj hdata
    exact congrArg Data.fields hrecord
  · have hperm := (hpar _ _ Scheme.written_parenthashes Scheme.written_parenthashes).map Prod.fst
    simp only [List.map_map, Function.comp_def, List.map_id'] at hperm
    rw [hfeeds d hd, hfeeds d' hd', hperm.mem_iff]

/-- Each drop has data of its own exactly when the drops that share entries are alike. -/
theorem Template.Hashable.ownData_iff_alike (dataRoot : List (String × Value) → H) (M : Merkle H)
    (h : T.Hashable level st) :
    OwnData dataRoot M T level st ↔ level = .nothing ∨ T.Alike level := by
  by_cases hl : level = .nothing
  · subst hl
    exact iff_of_true (ownData_nothing dataRoot M) (Or.inl rfl)
  · rw [or_iff_right hl]
    exact ⟨h.alike hl, fun ha => h.ownData dataRoot M ha hl⟩

end Part

/-! Unrolled templates. -/

section Unrolled

open Unroll (NodeId)

/-- An entry of a relation list, as the walk reads it. -/
def destOf : Unroll.Entry → Dest String
  | .plain oid => .plain oid
  | .named oid name => .named oid name
  | .port oid _ _ => .plain oid

variable {D : Type}

/-- A drop of an unrolled template. `reprodata` is copied one level deep: what is made of a node is
given the entries of the node, and nodes made by `create_from_node` those of the node they are made
from. A stream bridge is given none. -/
def TemplateDrop.ofUnrolled (tpl : Unroll.Template) (keys : Unroll.Drop → String → Option Value)
    (rmode : NodeId → Option Mode) (entries : NodeId → D) (d : Unroll.Drop) :
    TemplateDrop (D ⊕ String) String where
  oid := d.oid
  rmode := match d.ident with
    | .made id _ _ => rmode id
    | .bridge _ _ _ => none
  iid := match d.ident with
    | .made _ c .main => some c.wire
    | _ => none
  outputs := (tpl.relations.of d .outputs).map destOf
  consumers := (tpl.relations.of d .consumers).map destOf
  cell := match d.ident with
    | .made id _ _ => .inl (entries id)
    | .bridge _ _ _ => .inr d.oid
  get := keys d

/-- The template the pass is given. -/
def Template.ofUnrolled (tpl : Unroll.Template) (keys : Unroll.Drop → String → Option Value)
    (rmode : NodeId → Option Mode) (entries : NodeId → D)
    (h : (tpl.drops.map (·.oid)).Nodup) : Template (D ⊕ String) String where
  drops := tpl.drops.map (TemplateDrop.ofUnrolled tpl keys rmode entries)
  distinct := by
    rw [List.map_map]
    exact h

/-- Each drop of an unrolled template has data of its own exactly when the graph is kept in no mode
or the drops of nodes with the same entries are recorded alike. -/
theorem ownData_iff [DecidableEq D] [LinearOrder H] (dataRoot : List (String × Value) → H)
    (M : Merkle H) {tpl : Unroll.Template} {keys : Unroll.Drop → String → Option Value}
    {rmode : NodeId → Option Mode} {entries : NodeId → D} {hoids : (tpl.drops.map (·.oid)).Nodup}
    {level : Mode} {st : Store (D ⊕ String) String H}
    (h : (Template.ofUnrolled tpl keys rmode entries hoids).Hashable level st) :
    OwnData dataRoot M (Template.ofUnrolled tpl keys rmode entries hoids) level st ↔
      level = .nothing ∨ (Template.ofUnrolled tpl keys rmode entries hoids).Alike level :=
  h.ownData_iff_alike dataRoot M

/-- Data that an application reads, in a Scatter. -/
def scattered (copies : Int) : Unroll.LogicalGraph where
  sessionId := "s"
  forest :=
    .cons { id := .int 1, category := .scatter, categoryType := .construct, isGroup := true
            keys := [("num_of_copies", .int copies)] }
      (.cons { id := .int 2, category := .memory, categoryType := .data } .nil
        (.cons { id := .int 3, category := .pythonApp, categoryType := .application } .nil .nil))
      .nil
  links := [{ source := .int 2, target := .int 3 }]
  ids_nodup := (by decide : [Unroll.NodeId.int 1, .int 2, .int 3].Nodup)
  ids_ne_newAdded := by
    intro n hn
    have hid : n.id ∈ [NodeId.int 1, .int 2, .int 3] := List.mem_map_of_mem hn
    revert hid
    generalize n.id = i
    decide +revert

/-- What it is unrolled to. -/
def unrolled (copies : Int) : Unroll.Template :=
  (scattered copies).unroll.toOption.getD ⟨[], [], []⟩

/-- The node a drop is made of. -/
def logicalNode (d : Unroll.Drop) : Option NodeId :=
  match d.ident with
  | .made id _ _ => some id
  | .bridge _ _ _ => none

/-- The keys of its drops that are recorded. -/
def scatteredKeys (d : Unroll.Drop) : String → Option Value
  | "categoryType" =>
    some (.text (if logicalNode d = some (.int 2) then "Data" else "Application"))
  | "rank" => some (.items (d.coord.path.map fun n => .number n))
  | _ => none

/-- Their entries before the pass. -/
def emptyEntries (_ : NodeId ⊕ String) (_ : Mode) : Option (Entry String Nat) := some {}

def scatteredTemplate (mode : Mode) (copies : Int)
    (h : ((unrolled copies).drops.map (·.oid)).Nodup) : Template (NodeId ⊕ String) String :=
  .ofUnrolled (unrolled copies) scatteredKeys (fun _ => some mode) id h

theorem scatteredTemplate_hashable {mode : Mode} {copies : Int} {h}
    (hdag : (scatteredTemplate mode copies h).dropList.Dag)
    (hmade : ∀ d ∈ (unrolled copies).drops, d.ident.isBridge = false) :
    (scatteredTemplate mode copies h).Hashable mode emptyEntries := by
  refine ⟨hdag, fun d hd => ?_, fun d hd => ?_⟩ <;> obtain ⟨x, hx, rfl⟩ := List.mem_map.mp hd
  · refine ⟨mode, ?_, fun m hm => hm, fun m _ => ⟨_, rfl⟩⟩
    have hm := hmade x hx
    cases hi : x.ident with
    | made => simp [TemplateDrop.ofUnrolled, hi]
    | bridge => simp [hi, Unroll.Ident.isBridge] at hm
  · exact ⟨_, rfl⟩

theorem unrolled_once_nodup : ((unrolled 1).drops.map (·.oid)).Nodup := by decide +kernel

theorem unrolled_twice_nodup : ((unrolled 2).drops.map (·.oid)).Nodup := by decide +kernel

theorem scatteredTemplate_dag {mode : Mode} (h : mode = .recompute ∨ mode = .rerun) :
    (scatteredTemplate mode 2 unrolled_twice_nodup).dropList.Dag := by
  rcases h with rfl | rfl <;> exact ⟨by decide +kernel, acyclic_of_rank
    (fun o => if o = "s_2_0-0" ∨ o = "s_2_0-1" then 0 else 1) (by decide +kernel)⟩

theorem recordedFields_rerun {tpl : Unroll.Template} {rmode : NodeId → Option Mode}
    (x : Unroll.Drop) :
    (TemplateDrop.ofUnrolled tpl scatteredKeys rmode id x).recordedFields .rerun =
      [("categoryType",
        .text (if logicalNode x = some (.int 2) then "Data" else "Application"))] := by
  have hc : (TemplateDrop.ofUnrolled tpl scatteredKeys rmode id x).categoryType =
      some (if logicalNode x = some (.int 2) then "Data" else "Application") := rfl
  have hdata : isData "Data" = true ∧ isData "Application" = false := by decide
  rw [TemplateDrop.recordedFields, hc, Option.getD_some]
  split <;> simp [TemplateDrop.unrollFields, TemplateDrop.ofUnrolled, extractFields,
    pgtUnrollBlockFields, stored, scatteredKeys, FieldOp.apply, *]

/-- One copy in RECOMPUTE mode, where no entries are shared, and two copies in RERUN mode, where
nothing is recorded that tells one from the other. -/
theorem scattered_ownData :
    (scattered 1).unroll.toOption = some (unrolled 1) ∧
    (∃ h, OwnData List.length someMerkle (scatteredTemplate .recompute 1 h) .recompute
      emptyEntries) ∧
    (scattered 2).unroll.toOption = some (unrolled 2) ∧
    ∃ h, OwnData List.length someMerkle (scatteredTemplate .rerun 2 h) .rerun emptyEntries := by
  have hdag : (scatteredTemplate .recompute 1 unrolled_once_nodup).dropList.Dag := by
    refine ⟨by decide +kernel, ?_⟩
    exact acyclic_of_rank (fun o => if o = "s_2_0-0" then 0 else 1) (by decide +kernel)
  refine ⟨rfl, ⟨_, (ownData_iff List.length someMerkle
    (scatteredTemplate_hashable hdag (by decide +kernel))).mpr (Or.inr ?_)⟩, rfl, _,
    (ownData_iff List.length someMerkle (scatteredTemplate_hashable
      (scatteredTemplate_dag (Or.inr rfl)) (by decide +kernel))).mpr (Or.inr ?_)⟩
  · intro d hd d' hd' hc m _
    have hone : ∀ d ∈ (scatteredTemplate .recompute 1 unrolled_once_nodup).drops,
        ∀ d' ∈ (scatteredTemplate .recompute 1 unrolled_once_nodup).drops,
        d.cell = d'.cell → d.oid = d'.oid := by decide +kernel
    obtain rfl := List.inj_on_of_nodup_map
      (scatteredTemplate .recompute 1 unrolled_once_nodup).distinct hd hd' (hone d hd d' hd' hc)
    exact ⟨rfl, fun _ => Iff.rfl⟩
  · intro d hd d' hd' hc m hm
    obtain rfl : m = .rerun := by simpa [candidateRmodes] using hm
    have hsilent : ∀ d ∈ (scatteredTemplate .rerun 2 unrolled_twice_nodup).drops,
        (scatteredTemplate .rerun 2 unrolled_twice_nodup).kind .rerun d = .silent := by
      decide +kernel
    have hnode : ∀ x ∈ (unrolled 2).drops, ∀ y ∈ (unrolled 2).drops,
        (TemplateDrop.ofUnrolled (unrolled 2) scatteredKeys (fun _ => some .rerun) id x).cell =
          (TemplateDrop.ofUnrolled (unrolled 2) scatteredKeys (fun _ => some .rerun) id y).cell →
        logicalNode x = logicalNode y := by decide +kernel
    obtain ⟨x, hx, rfl⟩ := List.mem_map.mp hd
    obtain ⟨y, hy, rfl⟩ := List.mem_map.mp hd'
    refine ⟨?_, fun k => iff_of_false (not_feeds hsilent) (not_feeds hsilent)⟩
    rw [recordedFields_rerun, recordedFields_rerun, hnode x hx y hy hc]

/-- The number of the copy in the rank that was recorded of a drop. -/
def recordedCopy (e : Option (Entry String Nat)) : Option Int := do
  match (← (← e).pgtData).fields.lookup "rank" with
  | some (.items [_, .number n]) => some n
  | _ => none

theorem SameData.recordedCopy_eq {e e' : Option (Entry String Nat)} (h : SameData e e') :
    recordedCopy e' = recordedCopy e := by
  cases e with
  | none => cases e' with
    | none => rfl
    | some => exact h.elim
  | some => cases e' with
    | none => exact h.elim
    | some => simp [recordedCopy, h.1]

/-- Two copies in RECOMPUTE mode: what is recorded of the first data is the rank of the second
one. -/
theorem scattered_twice_overwritten :
    (scattered 2).unroll.toOption = some (unrolled 2) ∧
    ∃ h, (scatteredTemplate .recompute 2 h).Hashable .recompute emptyEntries ∧
      ¬ OwnData List.length someMerkle (scatteredTemplate .recompute 2 h) .recompute
        emptyEntries := by
  refine ⟨rfl, unrolled_twice_nodup, scatteredTemplate_hashable
    (scatteredTemplate_dag (Or.inl rfl)) (by decide +kernel), fun hown => ?_⟩
  -- the first copy by itself
  obtain ⟨sigs, st₁, sigs', st₂, hrun, hrun', hsame⟩ :=
    hown (fun o => o = "s_2_0-0" || o = "s_3_0-0") (by unfold Template.Closed; decide +kernel)
  have hd : ∃ d ∈ (scatteredTemplate .recompute 2 unrolled_twice_nodup).drops,
      d.oid = "s_2_0-0" ∧ d.cell = .inl (.int 2) := by decide +kernel
  obtain ⟨d, hd, hoid, hcell⟩ := hd
  have hrank := (hsame d hd (by simp [hoid]) .recompute (by decide)).recordedCopy_eq
  have h₁ : ((scatteredTemplate .recompute 2 unrolled_twice_nodup).initPgtUnrollReproData
      List.length someMerkle .recompute emptyEntries).toOption.bind
        (fun r => recordedCopy (r.2 (.inl (.int 2)) .recompute)) = some 1 := by decide +kernel
  have h₂ : (((scatteredTemplate .recompute 2 unrolled_twice_nodup).apart
      fun o => o = "s_2_0-0" || o = "s_3_0-0").initPgtUnrollReproData List.length
      someMerkle .recompute ((scatteredTemplate .recompute 2 unrolled_twice_nodup).copied
        emptyEntries)).toOption.bind
        (fun r => recordedCopy (r.2 "s_2_0-0" .recompute)) = some 0 := by decide +kernel
  rw [hrun] at h₁
  rw [hrun'] at h₂
  rw [hcell, hoid] at hrank
  have h : some (0 : Int) = some 1 := h₂.symm.trans (hrank.trans h₁)
  cases h

end Unrolled

end Daliuge.Repro
