import Daliuge.Repro.Blocks

/-!
# The passes over a workflow

At every level of a graph one pass writes the fields of that level into the entries of all
drops, for every mode a drop is kept in, and then hashes the graph once for every mode the
graph is kept in.
-/
namespace Daliuge.Repro

variable {C O H : Type}

/-- What is recorded of some fields; `dataRoot` is the root of the tree over them. -/
def record (dataRoot : List (String × Value) → H) (fields : List (String × Value)) : Data H where
  merkleroot := some (dataRoot fields)
  categoryType := match fields.lookup "categoryType" with
    | some (.text t) => some t
    | _ => none
  fields := fields

section Stamp

variable [DecidableEq C]

/-- The entries of one drop, changed in place for every mode it is kept in. -/
def stampModes (c : C) (rmode : Mode) (f : Mode → Entry O H → Entry O H) (st : Store C O H) :
    Except (Err O) (Store C O H) :=
  (candidateRmodes rmode).foldlM (fun st m => st.modify c m fun e => .ok (f m e)) st

end Stamp

/-- A graph is hashed once for every mode it is kept in. -/
def signModes (hash : Mode → Store C O H → Except (Err O) (H × Store C O H)) (level : Mode)
    (st : Store C O H) : Except (Err O) ((Mode → Option H) × Store C O H) :=
  (candidateRmodes level).foldlM (fun s m => do
    let (h, st) ← hash m s.2
    return (Function.update s.1 m (some h), st)) (fun _ => none, st)

/-! Logical graphs. -/

/-- A node of a logical graph template: the keys of its object, its `fields` with the
`applicationArgs` put over them, and the mode that may be preset for it. -/
structure LgtNode (C O : Type) where
  id : O
  cell : C
  preset : Option Mode := none
  category : String := ""
  get : String → Option Value
  fields : String → Option Value := fun _ => none
  appFields : List String := []

namespace LgtNode

variable (n : LgtNode C O)

/-- The mode a node is kept in: its own before that of the graph. -/
def mode (level : Mode) : Mode := n.preset.getD level

def categoryType : Option String :=
  match n.get "categoryType" with
  | some (.text t) => some t
  | _ => none

/-- `init_lgt_repro_drop_data`: an entry that is there already is replaced. -/
def initLgtReproDropData [DecidableEq C] (dataRoot : List (String × Value) → H) (level : Mode)
    (st : Store C O H) : Store C O H :=
  (candidateRmodes (n.mode level)).foldl (fun st m => st.put n.cell m
    { lgtData := some (record dataRoot (extractFields n.get (lgtBlockFields m)))
      parenthashes := Function.update (fun _ => none) .lg (some []) }) st

/-- What the next pass records of a node. -/
def lgStamp (dataRoot : List (String × Value) → H) (m : Mode) (e : Entry O H) : Entry O H :=
  { e with
    lgData := some (record dataRoot
      (extractFields n.fields (lgBlockFields n.category m n.appFields)))
    parenthashes := Function.update e.parenthashes .lg (some []) }

def initLgReproDropData [DecidableEq C] (dataRoot : List (String × Value) → H) (level : Mode)
    (st : Store C O H) : Except (Err O) (Store C O H) :=
  stampModes n.cell (n.mode level) (n.lgStamp dataRoot) st

end LgtNode

/-- A logical graph, each node under an id of its own. -/
structure Lgt (C O : Type) where
  nodes : List (LgtNode C O)
  links : List (O × O)
  distinct : (nodes.map (·.id)).Nodup

namespace Lgt

variable (G : Lgt C O)

/-- What is walked of the graph while it is kept in a mode. -/
def logicalGraph (level : Mode) : LogicalGraph C O where
  nodeDataArray := G.nodes.map fun n =>
    { id := n.id, categoryType := n.categoryType, rmode := n.mode level, cell := some n.cell }
  linkDataArray := G.links
  distinct := by simpa [Function.comp_def] using G.distinct

variable [DecidableEq C]

def initLgtReproData (dataRoot : List (String × Value) → H) (level : Mode) (st : Store C O H) :
    Store C O H :=
  G.nodes.foldl (fun st n => n.initLgtReproDropData dataRoot level st) st

def initLgReproData [DecidableEq O] [LinearOrder H] (dataRoot : List (String × Value) → H)
    (M : Merkle H) (idText : O → H) (emptyText : H) (level : Mode) (st : Store C O H) :
    Except (Err O) ((Mode → Option H) × Store C O H) := do
  let st ← G.nodes.foldlM (fun st n => n.initLgReproDropData dataRoot level st) st
  signModes (fun m st => do
    let r ← lgBuildBlockdag M idText emptyText (G.logicalGraph level) m st
    return (agglomerateLeaves M r.leaves, r.store)) level st

end Lgt

/-! Physical graphs. -/

/-- A drop of a physical graph (template): its keys, and the mode in its reprodata, if it has
any. -/
structure TemplateDrop (C O : Type) where
  oid : O
  rmode : Option Mode
  iid : Option String := none
  outputs : List (Dest O) := []
  consumers : List (Dest O) := []
  cell : C
  get : String → Option Value

namespace TemplateDrop

variable (d : TemplateDrop C O)

/-- What is walked of a drop; one without reprodata has been given the default mode. -/
def toDrop : Drop C O where
  oid := d.oid
  rmode := d.rmode.getD reproDefault
  iid := d.iid
  outputs := d.outputs
  consumers := d.consumers
  cell := d.cell

/-- `drop["categoryType"]`. -/
def categoryType : Option String :=
  match d.get "categoryType" with
  | some (.text t) => some t
  | _ => none

/-- `accumulate_pgt_unroll_drop_data`, for one mode. -/
def unrollFields (category : String) (m : Mode) : List (String × Value) :=
  extractFields d.get (pgtUnrollBlockFields category m)

/-- `accumulate_pgt_partition_drop_data`, for one mode. -/
def partitionFields (category : String) (m : Mode) : List (String × Value) :=
  d.unrollFields category m ++ extractFields d.get (pgtPartitionBlockFields m)

/-- What `append_pgt_repro_data` makes of an entry. -/
def pgtStamp (dataRoot : List (String × Value) → H) (fields : List (String × Value))
    (e : Entry O H) : Entry O H :=
  { e with
    pgtData := some (record dataRoot fields)
    parenthashes := Function.update e.parenthashes .pgt (some []) }

/-- What `init_pg_repro_drop_data` makes of an entry. -/
def pgStamp (dataRoot : List (String × Value) → H) (m : Mode) (e : Entry O H) : Entry O H :=
  { e with
    pgData := some (record dataRoot (extractFields d.get (pgBlockFields m)))
    parenthashes := Function.update e.parenthashes .pg (some []) }

/-- What `init_rg_repro_drop_data` makes of an entry. -/
def rgStamp (_ : Mode) (e : Entry O H) : Entry O H :=
  { e with parenthashes := Function.update e.parenthashes .rg (some []) }

variable [DecidableEq C]

/-- A drop without reprodata gets an entry for the default mode. -/
def withDefault (st : Store C O H) : Store C O H :=
  match d.rmode with
  | none => st.put d.cell reproDefault {}
  | some _ => st

/-- The shape of the two passes over a physical graph template. -/
def initPgtReproDropData (dataRoot : List (String × Value) → H)
    (fields : String → Mode → List (String × Value)) (st : Store C O H) :
    Except (Err O) (Store C O H) := do
  let category ← key "categoryType" d.categoryType
  stampModes d.cell (d.rmode.getD reproDefault)
    (fun m => pgtStamp dataRoot (fields category m)) (d.withDefault st)

def initPgtUnrollReproDropData (dataRoot : List (String × Value) → H) (st : Store C O H) :
    Except (Err O) (Store C O H) := d.initPgtReproDropData dataRoot d.unrollFields st

def initPgtPartitionReproDropData (dataRoot : List (String × Value) → H) (st : Store C O H) :
    Except (Err O) (Store C O H) := d.initPgtReproDropData dataRoot d.partitionFields st

def initPgReproDropData (dataRoot : List (String × Value) → H) (st : Store C O H) :
    Except (Err O) (Store C O H) := do
  stampModes d.cell (← key "reprodata" d.rmode) (d.pgStamp dataRoot) st

def initRgReproDropData (st : Store C O H) : Except (Err O) (Store C O H) := do
  stampModes d.cell (← key "reprodata" d.rmode) rgStamp st

end TemplateDrop

/-- A physical graph (template), each drop under an oid of its own. -/
structure Template (C O : Type) where
  drops : List (TemplateDrop C O)
  distinct : (drops.map (·.oid)).Nodup

namespace Template

variable (T : Template C O)

def dropList : DropList C O where
  drops := T.drops.map (·.toDrop)
  distinct := by simpa [Function.comp_def, TemplateDrop.toDrop] using T.distinct

variable [DecidableEq C] [DecidableEq O] [LinearOrder H]

/-- One level of a physical graph: the entries of all drops, then the hashes. A graph kept in no
mode is left alone. -/
def initReproData (M : Merkle H) (a : Abstraction)
    (stamp : TemplateDrop C O → Store C O H → Except (Err O) (Store C O H)) (level : Mode)
    (st : Store C O H) : Except (Err O) ((Mode → Option H) × Store C O H) :=
  if level = .nothing then .ok (fun _ => none, st)
  else do
    let st ← T.drops.foldlM (fun st d => stamp d st) st
    signModes (fun m st => do
      let r ← buildBlockdag M T.dropList a m st
      return (agglomerateLeaves M r.leaves, r.store)) level st

def initPgtUnrollReproData (dataRoot : List (String × Value) → H) (M : Merkle H) (level : Mode)
    (st : Store C O H) : Except (Err O) ((Mode → Option H) × Store C O H) :=
  T.initReproData M .pgt (·.initPgtUnrollReproDropData dataRoot) level st

def initPgtPartitionReproData (dataRoot : List (String × Value) → H) (M : Merkle H)
    (level : Mode) (st : Store C O H) :
    Except (Err O) ((Mode → Option H) × Store C O H) :=
  T.initReproData M .pgt (·.initPgtPartitionReproDropData dataRoot) level st

def initPgReproData (dataRoot : List (String × Value) → H) (M : Merkle H) (level : Mode)
    (st : Store C O H) : Except (Err O) ((Mode → Option H) × Store C O H) :=
  T.initReproData M .pg (·.initPgReproDropData dataRoot) level st

def initRuntimeReproData (M : Merkle H) (level : Mode) (st : Store C O H) :
    Except (Err O) ((Mode → Option H) × Store C O H) :=
  T.initReproData M .rg (·.initRgReproDropData) level st

end Template

/-! What one pass does to the entries. -/

section Stamps

variable [DecidableEq C] {c : C} {rmode level m : Mode} {f : Mode → Entry O H → Entry O H}
  {st st' : Store C O H}

theorem nodup_candidateRmodes : (candidateRmodes rmode).Nodup := by
  rw [candidateRmodes]
  split
  · decide
  · simp

theorem foldlM_modify {ms : List Mode} (hnd : ms.Nodup) (h : ∀ m ∈ ms, ∃ e, st c m = some e) :
    ∃ st', ms.foldlM (fun st m => st.modify c m fun e => .ok (f m e)) st = .ok st' ∧
      (∀ m ∈ ms, st' c m = (st c m).map (f m)) ∧
      ∀ c' m', (c' = c → m' ∉ ms) → st' c' m' = st c' m' := by
  induction ms generalizing st with
  | nil => exact ⟨st, rfl, by simp, fun _ _ _ => rfl⟩
  | cons m ms ih =>
    obtain ⟨hm, hnd⟩ := List.nodup_cons.mp hnd
    obtain ⟨e, he⟩ := h m (by simp)
    have hmod : st.modify c m (fun e => .ok (f m e)) = .ok (st.put c m (f m e)) := by
      simp [Store.modify, Store.entry, he, key, Collect.ok_bind, pure, Except.pure]
    have hput : ∀ m', m' ≠ m → st.put c m (f m e) c m' = st c m' := fun m' hne => by
      simp [Store.put, hne]
    have hrest : ∀ m' ∈ ms, ∃ e', st.put c m (f m e) c m' = some e' := fun m' hm' => by
      rw [hput m' fun he => hm (he ▸ hm')]
      exact h m' (by simp [hm'])
    obtain ⟨st', hst', hin, hout⟩ := ih hnd hrest
    refine ⟨st', ?_, fun m' hm' => ?_, fun c' m' hcm => ?_⟩
    · rw [List.foldlM_cons, hmod, Collect.ok_bind, hst']
    · rcases List.mem_cons.mp hm' with rfl | hm'
      · rw [hout c m' fun _ => hm, he]
        simp [Store.put]
      · rw [hin m' hm', hput m' fun he => hm (he ▸ hm')]
    · rw [hout c' m' fun hc hin => hcm hc (by simp [hin])]
      by_cases hc : c' = c
      · subst hc
        exact hput m' fun he => hcm rfl (by simp [he])
      · simp [Store.put, hc]

/-- A drop whose entries are there has them changed, once each. -/
theorem stampModes_ok (h : ∀ m ∈ candidateRmodes rmode, ∃ e, st c m = some e) :
    ∃ st', stampModes c rmode f st = .ok st' ∧
      (∀ m ∈ candidateRmodes rmode, st' c m = (st c m).map (f m)) ∧
      ∀ c' m', (c' = c → m' ∉ candidateRmodes rmode) → st' c' m' = st c' m' :=
  foldlM_modify nodup_candidateRmodes h

omit [DecidableEq C] in
/-- Hashing a graph for one mode after the other, where one does not touch what another one
reads. -/
theorem signModes_ok {hash : Mode → Store C O H → Except (Err O) (H × Store C O H)}
    {Q : Mode → H → Store C O H → Prop}
    (hhash : ∀ m ∈ candidateRmodes level, ∀ s : Store C O H, (∀ c, s c m = st c m) →
      ∃ h s', hash m s = .ok (h, s') ∧ Q m h s' ∧ ∀ c m', m' ≠ m → s' c m' = s c m')
    (hQ : ∀ m h (s s' : Store C O H), (∀ c, s' c m = s c m) → Q m h s → Q m h s') :
    ∃ sigs st', signModes hash level st = .ok (sigs, st') ∧
      (∀ m ∈ candidateRmodes level, ∃ h, sigs m = some h ∧ Q m h st') ∧
      ∀ c m, m ∉ candidateRmodes level → st' c m = st c m := by
  rw [signModes]
  suffices hms : ∀ (ms : List Mode), ms.Nodup → (∀ m ∈ ms, m ∈ candidateRmodes level) →
      ∀ (sigs : Mode → Option H) (s : Store C O H), (∀ m ∈ ms, ∀ c, s c m = st c m) →
      ∃ sigs' s', ms.foldlM (fun s m => do
          let (h, st) ← hash m s.2
          return (Function.update s.1 m (some h), st)) (sigs, s) = .ok (sigs', s') ∧
        (∀ m ∈ ms, ∃ h, sigs' m = some h ∧ Q m h s') ∧
        ∀ m, m ∉ ms → sigs' m = sigs m ∧ ∀ c, s' c m = s c m by
    obtain ⟨sigs, st', hok, hin, hout⟩ := hms _ nodup_candidateRmodes (fun _ h => h)
      (fun _ => none) st fun _ _ _ => rfl
    exact ⟨sigs, st', hok, hin, fun c m hm => (hout m hm).2 c⟩
  intro ms
  induction ms with
  | nil => exact fun _ _ sigs s _ => ⟨sigs, s, rfl, by simp, fun _ _ => ⟨rfl, fun _ => rfl⟩⟩
  | cons m ms ih =>
    intro hnd hsub sigs s hs
    obtain ⟨hm, hnd⟩ := List.nodup_cons.mp hnd
    obtain ⟨h, s₁, hok, hq, hframe⟩ := hhash m (hsub m (by simp)) s (hs m (by simp))
    obtain ⟨sigs', s', hrest, hin, hout⟩ := ih hnd (fun m' hm' => hsub m' (by simp [hm']))
      (Function.update sigs m (some h)) s₁ fun m' hm' c => by
        rw [hframe c m' fun he => hm (he ▸ hm')]
        exact hs m' (by simp [hm']) c
    refine ⟨sigs', s', ?_, fun m' hm' => ?_, fun m' hm' => ?_⟩
    · rw [List.foldlM_cons, hok]
      exact hrest
    · rcases List.mem_cons.mp hm' with rfl | hm'
      · refine ⟨h, ?_, hQ m' h s₁ s' (hout m' hm).2 hq⟩
        rw [(hout m' hm).1]
        simp
      · exact hin m' hm'
    · rw [List.mem_cons, not_or] at hm'
      refine ⟨(hout m' hm'.2).1.trans (by simp [hm'.1]), fun c => ?_⟩
      rw [(hout m' hm'.2).2 c, hframe c m' hm'.1]

end Stamps

end Daliuge.Repro
