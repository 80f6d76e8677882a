import Mathlib.Data.List.Nodup
import Daliuge.Lib.Association
import Daliuge.Lib.Collect
import Daliuge.Lib.FirstMatch
import Daliuge.Prepare.Graph

/-!
# Configurations

A configuration names nodes and fields by their ids and gives the fields other values. One that is
not stored in the graph is checked against it before it is applied.
-/
namespace Daliuge.Prepare.Config

open Unroll (NodeId)
open Collect FirstMatch

/-- A node as the configuration sees it. -/
structure Node (F : Type) where
  id : NodeId
  name : String
  fields : List (Field F)
  deriving DecidableEq, Repr

/-- A graph configuration: the values for the fields of its nodes. Both levels are dictionaries. -/
structure GraphConfig (F : Type) where
  id : String
  nodes : List (NodeId × List (NodeId × Value F))
  nodes_nodup : (nodes.map (·.1)).Nodup
  fields_nodup : ∀ n ∈ nodes, (n.2.map (·.1)).Nodup

/-- What the configurations touch of a logical graph. -/
structure LogicalGraph (F : Type) where
  nodeDataArray : List (Node F)
  activeGraphConfigId : Option String
  graphConfigurations : List (String × GraphConfig F)

inductive Err
  | nodeDoesNotExist (id : NodeId)
  | fieldDoesNotExist (id : NodeId)
  | typeError
  deriving DecidableEq, Repr

variable {F : Type}

/-- `get_key_idx_from_list`, by the id of an entry. -/
def getKeyIdx {α : Type} (id : α → NodeId) (key : NodeId) (dictList : List α) : Option Nat :=
  dictList.findIdx? fun d => id d == key

/-- `is_config_stored_in_graph`. -/
def isConfigStoredInGraph (lg : LogicalGraph F) : Bool :=
  (lg.activeGraphConfigId.any (· != "")) && !lg.graphConfigurations.isEmpty

/-- `change_active_configuration`. -/
def changeActiveConfiguration (lg : LogicalGraph F) (active : Option String) : LogicalGraph F :=
  { lg with activeGraphConfigId := active }

/-- Set one field of a list; a missing one is an index of `None`. -/
def setField (fields : List (Field F)) (fid : NodeId) (value : Value F) :
    Except Err (List (Field F)) :=
  match getKeyIdx Field.id fid fields with
  | none => .error .typeError
  | some k => .ok (fields.modify k fun f => { f with value := value })

/-- One turn of the outer loop of `apply_configuration`; an unknown node is only logged. -/
def applyNode (nodes : List (Node F)) (cfg : NodeId × List (NodeId × Value F)) :
    Except Err (List (Node F)) :=
  match getKeyIdx Node.id cfg.1 nodes with
  | none => .ok nodes
  | some idx =>
    match nodes[idx]? with
    | none => .ok nodes
    | some n => do
      let fields ← cfg.2.foldlM (fun fields f => setField fields f.1 f.2) n.fields
      return nodes.set idx { n with fields := fields }

/-- `apply_configuration`. -/
def applyConfiguration (lg : LogicalGraph F) (cfg : GraphConfig F) :
    Except Err (LogicalGraph F) := do
  return { lg with nodeDataArray := ← cfg.nodes.foldlM applyNode lg.nodeDataArray }

/-- `if not idx`: an index of 0 counts as none. -/
def found : Option Nat → Bool
  | none => false
  | some k => k != 0

/-- The check of one field. -/
def crosscheckField (fields : List (Field F)) (fid : NodeId) : Except Err Unit :=
  if found (getKeyIdx Field.id fid fields) then .ok () else .error (.fieldDoesNotExist fid)

/-- The check of one node with its fields. -/
def crosscheckNode (nodes : List (Node F)) (cfg : NodeId × List (NodeId × Value F)) :
    Except Err Unit :=
  match getKeyIdx Node.id cfg.1 nodes with
  | none => .error (.nodeDoesNotExist cfg.1)
  | some idx =>
    if found (some idx) then
      match nodes[idx]? with
      | none => .error (.nodeDoesNotExist cfg.1)
      | some n => forM cfg.2 fun f => crosscheckField n.fields f.1
    else .error (.nodeDoesNotExist cfg.1)

/-- `crosscheck_ids`. -/
def crosscheckIds (lg : LogicalGraph F) (cfg : GraphConfig F) : Except Err Unit :=
  forM cfg.nodes (crosscheckNode lg.nodeDataArray)

/-- `fill_config`; a configuration that fails the check is logged and the graph returned as it
was. -/
def fillConfig (lg : LogicalGraph F) (cfg : GraphConfig F) : Except Err (LogicalGraph F) :=
  if isConfigStoredInGraph lg then
    if lg.graphConfigurations.any (·.1 == cfg.id) then applyConfiguration lg cfg
    else
      match crosscheckIds lg cfg with
      | .ok () => applyConfiguration (changeActiveConfiguration lg none) cfg
      | .error _ => .ok lg
  else .ok lg

/-! What the configuration says. -/

/-- Every node and every field that is named is there. -/
def Fits (lg : LogicalGraph F) (cfg : GraphConfig F) : Prop :=
  ∀ c ∈ cfg.nodes, ∃ n ∈ lg.nodeDataArray, n.id = c.1 ∧ ∀ f ∈ c.2, ∃ g ∈ n.fields, g.id = f.1

/-- The value configured for a field. -/
def GraphConfig.value? (cfg : GraphConfig F) (nid fid : NodeId) : Option (Value F) :=
  (cfg.nodes.lookup nid).bind fun fs => fs.lookup fid

/-- The nodes with exactly the configured fields changed. -/
def filled (lg : LogicalGraph F) (cfg : GraphConfig F) : List (Node F) :=
  lg.nodeDataArray.map fun n =>
    { n with fields := n.fields.map fun f =>
      { f with value := (cfg.value? n.id f.id).getD f.value } }

/-- The configuration is accepted when it fits, and then applied as it stands. -/
def AppliedWhenFits (lg : LogicalGraph F) (cfg : GraphConfig F) : Prop :=
  (crosscheckIds lg cfg = .ok () ↔ Fits lg cfg) ∧
    (crosscheckIds lg cfg = .ok () →
      ∃ r, fillConfig lg cfg = .ok r ∧ r.nodeDataArray = filled lg cfg)

/-- The id is in the list, but not at its head. -/
def Behind (ids : List NodeId) (id : NodeId) : Prop := id ∈ ids ∧ ids.head? ≠ some id

/-- Nothing that is named comes first in its list. -/
def NoneFirst (lg : LogicalGraph F) (cfg : GraphConfig F) : Prop :=
  ∀ c ∈ cfg.nodes, Behind (lg.nodeDataArray.map Node.id) c.1 ∧
    ∀ n, lg.nodeDataArray.find? (·.id == c.1) = some n →
      ∀ f ∈ c.2, Behind (n.fields.map Field.id) f.1

/-- Where an id is used again, the later field already has the configured value. -/
def RepeatsSettled (lg : LogicalGraph F) (cfg : GraphConfig F) : Prop :=
  ∀ i n, lg.nodeDataArray[i]? = some n → ∀ j f, n.fields[j]? = some f →
    ∀ v, cfg.value? n.id f.id = some v →
      (getKeyIdx Node.id n.id lg.nodeDataArray = some i ∧
        getKeyIdx Field.id f.id n.fields = some j) ∨
        f.value = v

/-! The check. -/

theorem forM_ok {α : Type} {f : α → Except Err Unit} {l : List α} :
    forM l f = .ok () ↔ ∀ a ∈ l, f a = .ok () := by
  induction l with
  | nil => simp [pure, Except.pure]
  | cons a l ih =>
    rw [List.forM_cons, bind_ok, List.forall_mem_cons, ih]
    exact ⟨fun ⟨_, ha, hl⟩ => ⟨ha, hl⟩, fun ⟨ha, hl⟩ => ⟨(), ha, hl⟩⟩

theorem found_iff {α : Type} {id : α → NodeId} {key : NodeId} {l : List α} :
    found (getKeyIdx id key l) = true ↔ Behind (l.map id) key := by
  unfold getKeyIdx Behind
  cases l with
  | nil => simp [found]
  | cons a l =>
    rw [List.findIdx?_cons]
    by_cases h : id a = key
    · simp [h, found]
    · have hb : (id a == key) = false := by simpa using h
      have hne : key ≠ id a := fun he => h he.symm
      cases hf : l.findIdx? fun d => id d == key with
      | none =>
        have hnot : ¬ ∃ x ∈ l, id x = key := by
          rw [← findIdx?_isSome_iff, hf]
          simp
        simpa [hb, hf, found, hne, h] using hnot
      | some k =>
        have hex : ∃ x ∈ l, id x = key := by
          rw [← findIdx?_isSome_iff, hf]
          rfl
        simpa [hb, hf, found, hne, h] using hex

theorem crosscheckField_ok {fields : List (Field F)} {fid : NodeId} :
    crosscheckField fields fid = .ok () ↔ Behind (fields.map Field.id) fid := by
  rw [← found_iff, crosscheckField]
  split <;> simp_all

theorem find?_eq_getKeyIdx {nodes : List (Node F)} {key : NodeId} :
    nodes.find? (·.id == key) = (getKeyIdx Node.id key nodes).bind (nodes[·]?) :=
  List.find?_eq_bind_findIdx?_getElem?

theorem crosscheckNode_ok {nodes : List (Node F)} {c : NodeId × List (NodeId × Value F)} :
    crosscheckNode nodes c = .ok () ↔ Behind (nodes.map Node.id) c.1 ∧
      ∀ n, nodes.find? (·.id == c.1) = some n → ∀ f ∈ c.2, Behind (n.fields.map Field.id) f.1 := by
  rw [find?_eq_getKeyIdx, ← found_iff, crosscheckNode]
  cases hk : getKeyIdx Node.id c.1 nodes with
  | none => simp [found]
  | some k =>
    obtain ⟨hlt, -⟩ := List.findIdx?_eq_some_iff_getElem.mp hk
    by_cases h0 : found (some k) = true
    · simp [h0, List.getElem?_eq_getElem hlt, forM_ok, crosscheckField_ok]
    · simp [h0]

theorem crosscheckIds_ok {lg : LogicalGraph F} {cfg : GraphConfig F} :
    crosscheckIds lg cfg = .ok () ↔ NoneFirst lg cfg := by
  rw [crosscheckIds, forM_ok]
  exact forall₂_congr fun c _ => crosscheckNode_ok

theorem Fits.of_noneFirst {lg : LogicalGraph F} {cfg : GraphConfig F} (h : NoneFirst lg cfg) :
    Fits lg cfg := by
  intro c hc
  obtain ⟨hb, hf⟩ := h c hc
  obtain ⟨n, hn, hid⟩ := List.mem_map.mp hb.1
  have hsome : (lg.nodeDataArray.find? (·.id == c.1)).isSome := by
    rw [List.find?_isSome]
    exact ⟨n, hn, by simpa using hid⟩
  obtain ⟨m, hm⟩ := Option.isSome_iff_exists.mp hsome
  refine ⟨m, List.mem_of_find?_eq_some hm, by simpa using List.find?_some hm, fun f hfc => ?_⟩
  exact List.mem_map.mp (hf m hm f hfc).1

/-! The application. -/

def withValue (value : Value F) (f : Field F) : Field F := { f with value := value }

/-- A node with some of its fields set. -/
def fillNode (fs : List (NodeId × Value F)) (n : Node F) : Node F :=
  { n with fields := fs.foldl (fun l f => setFirst Field.id f.1 (withValue f.2) l) n.fields }

theorem foldlM_setField {fs : List (NodeId × Value F)} {fields : List (Field F)}
    (h : ∀ f ∈ fs, ∃ g ∈ fields, g.id = f.1) :
    fs.foldlM (fun fields f => setField fields f.1 f.2) fields =
      .ok (fs.foldl (fun l f => setFirst Field.id f.1 (withValue f.2) l) fields) := by
  induction fs generalizing fields with
  | nil => rfl
  | cons f fs ih =>
    have hset : setField fields f.1 f.2 = .ok (setFirst Field.id f.1 (withValue f.2) fields) := by
      have hsome := findIdx?_isSome_iff.mpr (h f (by simp))
      obtain ⟨k, hk⟩ := Option.isSome_iff_exists.mp hsome
      simp only [setField, getKeyIdx, setFirst, hk]
      rfl
    rw [List.foldlM_cons, hset, ok_bind, List.foldl_cons]
    refine ih fun g hg => ?_
    have hids : (setFirst Field.id f.1 (withValue f.2) fields).map Field.id =
        fields.map Field.id := map_setFirst fun _ => rfl
    obtain ⟨g', hg', hid⟩ := h g (by simp [hg])
    have hmem : g.1 ∈ fields.map Field.id := List.mem_map.mpr ⟨g', hg', hid⟩
    rw [← hids] at hmem
    exact List.mem_map.mp hmem

theorem applyNode_eq {nodes : List (Node F)} {c : NodeId × List (NodeId × Value F)}
    (h : ∃ n, nodes.find? (·.id == c.1) = some n ∧ ∀ f ∈ c.2, ∃ g ∈ n.fields, g.id = f.1) :
    applyNode nodes c = .ok (setFirst Node.id c.1 (fillNode c.2) nodes) := by
  obtain ⟨n, hn, hf⟩ := h
  rw [find?_eq_getKeyIdx] at hn
  obtain ⟨k, hk, hkn⟩ := Option.bind_eq_some_iff.mp hn
  have hmod : nodes.set k (fillNode c.2 n) = nodes.modify k (fillNode c.2) := by
    rw [List.modify_eq_set_getElem?, hkn]
    rfl
  simp only [applyNode, hk, hkn, foldlM_setField hf, ok_bind]
  rw [setFirst, ← getKeyIdx, hk]
  exact congrArg Except.ok hmod

theorem foldlM_applyNode {cs : List (NodeId × List (NodeId × Value F))} {nodes : List (Node F)}
    (hn : (cs.map (·.1)).Nodup)
    (h : ∀ c ∈ cs, ∃ n, nodes.find? (·.id == c.1) = some n ∧
      ∀ f ∈ c.2, ∃ g ∈ n.fields, g.id = f.1) :
    cs.foldlM applyNode nodes =
      .ok (cs.foldl (fun l c => setFirst Node.id c.1 (fillNode c.2) l) nodes) := by
  induction cs generalizing nodes with
  | nil => rfl
  | cons c cs ih =>
    obtain ⟨hc, hn⟩ := List.nodup_cons.mp (show (c.1 :: cs.map (·.1)).Nodup from hn)
    rw [List.foldlM_cons, applyNode_eq (h c (by simp)), ok_bind, List.foldl_cons]
    refine ih hn fun c' hc' => ?_
    obtain ⟨n, hfind, hf⟩ := h c' (by simp [hc'])
    refine ⟨n, ?_, hf⟩
    -- the nodes of other ids stay where and as they are
    have hne : c.1 ≠ c'.1 := fun he => hc (List.mem_map.mpr ⟨c', hc', he.symm⟩)
    have hids : (setFirst Node.id c.1 (fillNode c.2) nodes).map Node.id = nodes.map Node.id :=
      map_setFirst fun _ => rfl
    rw [find?_eq_getKeyIdx] at hfind ⊢
    obtain ⟨k, hk, hkn⟩ := Option.bind_eq_some_iff.mp hfind
    have hk' : getKeyIdx Node.id c'.1 (setFirst Node.id c.1 (fillNode c.2) nodes) = some k := by
      rw [getKeyIdx, findIdx?_eq_map Node.id, hids, ← findIdx?_eq_map Node.id]
      exact hk
    have hother : (nodes.findIdx? fun a => a.id == c.1) ≠ some k := by
      intro he
      have hid : n.id = c.1 := id_of_findIdx? he hkn
      exact hne (hid.symm.trans (id_of_findIdx? hk hkn))
    rw [hk', Option.bind_some, getElem?_setFirst, hkn]
    simp [hother]

/-! Where the values end up. -/

theorem getElem?_fillNode {fs : List (NodeId × Value F)} (hn : (fs.map (·.1)).Nodup) (n : Node F)
    (j : Nat) : (fillNode fs n).fields[j]? = n.fields[j]?.map fun f =>
      if getKeyIdx Field.id f.id n.fields = some j then
        { f with value := (fs.lookup f.id).getD f.value }
      else f := by
  rw [fillNode, getElem?_foldl_setFirst Field.id (g := withValue) (fun _ _ => rfl) hn]
  congr 1
  funext f
  by_cases hj : (n.fields.findIdx? fun a' => a'.id == f.id) = some j
  · cases hl : fs.lookup f.id <;> simp [getKeyIdx, hj, withValue]
  · simp [getKeyIdx, hj]

/-- The node at a position after all of the configuration has been applied. -/
def appliedNode (nodes : List (Node F)) (cfg : GraphConfig F) (i : Nat) (n : Node F) : Node F :=
  if getKeyIdx Node.id n.id nodes = some i then
    match cfg.nodes.lookup n.id with
    | some fs => fillNode fs n
    | none => n
  else n

theorem getElem?_appliedNode (nodes : List (Node F)) (cfg : GraphConfig F) (i j : Nat)
    (n : Node F) :
    (appliedNode nodes cfg i n).fields[j]? = n.fields[j]?.map fun f =>
      if getKeyIdx Node.id n.id nodes = some i ∧ getKeyIdx Field.id f.id n.fields = some j then
        { f with value := (cfg.value? n.id f.id).getD f.value }
      else f := by
  unfold appliedNode
  by_cases hi : getKeyIdx Node.id n.id nodes = some i
  · cases hl : cfg.nodes.lookup n.id with
    | none => simp [hi, GraphConfig.value?, hl]
    | some fs =>
      have hfs := cfg.fields_nodup _ ((Association.mem_iff_lookup cfg.nodes_nodup).mpr hl)
      simp [hi, getElem?_fillNode hfs, GraphConfig.value?, hl]
  · simp [hi]

/-- The result is the intended one where no later entry has been missed. -/
theorem applied_eq_filled_iff {lg : LogicalGraph F} {cfg : GraphConfig F} {r : List (Node F)}
    (hr : ∀ i, r[i]? = lg.nodeDataArray[i]?.map fun n => appliedNode lg.nodeDataArray cfg i n) :
    r = filled lg cfg ↔ RepeatsSettled lg cfg := by
  have hfield : ∀ i n j f, lg.nodeDataArray[i]? = some n → n.fields[j]? = some f →
      (((appliedNode lg.nodeDataArray cfg i n).fields[j]? =
          some { f with value := (cfg.value? n.id f.id).getD f.value }) ↔
        ∀ v, cfg.value? n.id f.id = some v →
          (getKeyIdx Node.id n.id lg.nodeDataArray = some i ∧
            getKeyIdx Field.id f.id n.fields = some j) ∨ f.value = v) := by
    intro i n j f hn hf
    rw [getElem?_appliedNode, hf, Option.map_some, Option.some.injEq]
    split
    · rename_i hfirst
      simp [hfirst]
    · rename_i hfirst
      cases hv : cfg.value? n.id f.id with
      | none => simp
      | some v =>
        simp only [Option.getD_some, Option.some.injEq, forall_eq', hfirst, false_or]
        exact ⟨fun he => congrArg Field.value he, fun he => by rw [← he]⟩
  constructor
  · intro he i n hn j f hf
    have hat := hr i
    rw [he, filled, List.getElem?_map, hn] at hat
    simp only [Option.map_some, Option.some.injEq] at hat
    refine (hfield i n j f hn hf).mp ?_
    rw [← hat]
    simp [hf]
  · intro h
    refine List.ext_getElem? fun i => ?_
    rw [hr i, filled, List.getElem?_map]
    cases hn : lg.nodeDataArray[i]? with
    | none => rfl
    | some n =>
      have hfields : (appliedNode lg.nodeDataArray cfg i n).fields = n.fields.map fun f =>
          { f with value := (cfg.value? n.id f.id).getD f.value } := by
        refine List.ext_getElem? fun j => ?_
        rw [List.getElem?_map]
        cases hf : n.fields[j]? with
        | none => rw [getElem?_appliedNode, hf]; rfl
        | some f => exact (hfield i n j f hn hf).mpr (h i n hn j f hf)
      have hrest : appliedNode lg.nodeDataArray cfg i n =
          { n with fields := (appliedNode lg.nodeDataArray cfg i n).fields } := by
        unfold appliedNode
        split
        · split <;> rfl
        · rfl
      rw [Option.map_some, Option.map_some, hrest, hfields]

theorem fillConfig_eq {lg : LogicalGraph F} {cfg : GraphConfig F}
    (hs : isConfigStoredInGraph lg = true) (hc : ¬ ∃ c ∈ lg.graphConfigurations, c.1 = cfg.id)
    (h : NoneFirst lg cfg) :
    ∃ r, fillConfig lg cfg = .ok r ∧ ∀ i, r.nodeDataArray[i]? =
      lg.nodeDataArray[i]?.map fun n => appliedNode lg.nodeDataArray cfg i n := by
  have hany : lg.graphConfigurations.any (·.1 == cfg.id) = false := by
    rw [Bool.eq_false_iff]
    intro he
    obtain ⟨c, hcm, hid⟩ := List.any_eq_true.mp he
    exact hc ⟨c, hcm, by simpa using hid⟩
  have hall : ∀ c ∈ cfg.nodes, ∃ n, lg.nodeDataArray.find? (·.id == c.1) = some n ∧
      ∀ f ∈ c.2, ∃ g ∈ n.fields, g.id = f.1 := by
    intro c hcm
    obtain ⟨hb, hf⟩ := h c hcm
    have hsome : (lg.nodeDataArray.find? (·.id == c.1)).isSome := by
      obtain ⟨n, hn, hid⟩ := List.mem_map.mp hb.1
      rw [List.find?_isSome]
      exact ⟨n, hn, by simpa using hid⟩
    obtain ⟨n, hn⟩ := Option.isSome_iff_exists.mp hsome
    exact ⟨n, hn, fun f hfc => List.mem_map.mp (hf n hn f hfc).1⟩
  have hrun := foldlM_applyNode cfg.nodes_nodup hall
  refine ⟨{ lg with
    activeGraphConfigId := none
    nodeDataArray := cfg.nodes.foldl (fun l c => setFirst Node.id c.1 (fillNode c.2) l)
      lg.nodeDataArray }, ?_, fun i => ?_⟩
  · rw [fillConfig, if_pos hs, if_neg (by simp [hany]), crosscheckIds_ok.mpr h]
    simp only [applyConfiguration, changeActiveConfiguration, hrun, ok_bind]
    rfl
  · refine (getElem?_foldl_setFirst Node.id (g := fillNode) (fun _ _ => rfl)
      cfg.nodes_nodup).trans ?_
    congr 1
    funext n
    by_cases hi : (lg.nodeDataArray.findIdx? fun a' => a'.id == n.id) = some i
    · simp only [appliedNode, getKeyIdx, hi, if_true]
      cases cfg.nodes.lookup n.id <;> rfl
    · simp only [appliedNode, getKeyIdx, hi, if_false]

/-- An external configuration is applied whenever it fits exactly where, if it fits, it names no
first node and no first field, and every repeated id already has its value. -/
theorem appliedWhenFits_iff {lg : LogicalGraph F} {cfg : GraphConfig F}
    (hs : isConfigStoredInGraph lg = true) (hc : ¬ ∃ c ∈ lg.graphConfigurations, c.1 = cfg.id) :
    AppliedWhenFits lg cfg ↔ (Fits lg cfg → NoneFirst lg cfg ∧ RepeatsSettled lg cfg) := by
  rw [AppliedWhenFits, crosscheckIds_ok]
  constructor
  · rintro ⟨hiff, hfill⟩ hfits
    have hnone := hiff.mpr hfits
    obtain ⟨r, hr, hnodes⟩ := hfill hnone
    obtain ⟨r', hr', hat⟩ := fillConfig_eq hs hc hnone
    obtain rfl := Except.ok.inj (hr.symm.trans hr')
    exact ⟨hnone, (applied_eq_filled_iff hat).mp hnodes⟩
  · intro h
    refine ⟨⟨Fits.of_noneFirst, fun hfits => (h hfits).1⟩, fun hnone => ?_⟩
    obtain ⟨r, hr, hat⟩ := fillConfig_eq hs hc hnone
    exact ⟨r, hr, (applied_eq_filled_iff hat).mpr (h (.of_noneFirst hnone)).2⟩

/-- Otherwise the graph stays as it is. -/
theorem fillConfig_rejected {lg : LogicalGraph F} {cfg : GraphConfig F}
    (hc : ¬ ∃ c ∈ lg.graphConfigurations, c.1 = cfg.id) (h : ¬ NoneFirst lg cfg) :
    fillConfig lg cfg = .ok lg := by
  have hany : lg.graphConfigurations.any (·.1 == cfg.id) = false := by
    rw [Bool.eq_false_iff]
    intro he
    obtain ⟨c, hcm, hid⟩ := List.any_eq_true.mp he
    exact hc ⟨c, hcm, by simpa using hid⟩
  rw [← crosscheckIds_ok] at h
  unfold fillConfig
  split
  · rw [if_neg (by simp [hany])]
    split
    · rename_i hok
      exact absurd hok h
    · rfl
  · rfl

/-- Where no id is used twice there is nothing to settle. -/
theorem RepeatsSettled.of_nodup {lg : LogicalGraph F} (cfg : GraphConfig F)
    (hn : (lg.nodeDataArray.map Node.id).Nodup)
    (hf : ∀ n ∈ lg.nodeDataArray, (n.fields.map Field.id).Nodup) : RepeatsSettled lg cfg := by
  intro i n hi j f hj v _
  exact Or.inl ⟨findIdx?_of_nodup hn hi, findIdx?_of_nodup (hf n (List.mem_of_getElem? hi)) hj⟩

/-- A graph of two nodes with two fields each. -/
def twoNodes : LogicalGraph Empty where
  nodeDataArray :=
    [{ id := .str "a", name := "a"
       fields := [{ id := .str "x", name := "x", value := .int 1 },
         { id := .str "y", name := "y", value := .int 2 }] },
     { id := .str "b", name := "b"
       fields := [{ id := .str "x", name := "x", value := .int 3 },
         { id := .str "y", name := "y", value := .int 4 }] }]
  activeGraphConfigId := some "stored"
  graphConfigurations :=
    [("stored",
      { id := "stored", nodes := [], nodes_nodup := by decide, fields_nodup := by decide })]

/-- A configuration of one field. -/
def oneField (nid fid : NodeId) : GraphConfig Empty where
  id := "external"
  nodes := [(nid, [(fid, .int 7)])]
  nodes_nodup := by simp
  fields_nodup := by simp

theorem oneField_applied : AppliedWhenFits twoNodes (oneField (.str "b") (.str "y")) := by
  refine (appliedWhenFits_iff (by decide) (by decide)).mpr fun _ => ⟨?_, ?_⟩
  · exact crosscheckIds_ok.mp (by decide)
  · exact .of_nodup _ (by decide) (by decide)

theorem oneField_rejected : ¬ AppliedWhenFits twoNodes (oneField (.str "a") (.str "y")) := by
  rintro ⟨hiff, -⟩
  have hfits : Fits twoNodes (oneField (.str "a") (.str "y")) := by
    intro c hc
    obtain rfl := List.mem_singleton.mp hc
    exact ⟨twoNodes.nodeDataArray[0], by decide, rfl, by decide⟩
  exact absurd (hiff.mpr hfits) (by decide)

end Daliuge.Prepare.Config
