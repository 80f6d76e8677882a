import Daliuge.Prepare.Config

/-!
# Requested configurations

A requested configuration is filled into a graph; the active one is applied again when the logical
graph is read.
-/
namespace Daliuge.Prepare.Config

open Unroll (NodeId)
open Collect FirstMatch

variable {F : Type}

/-- `apply_active_configuration`; an active id that no configuration is stored under is a
`KeyError`, which is logged. -/
def applyActiveConfiguration (lg : LogicalGraph F) : Except Err (LogicalGraph F) :=
  if isConfigStoredInGraph lg then
    match lg.activeGraphConfigId.bind (lg.graphConfigurations.lookup ·) with
    | none => .ok lg
    | some cfg => applyConfiguration lg cfg
  else .ok lg

/-- What `LG.__init__` starts from: a graph is filled and written, then read again. -/
def readFilled (lg : LogicalGraph F) (cfg : GraphConfig F) : Except Err (LogicalGraph F) :=
  fillConfig lg cfg >>= applyActiveConfiguration

/-- The value of a field of a node. -/
def LogicalGraph.value? (lg : LogicalGraph F) (nid fid : NodeId) : Option (Value F) :=
  (lg.nodeDataArray.find? (·.id == nid)).bind fun n =>
    (n.fields.find? (·.id == fid)).map Field.value

/-- The graph is read, and each field that the requested configuration names has its value. -/
def RequestKept (lg : LogicalGraph F) (cfg : GraphConfig F) : Prop :=
  ∃ r, readFilled lg cfg = .ok r ∧
    ∀ nid fid v, cfg.value? nid fid = some v → r.value? nid fid = some v

/-- No field is named that a node of the graph lacks; nodes that are not there are passed over. -/
def Applicable (nodes : List (Node F)) (cs : List (NodeId × List (NodeId × Value F))) : Prop :=
  ∀ c ∈ cs, ∀ n, nodes.find? (·.id == c.1) = some n → ∀ f ∈ c.2, ∃ g ∈ n.fields, g.id = f.1

/-- The nodes after a configuration has been applied. -/
def applied (nodes : List (Node F)) (cs : List (NodeId × List (NodeId × Value F))) :
    List (Node F) :=
  cs.foldl (fun l c => setFirst Node.id c.1 (fillNode c.2) l) nodes

/-- The configuration that is applied when the graph is read, unless the active one is unset. -/
def LogicalGraph.active? (lg : LogicalGraph F) : Option (GraphConfig F) :=
  if isConfigStoredInGraph lg then
    lg.activeGraphConfigId.bind (lg.graphConfigurations.lookup ·)
  else none

/-- The requested configuration is known to the graph by its id. -/
def LogicalGraph.Stores (lg : LogicalGraph F) (cfg : GraphConfig F) : Prop :=
  isConfigStoredInGraph lg = true ∧ cfg.id ∈ lg.graphConfigurations.map (·.1)

/-- The values that are requested are there in the end although the active configuration is
applied. -/
structure Undisturbed (lg : LogicalGraph F) (cfg : GraphConfig F) : Prop where
  fillable : lg.Stores cfg → Applicable lg.nodeDataArray cfg.nodes
  readable : ∀ c, lg.active? = some c → Applicable lg.nodeDataArray c.nodes
  agrees : ∀ c, lg.active? = some c → ∀ nid fid u v, c.value? nid fid = some u →
    cfg.value? nid fid = some v → u = v
  /-- What the active configuration leaves alone was filled in, or is as requested anyway. -/
  remaining : ∀ nid fid v, cfg.value? nid fid = some v → lg.Stores cfg ∨
    lg.value? nid fid = some v ∨ ∃ c u, lg.active? = some c ∧ c.value? nid fid = some u

/-- A foreign configuration that passes its check unsets the active one; the values of any other
are to be left undisturbed by it. -/
def Kept (lg : LogicalGraph F) (cfg : GraphConfig F) : Prop :=
  (isConfigStoredInGraph lg = true ∧ ¬ lg.Stores cfg ∧ NoneFirst lg cfg) ∨ Undisturbed lg cfg

variable {lg r : LogicalGraph F} {cfg c : GraphConfig F} {nodes nodes' : List (Node F)}
  {cs : List (NodeId × List (NodeId × Value F))} {fields fields' : List (Field F)}
  {fs : List (NodeId × Value F)} {nid fid : NodeId}

/-! When a configuration can be applied. -/

theorem map_id_foldl_setField :
    (fs.foldl (fun l f => setFirst Field.id f.1 (withValue f.2) l) fields).map Field.id =
      fields.map Field.id := by
  induction fs generalizing fields with
  | nil => rfl
  | cons f fs ih =>
    rw [List.foldl_cons, ih]
    exact map_setFirst fun _ => rfl

theorem foldlM_setField_ok :
    fs.foldlM (fun fields f => setField fields f.1 f.2) fields = .ok fields' ↔
      (∀ f ∈ fs, ∃ g ∈ fields, g.id = f.1) ∧
        fields' = fs.foldl (fun l f => setFirst Field.id f.1 (withValue f.2) l) fields := by
  constructor
  · intro h
    have hall : ∀ f ∈ fs, ∃ g ∈ fields, g.id = f.1 := by
      induction fs generalizing fields with
      | nil => simp
      | cons f fs ih =>
        rw [List.foldlM_cons, bind_ok] at h
        obtain ⟨fields₁, hset, h⟩ := h
        have hids : fields₁.map Field.id = fields.map Field.id ∧ ∃ g ∈ fields, g.id = f.1 := by
          rw [← findIdx?_isSome_iff]
          simp only [setField, getKeyIdx] at hset
          split at hset
          · cases hset
          · rename_i k hk
            cases hset
            refine ⟨?_, by rw [hk]; rfl⟩
            have hmap : (setFirst Field.id f.1 (withValue f.2) fields).map Field.id =
                fields.map Field.id := map_setFirst fun _ => rfl
            rwa [setFirst, hk] at hmap
        intro f' hf'
        rcases List.mem_cons.mp hf' with rfl | hf'
        · exact hids.2
        · have hmem : f'.1 ∈ fields₁.map Field.id := List.mem_map.mpr (ih h f' hf')
          rw [hids.1] at hmem
          exact List.mem_map.mp hmem
    rw [foldlM_setField hall] at h
    exact ⟨hall, (Except.ok.inj h).symm⟩
  · rintro ⟨hall, rfl⟩
    exact foldlM_setField hall

theorem applyNode_ok {c : NodeId × List (NodeId × Value F)} :
    applyNode nodes c = .ok nodes' ↔ Applicable nodes [c] ∧
      nodes' = setFirst Node.id c.1 (fillNode c.2) nodes := by
  have happ : Applicable nodes [c] ↔ ∀ n, nodes.find? (·.id == c.1) = some n →
      ∀ f ∈ c.2, ∃ g ∈ n.fields, g.id = f.1 := by simp [Applicable]
  rw [happ, find?_eq_getKeyIdx, applyNode, setFirst, ← getKeyIdx]
  cases hk : getKeyIdx Node.id c.1 nodes with
  | none => simp [eq_comm]
  | some k =>
    obtain ⟨hlt, -⟩ := List.findIdx?_eq_some_iff_getElem.mp hk
    have hkn : nodes[k]? = some nodes[k] := List.getElem?_eq_getElem hlt
    have hmod : nodes.set k (fillNode c.2 nodes[k]) = nodes.modify k (fillNode c.2) := by
      rw [List.modify_eq_set_getElem?, hkn]
      rfl
    simp only [hkn, bind_ok, pure_ok, foldlM_setField_ok, Option.bind_some, Option.some.injEq,
      forall_eq']
    constructor
    · rintro ⟨fields, ⟨hall, rfl⟩, rfl⟩
      exact ⟨hall, hmod⟩
    · rintro ⟨hall, rfl⟩
      exact ⟨_, ⟨hall, rfl⟩, hmod⟩

theorem foldlM_applyNode_ok (hn : (cs.map (·.1)).Nodup) :
    cs.foldlM applyNode nodes = .ok nodes' ↔
      Applicable nodes cs ∧ nodes' = applied nodes cs := by
  induction cs generalizing nodes with
  | nil =>
    rw [List.foldlM_nil, pure_ok]
    simp [Applicable, applied, eq_comm]
  | cons c cs ih =>
    obtain ⟨hc, hn⟩ := List.nodup_cons.mp (show (c.1 :: cs.map (·.1)).Nodup from hn)
    -- The nodes of other ids are found as they were.
    have hrest : Applicable (setFirst Node.id c.1 (fillNode c.2) nodes) cs ↔
        Applicable nodes cs := by
      refine forall₂_congr fun c' hc' => ?_
      have hne : c'.1 ≠ c.1 := fun he => hc (List.mem_map.mpr ⟨c', hc', he⟩)
      rw [find?_setFirst Node.id (f := fillNode c.2) fun _ => rfl]
      simp [hne]
    have hsplit : Applicable nodes (c :: cs) ↔ Applicable nodes [c] ∧ Applicable nodes cs := by
      simp [Applicable]
    rw [List.foldlM_cons, bind_ok, hsplit]
    simp only [applyNode_ok]
    constructor
    · rintro ⟨_, ⟨hhead, rfl⟩, h⟩
      obtain ⟨htail, rfl⟩ := (ih hn).mp h
      exact ⟨⟨hhead, hrest.mp htail⟩, rfl⟩
    · rintro ⟨⟨hhead, htail⟩, rfl⟩
      exact ⟨_, ⟨hhead, rfl⟩, (ih hn).mpr ⟨hrest.mpr htail, rfl⟩⟩

theorem applyConfiguration_ok : applyConfiguration lg cfg = .ok r ↔
    Applicable lg.nodeDataArray cfg.nodes ∧
      r = { lg with nodeDataArray := applied lg.nodeDataArray cfg.nodes } := by
  simp only [applyConfiguration, bind_ok, pure_ok, foldlM_applyNode_ok cfg.nodes_nodup]
  constructor
  · rintro ⟨_, ⟨h, rfl⟩, rfl⟩
    exact ⟨h, rfl⟩
  · rintro ⟨h, rfl⟩
    exact ⟨_, ⟨h, rfl⟩, rfl⟩

/-! What it leaves. -/

/-- A field has the value that is configured for it, or its own. -/
theorem value?_applied (lg : LogicalGraph F) (cfg : GraphConfig F) (nid fid : NodeId) :
    LogicalGraph.value? { lg with nodeDataArray := applied lg.nodeDataArray cfg.nodes } nid fid =
      (lg.value? nid fid).map fun u => (cfg.value? nid fid).getD u := by
  simp only [LogicalGraph.value?, applied, GraphConfig.value?]
  rw [find?_foldl_setFirst Node.id (g := fillNode) (fun _ _ => rfl) cfg.nodes_nodup]
  cases lg.nodeDataArray.find? fun a => a.id == nid with
  | none => rfl
  | some n =>
    simp only [Option.map_some, Option.bind_some]
    cases hl : cfg.nodes.lookup nid with
    | none => cases n.fields.find? fun a => a.id == fid <;> rfl
    | some fs =>
      have hfs := cfg.fields_nodup _ ((Association.mem_iff_lookup cfg.nodes_nodup).mpr hl)
      simp only [fillNode, Option.bind_some]
      rw [find?_foldl_setFirst Field.id (g := withValue) (fun _ _ => rfl) hfs, Option.map_map,
        Option.map_map]
      congr 1
      funext f
      cases fs.lookup fid <;> simp [withValue]

/-- The fields a configuration names can still be found after another one has been applied. -/
theorem applicable_applied (hn : (cs.map (·.1)).Nodup)
    {ds : List (NodeId × List (NodeId × Value F))} :
    Applicable (applied nodes cs) ds ↔ Applicable nodes ds := by
  refine forall₂_congr fun d _ => ?_
  rw [applied, find?_foldl_setFirst Node.id (g := fillNode) (fun _ _ => rfl) hn]
  cases nodes.find? fun a => a.id == d.1 with
  | none => simp
  | some n =>
    have hids : ∀ (fs : List (NodeId × Value F)) x,
        (∃ g ∈ (fillNode fs n).fields, g.id = x) ↔ ∃ g ∈ n.fields, g.id = x := by
      intro fs x
      rw [← List.mem_map, ← List.mem_map, fillNode, map_id_foldl_setField]
    simp only [Option.map_some, Option.some.injEq, forall_eq']
    cases cs.lookup d.1 with
    | none => rfl
    | some fs => simp only [hids]

/-- A field that an applicable configuration names is there, if its node is. -/
theorem exists_value? (hn : ∃ n ∈ lg.nodeDataArray, n.id = nid)
    (ha : Applicable lg.nodeDataArray c.nodes) {u : Value F} (hu : c.value? nid fid = some u) :
    ∃ w, lg.value? nid fid = some w := by
  obtain ⟨fs, hl, hv⟩ := Option.bind_eq_some_iff.mp hu
  have hnode : (lg.nodeDataArray.find? (·.id == nid)).isSome := by
    rw [List.find?_isSome]
    obtain ⟨n, hn, hid⟩ := hn
    exact ⟨n, hn, by simpa using hid⟩
  obtain ⟨n, hfind⟩ := Option.isSome_iff_exists.mp hnode
  have hfield := ha _ (Association.mem_of_lookup hl) n hfind _ (Association.mem_of_lookup hv)
  have hsome : (n.fields.find? (·.id == fid)).isSome := by
    rw [List.find?_isSome]
    obtain ⟨g, hg, hid⟩ := hfield
    exact ⟨g, hg, by simpa using hid⟩
  obtain ⟨g, hg⟩ := Option.isSome_iff_exists.mp hsome
  exact ⟨g.value, by simp only [LogicalGraph.value?, hfind, Option.bind_some, hg, Option.map_some]⟩

theorem Fits.exists_node (hf : Fits lg cfg) {v : Value F} (hv : cfg.value? nid fid = some v) :
    ∃ n ∈ lg.nodeDataArray, n.id = nid := by
  obtain ⟨fs, hl, -⟩ := Option.bind_eq_some_iff.mp hv
  obtain ⟨n, hn, hid, -⟩ := hf _ (Association.mem_of_lookup hl)
  exact ⟨n, hn, hid⟩

/-! The active configuration, and both after each other. -/

theorem applyActiveConfiguration_eq (lg : LogicalGraph F) :
    applyActiveConfiguration lg = match lg.active? with
      | none => .ok lg
      | some c => applyConfiguration lg c := by
  unfold applyActiveConfiguration LogicalGraph.active?
  split
  · rfl
  · rfl

theorem applyActiveConfiguration_ok : applyActiveConfiguration lg = .ok r ↔
    (∀ c, lg.active? = some c → Applicable lg.nodeDataArray c.nodes) ∧
      r = match lg.active? with
        | none => lg
        | some c => { lg with nodeDataArray := applied lg.nodeDataArray c.nodes } := by
  rw [applyActiveConfiguration_eq]
  cases lg.active? with
  | none => simp [eq_comm]
  | some c => simp [applyConfiguration_ok]

/-- A value after the active configuration has been applied. -/
theorem value?_of_applyActive (h : applyActiveConfiguration lg = .ok r) (nid fid : NodeId) :
    r.value? nid fid =
      (lg.value? nid fid).map fun u => (lg.active?.bind (·.value? nid fid)).getD u := by
  obtain ⟨-, rfl⟩ := applyActiveConfiguration_ok.mp h
  cases lg.active? with
  | none => cases lg.value? nid fid <;> rfl
  | some c => exact value?_applied lg c nid fid

/-- What the active configuration says of a field. -/
theorem bind_active {u : Value F} : lg.active?.bind (·.value? nid fid) = some u ↔
    ∃ c, lg.active? = some c ∧ c.value? nid fid = some u := Option.bind_eq_some_iff

/-- Where nothing was filled in, the active configuration decides, or the graph as it was. -/
theorem requestKept_unfilled (hf : Fits lg cfg) (hs : ¬ lg.Stores cfg)
    (hfill : fillConfig lg cfg = .ok lg) : RequestKept lg cfg ↔ Undisturbed lg cfg := by
  simp only [RequestKept, readFilled, hfill, ok_bind]
  constructor
  · rintro ⟨r, hr, hkept⟩
    have ha := (applyActiveConfiguration_ok.mp hr).1
    have hfinal : ∀ nid fid v, cfg.value? nid fid = some v → (lg.value? nid fid).map
        (fun u => (lg.active?.bind (·.value? nid fid)).getD u) = some v := by
      intro nid fid v hv
      rw [← value?_of_applyActive hr]
      exact hkept nid fid v hv
    refine ⟨fun h => absurd h hs, ha, fun c hc nid fid u v hu hv => ?_, fun nid fid v hv => ?_⟩
    · obtain ⟨w, -, hw⟩ := Option.map_eq_some_iff.mp (hfinal nid fid v hv)
      rwa [bind_active.mpr ⟨c, hc, hu⟩] at hw
    · obtain ⟨w, hval, hw⟩ := Option.map_eq_some_iff.mp (hfinal nid fid v hv)
      cases hu : lg.active?.bind (·.value? nid fid) with
      | none =>
        rw [hu] at hw
        exact Or.inr (Or.inl (hval.trans (congrArg some hw)))
      | some u =>
        obtain ⟨c, hc, hu⟩ := bind_active.mp hu
        exact Or.inr (Or.inr ⟨c, u, hc, hu⟩)
  · intro h
    have hr := applyActiveConfiguration_ok.mpr ⟨h.readable, rfl⟩
    refine ⟨_, hr, fun nid fid v hv => ?_⟩
    rw [value?_of_applyActive hr]
    cases hu : lg.active?.bind (·.value? nid fid) with
    | none =>
      rcases h.remaining nid fid v hv with hst | hval | ⟨c, u, hc, hcu⟩
      · exact absurd hst hs
      · rw [hval]
        rfl
      · rw [bind_active.mpr ⟨c, hc, hcu⟩] at hu
        cases hu
    | some u =>
      obtain ⟨c, hc, hcu⟩ := bind_active.mp hu
      obtain ⟨w, hw⟩ := exists_value? (hf.exists_node hv) (h.readable c hc) hcu
      rw [hw, h.agrees c hc nid fid u v hcu hv]
      rfl

/-- Where it was filled in, the active configuration may still overwrite it. -/
theorem requestKept_stored (hf : Fits lg cfg) (hs : lg.Stores cfg) :
    RequestKept lg cfg ↔ Undisturbed lg cfg := by
  let lg₁ : LogicalGraph F := { lg with nodeDataArray := applied lg.nodeDataArray cfg.nodes }
  have hactive : lg₁.active? = lg.active? := rfl
  have hfill : fillConfig lg cfg = applyConfiguration lg cfg := by
    obtain ⟨cfg', hc, hid⟩ := List.mem_map.mp hs.2
    rw [fillConfig, if_pos hs.1, if_pos (List.any_eq_true.mpr ⟨cfg', hc, by simpa using hid⟩)]
  have hvalue : Applicable lg.nodeDataArray cfg.nodes → ∀ nid fid v,
      cfg.value? nid fid = some v → lg₁.value? nid fid = some v := by
    intro ha nid fid v hv
    obtain ⟨w, hw⟩ := exists_value? (hf.exists_node hv) ha hv
    rw [value?_applied, hw, hv]
    rfl
  have hthen : ∀ r, readFilled lg cfg = .ok r ↔ Applicable lg.nodeDataArray cfg.nodes ∧
      applyActiveConfiguration lg₁ = .ok r := by
    intro r
    simp only [readFilled, hfill, bind_ok, applyConfiguration_ok]
    constructor
    · rintro ⟨_, ⟨ha, rfl⟩, h⟩
      exact ⟨ha, h⟩
    · rintro ⟨ha, h⟩
      exact ⟨_, ⟨ha, rfl⟩, h⟩
  have happ : (∀ c, lg₁.active? = some c → Applicable lg₁.nodeDataArray c.nodes) ↔
      ∀ c, lg.active? = some c → Applicable lg.nodeDataArray c.nodes := by
    rw [hactive]
    exact forall₂_congr fun c _ => applicable_applied cfg.nodes_nodup
  constructor
  · rintro ⟨r, hr, hkept⟩
    obtain ⟨ha, hr⟩ := (hthen r).mp hr
    refine ⟨fun _ => ha, happ.mp (applyActiveConfiguration_ok.mp hr).1,
      fun c hc nid fid u v hu hv => ?_, fun _ _ _ _ => Or.inl hs⟩
    have hfinal := hkept nid fid v hv
    rw [value?_of_applyActive hr, hvalue ha nid fid v hv, hactive,
      bind_active.mpr ⟨c, hc, hu⟩] at hfinal
    exact Option.some.inj hfinal
  · intro h
    have ha := h.fillable hs
    have hr := applyActiveConfiguration_ok.mpr ⟨happ.mpr h.readable, rfl⟩
    refine ⟨_, (hthen _).mpr ⟨ha, hr⟩, fun nid fid v hv => ?_⟩
    rw [value?_of_applyActive hr, hvalue ha nid fid v hv, hactive, Option.map_some]
    cases hu : lg.active?.bind (·.value? nid fid) with
    | none => rfl
    | some u =>
      obtain ⟨c, hc, hcu⟩ := bind_active.mp hu
      rw [Option.getD_some, h.agrees c hc nid fid u v hcu hv]

/-- A foreign configuration that passes its check unsets the active one. -/
theorem requestKept_foreign (hs : isConfigStoredInGraph lg = true) (hn : ¬ lg.Stores cfg)
    (h : NoneFirst lg cfg) : RequestKept lg cfg := by
  have hc : ¬ ∃ c ∈ lg.graphConfigurations, c.1 = cfg.id :=
    fun hc => hn ⟨hs, List.mem_map.mpr hc⟩
  have hf := Fits.of_noneFirst h
  have ha : Applicable lg.nodeDataArray cfg.nodes := by
    intro c hcm n hfind f hfc
    exact List.mem_map.mp ((h c hcm).2 n hfind f hfc).1
  have hany : lg.graphConfigurations.any (·.1 == cfg.id) = false := by
    rw [Bool.eq_false_iff]
    intro he
    obtain ⟨c, hcm, hid⟩ := List.any_eq_true.mp he
    exact hc ⟨c, hcm, by simpa using hid⟩
  let lg₁ : LogicalGraph F := { lg with
    activeGraphConfigId := none
    nodeDataArray := applied lg.nodeDataArray cfg.nodes }
  have hfill : fillConfig lg cfg = .ok lg₁ := by
    rw [fillConfig, if_pos hs, if_neg (by simp [hany]), crosscheckIds_ok.mpr h]
    exact applyConfiguration_ok.mpr ⟨ha, rfl⟩
  refine ⟨lg₁, ?_, fun nid fid v hv => ?_⟩
  · rw [readFilled, hfill]
    rfl
  · obtain ⟨w, hw⟩ := exists_value? (hf.exists_node hv) ha hv
    have := value?_applied lg cfg nid fid
    rw [hw, hv] at this
    exact this

/-- The requested values survive the reading of the graph exactly where the configuration is a
foreign one that passes its check, or the active one applies and agrees with it. -/
theorem requestKept_iff (hf : Fits lg cfg) : RequestKept lg cfg ↔ Kept lg cfg := by
  by_cases hs : lg.Stores cfg
  · rw [requestKept_stored hf hs, Kept]
    exact (or_iff_right fun h => h.2.1 hs).symm
  · by_cases hforeign : isConfigStoredInGraph lg = true ∧ NoneFirst lg cfg
    · exact iff_of_true (requestKept_foreign hforeign.1 hs hforeign.2)
        (Or.inl ⟨hforeign.1, hs, hforeign.2⟩)
    · have hfill : fillConfig lg cfg = .ok lg := by
        by_cases hst : isConfigStoredInGraph lg = true
        · have hc : ¬ ∃ c ∈ lg.graphConfigurations, c.1 = cfg.id :=
            fun hc => hs ⟨hst, List.mem_map.mpr hc⟩
          exact fillConfig_rejected hc fun hn => hforeign ⟨hst, hn⟩
        · rw [fillConfig, if_neg hst]
      rw [requestKept_unfilled hf hs hfill, Kept]
      exact (or_iff_right fun h => hforeign ⟨h.1, h.2.2⟩).symm

/-- A foreign configuration of the second node. -/
theorem requestKept_oneField : RequestKept twoNodes (oneField (.str "b") (.str "y")) := by
  have hnone : NoneFirst twoNodes (oneField (.str "b") (.str "y")) :=
    crosscheckIds_ok.mp (by decide)
  have hforeign : ¬ twoNodes.Stores (oneField (.str "b") (.str "y")) :=
    fun h => absurd h.2 (by decide)
  exact (requestKept_iff (Fits.of_noneFirst hnone)).mpr (Or.inl ⟨by decide, hforeign, hnone⟩)

/-- The graph with two configurations of one field, the first of them active. -/
def twoStored : LogicalGraph Empty :=
  { twoNodes with
    activeGraphConfigId := some "first"
    graphConfigurations :=
      [("first",
        { id := "first", nodes := [(.str "b", [(.str "y", .int 5)])]
          nodes_nodup := by simp, fields_nodup := by simp }),
       ("external", oneField (.str "b") (.str "y"))] }

/-- The other one is requested and filled in, but the active one is applied after it. -/
theorem active_overwrites : Fits twoStored (oneField (.str "b") (.str "y")) ∧
    ¬ RequestKept twoStored (oneField (.str "b") (.str "y")) := by
  refine ⟨?_, ?_⟩
  · intro c hc
    obtain rfl := List.mem_singleton.mp hc
    exact ⟨twoNodes.nodeDataArray[1], by decide, rfl, by decide⟩
  · rintro ⟨r, hr, hkept⟩
    have hread : (readFilled twoStored (oneField (.str "b") (.str "y"))).toOption.bind
        (·.value? (.str "b") (.str "y")) = some (.int 5) := by decide
    rw [hr] at hread
    have hseven := hkept (.str "b") (.str "y") (.int 7) (by decide)
    exact absurd (hseven.symm.trans hread) (by decide)

end Daliuge.Prepare.Config
