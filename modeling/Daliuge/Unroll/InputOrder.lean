import Daliuge.Unroll.Ends

/-!
# The order of the inputs

Only Gathers and GroupBys look at their first input. As long as any of the inputs a link gives
them makes them say the same, everything up to the edges of a link comes out the same in whatever
order the inputs were recorded.
-/
namespace Daliuge.Unroll

open Collect

/-- Whether a node looks at its first input. -/
def LGNode.asksInput (n : LGNode) : Bool := n.isConstruct .gather || n.isConstruct .groupBy

/-- The nodes whose links enter a node. -/
def LogicalGraph.entering (g : LogicalGraph) (id : NodeId) : List NodeId :=
  (g.links.filter (·.target == id)).map (·.source)

/-- Two records of the inputs: who looks at its first input finds one that a link gives it there,
or, where no link enters it, the same in both. -/
structure Choices (g : LogicalGraph) (i i' : Inputs) : Prop where
  linked : ∀ n ∈ g.nodes, n.asksInput = true → g.entering n.id ≠ [] →
    (∃ m ∈ g.entering n.id, (i.of n.id).head? = some m) ∧
      ∃ m ∈ g.entering n.id, (i'.of n.id).head? = some m
  others : ∀ n ∈ g.nodes, n.asksInput = true → g.entering n.id = [] → i'.of n.id = i.of n.id

/-- What Gathers and GroupBys say with either record: how many there are of them, their layers
and their width, what they are fed, and the volume behind a Gather. -/
structure SameAnswers (g : LogicalGraph) (i i' : Inputs) : Prop where
  dop : ∀ n ∈ g.nodes, n.asksInput = true → g.dop i' n = g.dop i n
  layers : ∀ n ∈ g.nodes, n.isConstruct .groupBy = true → ∀ made,
    scatterLayers g i' n made = scatterLayers g i n made
  width : ∀ n ∈ g.nodes, n.isConstruct .groupBy = true →
    g.groupByWidth i' n = g.groupByWidth i n
  input : ∀ n ∈ g.nodes, n.isConstruct .groupBy = true →
    (g.firstInput i' n.id).map (fun m => (m.node.isData, m.node.weight)) =
      (g.firstInput i n.id).map fun m => (m.node.isData, m.node.weight)
  volume : ∀ lg : LG, lg.graph = g → ∀ n ∈ g.nodes, n.isConstruct .gather = true → ∀ iid,
    gatherWeight { lg with inputs := i' } n iid = gatherWeight { lg with inputs := i } n iid

/-- Whichever of the inputs its links give it a Gather or a GroupBy looks at, all say the same. -/
def Settled (g : LogicalGraph) : Prop := ∀ i i', Choices g i i' → SameAnswers g i i'

/-- Two graphs with the same nodes, and inputs that differ in an order that changes no answer. -/
structure Alike (g g' : LogicalGraph) (i i' : Inputs) : Prop where
  forest : g'.forest = g.forest
  sessionId : g'.sessionId = g.sessionId
  perm : ∀ id, (i'.of id).Perm (i.of id)
  answers : SameAnswers g i i'

section Counting

variable {g g' : LogicalGraph} {i i' : Inputs} {n m : LGNode} {fuel : Nat}

theorem group_mem_nodes {a : Node} {gs : List Node} (hn : n ∈ g.nodes) (h : n.groups = a :: gs) :
    ⟨a, gs⟩ ∈ g.nodes :=
  mem_nodes_of_groups hn (h.trans (List.nil_append _).symm) List.nil_suffix

theorem firstInput_mem {id : NodeId} (h : g.firstInput i id = .ok m) : m ∈ g.nodes := by
  unfold LogicalGraph.firstInput at h
  split at h
  · simp at h
  · exact (mem_nodes_of_node h).1

theorem inputGroup_mem (hg : inputGroup g i n = .ok m) : m ∈ g.nodes := by
  obtain ⟨t, ht, hg⟩ := bind_ok.mp hg
  have htn := firstInput_mem ht
  unfold LGNode.group at hg
  split at hg
  · rename_i k hk
    obtain rfl := pure_ok.mp hg
    split at hk
    · simp at hk
    · rename_i a gs hgs
      obtain rfl := Option.some.inj hk
      exact group_mem_nodes htn hgs
  · simp at hg

theorem keyLayers_mem {keys : List Int} {c k : Nat} {a : Node} {gs : List Node}
    (hn : ⟨a, gs⟩ ∈ g.nodes) (h : (k, m) ∈ keyLayers keys c (a :: gs)) : m ∈ g.nodes := by
  induction gs generalizing a c with
  | nil =>
    simp only [keyLayers] at h
    split at h
    · split at h
      · obtain ⟨-, rfl⟩ := Prod.mk.inj (List.mem_singleton.mp h)
        exact hn
      · simp at h
    · simp at h
  | cons b gs ih =>
    have hb : ⟨b, gs⟩ ∈ g.nodes := group_mem_nodes hn rfl
    rw [keyLayers] at h
    split at h
    · split at h
      · rcases List.mem_cons.mp h with h | h
        · obtain ⟨-, rfl⟩ := Prod.mk.inj h
          exact hn
        · exact ih hb h
      · exact ih hb h
    · simp at h

/-- The layers of a GroupBy are groups of the graph. -/
theorem scatterLayers_mem {made : Bool} {layers : List (Nat × LGNode)}
    (h : scatterLayers g i n made = .ok layers) :
    ∀ layer ∈ layers, layer.2 ∈ g.nodes := by
  obtain ⟨keys, -, h⟩ := bind_ok.mp h
  obtain ⟨m, hm, h⟩ := bind_ok.mp h
  have hmn := inputGroup_mem hm
  intro layer hl
  split at h
  · cases keys with
    | none => simp at h
    | some keys =>
      obtain ⟨r, -, h⟩ := bind_ok.mp h
      obtain ⟨inner, hi, h⟩ := bind_ok.mp h
      obtain rfl := pure_ok.mp h
      exact keyLayers_mem (inputGroup_mem hi) hl
  · split at h
    · obtain rfl := pure_ok.mp h
      rw [List.mem_singleton.mp hl]
      exact hmn
    · split at h
      · obtain rfl := pure_ok.mp h
        rw [List.mem_singleton.mp hl]
        exact hmn
      · simp at h
    · obtain rfl := pure_ok.mp h
      exact keyLayers_mem hmn hl

/-! All of it depends on the nodes of the graph only. -/

section Forest

variable (hf : g'.forest = g.forest)

include hf

theorem nodes_forest : g'.nodes = g.nodes := by
  simp [LogicalGraph.nodes, hf]

theorem node_forest : g'.node = g.node := by
  funext id
  simp [LogicalGraph.node, nodes_forest hf]

theorem firstInput_forest : g'.firstInput i = g.firstInput i := by
  funext id
  simp [LogicalGraph.firstInput, node_forest hf]

theorem inputGroup_forest : inputGroup g' i = inputGroup g i := by
  funext n
  simp [inputGroup, firstInput_forest hf]

theorem rootGroupBy_forest : rootGroupBy g' i fuel = rootGroupBy g i fuel := by
  induction fuel with
  | zero => rfl
  | succ fuel ih =>
    funext n
    simp only [rootGroupBy, inputGroup_forest hf, ih]

theorem scatterLayers_forest : scatterLayers g' i = scatterLayers g i := by
  funext n made
  simp only [scatterLayers, inputGroup_forest hf, rootGroupBy_forest hf, nodes_forest hf]

theorem dopAt_forest : dopAt g' i fuel = dopAt g i fuel := by
  induction fuel with
  | zero => rfl
  | succ fuel ih =>
    funext n
    simp only [dopAt, node_forest hf, scatterLayers_forest hf, ih]

theorem dop_forest : g'.dop i = g.dop i := by
  funext n
  rw [LogicalGraph.dop, LogicalGraph.dop, nodes_forest hf, dopAt_forest hf]

theorem groupByWidth_forest : g'.groupByWidth i = g.groupByWidth i := by
  funext n
  simp only [LogicalGraph.groupByWidth, inputGroup_forest hf, dop_forest hf]

end Forest

/-- Only Gathers and GroupBys have handlers that look at their inputs. -/
theorem Node.category_of_handler {n : Node} {handler : Handler} (h : n.handler = .ok handler) :
    (handler = .gather → n.isConstruct .gather = true) ∧
      (handler = .groupBy → n.isConstruct .groupBy = true ∧ n.isGroup = true) := by
  unfold Node.handler at h
  cases hc : n.category <;> simp only [hc] at h <;> simp only [Node.isConstruct, hc] <;>
    repeat' (split at h)
  all_goals
    cases h
    try simp [*]

/-- Whoever does not look at its inputs is there as often, whatever they are. -/
theorem dop_of_not_asksInput (h : n.asksInput = false) : g.dop i' n = g.dop i n := by
  simp only [LogicalGraph.dop, dopAt]
  cases hh : n.node.handler with
  | error e => rfl
  | ok handler =>
    have hc := Node.category_of_handler hh
    cases handler with
    | gather => simp [LGNode.asksInput, LGNode.isConstruct, hc.1 rfl] at h
    | groupBy => simp [LGNode.asksInput, LGNode.isConstruct, (hc.2 rfl).1] at h
    | _ => rfl

theorem Alike.nodes (h : Alike g g' i i') : g'.nodes = g.nodes := nodes_forest h.forest

theorem Alike.node (h : Alike g g' i i') : g'.node = g.node := node_forest h.forest

/-- Every node is there as often in both. -/
theorem Alike.dop (h : Alike g g' i i') (hn : n ∈ g.nodes) : g'.dop i' n = g.dop i n := by
  rw [dop_forest h.forest]
  by_cases ha : n.asksInput = true
  · exact h.answers.dop n hn ha
  · exact dop_of_not_asksInput (by simpa using ha)

theorem Alike.scatterLayers {made : Bool} (h : Alike g g' i i') (hn : n ∈ g.nodes)
    (hg : n.isConstruct .groupBy = true) :
    scatterLayers g' i' n made = scatterLayers g i n made := by
  rw [scatterLayers_forest h.forest]
  exact h.answers.layers n hn hg made

theorem Alike.groupByWidth (h : Alike g g' i i') (hn : n ∈ g.nodes)
    (hg : n.isConstruct .groupBy = true) : g'.groupByWidth i' n = g.groupByWidth i n := by
  rw [groupByWidth_forest h.forest]
  exact h.answers.width n hn hg

/-! Degrees of parallelism. -/

variable {d d' : LGNode → Except Err Int}

theorem dopLoop_congr {outer : NodeId} {cg : Node} {gs : List Node}
    (hd : ∀ m ∈ g.nodes, d' m = d m) (hm : ⟨cg, gs⟩ ∈ g.nodes) :
    dopLoop d' outer cg gs = dopLoop d outer cg gs := by
  induction gs generalizing cg with
  | nil => simp only [dopLoop, hd _ hm]
  | cons a gs ih =>
    have ha : ⟨a, gs⟩ ∈ g.nodes := group_mem_nodes hm rfl
    simp only [dopLoop, hd _ hm, hd _ ha, ih ha]

/-- The differences between degrees of parallelism depend on the degrees of the groups only. -/
theorem dopDiff_congr (hd : ∀ m ∈ g.nodes, d' m = d m) (hn : n ∈ g.nodes)
    (hm : m ∈ g.nodes) : dopDiff d' n m = dopDiff d n m := by
  simp only [dopDiff, dopLoop_congr hd hn, dopLoop_congr hd hm]

end Counting

/-! The edges of a link. -/

section Edges

variable {lg lg' : LG} {s t n : LGNode} {ss ts : List Drop} {loopAware : Bool}

theorem chunkSize_eq (h : Alike lg.graph lg'.graph lg.inputs lg'.inputs)
    (hs : s ∈ lg.graph.nodes) (ht : t ∈ lg.graph.nodes) : chunkSize lg' s t = chunkSize lg s t := by
  unfold chunkSize
  split
  · rfl
  · split
    · rename_i hg
      exact h.groupByWidth ht hg
    · exact dopDiff_congr (fun m hm => h.dop hm) hs ht

theorem groupDop_eq (h : Alike lg.graph lg'.graph lg.inputs lg'.inputs)
    (hn : n ∈ lg.graph.nodes) : groupDop lg' n = groupDop lg n := by
  unfold groupDop LGNode.group
  cases hg : n.groups with
  | nil => rfl
  | cons a gs => exact h.dop (group_mem_nodes hn hg)

theorem leafEdges_eq (h : Alike lg.graph lg'.graph lg.inputs lg'.inputs)
    (hs : s ∈ lg.graph.nodes) (ht : t ∈ lg.graph.nodes) :
    leafEdges lg' s t ss ts = leafEdges lg s t ss ts := by
  simp only [leafEdges, chunkSize_eq h hs ht]

theorem gatherEdges_eq (h : Alike lg.graph lg'.graph lg.inputs lg'.inputs)
    (hs : s ∈ lg.graph.nodes) (ht : t ∈ lg.graph.nodes) :
    gatherEdges lg' s t ss ts = gatherEdges lg s t ss ts := by
  simp only [gatherEdges, chunkSize_eq h hs ht]

theorem loopEdges_eq (h : Alike lg.graph lg'.graph lg.inputs lg'.inputs)
    (hs : s ∈ lg.graph.nodes) (ht : t ∈ lg.graph.nodes) :
    loopEdges lg' s t ss ts loopAware = loopEdges lg s t ss ts loopAware := by
  simp only [loopEdges, chunkSize_eq h hs ht, groupDop_eq h hs, groupDop_eq h ht]

theorem groupByEdges_eq (h : Alike lg.graph lg'.graph lg.inputs lg'.inputs)
    (ht : t ∈ lg.graph.nodes) (hg : t.isConstruct .groupBy = true) :
    groupByEdges lg' s t ss ts = groupByEdges lg s t ss ts := by
  simp only [groupByEdges, h.scatterLayers ht hg]

/-- A link has the same edges, given the same drops. -/
theorem resolveEdges_eq {placed : List Placed} {lk : Link}
    (h : Alike lg.graph lg'.graph lg.inputs lg'.inputs)
    (hl : ∀ pair, lg'.loopAwareSet.contains pair = lg.loopAwareSet.contains pair)
    (hs : s ∈ lg.graph.nodes) (ht : t ∈ lg.graph.nodes) :
    resolveEdges lg' placed s t lk = resolveEdges lg placed s t lk := by
  simp only [resolveEdges, hl, gatherEdges_eq h hs ht, loopEdges_eq h hs ht, leafEdges_eq h hs ht]
  split
  · rfl
  · split
    · split
      · rename_i hg
        exact groupByEdges_eq h ht hg
      · rfl
    · rfl

end Edges

/-! The drops of the nodes. -/

section Making

variable {lg lg' : LG} {n : LGNode} {iid : InstanceId} {ctx : Option (List Nat)}

theorem isStartListener_eq (h : Alike lg.graph lg'.graph lg.inputs lg'.inputs) :
    isStartListener lg' n = isStartListener lg n := by
  simp only [isStartListener, (h.perm n.id).length_eq]

/-- The drop that is made of a node at an instance. -/
theorem mainDrop_eq {weight : Option Int} (h : Alike lg.graph lg'.graph lg.inputs lg'.inputs) :
    mainDrop lg' n iid ctx weight = mainDrop lg n iid ctx weight := by
  simp only [mainDrop, LogicalGraph.makeOid, h.sessionId]

theorem besideDrop_eq {part : Part} {ending : String} {weight : Option Int}
    (h : Alike lg.graph lg'.graph lg.inputs lg'.inputs) :
    besideDrop lg' n iid part ending weight = besideDrop lg n iid part ending weight := by
  simp only [besideDrop, LogicalGraph.makeOid, h.sessionId]

theorem createAppDrop_eq (h : Alike lg.graph lg'.graph lg.inputs lg'.inputs) :
    createAppDrop lg' n iid ctx = createAppDrop lg n iid ctx := by
  simp only [createAppDrop, mainDrop_eq h]

theorem createGroupByDrops_eq (h : Alike lg.graph lg'.graph lg.inputs lg'.inputs)
    (hn : n ∈ lg.graph.nodes) (hg : n.isConstruct .groupBy = true) :
    createGroupByDrops lg' n iid ctx = createGroupByDrops lg n iid ctx := by
  have hin := h.answers.input n hn hg
  simp only [createGroupByDrops, barrierDrops, firstInput_forest h.forest, h.groupByWidth hn hg,
    mainDrop_eq h, besideDrop_eq h]
  -- what is asked of the input is its type and its weight
  cases hm : lg.graph.firstInput lg.inputs n.id with
  | error e =>
    cases hm' : lg.graph.firstInput lg'.inputs n.id with
    | error e' =>
      rw [hm, hm'] at hin
      rw [error_bind, error_bind, Except.error.inj hin]
    | ok m' => simp [hm, hm', Except.map] at hin
  | ok m =>
    cases hm' : lg.graph.firstInput lg'.inputs n.id with
    | error e' => simp [hm, hm', Except.map] at hin
    | ok m' =>
      obtain ⟨hd, hw⟩ : m'.node.isData = m.node.isData ∧ m'.node.weight = m.node.weight := by
        simpa [hm, hm', Except.map] using hin
      rw [ok_bind, ok_bind, hd, hw]

theorem gatherWeight_forest (hf : lg'.graph.forest = lg.graph.forest)
    (hi : lg'.inputs = lg.inputs) : gatherWeight lg' n iid = gatherWeight lg n iid := by
  have hentered : entered lg' = entered lg := by
    funext groups
    induction groups with
    | nil => rfl
    | cons g gs ih => rw [entered, entered, dop_forest hf, hi, ih]
  simp only [gatherWeight, isMadeBefore, firstInput_forest hf, groupByWidth_forest hf, hentered,
    hf, hi]

theorem gatherWeight_eq (h : Alike lg.graph lg'.graph lg.inputs lg'.inputs)
    (hn : n ∈ lg.graph.nodes) (hg : n.isConstruct .gather = true) :
    gatherWeight lg' n iid = gatherWeight lg n iid := by
  have hsame : gatherWeight lg' n iid = gatherWeight { lg with inputs := lg'.inputs } n iid :=
    gatherWeight_forest h.forest rfl
  rw [hsame]
  exact h.answers.volume lg rfl n hn hg iid

/-- A node gets the same drops at every instance. -/
theorem makeSingleDrop_eq (h : Alike lg.graph lg'.graph lg.inputs lg'.inputs)
    (hn : n ∈ lg.graph.nodes) : makeSingleDrop lg' n iid ctx = makeSingleDrop lg n iid ctx := by
  unfold makeSingleDrop
  split
  · simp only [createDataDrop, isStartListener_eq h, mainDrop_eq h, besideDrop_eq h]
  split
  · exact createAppDrop_eq h
  split
  · rename_i hc
    exact createGroupByDrops_eq h hn (by simp [LGNode.isConstruct, Node.isConstruct, hc])
  split
  · rename_i hc
    have hg : n.isConstruct .gather = true := by simp [LGNode.isConstruct, Node.isConstruct, hc]
    simp only [createGatherDrops, barrierDrops, gatherWeight_eq h hn hg, mainDrop_eq h,
      besideDrop_eq h]
  split
  · exact createAppDrop_eq h
  · rw [mainDrop_eq h]

theorem groupShape_eq (h : Alike lg.graph lg'.graph lg.inputs lg'.inputs)
    (hn : n ∈ lg.graph.nodes) : groupShape lg' n iid = groupShape lg n iid := by
  unfold groupShape
  split
  · rename_i hg
    congr 1
    funext keys
    split
    · rw [h.scatterLayers hn hg]
      cases hl : Unroll.scatterLayers lg.graph lg.inputs n iid.isLater with
      | error e => rw [error_bind, error_bind]
      | ok layers =>
        have hd := mapM_congr (fun layer : Nat × LGNode => lg.graph.dop lg.inputs layer.2)
          (fun layer => lg'.graph.dop lg'.inputs layer.2)
          fun layer hm => h.dop (scatterLayers_mem hl layer hm)
        rw [ok_bind, ok_bind, hd]
    · rfl
  · rfl

theorem groupDrops_eq (h : Alike lg.graph lg'.graph lg.inputs lg'.inputs)
    (hn : n ∈ lg.graph.nodes) : groupDrops lg' n iid = groupDrops lg n iid := by
  simp only [groupDrops, createAppDrop_eq h, makeSingleDrop_eq h hn]

theorem leafDrops_eq (h : Alike lg.graph lg'.graph lg.inputs lg'.inputs)
    (hn : n ∈ lg.graph.nodes) : leafDrops lg' n iid ctx = leafDrops lg n iid ctx := by
  simp only [leafDrops, h.dop hn, makeSingleDrop_eq h hn]

theorem lgnToPgn_eq (h : Alike lg.graph lg'.graph lg.inputs lg'.inputs) {groups : List Node}
    {f : Forest} (hf : f.nodes groups ⊆ lg.graph.nodes) :
    lgnToPgn lg' groups f iid ctx = lgnToPgn lg groups f iid ctx := by
  induction f generalizing groups iid ctx with
  | nil => rfl
  | cons node below others ihc ihr =>
    have hn : ⟨node, groups⟩ ∈ lg.graph.nodes := hf (by simp [Forest.nodes])
    have hbelow : below.nodes (node :: groups) ⊆ lg.graph.nodes :=
      fun m hm => hf (by simp [Forest.nodes, hm])
    have hothers : others.nodes groups ⊆ lg.graph.nodes :=
      fun m hm => hf (by simp [Forest.nodes, hm])
    simp only [lgnToPgn, groupShape_eq h hn, h.dop hn, groupDrops_eq h hn, leafDrops_eq h hn,
      ihc hbelow, ihr hothers]

/-- The nodes get the same drops. -/
theorem instantiate_eq (h : Alike lg.graph lg'.graph lg.inputs lg'.inputs) :
    instantiate lg' = instantiate lg := by
  rw [instantiate, h.forest]
  exact lgnToPgn_eq h startList_sublist.subset

end Making

end Daliuge.Unroll
