import Daliuge.Lib.Collect
import Daliuge.Prepare.Nodes

/-!
# SubGraphs are taken out of the graph

The applications of a SubGraph become nodes of the graph and its members, but for those that lead
to the applications, move into a graph of their own. The node list changes while the loop over it
runs: an index says where the loop stands.
-/
namespace Daliuge.Prepare.Normalise

open Collect

variable {F : Type} [DecidableEq F] (supply : Supply F)

/-- What is stored under the `subgraph` key of an application. -/
structure Stored (F : Type) where
  app : Value F
  nodes : List (Node F)
  links : List (Link F)

/-- Where the loop over the nodes stands. -/
structure Extraction (F : Type) where
  nodes : List (Node F)
  links : List (Link F)
  newNodes : List (Node F) := []
  oldNewGrpk : List (Value F × Value F) := []
  used : Nat := 0
  stored : List (Stored F) := []

def isSubGraph (node : Node F) : Bool := decide (node.category = .text "SubGraph")

/-- A SubGraph with an input and an output application. -/
def hasBothApps (node : Node F) : Bool :=
  (hasAppKeywords node ["inputApplicationType", "outputApplicationType"] true).isSome

def key (node : Node F) (name : String) : Except Err (Value F) :=
  match node.keys.lookup name with
  | some value => .ok value
  | none => .error .keyError

def buildInput (node : Node F) (type : Value F) : Node F :=
  createFromNode node type (some "inputAppFields")
    [("isSubGraphApp", .bool true), ("isSubGraphConstruct", .bool false),
      ("SubGraphGroupKey", node.id), ("parentId", node.id), ("group_start", .int 1),
      ("inputApp", .bool true)]

def buildOutput (node : Node F) (type outputId inputId : Value F) : Node F :=
  createFromNode node type (some "outputAppFields")
    [("id", outputId), ("isSubGraphApp", .bool true), ("isSubGraphConstruct", .bool false),
      ("SubGraphGroupKey", inputId), ("parentId", inputId), ("group_start", .int 1),
      ("outputApp", .bool true)]

/-- `_build_apps_from_subgraph_construct`. -/
def buildApps (node : Node F) : Except Err (Node F × Node F) := do
  let inputType ← key node "inputApplicationType"
  let input := buildInput node inputType
  let outputId ← key node "outputApplicationId"
  let outputType ← key node "outputApplicationType"
  return (input, buildOutput node outputType outputId input.id)

/-- `_identify_and_connect_output_input`, for one link. -/
def connectLink (input output : Node F) (nodes : List (Node F)) (link : Link F) : Link F :=
  let link :=
    if link.target = input.id ∧
        nodes.any (fun n => n.id = link.source ∧ n.parentId = input.parentId) then
      { link with target := output.id }
    else link
  if link.source = input.id ∧
      nodes.any (fun n => n.id = link.target ∧ n.parentId ≠ input.parentId) then
    { link with source := output.id }
  else link

/-- The nodes of the subgraph besides its applications. -/
def membersOf (input output : Node F) (nodes : List (Node F)) : List (Node F) :=
  nodes.filter fun n =>
    n.parentId.isSome ∧ n.parentId = input.parentId ∧ n.id ∉ [input.id, output.id]

/-- One turn of the loop over the links: the links out of the members that lead to an application,
and the links of the subgraph. -/
def collectLink (members : List (Value F × Node F)) (apps : List (Value F))
    (acc : List (Value F × Node F × Link F) × List (Link F)) (link : Link F) :
    List (Value F × Node F × Link F) × List (Link F) :=
  let acc :=
    match members.lookup link.source with
    | none => acc
    | some node =>
      (if link.target ∈ apps then Association.set acc.1 node.id (node, link) else acc.1,
        acc.2 ++ [link])
  if (members.lookup link.target).isSome ∧ link ∉ acc.2 then (acc.1, acc.2 ++ [link]) else acc

def memberLinks (members : List (Value F × Node F)) (apps : List (Value F))
    (links : List (Link F)) :
    List (Value F × Node F × Link F) × List (Link F) :=
  links.foldl (collectLink members apps) ([], [])

/-- `_extract_subgraph_nodes`. -/
def extractSubgraphNodes (input output : Node F) (nodes : List (Node F)) (links : List (Link F)) :
    List (Node F) × List (Link F) × List (Node F) × List (Link F) :=
  let apps := [input.id, output.id]
  let members := dictOf ((membersOf input output nodes).map fun n => (n.id, n))
  let (outputs, taken) := memberLinks members apps links
  let nodes := (members.map (·.2)).foldl
    (fun nodes e => if (outputs.lookup e.id).isSome then nodes else nodes.erase e) nodes
  let links := taken.foldl (fun links e => links.erase e) links
  let inner := taken.filter fun link => link.source ∉ apps ∧ link.target ∉ apps
  let added := outputs.flatMap fun o => [⟨input.id, o.2.1.id, []⟩, o.2.2]
  (members.map (·.2), inner, nodes, links ++ added)

/-- The body of the loop for a SubGraph with both applications at a place of the list. -/
def convertSubgraph (s : Extraction F) (i : Nat) (node : Node F) :
    Except Err (Extraction F) := do
  let (input, output) ← buildApps node
  let links := s.links.map (connectLink input output s.nodes)
  let output := { output with parentId := some input.id }
  let newNodes := s.newNodes ++ [input, output]
  let new := supply.uuid s.used
  let map := Association.set s.oldNewGrpk input.id new
  let nodes := (s.nodes.set i { node with id := new } ++ newNodes).map (updateParent map)
  let input := updateParent map input
  let output := updateParent map output
  let (members, inner, nodes, links) := extractSubgraphNodes input output nodes links
  return {
    nodes := nodes
    links := links
    newNodes := newNodes.map (updateParent map)
    oldNewGrpk := map
    used := s.used + 2
    stored := s.stored ++ [⟨input.id, members, inner⟩] }

/-- `for node in lgo["nodeDataArray"]`; the fuel bounds the number of turns. -/
def convertFrom : Nat → Nat → Extraction F → Except Err (Extraction F)
  | 0, _, _ => .error .nonTermination
  | fuel + 1, i, s =>
    match s.nodes[i]? with
    | none => .ok s
    | some node =>
      if isSubGraph node then
        let node := node.setKey "isSubGraphConstruct" (.bool true)
        if hasBothApps node then do
          let node := node.setKey "hasInputApp" (.bool true)
          let s ← convertSubgraph supply { s with nodes := s.nodes.set i node } i node
          convertFrom fuel (i + 1) s
        else
          let node := node.setKey "hasInputApp" (.bool false)
          convertFrom fuel (i + 1) { s with nodes := s.nodes.set i node }
      else convertFrom fuel (i + 1) s

/-- `convert_subgraphs`. -/
def convertSubgraphs (fuel : Nat) (g : Graph F) : Except Err (Extraction F) :=
  convertFrom supply fuel 0 ⟨g.nodes, g.links, [], [], 0, []⟩

variable {supply} {g : Graph F} {s : Extraction F} {nodes nodes' : List (Node F)}
  {node node' input output n m : Node F} {fuel i : Nat}

/-- A SubGraph that is converted. -/
def convertible (node : Node F) : Bool := isSubGraph node && hasBothApps node

/-! The flags that the loop sets on SubGraphs change nothing that it reads. -/

structure Flagged (n n' : Node F) : Prop where
  id : n'.id = n.id
  parentId : n'.parentId = n.parentId
  category : n'.category = n.category
  unnamed : ∀ key, Unnamed n key → Unnamed n' key
  keys : ∀ k, k ≠ "isSubGraphConstruct" → k ≠ "hasInputApp" → n'.keys.lookup k = n.keys.lookup k

omit [DecidableEq F] in
theorem Flagged.refl (n : Node F) : Flagged n n := ⟨rfl, rfl, rfl, fun _ h => h, fun _ _ _ => rfl⟩

omit [DecidableEq F] in
theorem Flagged.trans (h : Flagged n m) (h' : Flagged m node) : Flagged n node :=
  ⟨h'.id.trans h.id, h'.parentId.trans h.parentId, h'.category.trans h.category,
    fun key hk => h'.unnamed key (h.unnamed key hk),
    fun k h₁ h₂ => (h'.keys k h₁ h₂).trans (h.keys k h₁ h₂)⟩

omit [DecidableEq F] in
theorem flagged_setKey {key : String} {v : Value F}
    (hk : key = "isSubGraphConstruct" ∨ key = "hasInputApp") : Flagged n (n.setKey key v) := by
  have hkey : key ≠ "id" ∧ key ≠ "category" ∧ key ≠ "name" ∧ key ≠ "text" ∧ key ≠ "parentId" ∧
      key ≠ "fields" := by
    rcases hk with rfl | rfl <;> decide
  have hset : n.setKey key v = { n with
      appFields := n.appFields.filter (·.1 ≠ key)
      keys := Association.set n.keys key v } := by
    simp only [Node.setKey, hkey, if_false]
  rw [hset]
  refine ⟨rfl, rfl, rfl, fun k hu p hp => ?_, fun k h₁ h₂ => ?_⟩
  · exact hu p (List.mem_filter.mp hp).1
  · have hne : k ≠ key := by
      rcases hk with rfl | rfl
      · exact h₁
      · exact h₂
    exact Association.lookup_set_ne hne

theorem Flagged.hasApp (h : Flagged n n') {key : String} (h₁ : key ≠ "isSubGraphConstruct")
    (h₂ : key ≠ "hasInputApp") : hasApp n' key = hasApp n key := by
  rw [Normalise.hasApp, Normalise.hasApp, h.keys key h₁ h₂]

theorem Flagged.isSubGraph (h : Flagged n n') : isSubGraph n' = isSubGraph n := by
  rw [Normalise.isSubGraph, Normalise.isSubGraph, h.category]

theorem Flagged.hasBothApps (h : Flagged n n') : hasBothApps n' = hasBothApps n := by
  have hin : Normalise.hasApp n' "inputApplicationType" = _ := h.hasApp (by decide) (by decide)
  have hout : Normalise.hasApp n' "outputApplicationType" = _ := h.hasApp (by decide) (by decide)
  simp [Normalise.hasBothApps, hasAppKeywords, hin, hout]

theorem Flagged.convertible (h : Flagged n n') : convertible n' = convertible n := by
  rw [Normalise.convertible, Normalise.convertible, h.isSubGraph, h.hasBothApps]

omit [DecidableEq F] in
theorem Flagged.key (h : Flagged n n') {name : String} (h₁ : name ≠ "isSubGraphConstruct")
    (h₂ : name ≠ "hasInputApp") : key n' name = key n name := by
  rw [Normalise.key, Normalise.key, h.keys name h₁ h₂]

/-! The two applications. -/

/-- A SubGraph whose applications can be built: their ids and categories are those of
applications. -/
structure Buildable (n : Node F) (outputId : Value F) : Prop where
  unnamedId : Unnamed n "id"
  unnamedCategory : Unnamed n "category"
  output : n.keys.lookup "outputApplicationId" = some outputId
  apps : ∀ v, n.keys.lookup "inputApplicationType" = some v ∨
    n.keys.lookup "outputApplicationType" = some v → v ≠ .text "SubGraph"

omit [DecidableEq F] in
theorem Flagged.buildable (h : Flagged n n') {v : Value F} (hb : Buildable n v) :
    Buildable n' v where
  unnamedId := h.unnamed _ hb.unnamedId
  unnamedCategory := h.unnamed _ hb.unnamedCategory
  output := (h.keys _ (by decide) (by decide)).trans hb.output
  apps v hv := by
    rw [h.keys _ (by decide) (by decide), h.keys _ (by decide) (by decide)] at hv
    exact hb.apps v hv

/-- The applications of a SubGraph. -/
structure AppsOf (n : Node F) (outputId : Value F) (input output : Node F) : Prop where
  built : buildApps n = .ok (input, output)
  inputId : input.id = n.id
  inputParent : input.parentId = some n.id
  inputSubGraph : isSubGraph input = false
  outputId : output.id = outputId
  outputSubGraph : isSubGraph output = false

theorem hasApp_lookup {key : String} (h : hasApp n key = true) :
    ∃ v, n.keys.lookup key = some v := by
  rw [hasApp] at h
  cases hk : n.keys.lookup key with
  | none => simp [hk] at h
  | some v => exact ⟨v, rfl⟩

theorem exists_appsOf (hc : hasBothApps n = true) {v : Value F} (hb : Buildable n v) :
    ∃ input output, AppsOf n v input output := by
  have hboth : hasApp n "inputApplicationType" = true ∧
      hasApp n "outputApplicationType" = true := by
    simp only [hasBothApps, hasAppKeywords, if_true, List.all_cons, List.all_nil,
      Bool.and_true] at hc
    by_contra hno
    have : (hasApp n "inputApplicationType" && hasApp n "outputApplicationType") = false := by
      cases h₁ : hasApp n "inputApplicationType" <;>
        cases h₂ : hasApp n "outputApplicationType" <;> simp_all
    rw [this] at hc
    cases hc
  obtain ⟨inputType, hin⟩ := hasApp_lookup hboth.1
  obtain ⟨outputType, hout⟩ := hasApp_lookup hboth.2
  have hcategory : ∀ {type : Value F} {fields : Option String} {params : List (String × Value F)},
      type ≠ .text "SubGraph" → (∀ p ∈ params, p.1 ≠ "category") →
      isSubGraph (createFromNode n type fields params) = false := by
    intro type fields params ht hp
    have hcat : (createFromNode n type fields params).category = type :=
      createFromNode_kept (f := Node.category) (fun _ _ _ => setKey_category) (fun _ _ => rfl)
        hb.unnamedCategory hp
    rw [isSubGraph, hcat]
    exact decide_eq_false ht
  have hparent : (createFromNode n inputType (some "inputAppFields")
      ([("isSubGraphApp", .bool true), ("isSubGraphConstruct", .bool false),
        ("SubGraphGroupKey", n.id)] ++ ("parentId", n.id) ::
        [("group_start", .int 1), ("inputApp", .bool true)])).parentId = some n.id :=
    createFromNode_written (fun _ _ _ => setKey_parentId) (fun _ => rfl) (by simp)
  have hid : ∀ qs : List (String × Value F), (∀ q ∈ qs, q.1 ≠ "id") →
      (createFromNode n outputType (some "outputAppFields") ([] ++ ("id", v) :: qs)).id = v :=
    fun qs => createFromNode_written (fun _ _ _ => setKey_id) (fun _ => rfl)
  refine ⟨buildInput n inputType, buildOutput n outputType v (buildInput n inputType).id,
    ?_, ?_, hparent, ?_, hid _ (by simp), ?_⟩
  · rw [buildApps, key, hin, ok_bind, key, hb.output, ok_bind, key, hout, ok_bind]
    rfl
  · exact createFromNode_id hb.unnamedId (by simp)
  · exact hcategory (hb.apps _ (Or.inl hin)) (by simp)
  · exact hcategory (hb.apps _ (Or.inr hout)) (by simp)

/-! What is taken out. -/

theorem mem_foldl_erase_unless {α : Type} [DecidableEq α] {keep : α → Bool} {es l : List α}
    (h : l.Nodup) {a : α} :
    a ∈ es.foldl (fun l e => if keep e then l else l.erase e) l ↔
      a ∈ l ∧ (a ∈ es → keep a = true) := by
  induction es generalizing l with
  | nil => simp
  | cons e es ih =>
    rw [List.foldl_cons]
    split
    · rename_i hk
      rw [ih h, List.mem_cons]
      constructor
      · rintro ⟨hl, hes⟩
        exact ⟨hl, fun hm => hm.elim (fun he => he ▸ hk) hes⟩
      · rintro ⟨hl, hes⟩
        exact ⟨hl, fun hm => hes (Or.inr hm)⟩
    · rename_i hk
      rw [ih (h.erase e), h.mem_erase_iff, List.mem_cons]
      constructor
      · rintro ⟨⟨hne, hl⟩, hes⟩
        exact ⟨hl, fun hm => hm.elim (fun he => absurd he hne) hes⟩
      · rintro ⟨hl, hes⟩
        refine ⟨⟨?_, hl⟩, fun hm => hes (Or.inr hm)⟩
        rintro rfl
        exact hk (hes (Or.inl rfl))

theorem foldl_erase_unless_sublist {α : Type} [DecidableEq α] {keep : α → Bool} {es l : List α} :
    (es.foldl (fun l e => if keep e then l else l.erase e) l).Sublist l := by
  induction es generalizing l with
  | nil => exact List.Sublist.refl _
  | cons e es ih =>
    rw [List.foldl_cons]
    split
    · exact ih
    · exact ih.trans List.erase_sublist

theorem count_foldl_erase {α : Type} [DecidableEq α] {es l : List α} {a : α} :
    (es.foldl (fun l e => l.erase e) l).count a = l.count a - es.count a := by
  induction es generalizing l with
  | nil => rfl
  | cons e es ih =>
    rw [List.foldl_cons, ih, List.count_cons, List.count_erase]
    by_cases he : e = a
    · subst he
      simp
      omega
    · simp [he]

variable {members : List (Value F × Node F)} {apps : List (Value F)} {links : List (Link F)}
  {link : Link F} {v : Value F}

/-- After the loop over the links: which members lead to an application, and how often each link
is taken. -/
structure Collected (members : List (Value F × Node F)) (apps : List (Value F))
    (links : List (Link F)) (outputs : List (Value F × Node F × Link F)) (taken : List (Link F)) :
    Prop where
  nodup : (outputs.map Prod.fst).Nodup
  leads : ∀ v, v ∈ outputs.map Prod.fst ↔ (members.lookup v).isSome = true ∧
    ∃ link ∈ links, link.source = v ∧ link.target ∈ apps
  outputs : ∀ o ∈ outputs, o.2.1.id = o.1 ∧ o.2.2.source = o.1 ∧ o.2.2.target ∈ apps
  taken : ∀ link, taken.count link =
    if (members.lookup link.source).isSome then links.count link
    else if (members.lookup link.target).isSome then min 1 (links.count link) else 0

theorem collectLink_taken {acc : List (Value F × Node F × Link F) × List (Link F)} {l : Link F}
    (h : acc.2.count l = if (members.lookup l.source).isSome then links.count l
      else if (members.lookup l.target).isSome then min 1 (links.count l) else 0) :
    (collectLink members apps acc link).2.count l =
      if (members.lookup l.source).isSome then (links ++ [link]).count l
      else if (members.lookup l.target).isSome then min 1 ((links ++ [link]).count l) else 0 := by
  have hcount : (links ++ [link]).count l = links.count l + if link = l then 1 else 0 := by
    rw [List.count_append, List.count_singleton]
    simp
  have htaken : ∀ t : List (Link F),
      (t ++ [link]).count l = t.count l + if link = l then 1 else 0 := by
    intro t
    rw [List.count_append, List.count_singleton]
    simp
  rw [hcount, collectLink]
  cases hs : members.lookup link.source with
  | none =>
    simp only
    split
    · rename_i hcond
      rw [htaken, h]
      by_cases hl : link = l
      · subst hl
        have hzero := List.count_eq_zero.mpr hcond.2
        rw [h] at hzero
        simp only [hs, hcond.1, Option.isSome_none, Bool.false_eq_true, if_false,
          if_true] at hzero ⊢
        omega
      · simp [hl]
    · rename_i hcond
      rw [h]
      by_cases hl : link = l
      · subst hl
        simp only [hs, Option.isSome_none, Bool.false_eq_true, if_false, if_true]
        split_ifs with ht
        · have hmem : link ∈ acc.2 := by
            by_contra hno
            exact hcond ⟨ht, hno⟩
          have hpos := List.count_pos_iff.mpr hmem
          rw [h] at hpos
          simp only [hs, ht, Option.isSome_none, Bool.false_eq_true, if_false, if_true] at hpos
          omega
        · rfl
      · simp [hl]
  | some node =>
    have hin : ¬ ((members.lookup link.target).isSome = true ∧ link ∉ acc.2 ++ [link]) := by simp
    simp only [hin, if_false]
    rw [htaken, h]
    by_cases hl : link = l
    · subst hl
      simp [hs]
    · simp [hl]

theorem collectLink_outputs {acc : List (Value F × Node F × Link F) × List (Link F)} :
    (collectLink members apps acc link).1 =
      match members.lookup link.source with
      | none => acc.1
      | some node => if link.target ∈ apps then Association.set acc.1 node.id (node, link)
        else acc.1 := by
  rw [collectLink]
  cases members.lookup link.source with
  | none => split_ifs <;> rfl
  | some node => split_ifs <;> rfl

theorem Collected.snoc {acc : List (Value F × Node F × Link F) × List (Link F)}
    (hm : ∀ v n, members.lookup v = some n → n.id = v)
    (h : Collected members apps links acc.1 acc.2) :
    Collected members apps (links ++ [link]) (collectLink members apps acc link).1
      (collectLink members apps acc link).2 := by
  have hmore : ∀ v, (∃ l ∈ links ++ [link], l.source = v ∧ l.target ∈ apps) ↔
      (∃ l ∈ links, l.source = v ∧ l.target ∈ apps) ∨ link.source = v ∧ link.target ∈ apps := by
    intro v
    simp only [List.mem_append, List.mem_singleton]
    constructor
    · rintro ⟨l, hl | rfl, hv⟩
      · exact Or.inl ⟨l, hl, hv⟩
      · exact Or.inr hv
    · rintro (⟨l, hl, hv⟩ | hv)
      · exact ⟨l, Or.inl hl, hv⟩
      · exact ⟨link, Or.inr rfl, hv⟩
  refine ⟨?_, fun v => ?_, ?_, fun l => collectLink_taken (h.taken l)⟩
  · rw [collectLink_outputs]
    split
    · exact h.nodup
    · split_ifs
      · exact Association.nodup_set h.nodup
      · exact h.nodup
  · rw [collectLink_outputs, hmore]
    split
    · rename_i hs
      rw [h.leads]
      constructor
      · rintro ⟨hv, hl⟩
        exact ⟨hv, Or.inl hl⟩
      · rintro ⟨hv, hl | ⟨rfl, -⟩⟩
        · exact ⟨hv, hl⟩
        · simp [hs] at hv
    · rename_i node hs
      have hid := hm _ _ hs
      split_ifs with ht
      · rw [Association.mem_keys_set, h.leads, hid]
        constructor
        · rintro (rfl | ⟨hv, hl⟩)
          · exact ⟨by rw [hs]; rfl, Or.inr ⟨rfl, ht⟩⟩
          · exact ⟨hv, Or.inl hl⟩
        · rintro ⟨hv, hl | ⟨rfl, -⟩⟩
          · exact Or.inr ⟨hv, hl⟩
          · exact Or.inl rfl
      · rw [h.leads]
        constructor
        · rintro ⟨hv, hl⟩
          exact ⟨hv, Or.inl hl⟩
        · rintro ⟨hv, hl | ⟨-, hl⟩⟩
          · exact ⟨hv, hl⟩
          · exact absurd hl ht
  · rw [collectLink_outputs]
    split
    · exact h.outputs
    · rename_i node hs
      have hid := hm _ _ hs
      split_ifs with ht
      · rintro ⟨v, o⟩ ho
        rcases (Association.mem_set h.nodup).mp ho with ⟨rfl, rfl⟩ | ⟨-, ho⟩
        · exact ⟨rfl, hid.symm, ht⟩
        · exact h.outputs _ ho
      · exact h.outputs

theorem memberLinks_spec (hm : ∀ v n, members.lookup v = some n → n.id = v) :
    Collected members apps links (memberLinks members apps links).1
      (memberLinks members apps links).2 := by
  induction links using List.reverseRecOn with
  | nil =>
    refine ⟨by simp [memberLinks], by simp [memberLinks], by simp [memberLinks], fun link => ?_⟩
    split_ifs <;> simp [memberLinks]
  | append_singleton links link ih =>
    rw [memberLinks, List.foldl_append]
    exact ih.snoc hm

/-! The graph that is left. -/

/-- A node that is in the group of an application and is none of the two. -/
def Inside (input output : Node F) (nodes : List (Node F)) (v : Value F) : Prop :=
  ∃ n ∈ nodes, n.id = v ∧ n.parentId.isSome = true ∧ n.parentId = input.parentId ∧
    v ∉ [input.id, output.id]

/-- It has a link to one of the applications. -/
def LeadsOut (input output : Node F) (links : List (Link F)) (v : Value F) : Prop :=
  ∃ link ∈ links, link.source = v ∧ link.target ∈ [input.id, output.id]

/-- The links of the rest of the graph; a second copy of a link into the subgraph is one of them. -/
def Outside (input output : Node F) (nodes : List (Node F)) (links : List (Link F))
    (link : Link F) : Prop :=
  link ∈ links ∧ ¬ Inside input output nodes link.source ∧
    (Inside input output nodes link.target → 2 ≤ links.count link)

structure Extracted (input output : Node F) (nodes : List (Node F)) (links : List (Link F))
    (nodes' : List (Node F)) (links' : List (Link F)) : Prop where
  sublist : nodes'.Sublist nodes
  remaining : ∀ n, n ∈ nodes' ↔ n ∈ nodes ∧
    (Inside input output nodes n.id → LeadsOut input output links n.id)
  kept : ∀ link, Outside input output nodes links link → link ∈ links'
  rest : ∀ link ∈ links', Outside input output nodes links link ∨
    link.source ∈ [input.id, output.id] ∧ Inside input output nodes link.target ∧
      LeadsOut input output links link.target ∨
    Inside input output nodes link.source ∧ LeadsOut input output links link.source ∧
      link.target ∈ [input.id, output.id]

omit [DecidableEq F] in
theorem eq_of_id (hn : (ids nodes).Nodup) (h : n ∈ nodes) (h' : m ∈ nodes) (he : n.id = m.id) :
    n = m := List.inj_on_of_nodup_map hn h h' he

theorem mem_membersOf (hn : (ids nodes).Nodup) : n ∈ membersOf input output nodes ↔
    n ∈ nodes ∧ Inside input output nodes n.id := by
  rw [membersOf, List.mem_filter, decide_eq_true_eq]
  constructor
  · rintro ⟨h, hp, hi, ha⟩
    exact ⟨h, n, h, rfl, hp, hi, ha⟩
  · rintro ⟨h, m, hm, he, hp, hi, ha⟩
    obtain rfl := eq_of_id hn hm h he
    exact ⟨h, hp, hi, ha⟩

theorem lookup_members (input output : Node F) (hn : (ids nodes).Nodup) :
    (∀ n v, (dictOf ((membersOf input output nodes).map fun n => (n.id, n))).lookup v = some n ↔
      n ∈ membersOf input output nodes ∧ n.id = v) ∧
    (dictOf ((membersOf input output nodes).map fun n => (n.id, n))).map (·.2) =
      membersOf input output nodes := by
  have hkeys : (((membersOf input output nodes).map fun n => (n.id, n)).map Prod.fst).Nodup := by
    have hsub : (ids (membersOf input output nodes)).Nodup :=
      (List.filter_sublist.map _).nodup hn
    simpa [ids, Function.comp_def] using hsub
  rw [dictOf_eq hkeys]
  constructor
  · intro n v
    rw [← Association.mem_iff_lookup hkeys, List.mem_map]
    constructor
    · rintro ⟨m, hm, he⟩
      obtain ⟨rfl, rfl⟩ := Prod.mk.inj he
      exact ⟨hm, rfl⟩
    · rintro ⟨hm, rfl⟩
      exact ⟨n, hm, rfl⟩
  · simp [Function.comp_def]

theorem extractSubgraphNodes_spec (input output : Node F) (links : List (Link F))
    (hn : (ids nodes).Nodup) :
    Extracted input output nodes links (extractSubgraphNodes input output nodes links).2.2.1
      (extractSubgraphNodes input output nodes links).2.2.2 := by
  obtain ⟨hlookup, hvalues⟩ := lookup_members input output hn
  have hsome : ∀ v, ((dictOf ((membersOf input output nodes).map fun n => (n.id, n))).lookup
      v).isSome = true ↔ Inside input output nodes v := by
    intro v
    rw [Option.isSome_iff_exists]
    constructor
    · rintro ⟨n, h⟩
      obtain ⟨hm, rfl⟩ := (hlookup n v).mp h
      exact ((mem_membersOf hn).mp hm).2
    · rintro ⟨n, hmem, rfl, h⟩
      exact ⟨n, (hlookup _ _).mpr ⟨(mem_membersOf hn).mpr ⟨hmem, n, hmem, rfl, h⟩, rfl⟩⟩
  have hspec : Collected _ [input.id, output.id] links _ _ :=
    memberLinks_spec fun v n h => ((hlookup n v).mp h).2
  have hkeys : ∀ v, v ∈ (memberLinks (dictOf ((membersOf input output nodes).map
      fun n => (n.id, n))) [input.id, output.id] links).1.map Prod.fst ↔
      Inside input output nodes v ∧ LeadsOut input output links v := by
    intro v
    rw [hspec.leads, hsome]
    rfl
  have hcount : ∀ link : Link F, link ∈ (memberLinks (dictOf ((membersOf input output nodes).map
      fun n => (n.id, n))) [input.id, output.id] links).2.foldl (fun ls e => ls.erase e) links ↔
      Outside input output nodes links link := by
    intro link
    rw [← List.count_pos_iff, count_foldl_erase, hspec.taken, Outside, ← List.count_pos_iff]
    split_ifs with hs ht
    · have := (hsome _).mp hs
      simp [this]
    · have hs := mt (hsome _).mpr hs
      have ht := (hsome _).mp ht
      simp only [hs, ht, not_false_eq_true, true_and, true_implies]
      omega
    · have hs := mt (hsome _).mpr hs
      have ht := mt (hsome _).mpr ht
      simp [hs, ht]
  generalize hacc : memberLinks (dictOf ((membersOf input output nodes).map fun n => (n.id, n)))
    [input.id, output.id] links = acc at hspec hkeys hcount
  have hnodes : (extractSubgraphNodes input output nodes links).2.2.1 =
      (membersOf input output nodes).foldl
        (fun l e => if (acc.1.lookup e.id).isSome then l else l.erase e) nodes := by
    simp only [extractSubgraphNodes, hvalues, hacc]
  have hlinks : (extractSubgraphNodes input output nodes links).2.2.2 =
      acc.2.foldl (fun ls e => ls.erase e) links ++
        acc.1.flatMap fun o => [⟨input.id, o.2.1.id, []⟩, o.2.2] := by
    simp only [extractSubgraphNodes, hacc]
  rw [hnodes, hlinks]
  refine ⟨foldl_erase_unless_sublist, fun n => ?_, fun link h => ?_, fun link h => ?_⟩
  · rw [mem_foldl_erase_unless (List.Nodup.of_map _ hn), mem_membersOf hn,
      Association.isSome_lookup_iff, hkeys]
    constructor
    · rintro ⟨hmem, h⟩
      exact ⟨hmem, fun hin => (h ⟨hmem, hin⟩).2⟩
    · rintro ⟨hmem, h⟩
      exact ⟨hmem, fun hin => ⟨hin.2, h hin.2⟩⟩
  · exact List.mem_append_left _ ((hcount link).mpr h)
  · rcases List.mem_append.mp h with h | h
    · exact Or.inl ((hcount link).mp h)
    · obtain ⟨o, ho, hlink⟩ := List.mem_flatMap.mp h
      obtain ⟨hid, hsource, htarget⟩ := hspec.outputs o ho
      obtain ⟨hin, hleads⟩ := (hkeys o.1).mp (List.mem_map_of_mem ho)
      simp only [List.mem_cons, List.not_mem_nil, or_false] at hlink
      rcases hlink with rfl | rfl
      · exact Or.inr (Or.inl ⟨by simp, by rwa [hid], by rwa [hid]⟩)
      · exact Or.inr (Or.inr ⟨by rwa [hsource], by rwa [hsource], htarget⟩)

/-! A graph with one SubGraph that is converted. -/

/-- What the loop relies on: the graph is well formed, no node is its own parent, and the
applications of the SubGraphs have ids of their own. -/
structure Ready (supply : Supply F) (g : Graph F) : Prop where
  wellFormed : WellFormed g
  notOwn : ∀ n ∈ g.nodes, n.parentId ≠ some n.id
  buildable : ∀ n ∈ g.nodes, convertible n = true → ∃ v, Buildable n v ∧ v ∉ ids g.nodes ∧
    ∀ k, supply.uuid k ≠ v
  fresh : ∀ k, supply.uuid k ∉ ids g.nodes

/-- A member of a SubGraph has a link to its applications. -/
def Leads (g : Graph F) (s m : Node F) : Prop :=
  ∃ link ∈ g.links, link.source = m.id ∧ link.target = s.id

/-- Nothing outside refers to what leaves the graph. -/
structure SelfContained (g : Graph F) (s : Node F) : Prop where
  groups : ∀ m ∈ g.nodes, m.parentId = some s.id → ¬ Leads g s m →
    ∀ n ∈ g.nodes, n.parentId ≠ some m.id
  once : ∀ m ∈ g.nodes, m.parentId = some s.id → ¬ Leads g s m →
    ∀ link ∈ g.links, link.target = m.id →
      (∀ x ∈ g.nodes, x.parentId = some s.id → x.id ≠ link.source) → g.links.count link ≤ 1

/-- The nodes of a graph, some of them with flags. -/
structure FlaggedList (nodes nodes' : List (Node F)) : Prop where
  ids : ids nodes' = ids nodes
  back : ∀ n' ∈ nodes', ∃ n ∈ nodes, Flagged n n'
  forth : ∀ n ∈ nodes, ∃ n' ∈ nodes', Flagged n n'

omit [DecidableEq F] in
theorem getElem?_ids {k : Nat} (h : nodes[k]? = some n) : (ids nodes)[k]? = some n.id := by
  rw [ids, List.getElem?_map, h]
  rfl

omit [DecidableEq F] in
theorem place_unique {j : Nat} (hn : (ids nodes).Nodup) (hi : nodes[i]? = some n)
    (hj : nodes[j]? = some m) (he : n.id = m.id) : i = j := by
  have hlt := (List.getElem?_eq_some_iff.mp (getElem?_ids hi)).1
  refine (List.getElem?_inj hlt hn).mp ?_
  rw [getElem?_ids hi, getElem?_ids hj, he]

omit [DecidableEq F] in
theorem mem_set_of_nodup (hn : (ids nodes).Nodup) (hi : nodes[i]? = some n) :
    m ∈ nodes.set i node ↔ m = node ∨ m ∈ nodes ∧ m.id ≠ n.id := by
  have hlt := (List.getElem?_eq_some_iff.mp hi).1
  rw [List.mem_iff_getElem?, List.mem_iff_getElem?]
  constructor
  · rintro ⟨j, hj⟩
    by_cases hij : i = j
    · subst hij
      rw [List.getElem?_set_self hlt] at hj
      exact Or.inl (Option.some.inj hj).symm
    · rw [List.getElem?_set_ne hij] at hj
      exact Or.inr ⟨⟨j, hj⟩, fun he => hij (place_unique hn hi hj he.symm)⟩
  · rintro (rfl | ⟨⟨j, hj⟩, hne⟩)
    · exact ⟨i, by rw [List.getElem?_set_self hlt]⟩
    · refine ⟨j, ?_⟩
      have hij : i ≠ j := by
        rintro rfl
        rw [hi] at hj
        exact hne (by rw [Option.some.inj hj])
      rw [List.getElem?_set_ne hij, hj]

/-- A parent after one SubGraph has got a new id. -/
def reparent (old new : Value F) (parent : Option (Value F)) : Option (Value F) :=
  parent.map fun p => if p = old then new else p

theorem updateParent_single {old new : Value F} (n : Node F) :
    (updateParent [(old, new)] n).parentId = reparent old new n.parentId := by
  cases hp : n.parentId with
  | none => rw [updateParent, hp]; exact hp
  | some p =>
    rw [updateParent_parentId hp, reparent, Option.map_some]
    by_cases h : p = old
    · simp [h]
    · simp [h, List.lookup_cons, beq_eq_false_iff_ne.mpr h]

theorem reparent_eq_new {old new : Value F} {parent : Option (Value F)}
    (h : parent ≠ some new) : reparent old new parent = some new ↔ parent = some old := by
  cases parent with
  | none => simp [reparent]
  | some p =>
    rw [reparent, Option.map_some, Option.some.injEq, Option.some.injEq]
    split
    · simp_all
    · rename_i hne
      exact ⟨fun he => absurd (congrArg some he) h, fun he => absurd he hne⟩

theorem reparent_eq_other {old new p : Value F} {parent : Option (Value F)} (hnew : p ≠ new)
    (hold : p ≠ old) : reparent old new parent = some p ↔ parent = some p := by
  cases parent with
  | none => simp [reparent]
  | some q =>
    rw [reparent, Option.map_some, Option.some.injEq, Option.some.injEq]
    split
    · rename_i he
      exact ⟨fun h => absurd h.symm hnew, fun h => absurd (h.symm.trans he) hold⟩
    · rfl

/-- The nodes while the SubGraph is taken out: those of the graph, under its new id the SubGraph,
and the two applications. -/
structure Joined (g : Graph F) (s : Node F) (outputId new : Value F) (input output : Node F)
    (nodes : List (Node F)) : Prop where
  nodup : (ids nodes).Nodup
  inputId : input.id = s.id
  inputParent : input.parentId = some new
  outputId : output.id = outputId
  outputParent : output.parentId = some new
  input_mem : input ∈ nodes
  output_mem : output ∈ nodes
  back : ∀ n' ∈ nodes, n' = input ∨ n' = output ∨
    ∃ n ∈ g.nodes, n'.id = (if n.id = s.id then new else n.id) ∧
      n'.parentId = reparent s.id new n.parentId
  forth : ∀ n ∈ g.nodes, ∃ n' ∈ nodes, n'.id = (if n.id = s.id then new else n.id) ∧
      n'.parentId = reparent s.id new n.parentId

/-! The links while the SubGraph is taken out. -/

theorem connectLink_source (input output : Node F) (nodes : List (Node F)) (link : Link F) :
    (connectLink input output nodes link).source = link.source ∨
      link.source = input.id ∧ (connectLink input output nodes link).source = output.id := by
  rw [connectLink]
  split_ifs with h₁ h₂ h₂
  · exact Or.inr ⟨h₂.1, rfl⟩
  · exact Or.inl rfl
  · exact Or.inr ⟨h₂.1, rfl⟩
  · exact Or.inl rfl

theorem connectLink_target (input output : Node F) (nodes : List (Node F)) (link : Link F) :
    (connectLink input output nodes link).target = link.target ∨
      link.target = input.id ∧ (connectLink input output nodes link).target = output.id := by
  rw [connectLink]
  split_ifs with h₁ h₂ h₂
  · exact Or.inr ⟨h₁.1, rfl⟩
  · exact Or.inr ⟨h₁.1, rfl⟩
  · exact Or.inl rfl
  · exact Or.inl rfl

/-- A link to a member is not changed. -/
theorem connectLink_eq (ht : link.target ≠ input.id)
    (h : ∀ n ∈ nodes, n.id = link.target → n.parentId = input.parentId) :
    connectLink input output nodes link = link := by
  have hfirst : ¬ (link.target = input.id ∧
      nodes.any (fun n => n.id = link.source ∧ n.parentId = input.parentId)) := fun hc => ht hc.1
  rw [connectLink, if_neg hfirst, if_neg]
  rintro ⟨-, hany⟩
  obtain ⟨n, hn, hcond⟩ := List.any_eq_true.mp hany
  have hcond := of_decide_eq_true hcond
  exact hcond.2 (h n hn hcond.1)

/-- The links of the graph, connected to the applications of one SubGraph. -/
structure Connected (g : Graph F) (s : Node F) (outputId : Value F) (links : List (Link F)) :
    Prop where
  back : ∀ l' ∈ links, ∃ l ∈ g.links,
    (l'.source = l.source ∨ l.source = s.id ∧ l'.source = outputId) ∧
    (l'.target = l.target ∨ l.target = s.id ∧ l'.target = outputId)
  forth : ∀ l ∈ g.links, ∃ l' ∈ links,
    (l'.source = l.source ∨ l.source = s.id ∧ l'.source = outputId) ∧
    (l'.target = l.target ∨ l.target = s.id ∧ l'.target = outputId)
  count : ∀ m ∈ g.nodes, m.parentId = some s.id → ∀ l, l.target = m.id →
    links.count l = g.links.count l

theorem connected {outputId : Value F} (hw : WellFormed g)
    (hown : ∀ n ∈ g.nodes, n.parentId ≠ some n.id)
    (hout : outputId ∉ ids g.nodes) (hf : FlaggedList g.nodes nodes)
    (hinput : input.id = node.id) (hparent : input.parentId = some node.id)
    (houtput : output.id = outputId) :
    Connected g node outputId (g.links.map (connectLink input output nodes)) := by
  have hends : ∀ l, ((connectLink input output nodes l).source = l.source ∨
      l.source = node.id ∧ (connectLink input output nodes l).source = outputId) ∧
      ((connectLink input output nodes l).target = l.target ∨
      l.target = node.id ∧ (connectLink input output nodes l).target = outputId) := by
    intro l
    rw [← hinput, ← houtput]
    exact ⟨connectLink_source input output nodes l, connectLink_target input output nodes l⟩
  refine ⟨fun l' hl' => ?_, fun l hl => ⟨_, List.mem_map_of_mem hl, hends l⟩,
    fun m hm hp l hl => ?_⟩
  · obtain ⟨l, hl, rfl⟩ := List.mem_map.mp hl'
    exact ⟨l, hl, hends l⟩
  · have hne : m.id ≠ node.id := fun he => hown m hm (by rw [hp, he])
    have hsame : ∀ l₀ ∈ g.links, connectLink input output nodes l₀ = l ↔ l₀ = l := by
      intro l₀ _
      constructor
      · intro he
        have ht : l₀.target = m.id := by
          rcases (hends l₀).2 with h | ⟨-, h⟩
          · rw [← h, he, hl]
          · have hmid : outputId = m.id := by rw [← h, he, hl]
            exact absurd (hmid ▸ mem_ids hm) hout
        rw [← he, connectLink_eq (by rw [ht, hinput]; exact hne)]
        intro n' hn' hid
        obtain ⟨n, hn, hflag⟩ := hf.back n' hn'
        obtain rfl := eq_of_id hw.nodup hn hm (by rw [← hflag.id, hid, ht])
        rw [hflag.parentId, hp, hparent]
      · rintro rfl
        refine connectLink_eq (by rw [hl, hinput]; exact hne) ?_
        intro n' hn' hid
        obtain ⟨n, hn, hflag⟩ := hf.back n' hn'
        obtain rfl := eq_of_id hw.nodup hn hm (by rw [← hflag.id, hid, hl])
        rw [hflag.parentId, hp, hparent]
    rw [List.count_eq_countP, List.countP_map, List.count_eq_countP]
    refine List.countP_congr fun l₀ h₀ => ?_
    simpa using hsame l₀ h₀

/-! What is left refers to itself exactly when the SubGraph is self-contained. -/

section Left

variable {outputId new : Value F} (hj : Joined g node outputId new input output nodes)
  (hc : Connected g node outputId links) (hw : WellFormed g)
  (hown : ∀ n ∈ g.nodes, n.parentId ≠ some n.id) (hnode : node ∈ g.nodes)
  (hout : outputId ∉ ids g.nodes) (hnew : new ∉ ids g.nodes)

include hj hw hown hout hnew in
theorem inside_iff : Inside input output nodes v ↔
    ∃ m ∈ g.nodes, m.id = v ∧ m.parentId = some node.id := by
  have hparent : ∀ n ∈ g.nodes, n.parentId ≠ some new := fun n hn hp =>
    hnew (hw.parents n hn new hp)
  constructor
  · rintro ⟨n', hn', rfl, -, hp, happ⟩
    rw [hj.inputId, hj.outputId] at happ
    rcases hj.back n' hn' with rfl | rfl | ⟨n, hn, hid, hpar⟩
    · exact absurd (by rw [hj.inputId]; simp) happ
    · exact absurd (by rw [hj.outputId]; simp) happ
    · rw [hpar, hj.inputParent, reparent_eq_new (hparent n hn)] at hp
      have hns : n.id ≠ node.id := fun he => hown n hn (by rw [hp, he])
      exact ⟨n, hn, by rw [hid, if_neg hns], hp⟩
  · rintro ⟨m, hm, rfl, hp⟩
    have hns : m.id ≠ node.id := fun he => hown m hm (by rw [hp, he])
    obtain ⟨n', hn', hid, hpar⟩ := hj.forth m hm
    have hpar : n'.parentId = some new := hpar.trans ((reparent_eq_new (hparent m hm)).mpr hp)
    rw [if_neg hns] at hid
    refine ⟨n', hn', hid, by rw [hpar]; rfl, by rw [hpar, hj.inputParent], ?_⟩
    rw [hj.inputId, hj.outputId]
    simp only [List.mem_cons, List.not_mem_nil, or_false, not_or]
    exact ⟨hns, fun he => hout (he ▸ List.mem_map_of_mem hm)⟩

include hj hc hw hown hout in
theorem leadsOut_iff (hm : m ∈ g.nodes) (hp : m.parentId = some node.id) :
    LeadsOut input output links m.id ↔ Leads g node m := by
  have hns : m.id ≠ node.id := fun he => hown m hm (by rw [hp, he])
  have hmid : m.id ∈ ids g.nodes := mem_ids hm
  rw [LeadsOut, hj.inputId, hj.outputId]
  simp only [List.mem_cons, List.not_mem_nil, or_false]
  constructor
  · rintro ⟨l', hl', hs, ht⟩
    obtain ⟨l, hl, hsource, htarget⟩ := hc.back l' hl'
    refine ⟨l, hl, ?_, ?_⟩
    · rcases hsource with h | ⟨-, h⟩
      · rw [← h, hs]
      · exact absurd (by rw [← h, hs]; exact hmid) hout
    · rcases htarget with h | ⟨h, -⟩
      · rcases ht with ht | ht
        · rw [← h, ht]
        · exact absurd (by rw [← ht, h]; exact (hw.links l hl).2) hout
      · exact h
  · rintro ⟨l, hl, hs, ht⟩
    obtain ⟨l', hl', hsource, htarget⟩ := hc.forth l hl
    refine ⟨l', hl', ?_, ?_⟩
    · rcases hsource with h | ⟨h, -⟩
      · rw [h, hs]
      · exact absurd (hs.symm.trans h) hns
    · rcases htarget with h | ⟨-, h⟩
      · exact Or.inl (h.trans ht)
      · exact Or.inr h

variable {nodes' : List (Node F)} {links' : List (Link F)}
  (he : Extracted input output nodes links nodes' links')

include he in
/-- What is left of the ids. -/
theorem mem_ids_left (hv : v ∈ ids nodes) : v ∈ ids nodes' ↔
    (Inside input output nodes v → LeadsOut input output links v) := by
  obtain ⟨n, hn, rfl⟩ := List.mem_map.mp hv
  constructor
  · intro hm
    obtain ⟨n', hn', hid⟩ := List.mem_map.mp hm
    rw [← hid]
    exact ((he.remaining n').mp hn').2
  · intro h
    exact mem_ids ((he.remaining n).mpr ⟨hn, h⟩)

include hj in
theorem mem_ids_joined (hv : v ∈ ids g.nodes) : v ∈ ids nodes := by
  obtain ⟨n, hn, rfl⟩ := List.mem_map.mp hv
  by_cases hs : n.id = node.id
  · rw [hs, ← hj.inputId]
    exact mem_ids hj.input_mem
  · obtain ⟨n', hn', hid, -⟩ := hj.forth n hn
    rw [if_neg hs] at hid
    exact hid ▸ mem_ids hn'

include hj hc hw hown hout hnew he in
/-- A member that has no link to the SubGraph's applications is gone. -/
theorem mem_left_iff_leads (hm : m ∈ g.nodes) (hp : m.parentId = some node.id) :
    m.id ∈ ids nodes' ↔ Leads g node m := by
  rw [mem_ids_left he (mem_ids_joined hj (mem_ids hm)), ← leadsOut_iff hj hc hw hown hout hm hp]
  exact ⟨fun h => h ((inside_iff hj hw hown hout hnew).mpr ⟨m, hm, rfl, hp⟩), fun h _ => h⟩

include hj hc hw hown hout hnew he in
/-- No member is left over whose parent is gone, and no link to one. -/
theorem selfContained_of_left (h : WellFormed ⟨nodes', links'⟩) : SelfContained g node := by
  have hgone : ∀ m ∈ g.nodes, m.parentId = some node.id → ¬ Leads g node m → m.id ∉ ids nodes' :=
    fun m hm hp hl hmem => hl ((mem_left_iff_leads hj hc hw hown hout hnew he hm hp).mp hmem)
  refine ⟨fun m hm hp hl n hn hpar => ?_, fun m hm hp hl link hlink ht hsource => ?_⟩
  · have hmnew : m.id ≠ new := fun heq => hnew (heq ▸ mem_ids hm)
    have hmold : m.id ≠ node.id := fun heq => hown m hm (by rw [hp, heq])
    obtain ⟨n', hn', -, hpar'⟩ := hj.forth n hn
    have hpar' : n'.parentId = some m.id :=
      hpar'.trans ((reparent_eq_other hmnew hmold).mpr hpar)
    have hkeep : n' ∈ nodes' := by
      refine (he.remaining n').mpr ⟨hn', ?_⟩
      rintro ⟨n₂, hn₂, hid, -, hp₂, -⟩
      obtain rfl := eq_of_id hj.nodup hn₂ hn' hid
      rw [hpar', hj.inputParent] at hp₂
      exact absurd (Option.some.inj hp₂) hmnew
    exact hgone m hm hp hl (h.parents n' hkeep m.id hpar')
  · by_contra hcount
    have htwice : 2 ≤ links.count link := by
      rw [hc.count m hm hp link ht]
      omega
    have hmem : link ∈ links := List.count_pos_iff.mp (by omega)
    have hout' : Outside input output nodes links link := by
      refine ⟨hmem, fun hin => ?_, fun _ => htwice⟩
      obtain ⟨x, hx, hid, hpx⟩ := (inside_iff hj hw hown hout hnew).mp hin
      exact hsource x hx hpx hid
    have hend := (h.links link (he.kept link hout')).2
    rw [ht] at hend
    exact hgone m hm hp hl hend

include hj he in
/-- The applications are left. -/
theorem mem_left_of_app (hv : v ∈ [input.id, output.id]) : v ∈ ids nodes' := by
  have hmem : v ∈ ids nodes := by
    simp only [List.mem_cons, List.not_mem_nil, or_false] at hv
    rcases hv with rfl | rfl
    · exact mem_ids hj.input_mem
    · exact mem_ids hj.output_mem
  refine (mem_ids_left he hmem).mpr ?_
  rintro ⟨n, -, -, -, -, hno⟩
  exact absurd hv hno

include he in
theorem mem_left_of_leadsOut (hin : Inside input output nodes v)
    (hl : LeadsOut input output links v) : v ∈ ids nodes' := by
  obtain ⟨n, hn, rfl, -⟩ := hin
  exact (mem_ids_left he (mem_ids hn)).mpr fun _ => hl

include hj hw hown hnode hout hnew he in
/-- The SubGraph is left, under its new id. -/
theorem new_mem_left : new ∈ ids nodes' := by
  obtain ⟨n', hn', hid, -⟩ := hj.forth node hnode
  rw [if_pos rfl] at hid
  refine (mem_ids_left he (hid ▸ mem_ids hn')).mpr fun hin => ?_
  obtain ⟨m, hm, hid, -⟩ := (inside_iff hj hw hown hout hnew).mp hin
  exact absurd (hid ▸ mem_ids hm) hnew

include hj hc hw hown hout hnew he in
/-- The links that are left are between nodes that are. -/
theorem left_links (h : SelfContained g node) {link : Link F} (hlink : link ∈ links') :
    link.source ∈ ids nodes' ∧ link.target ∈ ids nodes' := by
  rcases he.rest link hlink with ⟨hmem, hs, ht⟩ | ⟨hs, ht, hl⟩ | ⟨hs, hl, ht⟩
  · obtain ⟨l, hl, hsource, htarget⟩ := hc.back link hmem
    have houtput : outputId ∈ ids nodes := hj.outputId ▸ mem_ids hj.output_mem
    have hsmem : link.source ∈ ids nodes := by
      rcases hsource with heq | ⟨-, heq⟩
      · exact heq ▸ mem_ids_joined hj (hw.links l hl).1
      · exact heq ▸ houtput
    have htmem : link.target ∈ ids nodes := by
      rcases htarget with heq | ⟨-, heq⟩
      · exact heq ▸ mem_ids_joined hj (hw.links l hl).2
      · exact heq ▸ houtput
    refine ⟨(mem_ids_left he hsmem).mpr fun hin => absurd hin hs, ?_⟩
    by_cases hin : Inside input output nodes link.target
    · -- the link is there twice, which a link to a member that leaves is not
      obtain ⟨m, hm, hid, hp⟩ := (inside_iff hj hw hown hout hnew).mp hin
      rw [← hid, mem_left_iff_leads hj hc hw hown hout hnew he hm hp]
      by_contra hno
      have htwice := ht hin
      rw [hc.count m hm hp link hid.symm] at htwice
      have honce := h.once m hm hp hno link (List.count_pos_iff.mp (by omega)) hid.symm
        fun x hx hpx hidx => hs ((inside_iff hj hw hown hout hnew).mpr ⟨x, hx, hidx, hpx⟩)
      omega
    · exact (mem_ids_left he htmem).mpr fun hin' => absurd hin' hin
  · exact ⟨mem_left_of_app hj he hs, mem_left_of_leadsOut he ht hl⟩
  · exact ⟨mem_left_of_leadsOut he hs hl, mem_left_of_app hj he ht⟩

include hj hc hw hown hnode hout hnew he in
/-- The parents of the nodes that are left are left. -/
theorem left_parents (h : SelfContained g node) {n' : Node F} (hn' : n' ∈ nodes') {p : Value F}
    (hp : n'.parentId = some p) : p ∈ ids nodes' := by
  have hnewId := new_mem_left hj hw hown hnode hout hnew he
  rcases hj.back n' (he.sublist.subset hn') with rfl | rfl | ⟨n, hn, -, hpar⟩
  · rw [hj.inputParent] at hp
    exact Option.some.inj hp ▸ hnewId
  · rw [hj.outputParent] at hp
    exact Option.some.inj hp ▸ hnewId
  · rw [hp] at hpar
    cases hq : n.parentId with
    | none => simp [hq, reparent] at hpar
    | some q =>
      rw [hq, reparent, Option.map_some, Option.some.injEq] at hpar
      split at hpar
      · exact hpar ▸ hnewId
      · subst hpar
        refine (mem_ids_left he (mem_ids_joined hj (hw.parents n hn p hq))).mpr fun hin => ?_
        obtain ⟨m, hm, hid, hpm⟩ := (inside_iff hj hw hown hout hnew).mp hin
        rw [← hid, leadsOut_iff hj hc hw hown hout hm hpm]
        by_contra hno
        exact h.groups m hm hpm hno n hn (by rw [hq, hid])

include hj hc hw hown hnode hout hnew he in
theorem left_wellFormed_iff : WellFormed ⟨nodes', links'⟩ ↔ SelfContained g node :=
  ⟨selfContained_of_left hj hc hw hown hout hnew he, fun h =>
    ⟨⟨fun _ hlink => left_links hj hc hw hown hout hnew he h hlink,
      fun _ hn' _ hp => left_parents hj hc hw hown hnode hout hnew he h hn' hp⟩,
      (he.sublist.map _).nodup hj.nodup⟩⟩

end Left

/-! One turn of the loop. -/

/-- The nodes after the SubGraph at one place has got its new id and its applications are there. -/
def joinedNodes (s : Extraction F) (i : Nat) (node input output : Node F) (new : Value F) :
    List (Node F) :=
  (s.nodes.set i { node with id := new } ++
    (s.newNodes ++ [input, { output with parentId := some input.id }])).map
      (updateParent (Association.set s.oldNewGrpk input.id new))

theorem convertSubgraph_eq (supply : Supply F) (s : Extraction F) (i : Nat) {v : Value F}
    (ha : AppsOf node v input output) :
    ∃ s', convertSubgraph supply s i node = .ok s' ∧
      s'.oldNewGrpk = Association.set s.oldNewGrpk node.id (supply.uuid s.used) ∧
      s'.used = s.used + 2 ∧
      s'.newNodes = (s.newNodes ++ [input, { output with parentId := some input.id }]).map
        (updateParent s'.oldNewGrpk) ∧
      (s'.nodes, s'.links) = (extractSubgraphNodes (updateParent s'.oldNewGrpk input)
        (updateParent s'.oldNewGrpk { output with parentId := some input.id })
        (joinedNodes s i node input output (supply.uuid s.used))
        (s.links.map (connectLink input output s.nodes))).2.2 := by
  refine ⟨_, by rw [convertSubgraph, ha.built, ok_bind]; rfl, ?_, rfl, rfl, rfl⟩
  rw [ha.inputId]

theorem updateParent_convertible (map : List (Value F × Value F)) :
    convertible (updateParent map n) = convertible n := by
  rw [updateParent]
  split <;> rfl

theorem updateParent_isSubGraph (map : List (Value F × Value F)) :
    isSubGraph (updateParent map n) = isSubGraph n := by
  rw [updateParent]
  split <;> rfl

theorem updateParent_buildable (map : List (Value F × Value F)) (h : Buildable n v) :
    Buildable (updateParent map n) v := by
  rw [updateParent]
  split
  · exact ⟨h.unnamedId, h.unnamedCategory, h.output, h.apps⟩
  · exact h

/-- What comes after a place of the joined nodes. -/
theorem mem_drop_joined {new : Value F}
    (h : m ∈ (joinedNodes s i node input output new).drop (i + 1)) :
    ∃ x, (x ∈ s.nodes.drop (i + 1) ∨ x ∈ s.newNodes ∨ x = input ∨
      x = { output with parentId := some input.id }) ∧
      m = updateParent (Association.set s.oldNewGrpk input.id new) x := by
  rw [joinedNodes, ← List.map_drop] at h
  obtain ⟨x, hx, rfl⟩ := List.mem_map.mp h
  refine ⟨x, ?_, rfl⟩
  rw [List.drop_append, List.drop_set_of_lt (by omega)] at hx
  rcases List.mem_append.mp hx with hx | hx
  · exact Or.inl hx
  · have hx := List.mem_of_mem_drop hx
    simp only [List.mem_append, List.mem_cons, List.not_mem_nil, or_false] at hx
    tauto

/-- The SubGraph at a place of the list, when it is the first one. -/
theorem joined_first {v : Value F} {old : Node F} (hr : Ready supply g) (hold : old ∈ g.nodes)
    (hf : FlaggedList g.nodes s.nodes) (hi : s.nodes[i]? = some node) (hflag : Flagged old node)
    (hv : v ∉ ids g.nodes) (hfresh : ∀ k, supply.uuid k ≠ v) (ha : AppsOf node v input output)
    (hnew : s.newNodes = []) (hmap : s.oldNewGrpk = []) :
    Joined g old v (supply.uuid s.used) (updateParent [(old.id, supply.uuid s.used)] input)
      (updateParent [(old.id, supply.uuid s.used)] { output with parentId := some input.id })
      (joinedNodes s i node input output (supply.uuid s.used)) := by
  have hw := hr.wellFormed
  have hn : (ids s.nodes).Nodup := hf.ids ▸ hw.nodup
  have hid : node.id = old.id := hflag.id
  have hinput : input.id = old.id := ha.inputId.trans hid
  have hnewId : ∀ k, supply.uuid k ∉ ids s.nodes := fun k => hf.ids ▸ hr.fresh k
  have holdMem : old.id ∈ ids g.nodes := mem_ids hold
  have hmem : ∀ m', m' ∈ joinedNodes s i node input output (supply.uuid s.used) ↔
      ∃ m, (m = { node with id := supply.uuid s.used } ∨ (m ∈ s.nodes ∧ m.id ≠ old.id) ∨
        m = input ∨ m = { output with parentId := some input.id }) ∧
        m' = updateParent [(old.id, supply.uuid s.used)] m := by
    intro m'
    have hset : Association.set s.oldNewGrpk input.id (supply.uuid s.used) =
        [(old.id, supply.uuid s.used)] := by rw [hmap, hinput]; rfl
    rw [joinedNodes, hnew, hset, List.mem_map, List.nil_append]
    refine exists_congr fun m => ?_
    rw [List.mem_append, mem_set_of_nodup hn hi, hid, or_assoc, eq_comm (a := m')]
    simp only [List.mem_cons, List.not_mem_nil, or_false]
  refine ⟨?_, ?_, ?_, ?_, ?_, ?_, ?_, fun n' hn' => ?_, fun n hn' => ?_⟩
  · rw [joinedNodes, ids_updateParent, hnew, List.nil_append, ids, List.map_append, List.map_set]
    have hset := hn.set (n := i) (hnewId s.used)
    refine List.nodup_append.mpr ⟨hset, ?_, ?_⟩
    · simp only [List.map_cons, List.map_nil, List.nodup_cons, List.mem_singleton, hinput,
        ha.outputId]
      refine ⟨fun he => hv (he ▸ holdMem), by simp, by simp⟩
    · intro a hset' b hb hab
      subst hab
      have hrenamed : a ∈ (s.nodes.set i { node with id := supply.uuid s.used }).map (·.id) := by
        rw [List.map_set]
        exact hset'
      obtain ⟨m, hm, rfl⟩ := List.mem_map.mp hrenamed
      simp only [List.map_cons, List.map_nil, List.mem_cons, List.not_mem_nil, or_false, hinput,
        ha.outputId] at hb
      rcases (mem_set_of_nodup hn hi).mp hm with rfl | ⟨hm, hne⟩
      · rcases hb with hb | hb
        · have hb : supply.uuid s.used = old.id := hb
          exact hr.fresh s.used (hb ▸ holdMem)
        · exact hfresh s.used hb
      · rcases hb with hb | hb
        · exact hne (hb.trans hid.symm)
        · exact hv (hb ▸ hf.ids ▸ mem_ids hm)
  · rw [updateParent_id, hinput]
  · rw [updateParent_single, ha.inputParent, hid, reparent, Option.map_some, if_pos rfl]
  · rw [updateParent_id]
    exact ha.outputId
  · rw [updateParent_single, hinput, reparent, Option.map_some, if_pos rfl]
  · exact (hmem _).mpr ⟨input, Or.inr (Or.inr (Or.inl rfl)), rfl⟩
  · exact (hmem _).mpr ⟨_, Or.inr (Or.inr (Or.inr rfl)), rfl⟩
  · obtain ⟨m, hm, rfl⟩ := (hmem n').mp hn'
    rcases hm with rfl | ⟨hm, hne⟩ | rfl | rfl
    · refine Or.inr (Or.inr ⟨old, hold, ?_, ?_⟩)
      · rw [updateParent_id, if_pos rfl]
      · rw [updateParent_single]
        exact congrArg _ hflag.parentId
    · obtain ⟨n, hn', hflag'⟩ := hf.back m hm
      refine Or.inr (Or.inr ⟨n, hn', ?_, ?_⟩)
      · rw [updateParent_id, hflag'.id, if_neg (hflag'.id ▸ hne)]
      · rw [updateParent_single, hflag'.parentId]
    · exact Or.inl rfl
    · exact Or.inr (Or.inl rfl)
  · by_cases he : n.id = old.id
    · obtain rfl := eq_of_id hw.nodup hn' hold he
      refine ⟨_, (hmem _).mpr ⟨_, Or.inl rfl, rfl⟩, ?_, ?_⟩
      · rw [updateParent_id, if_pos rfl]
      · rw [updateParent_single]
        exact congrArg _ hflag.parentId
    · obtain ⟨m, hm, hflag'⟩ := hf.forth n hn'
      refine ⟨_, (hmem _).mpr ⟨m, Or.inr (Or.inl ⟨hm, by rwa [hflag'.id]⟩), rfl⟩, ?_, ?_⟩
      · rw [updateParent_id, hflag'.id, if_neg he]
      · rw [updateParent_single, hflag'.parentId]

/-! One turn of the loop, for each kind of node. -/

theorem convertFrom_done (h : s.nodes[i]? = none) : convertFrom supply (fuel + 1) i s = .ok s := by
  rw [convertFrom, h]

theorem convertFrom_skip (supply : Supply F) (fuel : Nat) (h : s.nodes[i]? = some node)
    (hc : convertible node = false) : ∃ node', Flagged node node' ∧
      (isSubGraph node = false → node' = node) ∧ convertFrom supply (fuel + 1) i s =
      convertFrom supply fuel (i + 1) { s with nodes := s.nodes.set i node' } := by
  by_cases hs : isSubGraph node = true
  · have hflag : Flagged node (node.setKey "isSubGraphConstruct" (.bool true)) :=
      flagged_setKey (Or.inl rfl)
    have hb : hasBothApps (node.setKey "isSubGraphConstruct" (.bool true)) = false := by
      rw [hflag.hasBothApps]
      simpa [convertible, hs] using hc
    refine ⟨_, hflag.trans (flagged_setKey (v := .bool false) (Or.inr rfl)),
      fun hno => absurd (hs.symm.trans hno) (by decide), ?_⟩
    rw [convertFrom, h]
    simp only [hs, hb, if_true, Bool.false_eq_true, if_false]
  · refine ⟨node, Flagged.refl node, fun _ => rfl, ?_⟩
    obtain ⟨hlt, hget⟩ := List.getElem?_eq_some_iff.mp h
    rw [convertFrom, h]
    simp only [hs, Bool.false_eq_true, if_false]
    rw [← hget, List.set_getElem_self]

theorem convertFrom_convert (supply : Supply F) (fuel : Nat) (h : s.nodes[i]? = some node)
    (hc : convertible node = true) :
    ∃ node', Flagged node node' ∧ convertFrom supply (fuel + 1) i s =
      convertSubgraph supply { s with nodes := s.nodes.set i node' } i node' >>=
        convertFrom supply fuel (i + 1) := by
  obtain ⟨hs, hb⟩ := Bool.and_eq_true_iff.mp hc
  have hflag : Flagged node (node.setKey "isSubGraphConstruct" (.bool true)) :=
    flagged_setKey (Or.inl rfl)
  have hb : hasBothApps (node.setKey "isSubGraphConstruct" (.bool true)) = true := by
    rw [hflag.hasBothApps, hb]
  refine ⟨_, hflag.trans (flagged_setKey (v := .bool true) (Or.inr rfl)), ?_⟩
  rw [convertFrom, h]
  simp only [hs, hb, if_true]

omit [DecidableEq F] in
theorem FlaggedList.refl (nodes : List (Node F)) : FlaggedList nodes nodes :=
  ⟨rfl, fun n hn => ⟨n, hn, Flagged.refl n⟩, fun n hn => ⟨n, hn, Flagged.refl n⟩⟩

omit [DecidableEq F] in
theorem FlaggedList.trans {nodes'' : List (Node F)} (h : FlaggedList nodes nodes')
    (h' : FlaggedList nodes' nodes'') : FlaggedList nodes nodes'' := by
  refine ⟨h'.ids.trans h.ids, fun m hm => ?_, fun n hn => ?_⟩
  · obtain ⟨m', hm', hf'⟩ := h'.back m hm
    obtain ⟨n, hn, hf⟩ := h.back m' hm'
    exact ⟨n, hn, hf.trans hf'⟩
  · obtain ⟨m', hm', hf⟩ := h.forth n hn
    obtain ⟨m, hm, hf'⟩ := h'.forth m' hm'
    exact ⟨m, hm, hf.trans hf'⟩

omit [DecidableEq F] in
theorem FlaggedList.set (h : FlaggedList nodes nodes') (hi : nodes'[i]? = some node)
    (hflag : Flagged node node') : FlaggedList nodes (nodes'.set i node') := by
  obtain ⟨hlt, hget⟩ := List.getElem?_eq_some_iff.mp hi
  refine ⟨?_, fun m hm => ?_, fun n hn => ?_⟩
  · have hsame : nodes'.set i node = nodes' := by rw [← hget, List.set_getElem_self]
    rw [← h.ids, Normalise.ids, Normalise.ids, List.map_set, hflag.id, ← List.map_set, hsame]
  · rcases List.mem_or_eq_of_mem_set hm with hm | rfl
    · exact h.back m hm
    · obtain ⟨n, hn, hf⟩ := h.back node (List.mem_of_getElem? hi)
      exact ⟨n, hn, hf.trans hflag⟩
  · obtain ⟨m, hm, hf⟩ := h.forth n hn
    obtain ⟨j, hj⟩ := List.mem_iff_getElem?.mp hm
    by_cases hij : i = j
    · subst hij
      rw [hi] at hj
      obtain rfl := Option.some.inj hj
      exact ⟨node', List.mem_of_getElem? (List.getElem?_set_self hlt), hf.trans hflag⟩
    · exact ⟨m, List.mem_of_getElem? (by rw [List.getElem?_set_ne hij, hj]), hf⟩

omit [DecidableEq F] in
theorem FlaggedList.wellFormed (h : FlaggedList nodes nodes') (links : List (Link F)) :
    WellFormed ⟨nodes', links⟩ ↔ WellFormed ⟨nodes, links⟩ := by
  constructor
  · intro hw
    refine ⟨⟨fun l hl => ?_, fun n hn p hp => ?_⟩, ?_⟩
    · exact h.ids ▸ hw.links l hl
    · obtain ⟨n', hn', hflag⟩ := h.forth n hn
      exact h.ids ▸ hw.parents n' hn' p (hflag.parentId.trans hp)
    · exact h.ids ▸ hw.nodup
  · intro hw
    refine ⟨⟨fun l hl => ?_, fun n' hn' p hp => ?_⟩, ?_⟩
    · exact h.ids.symm ▸ hw.links l hl
    · obtain ⟨n, hn, hflag⟩ := h.back n' hn'
      exact h.ids.symm ▸ hw.parents n hn p (hflag.parentId.symm.trans hp)
    · exact h.ids.symm ▸ hw.nodup

/-- No SubGraph that is converted is left. -/
theorem convertFrom_flags (supply : Supply F) {fuel i : Nat} {s : Extraction F}
    (hrest : ∀ m ∈ s.nodes.drop i, convertible m = false)
    (hfuel : s.nodes.length - i < fuel) : ∃ s', convertFrom supply fuel i s = .ok s' ∧
      FlaggedList s.nodes s'.nodes ∧ s'.links = s.links ∧ s'.oldNewGrpk = s.oldNewGrpk := by
  induction fuel generalizing i s with
  | zero => omega
  | succ fuel ih =>
    cases hi : s.nodes[i]? with
    | none => exact ⟨s, convertFrom_done hi, FlaggedList.refl _, rfl, rfl⟩
    | some node =>
      have hlt := (List.getElem?_eq_some_iff.mp hi).1
      have hnode : node ∈ s.nodes.drop i := by
        rw [List.drop_eq_getElem_cons hlt]
        exact List.mem_cons.mpr (Or.inl (List.getElem?_eq_some_iff.mp hi).2.symm)
      obtain ⟨node', hflag, -, hstep⟩ := convertFrom_skip supply fuel hi
        (hrest node hnode)
      have hdrop : (s.nodes.set i node').drop (i + 1) = s.nodes.drop (i + 1) :=
        List.drop_set_of_lt (by omega)
      obtain ⟨s', hok, hf, hlinks, hmap⟩ := ih (s := { s with nodes := s.nodes.set i node' })
        (i := i + 1)
        (fun m hm => hrest m (List.mem_of_mem_drop (i := 1) (by
          rw [List.drop_drop, ← hdrop]
          exact hm)))
        (by
          rw [List.length_set]
          omega)
      have hfirst := (FlaggedList.refl s.nodes).set hi hflag
      exact ⟨s', hstep.trans hok, hfirst.trans hf, hlinks, hmap⟩

/-- The first SubGraph that is converted. -/
theorem convertSubgraph_first {old : Node F} (hr : Ready supply g) (hold : old ∈ g.nodes)
    (hf : FlaggedList g.nodes s.nodes) (hlinks : s.links = g.links) (hi : s.nodes[i]? = some node)
    (hflag : Flagged old node) (hc : convertible old = true) (hnew : s.newNodes = [])
    (hmap : s.oldNewGrpk = []) :
    ∃ s', convertSubgraph supply s i node = .ok s' ∧ s'.oldNewGrpk.map Prod.fst = [old.id] ∧
      (WellFormed ⟨s'.nodes, s'.links⟩ ↔ SelfContained g old) ∧
      s'.nodes.length ≤ s.nodes.length + 2 ∧
      ∀ m ∈ s'.nodes.drop (i + 1), convertible m = true →
        ∃ x ∈ s.nodes.drop (i + 1), convertible x = true := by
  obtain ⟨v, hbuild, hv, hfresh⟩ := hr.buildable old hold hc
  have hboth : hasBothApps node = true := by
    rw [hflag.hasBothApps]
    exact (Bool.and_eq_true_iff.mp hc).2
  obtain ⟨input, output, ha⟩ := exists_appsOf hboth (hflag.buildable hbuild)
  have hj := joined_first hr hold hf hi hflag hv hfresh ha hnew hmap
  obtain ⟨s', hok, hgroups, -, -, hout⟩ := convertSubgraph_eq supply s i ha
  have hgroups : s'.oldNewGrpk = [(old.id, supply.uuid s.used)] := by
    rw [hgroups, hmap, hflag.id]
    rfl
  rw [hgroups, hlinks] at hout
  have hconnected : Connected g old v (g.links.map (connectLink input output s.nodes)) :=
    connected hr.wellFormed hr.notOwn hv hf (ha.inputId.trans hflag.id)
      (ha.inputParent.trans (congrArg some hflag.id)) ha.outputId
  have hextracted := extractSubgraphNodes_spec (updateParent [(old.id, supply.uuid s.used)] input)
    (updateParent [(old.id, supply.uuid s.used)] { output with parentId := some input.id })
    (g.links.map (connectLink input output s.nodes)) hj.nodup
  have hnodes' : s'.nodes = _ := congrArg Prod.fst hout
  have hlinks' : s'.links = _ := congrArg Prod.snd hout
  rw [← hnodes', ← hlinks'] at hextracted
  refine ⟨s', hok, by rw [hgroups]; rfl, ?_, ?_, fun m hm hcm => ?_⟩
  · exact left_wellFormed_iff hj hconnected hr.wellFormed hr.notOwn hold hv (hr.fresh _) hextracted
  · have hlength := hextracted.sublist.length_le
    rw [joinedNodes, hnew, List.length_map, List.length_append, List.length_set] at hlength
    exact hlength
  · obtain ⟨x, hx, rfl⟩ := mem_drop_joined ((hextracted.sublist.drop _).subset hm)
    rw [updateParent_convertible] at hcm
    have happ : ∀ n : Node F, isSubGraph n = false → convertible n ≠ true := by
      intro n hn
      simp [convertible, hn]
    rcases hx with hx | hx | rfl | rfl
    · exact ⟨x, hx, hcm⟩
    · rw [hnew] at hx
      cases hx
    · exact absurd hcm (happ _ ha.inputSubGraph)
    · exact absurd hcm (happ _ ha.outputSubGraph)

omit [DecidableEq F] in
theorem mem_drop_of_getElem? (h : nodes[i]? = some n) : n ∈ nodes.drop i := by
  obtain ⟨hlt, rfl⟩ := List.getElem?_eq_some_iff.mp h
  rw [List.drop_eq_getElem_cons hlt]
  exact List.mem_cons_self

/-- One SubGraph that is converted is left. -/
theorem convertFrom_single {old : Node F} (hr : Ready supply g) (hold : old ∈ g.nodes)
    (hc : convertible old = true) (hf : FlaggedList g.nodes s.nodes) (hlinks : s.links = g.links)
    (hone : (s.nodes.drop i).filter convertible = [n]) (hflag : Flagged old n)
    (hnew : s.newNodes = []) (hmap : s.oldNewGrpk = []) (hfuel : s.nodes.length + 3 - i ≤ fuel) :
    ∃ s', convertFrom supply fuel i s = .ok s' ∧ s'.oldNewGrpk.map Prod.fst = [old.id] ∧
      (WellFormed ⟨s'.nodes, s'.links⟩ ↔ SelfContained g old) := by
  induction fuel generalizing i s with
  | zero =>
    have hlt : i < s.nodes.length := by
      by_contra hge
      rw [List.drop_eq_nil_of_le (by omega)] at hone
      cases hone
    omega
  | succ fuel ih =>
    have hlt : i < s.nodes.length := by
      by_contra hge
      rw [List.drop_eq_nil_of_le (by omega)] at hone
      cases hone
    have hi : s.nodes[i]? = some s.nodes[i] := List.getElem?_eq_getElem hlt
    rw [List.drop_eq_getElem_cons hlt, List.filter_cons] at hone
    cases hconv : convertible s.nodes[i] with
    | false =>
      simp only [hconv, Bool.false_eq_true, if_false] at hone
      obtain ⟨node', hflag', -, hstep⟩ := convertFrom_skip supply fuel hi hconv
      rw [hstep]
      refine ih (hf.set hi hflag') hlinks ?_ hnew hmap ?_
      · rw [List.drop_set_of_lt (by omega)]
        exact hone
      · rw [List.length_set]
        omega
    | true =>
      simp only [hconv, if_true, List.cons.injEq] at hone
      obtain ⟨rfl, hrest⟩ := hone
      obtain ⟨node', hflag', hstep⟩ := convertFrom_convert supply fuel hi hconv
      obtain ⟨s', hok, hgroups, hleft, hlength, hlater⟩ := convertSubgraph_first
        (s := { s with nodes := s.nodes.set i node' }) hr hold (hf.set hi hflag') hlinks
        (List.getElem?_set_self hlt) (hflag.trans hflag') hc hnew hmap
      have hnone : ∀ m ∈ s'.nodes.drop (i + 1), convertible m = false := by
        intro m hm
        by_contra hcm
        obtain ⟨x, hx, hcx⟩ := hlater m hm (by simpa using hcm)
        rw [List.drop_set_of_lt (by omega)] at hx
        have hmem := List.mem_filter.mpr ⟨hx, hcx⟩
        rw [hrest] at hmem
        cases hmem
      have hfuel' : s'.nodes.length - (i + 1) < fuel := by
        rw [List.length_set] at hlength
        omega
      obtain ⟨s'', hok', hflags, hlinks', hmap'⟩ := convertFrom_flags supply hnone hfuel'
      refine ⟨s'', by rw [hstep, hok, ok_bind, hok'], by rw [hmap', hgroups], ?_⟩
      rw [hlinks', hflags.wellFormed, hleft]

/-! With a second SubGraph the applications of the first one are there twice. -/

theorem count_set_of_ne {x : Node F} (h : nodes[i]? = some node) (hn : node ≠ x)
    (hn' : node' ≠ x) : (nodes.set i node').count x = nodes.count x := by
  obtain ⟨hlt, rfl⟩ := List.getElem?_eq_some_iff.mp h
  rw [List.count_set hlt]
  simp [hn, hn']

/-- What is no member of the subgraph stays. -/
theorem count_extracted {x : Node F}
    (hx : x.parentId ≠ input.parentId ∨ x.id ∈ [input.id, output.id]) :
    (extractSubgraphNodes input output nodes links).2.2.1.count x = nodes.count x := by
  have hmembers : x ∉ (dictOf ((membersOf input output nodes).map fun n => (n.id, n))).map
      (·.2) := by
    intro hm
    obtain ⟨p, hp, rfl⟩ := List.mem_map.mp hm
    rcases Association.mem_of_mem_merge hp with hp | hp
    · cases hp
    obtain ⟨m, hp', rfl⟩ := List.mem_map.mp hp
    have hcond := of_decide_eq_true (List.mem_filter.mp hp').2
    exact hx.elim (fun h => h hcond.2.1) hcond.2.2
  have herase : ∀ (es l : List (Node F)) (keep : Node F → Bool), x ∉ es →
      (es.foldl (fun l e => if keep e then l else l.erase e) l).count x = l.count x := by
    intro es
    induction es with
    | nil => exact fun _ _ _ => rfl
    | cons e es ih =>
      intro l keep hes
      rw [List.mem_cons, not_or] at hes
      rw [List.foldl_cons, ih _ _ hes.2]
      split
      · rfl
      · exact List.count_erase_of_ne hes.1
  exact herase _ _ _ hmembers

theorem extracted_sublist :
    (extractSubgraphNodes input output nodes links).2.2.1.Sublist nodes :=
  foldl_erase_unless_sublist

/-- What holds between two turns of the loop. -/
structure Running (supply : Supply F) (g : Graph F) (s : Extraction F) (i : Nat) : Prop where
  rest : ∀ n ∈ s.nodes.drop i, convertible n = true → n.id ∈ ids g.nodes ∧ ∃ v, Buildable n v
  keys : ∀ v ∈ s.oldNewGrpk.map Prod.fst, v ∈ ids g.nodes
  apps : ∀ x ∈ s.newNodes, x ∈ s.nodes ∧ isSubGraph x = false ∧
    ∃ j < s.used, x.parentId = some (supply.uuid j)
  begun : s.oldNewGrpk ≠ [] → s.newNodes ≠ []
  twice : 2 ≤ s.oldNewGrpk.length → ∃ x ∈ s.newNodes, 2 ≤ s.nodes.count x

theorem Running.set (h : Running supply g s i) (hi : s.nodes[i]? = some node)
    (hflag : Flagged node node') (hsame : isSubGraph node = false → node' = node) :
    Running supply g { s with nodes := s.nodes.set i node' } (i + 1) := by
  obtain ⟨hlt, hget⟩ := List.getElem?_eq_some_iff.mp hi
  have hcount : ∀ x ∈ s.newNodes, (s.nodes.set i node').count x = s.nodes.count x := by
    intro x hx
    cases hs : isSubGraph node with
    | false => rw [hsame hs, ← hget, List.set_getElem_self]
    | true =>
      have hne : ∀ n, isSubGraph n = true → n ≠ x := by
        rintro n hn rfl
        rw [(h.apps n hx).2.1] at hn
        cases hn
      exact count_set_of_ne hi (hne _ hs) (hne _ (hflag.isSubGraph.trans hs))
  refine ⟨fun n hn => ?_, h.keys, fun x hx => ⟨?_, (h.apps x hx).2⟩, h.begun, fun htwo => ?_⟩
  · have hn : n ∈ (s.nodes.set i node').drop (i + 1) := hn
    rw [List.drop_set_of_lt (by omega)] at hn
    refine h.rest n (List.mem_of_mem_drop (i := 1) ?_)
    rwa [List.drop_drop]
  · refine List.count_pos_iff.mp ?_
    rw [hcount x hx]
    exact List.count_pos_iff.mpr (h.apps x hx).1
  · obtain ⟨x, hx, hc⟩ := h.twice htwo
    exact ⟨x, hx, by rwa [hcount x hx]⟩

/-- What the turn of the loop for a SubGraph that is converted leaves. -/
structure Turned (supply : Supply F) (s : Extraction F) (i : Nat) (node input output : Node F)
    (s' : Extraction F) : Prop where
  oldNewGrpk : s'.oldNewGrpk = Association.set s.oldNewGrpk node.id (supply.uuid s.used)
  used : s'.used = s.used + 2
  newNodes : s'.newNodes = (s.newNodes ++ [input, { output with parentId := some input.id }]).map
    (updateParent s'.oldNewGrpk)
  nodes : s'.nodes = (extractSubgraphNodes (updateParent s'.oldNewGrpk input)
    (updateParent s'.oldNewGrpk { output with parentId := some input.id })
    (joinedNodes s i node input output (supply.uuid s.used))
    (s.links.map (connectLink input output s.nodes))).2.2.1

section Turn

variable {s' : Extraction F} {x : Node F} (ht : Turned supply s i node input output s')
  (h : Running supply g s (i + 1))

include ht

theorem Turned.parentId (hx : x.parentId = some node.id) :
    (updateParent s'.oldNewGrpk x).parentId = some (supply.uuid s.used) := by
  rw [updateParent_parentId hx, ht.oldNewGrpk, Association.lookup_set_self]
  rfl

include h

theorem Turned.keys (hid : node.id ∈ ids g.nodes) :
    ∀ v ∈ s'.oldNewGrpk.map Prod.fst, v ∈ ids g.nodes := by
  intro v hv
  rw [ht.oldNewGrpk, Association.mem_keys_set] at hv
  exact hv.elim (fun he => he ▸ hid) (h.keys v)

/-- The earlier applications are not changed: no id that was made up is replaced. -/
theorem Turned.updateParent_eq (hfresh : ∀ k, supply.uuid k ∉ ids g.nodes)
    (hid : node.id ∈ ids g.nodes) (hx : x ∈ s.newNodes) : updateParent s'.oldNewGrpk x = x := by
  obtain ⟨-, -, j, -, hp⟩ := h.apps x hx
  have hnone : s'.oldNewGrpk.lookup (supply.uuid j) = none := by
    by_contra hsome
    refine hfresh j (ht.keys h hid _ (Association.isSome_lookup_iff.mp ?_))
    exact Option.isSome_iff_ne_none.mpr hsome
  rw [updateParent, hp, Option.bind_some, hnone]

theorem Turned.mem_newNodes (hfresh : ∀ k, supply.uuid k ∉ ids g.nodes)
    (hid : node.id ∈ ids g.nodes) : x ∈ s'.newNodes ↔
      x ∈ s.newNodes ∨ x = updateParent s'.oldNewGrpk input ∨
        x = updateParent s'.oldNewGrpk { output with parentId := some input.id } := by
  rw [ht.newNodes, List.map_append,
    List.map_congr_left fun y hy => ht.updateParent_eq h hfresh hid hy, List.map_id',
    List.mem_append]
  simp

/-- The earlier applications are joined once more and none is taken out again. -/
theorem Turned.count_le (hfresh : ∀ k, supply.uuid k ∉ ids g.nodes)
    (hid : node.id ∈ ids g.nodes) (hi : s.nodes[i]? = some node) (hs : isSubGraph node = true)
    (ha : AppsOf node v input output) (hx : x ∈ s.newNodes) :
    s.nodes.count x + s.newNodes.count x ≤ s'.nodes.count x := by
  obtain ⟨-, hno, j, hj, hp⟩ := h.apps x hx
  have hkept : s'.nodes.count x =
      (joinedNodes s i node input output (supply.uuid s.used)).count x := by
    rw [ht.nodes]
    refine count_extracted (Or.inl ?_)
    rw [hp, ht.parentId ha.inputParent]
    intro he
    have := supply.injective (Option.some.inj he)
    omega
  have hne : ∀ n, isSubGraph n = true → n ≠ x := by
    rintro n hn rfl
    rw [hno] at hn
    cases hn
  have hset : (s.nodes.set i { node with id := supply.uuid s.used }).count x = s.nodes.count x :=
    count_set_of_ne hi (hne _ hs) (hne _ hs)
  have hle := List.count_le_count_map (f := updateParent s'.oldNewGrpk) (x := x)
    (l := s.nodes.set i { node with id := supply.uuid s.used } ++
      (s.newNodes ++ [input, { output with parentId := some input.id }]))
  rw [ht.updateParent_eq h hfresh hid hx, List.count_append, List.count_append, hset,
    ht.oldNewGrpk, ← ha.inputId] at hle
  rw [hkept, joinedNodes]
  omega

/-- What comes later in the list is still to be converted as before. -/
theorem Turned.rest (ha : AppsOf node v input output) : ∀ n ∈ s'.nodes.drop (i + 1),
    convertible n = true → n.id ∈ ids g.nodes ∧ ∃ v, Buildable n v := by
  intro m hm hc
  rw [ht.nodes] at hm
  obtain ⟨x, hx, rfl⟩ := mem_drop_joined ((extracted_sublist.drop _).subset hm)
  rw [updateParent_convertible] at hc
  have happ : ∀ n : Node F, isSubGraph n = false → convertible n ≠ true := by
    intro n hn
    simp [convertible, hn]
  rcases hx with hx | hx | rfl | rfl
  · obtain ⟨hmem, v, hbuild⟩ := h.rest x hx hc
    refine ⟨?_, v, updateParent_buildable _ hbuild⟩
    rw [updateParent_id]
    exact hmem
  · exact absurd hc (happ _ (h.apps _ hx).2.1)
  · exact absurd hc (happ _ ha.inputSubGraph)
  · exact absurd hc (happ _ ha.outputSubGraph)

omit h in
/-- The two new applications are there, in the new SubGraph. -/
theorem Turned.apps_new (ha : AppsOf node v input output) (hx : x = updateParent s'.oldNewGrpk
      input ∨ x = updateParent s'.oldNewGrpk { output with parentId := some input.id }) :
    x ∈ s'.nodes ∧ isSubGraph x = false ∧ x.parentId = some (supply.uuid s.used) := by
  have hjoined : x ∈ joinedNodes s i node input output (supply.uuid s.used) := by
    rw [joinedNodes, ha.inputId, ← ht.oldNewGrpk]
    rcases hx with rfl | rfl
    · exact List.mem_map_of_mem (by simp)
    · exact List.mem_map_of_mem (by simp [ha.inputId])
  refine ⟨List.count_pos_iff.mp ?_, ?_, ?_⟩
  · rw [ht.nodes, count_extracted]
    · exact List.count_pos_iff.mpr hjoined
    · refine Or.inr ?_
      rcases hx with rfl | rfl
      · exact List.mem_cons_self
      · exact List.mem_cons_of_mem _ List.mem_cons_self
  · rcases hx with rfl | rfl
    · exact (updateParent_isSubGraph _).trans ha.inputSubGraph
    · exact (updateParent_isSubGraph _).trans ha.outputSubGraph
  · rcases hx with rfl | rfl
    · exact ht.parentId ha.inputParent
    · exact ht.parentId (congrArg some ha.inputId)

end Turn

/-- The turn of the loop for a SubGraph that is converted. -/
theorem Running.convert (hfresh : ∀ k, supply.uuid k ∉ ids g.nodes)
    (h : Running supply g s (i + 1)) (hi : s.nodes[i]? = some node)
    (hs : isSubGraph node = true) (hid : node.id ∈ ids g.nodes)
    (ha : AppsOf node v input output) {s' : Extraction F}
    (hok : convertSubgraph supply s i node = .ok s') :
    Running supply g s' (i + 1) := by
  obtain ⟨s'', hok', hmap, hused, hnew, hout⟩ := convertSubgraph_eq supply s i ha
  obtain rfl := Except.ok.inj (hok'.symm.trans hok)
  have ht : Turned supply s i node input output s'' := ⟨hmap, hused, hnew, congrArg Prod.fst hout⟩
  have hcount := fun x hx => ht.count_le (x := x) h hfresh hid hi hs ha hx
  have hmem := fun x => ht.mem_newNodes (x := x) h hfresh hid
  refine ⟨ht.rest h ha, ht.keys h hid, fun y hy => ?_, fun _ => ?_, fun htwo => ?_⟩
  · rcases (hmem y).mp hy with hy | hy
    · obtain ⟨hold, hno, j, hj, hp⟩ := h.apps y hy
      refine ⟨List.count_pos_iff.mp ?_, hno, j, by omega, hp⟩
      have hpos := List.count_pos_iff.mpr hold
      have hle := hcount y hy
      omega
    · obtain ⟨hmemNodes, hno, hp⟩ := ht.apps_new ha hy
      exact ⟨hmemNodes, hno, s.used, by omega, hp⟩
  · exact List.ne_nil_of_mem ((hmem _).mpr (Or.inr (Or.inl rfl)))
  · have hbegun : s.oldNewGrpk ≠ [] := by
      intro hnil
      rw [hmap, hnil] at htwo
      exact absurd htwo (by simp [Association.set])
    obtain ⟨x, hx⟩ := List.exists_mem_of_ne_nil _ (h.begun hbegun)
    refine ⟨x, (hmem x).mpr (Or.inl hx), ?_⟩
    have hpos := List.count_pos_iff.mpr (h.apps x hx).1
    have hposNew := List.count_pos_iff.mpr hx
    have hle := hcount x hx
    omega

theorem Running.of_run (hfresh : ∀ k, supply.uuid k ∉ ids g.nodes) (h : Running supply g s i)
    {s' : Extraction F} (hok : convertFrom supply fuel i s = .ok s') :
    ∃ i', Running supply g s' i' := by
  induction fuel generalizing i s with
  | zero => cases hok
  | succ fuel ih =>
    cases hi : s.nodes[i]? with
    | none =>
      rw [convertFrom_done hi] at hok
      exact ⟨i, Except.ok.inj hok ▸ h⟩
    | some node =>
      cases hc : convertible node with
      | false =>
        obtain ⟨node', hflag, hsame, hstep⟩ := convertFrom_skip supply fuel hi hc
        exact ih (h.set hi hflag hsame) (hstep.symm.trans hok)
      | true =>
        obtain ⟨node', hflag, hstep⟩ := convertFrom_convert supply fuel hi hc
        obtain ⟨hmem, v, hbuild⟩ := h.rest node (mem_drop_of_getElem? hi) hc
        obtain ⟨hs, hboth⟩ := Bool.and_eq_true_iff.mp (hflag.convertible.trans hc)
        obtain ⟨input, output, ha⟩ := exists_appsOf hboth (hflag.buildable hbuild)
        have hno : isSubGraph node = false → node' = node := by
          intro hno
          rw [← hflag.isSubGraph, hs] at hno
          cases hno
        have hlt := (List.getElem?_eq_some_iff.mp hi).1
        obtain ⟨s₁, hconvert, hrun⟩ := bind_ok.mp (hstep.symm.trans hok)
        exact ih ((h.set hi hflag hno).convert hfresh (List.getElem?_set_self hlt) hs
          (by rw [hflag.id]; exact hmem) ha hconvert) hrun

/-! Every SubGraph that has both applications is converted and the result is well formed. -/

def ConvertsAll (supply : Supply F) (fuel : Nat) (g : Graph F) : Prop :=
  ∃ s, convertSubgraphs supply fuel g = .ok s ∧
    (∀ n ∈ g.nodes, convertible n = true → n.id ∈ s.oldNewGrpk.map Prod.fst) ∧
    WellFormed ⟨s.nodes, s.links⟩

/-- With two of them the applications of the first one are twice in the result. -/
theorem length_of_convertsAll (hr : Ready supply g) (h : ConvertsAll supply fuel g) :
    (g.nodes.filter convertible).length ≤ 1 := by
  obtain ⟨s, hok, hall, hw⟩ := h
  have hstart : Running supply g ⟨g.nodes, g.links, [], [], 0, []⟩ 0 := by
    refine ⟨fun n hn hc => ?_, by simp, by simp, by simp, by simp⟩
    obtain ⟨v, hbuild, -⟩ := hr.buildable n hn hc
    exact ⟨mem_ids hn, v, hbuild⟩
  obtain ⟨i, hrun⟩ := hstart.of_run hr.fresh hok
  by_contra hmany
  have hnodup : ((g.nodes.filter convertible).map (·.id)).Nodup :=
    (List.filter_sublist.map _).nodup hr.wellFormed.nodup
  have hsubset : (g.nodes.filter convertible).map (·.id) ⊆ s.oldNewGrpk.map Prod.fst := by
    intro v hv
    obtain ⟨n, hn, rfl⟩ := List.mem_map.mp hv
    obtain ⟨hn, hc⟩ := List.mem_filter.mp hn
    exact hall n hn hc
  have hle := (List.subperm_of_subset hnodup hsubset).length_le
  rw [List.length_map, List.length_map] at hle
  obtain ⟨x, -, htwice⟩ := hrun.twice (by omega)
  have hcount := List.count_le_count_map (f := Node.id) (l := s.nodes) (x := x)
  have hone : (s.nodes.map Node.id).count x.id ≤ 1 := List.nodup_iff_count_le_one.mp hw.nodup x.id
  omega

theorem convertsAll_iff (hr : Ready supply g) (hfuel : g.nodes.length + 3 ≤ fuel) :
    ConvertsAll supply fuel g ↔ (g.nodes.filter convertible).length ≤ 1 ∧
      ∀ s ∈ g.nodes, convertible s = true → SelfContained g s := by
  have hmany := fun (h : ConvertsAll supply fuel g) => length_of_convertsAll hr h
  match hf : g.nodes.filter convertible with
  | [] =>
    have hnone : ∀ n ∈ g.nodes, convertible n = false := by
      intro n hn
      by_contra hc
      have hmem := List.mem_filter.mpr ⟨hn, by simpa using hc⟩
      rw [hf] at hmem
      cases hmem
    have hlt : g.nodes.length - 0 < fuel := by omega
    obtain ⟨s, hok, hflags, hlinks, -⟩ := convertFrom_flags supply (i := 0)
      (s := ⟨g.nodes, g.links, [], [], 0, []⟩) hnone hlt
    refine ⟨fun _ => ⟨by simp, fun n hn hc => ?_⟩, fun _ => ⟨s, hok, fun n hn hc => ?_, ?_⟩⟩
    · rw [hnone n hn] at hc
      cases hc
    · rw [hnone n hn] at hc
      cases hc
    · rw [hlinks]
      exact (hflags.wellFormed g.links).mpr hr.wellFormed
  | [old] =>
    have hmem : old ∈ g.nodes.filter convertible := hf ▸ List.mem_cons_self
    obtain ⟨hold, hc⟩ := List.mem_filter.mp hmem
    have honly : ∀ n ∈ g.nodes, convertible n = true → n = old := by
      intro n hn hcn
      have hmem := List.mem_filter.mpr ⟨hn, hcn⟩
      rw [hf] at hmem
      exact List.mem_singleton.mp hmem
    obtain ⟨s, hok, hkeys, hleft⟩ := convertFrom_single (i := 0)
      (s := ⟨g.nodes, g.links, [], [], 0, []⟩) hr hold hc (FlaggedList.refl g.nodes) rfl hf
      (Flagged.refl old) rfl rfl hfuel
    constructor
    · rintro ⟨s', hok', -, hw⟩
      obtain rfl := Except.ok.inj (hok.symm.trans hok')
      refine ⟨by simp, fun n hn hcn => ?_⟩
      rw [honly n hn hcn]
      exact hleft.mp hw
    · rintro ⟨-, hself⟩
      refine ⟨s, hok, fun n hn hcn => ?_, hleft.mpr (hself old hold hc)⟩
      rw [honly n hn hcn, hkeys]
      exact List.mem_cons_self
  | a :: b :: l =>
    rw [hf] at hmany
    constructor
    · intro h
      exact absurd (hmany h) (by simp)
    · rintro ⟨h, -⟩
      exact absurd h (by simp)

/-- A SubGraph with both applications. -/
def subgraphCalled (id output : String) : Node Unit where
  id := .text id
  category := .text "SubGraph"
  name := .text id
  keys := [("inputApplicationType", .text "PythonApp"),
    ("outputApplicationType", .text "PythonApp"), ("outputApplicationId", .text output)]

/-- A file that leads to a SubGraph and a file in it that does too. -/
def fedSubgraph : Graph Unit where
  nodes := [subgraphCalled "sub" "out",
    { id := .text "inner", category := .text "File", name := .text "i"
      parentId := some (.text "sub") },
    { id := .text "file", category := .text "File", name := .text "f" }]
  links := [⟨.text "file", .text "sub", []⟩, ⟨.text "inner", .text "sub", []⟩]

theorem buildable_subgraphCalled (id output : String) :
    Buildable (subgraphCalled id output) (.text output) := by
  have hnone : ∀ key, Unnamed (subgraphCalled id output) key := fun key p hp =>
    absurd hp List.not_mem_nil
  refine ⟨hnone "id", hnone "category", rfl, fun v hv => ?_⟩
  rcases hv with hv | hv
  · obtain rfl := Option.some.inj hv
    decide
  · obtain rfl := Option.some.inj hv
    decide

theorem fedSubgraph_converted : ConvertsAll numbers 6 fedSubgraph := by
  refine (convertsAll_iff ⟨⟨⟨by decide, ?_⟩, by decide⟩, by decide, ?_, ?_⟩ (by decide)).mpr
    ⟨by decide, ?_⟩
  · intro n hn p hp
    simp only [fedSubgraph, List.mem_cons, List.not_mem_nil, or_false] at hn
    rcases hn with rfl | rfl | rfl
    · cases hp
    · obtain rfl := Option.some.inj hp
      decide
    · cases hp
  · intro n hn hc
    simp only [fedSubgraph, List.mem_cons, List.not_mem_nil, or_false] at hn
    rcases hn with rfl | rfl | rfl
    · exact ⟨_, buildable_subgraphCalled _ _, by decide, fun k hk => by cases hk⟩
    · exact absurd hc (by decide)
    · exact absurd hc (by decide)
  · intro k
    simp [numbers, ids, fedSubgraph, subgraphCalled]
  · intro s hs hc
    simp only [fedSubgraph, List.mem_cons, List.not_mem_nil, or_false] at hs
    rcases hs with rfl | rfl | rfl
    · constructor <;> unfold Leads <;> decide
    · exact absurd hc (by decide)
    · exact absurd hc (by decide)

def twoSubgraphs : Graph Unit where
  nodes := [subgraphCalled "first" "out1", subgraphCalled "second" "out2"]
  links := []

/-- Both are converted, and the applications of the first one are there twice. -/
theorem twoSubgraphs_duplicated : Ready numbers twoSubgraphs ∧
    ¬ ConvertsAll numbers 10 twoSubgraphs := by
  refine ⟨⟨⟨⟨by decide, ?_⟩, by decide⟩, by decide, ?_, ?_⟩, ?_⟩
  · intro n hn p hp
    simp only [twoSubgraphs, List.mem_cons, List.not_mem_nil, or_false] at hn
    rcases hn with rfl | rfl <;> cases hp
  · intro n hn hc
    simp only [twoSubgraphs, List.mem_cons, List.not_mem_nil, or_false] at hn
    rcases hn with rfl | rfl
    · exact ⟨_, buildable_subgraphCalled _ _, by decide, fun k hk => by cases hk⟩
    · exact ⟨_, buildable_subgraphCalled _ _, by decide, fun k hk => by cases hk⟩
  · intro k
    simp [numbers, ids, twoSubgraphs, subgraphCalled]
  · rintro ⟨s, hok, -, hw⟩
    have hids : (convertSubgraphs numbers 10 twoSubgraphs).map (fun s => ids s.nodes) = .ok
        [.int 0, .int 2, .text "first", .text "out1", .text "first", .text "out1",
          .text "second", .text "out2"] := by decide
    rw [hok] at hids
    have hnodup : (ids s.nodes).Nodup := hw.nodup
    rw [show ids s.nodes = _ from Except.ok.inj hids] at hnodup
    exact absurd hnodup (by decide)

end Daliuge.Prepare.Normalise
