import Daliuge.Lib.Collect
import Daliuge.Prepare.Nodes

/-!
# Constructs become groups with an application

The application of a Scatter, Gather or Service becomes a node of its own. It takes over the id of
the construct, so that links lead to it, and the construct gets a new id under which it stays the
parent of its members.
-/
namespace Daliuge.Prepare.Normalise

open Collect

variable {F : Type} [DecidableEq F] (supply : Supply F)

/-- The type of the application of a construct that is converted. -/
def appType (node : Node F) : Option (Value F) :=
  if node.category ∈ [.text "Scatter", .text "Gather", .text "Service"] then
    (hasAppKeywords node ["inputApplicationType", "outputApplicationType"] false).bind
      fun key => node.keys.lookup key
  else none

/-- What becomes of one construct. -/
structure Converted (F : Type) where
  construct : Node F
  app : Node F
  /-- The extra application of a Gather, for when it has an internal input. -/
  duplicate : Option (Node F)

/-- `app_args`. -/
def appArgs (node : Node F) : List (String × Value F) :=
  if node.category = .text "Gather" then [("group_start", .int 1)]
  else if node.category = .text "Service" then [("isService", .bool true)]
  else []

/-- Step 1. -/
def buildApp (node : Node F) (type : Value F) : Node F :=
  createFromNode node type (some "inputAppFields") (appArgs node)

/-- The extra application of a Gather, without the redundant keys. -/
def duplicateApp (node : Node F) (type id : Value F) : Node F :=
  let fields := if (node.appFields.lookup "appFields").isSome then "appFields" else "inputAppFields"
  let tmp := createFromNode node type (some fields) [("id", id)]
  { tmp with
    fields := []
    keys := tmp.keys.filter fun p => p.1 ≠ "fields" ∧ p.1 ≠ "reprodata" }

/-- Steps 1 and 2 for one construct, and the first id that is left. -/
def convertNode (k : Nat) (node : Node F) (type : Value F) : Converted F × Nat :=
  let construct := { node with id := supply.uuid k }
  if node.category = .text "Gather" then
    let app := { buildApp node type with parentId := some (supply.uuid k) }
    (⟨construct, app.setKey "group_start" (.int 1),
      some (duplicateApp construct type (supply.uuid (k + 1)))⟩, k + 2)
  else (⟨construct, buildApp node type, none⟩, k + 1)

/-- Steps 1 and 2: the nodes with the new ids, and what became of the constructs. -/
def convertNodes : Nat → List (Node F) → List (Node F) × List (Converted F)
  | _, [] => ([], [])
  | k, node :: nodes =>
    match appType node with
    | none =>
      let rest := convertNodes k nodes
      (node :: rest.1, rest.2)
    | some type =>
      let c := convertNode supply k node type
      let rest := convertNodes c.2 nodes
      (c.1.construct :: rest.1, c.1 :: rest.2)

/-- `old_new_grpk_map`. -/
def oldNewGrpkMap (cs : List (Converted F)) : List (Value F × Value F) :=
  dictOf (cs.map fun c => (c.app.id, c.construct.id))

/-- `old_new_gather_map`. -/
def oldNewGatherMap (cs : List (Converted F)) : List (Value F × Value F) :=
  oldNewGrpkMap (cs.filter fun c => c.duplicate.isSome)

/-- `duplicated_gather_app`. -/
def duplicatedGatherApp (cs : List (Converted F)) : List (Value F × Node F) :=
  dictOf (cs.filterMap fun c => c.duplicate.map fun d => (c.construct.id, d))

/-- `node_index`, looked up: of equal ids the last one counts. -/
def nodeIndex (nodes : List (Node F)) (id : Value F) : Except Err (Node F) :=
  match nodes.reverse.find? fun n => n.id = id with
  | some n => .ok n
  | none => .error .keyError

/-- Where step 4 stands: the nodes and `old_newnew_gather_map`. -/
structure Relinked (F : Type) where
  nodes : List (Node F)
  oldNewnew : List (Value F × Value F) := []

/-- Step 4 for one link. -/
def relinkTarget (cs : List (Converted F)) (s : Relinked F) (link : Link F) :
    Except Err (Link F × Relinked F) :=
  match (oldNewGatherMap cs).lookup link.target with
  | none => .ok (link, s)
  | some new => do
    let source ← nodeIndex s.nodes link.source
    if source.parentId = some new then
      match (duplicatedGatherApp cs).lookup new with
      | none => .error .keyError
      | some dup =>
        if dup.id ∈ ids s.nodes then return ({ link with target := dup.id }, s)
        else
          let construct ← nodeIndex s.nodes new
          let reprodata := (construct.keys.lookup "reprodata").getD (.nested "\x7b\x7d")
          return ({ link with target := dup.id },
            ⟨s.nodes ++ [dup.setKey "reprodata" reprodata],
              Association.set s.oldNewnew link.target dup.id⟩)
    else return ({ link with target := new }, s)

/-- Step 4. -/
def relinkTargets (cs : List (Converted F)) :
    Relinked F → List (Link F) → Except Err (List (Link F) × Relinked F)
  | s, [] => .ok ([], s)
  | s, link :: links => do
    let r ← relinkTarget cs s link
    let rest ← relinkTargets cs r.2 links
    return (r.1 :: rest.1, rest.2)

/-- Step 5 for one link. -/
def relinkSource (cs : List (Converted F)) (s : Relinked F) (link : Link F) :
    Except Err (Link F) :=
  match (oldNewGatherMap cs).lookup link.source with
  | none => .ok link
  | some new => do
    let target ← nodeIndex s.nodes link.target
    let construct ← nodeIndex s.nodes new
    if target.parentId = construct.parentId then
      match s.oldNewnew.lookup link.source with
      | some newnew => return { link with source := newnew }
      | none => return link
    else return link

/-- `convert_construct`. -/
def convertConstruct (g : Graph F) : Except Err (Graph F) :=
  let (nodes, cs) := convertNodes supply 0 g.nodes
  if cs.isEmpty then .ok { g with nodes := nodes }
  else
    let nodes := (nodes ++ cs.map (·.app)).map (updateParent (oldNewGrpkMap cs))
    if (oldNewGatherMap cs).isEmpty then .ok { g with nodes := nodes }
    else do
      let (links, s) ← relinkTargets cs ⟨nodes, []⟩ g.links
      let links ← links.mapM (relinkSource cs s)
      return ⟨s.nodes, links⟩

variable {supply} {g : Graph F} {nodes : List (Node F)} {node n : Node F} {type p v : Value F}
  {c : Converted F} {cs : List (Converted F)} {k : Nat}

/-! What becomes of one construct. -/

theorem convertNode_construct :
    (convertNode supply k node type).1.construct = { node with id := supply.uuid k } := by
  rw [convertNode]
  split_ifs <;> rfl

theorem convertNode_used (node : Node F) (type : Value F) :
    k < (convertNode supply k node type).2 := by
  rw [convertNode]
  split_ifs <;> simp

theorem appArgs_ne {key : String} (hg : key ≠ "group_start") (hs : key ≠ "isService") :
    ∀ p ∈ appArgs node, p.1 ≠ key := by
  rw [appArgs]
  split_ifs
  · simpa using hg.symm
  · simpa using hs.symm
  · simp

theorem convertNode_app_id (supply : Supply F) (k : Nat) (type : Value F) (h : Unnamed node "id") :
    (convertNode supply k node type).1.app.id = node.id := by
  have hid : (buildApp node type).id = node.id :=
    createFromNode_id h (appArgs_ne (by decide) (by decide))
  rw [convertNode]
  split_ifs
  · exact (setKey_id (by decide)).trans hid
  · exact hid

/-- The application of a Gather goes into the Gather, any other stands beside its construct. -/
theorem convertNode_app_parentId (h : Unnamed node "parentId") :
    (convertNode supply k node type).1.app.parentId = some (supply.uuid k) ∨
      (convertNode supply k node type).1.app.parentId = node.parentId := by
  rw [convertNode]
  split_ifs
  · exact Or.inl (setKey_parentId (by decide))
  · exact Or.inr (createFromNode_parentId h (appArgs_ne (by decide) (by decide)))

theorem convertNode_duplicate (h : Unnamed node "parentId") {d : Node F}
    (hd : (convertNode supply k node type).1.duplicate = some d) : d.parentId = node.parentId := by
  rw [convertNode] at hd
  split_ifs at hd
  obtain rfl := Option.some.inj hd
  have hu : Unnamed { node with id := supply.uuid k } "parentId" := h
  exact createFromNode_parentId hu (by simp)

/-! What becomes of all nodes. -/

theorem new_ids (h : c ∈ (convertNodes supply k nodes).2) :
    ∃ j, k ≤ j ∧ c.construct.id = supply.uuid j := by
  induction nodes generalizing k with
  | nil => cases h
  | cons node nodes ih =>
    rw [convertNodes] at h
    split at h
    · exact ih h
    · rcases List.mem_cons.mp h with rfl | h
      · exact ⟨k, Nat.le_refl k, by rw [convertNode_construct]⟩
      · obtain ⟨j, hj, hc⟩ := ih h
        exact ⟨j, (convertNode_used node _).le.trans hj, hc⟩

theorem nodup_new_ids :
    ((convertNodes supply k nodes).2.map fun c => c.construct.id).Nodup := by
  induction nodes generalizing k with
  | nil => exact List.nodup_nil
  | cons node nodes ih =>
    rw [convertNodes]
    split
    · exact ih
    · rename_i type _
      refine List.nodup_cons.mpr ⟨fun hm => ?_, ih⟩
      obtain ⟨c, hc, he⟩ := List.mem_map.mp hm
      obtain ⟨j, hj, hid⟩ := new_ids hc
      simp only [hid, convertNode_construct] at he
      have hused : k < (convertNode supply k node type).2 := convertNode_used node type
      have := supply.injective he
      omega

/-- No application field is called `id` or `parentId`. -/
def PlainFields (nodes : List (Node F)) : Prop :=
  ∀ n ∈ nodes, Unnamed n "id" ∧ Unnamed n "parentId"

/-- The ids afterwards are the old ones, now partly of applications, and the new ones. -/
theorem ids_perm (h : PlainFields nodes) :
    (ids (convertNodes supply k nodes).1 ++ ids ((convertNodes supply k nodes).2.map (·.app))).Perm
      (ids nodes ++ (convertNodes supply k nodes).2.map fun c => c.construct.id) := by
  induction nodes generalizing k with
  | nil => exact List.Perm.refl _
  | cons node nodes ih =>
    have hrest : PlainFields nodes := fun n hn => h n (List.mem_cons_of_mem node hn)
    rw [convertNodes]
    split
    · exact (ih hrest).cons node.id
    · rename_i type _
      have hold := (ih (k := (convertNode supply k node type).2) hrest)
      have happ := convertNode_app_id supply k type
        (h node List.mem_cons_self).1
      simp only [ids, List.map_cons, List.cons_append, happ] at hold ⊢
      exact ((List.perm_middle.trans (hold.cons _)).cons _).trans (List.Perm.swap _ _ _ |>.trans
        (List.perm_middle.symm.cons _))

theorem old_ids_sublist (supply : Supply F) (k : Nat) (h : PlainFields nodes) :
    ((convertNodes supply k nodes).2.map fun c => c.app.id).Sublist (ids nodes) := by
  induction nodes generalizing k with
  | nil => exact List.Sublist.refl _
  | cons node nodes ih =>
    have hrest : PlainFields nodes := fun n hn => h n (List.mem_cons_of_mem node hn)
    rw [convertNodes]
    split
    · exact (ih _ hrest).cons _
    · simp only [List.map_cons, convertNode_app_id supply k _ (h node List.mem_cons_self).1]
      exact (ih _ hrest).cons_cons _

/-- A node keeps its place; a construct has a new id there. -/
theorem getElem?_convertNodes (supply : Supply F) (k : Nat) (h : PlainFields nodes) {i : Nat}
    (hi : nodes[i]? = some n) :
    ∃ id, (convertNodes supply k nodes).1[i]? = some { n with id := id } ∧
      ((appType n).isSome = true → ∃ c ∈ (convertNodes supply k nodes).2,
        c.app.id = n.id ∧ c.construct.id = id) := by
  induction nodes generalizing k i with
  | nil => simp at hi
  | cons node nodes ih =>
    have hrest : PlainFields nodes := fun n hn => h n (List.mem_cons_of_mem node hn)
    rw [convertNodes]
    cases i with
    | zero =>
      obtain rfl : node = n := by simpa using hi
      split
      · rename_i hnone
        exact ⟨node.id, rfl, fun hs => by simp [hnone] at hs⟩
      · refine ⟨_, congrArg some convertNode_construct, fun _ => ⟨_, List.mem_cons_self, ?_, ?_⟩⟩
        · exact convertNode_app_id supply k _ (h node List.mem_cons_self).1
        · rw [convertNode_construct]
    | succ i =>
      have hi : nodes[i]? = some n := by simpa using hi
      split
      · exact ih _ hrest hi
      · rename_i type _
        obtain ⟨id, hid, hc⟩ := ih (convertNode supply k node type).2 hrest hi
        refine ⟨id, hid, fun hs => ?_⟩
        obtain ⟨c, hmem, he⟩ := hc hs
        exact ⟨c, List.mem_cons_of_mem _ hmem, he⟩

/-- The parents of the applications. -/
theorem parent_of_converted (h : PlainFields nodes) (hc : c ∈ (convertNodes supply k nodes).2) :
    (c.app.parentId = some c.construct.id ∨ ∃ n ∈ nodes, c.app.parentId = n.parentId) ∧
      ∀ d, c.duplicate = some d → ∃ n ∈ nodes, d.parentId = n.parentId := by
  induction nodes generalizing k with
  | nil => cases hc
  | cons node nodes ih =>
    have hrest : PlainFields nodes := fun n hn => h n (List.mem_cons_of_mem node hn)
    have hmore : ∀ {q : Node F → Prop}, (∃ n ∈ nodes, q n) → ∃ n ∈ node :: nodes, q n := by
      rintro q ⟨n, hn, hq⟩
      exact ⟨n, List.mem_cons_of_mem node hn, hq⟩
    have htail : ∀ {k}, c ∈ (convertNodes supply k nodes).2 →
        (c.app.parentId = some c.construct.id ∨ ∃ n ∈ node :: nodes, c.app.parentId = n.parentId) ∧
          ∀ d, c.duplicate = some d → ∃ n ∈ node :: nodes, d.parentId = n.parentId := by
      intro k hc
      obtain ⟨happ, hdup⟩ := ih hrest hc
      exact ⟨happ.imp id hmore, fun d hd => hmore (hdup d hd)⟩
    rw [convertNodes] at hc
    split at hc
    · exact htail hc
    · rcases List.mem_cons.mp hc with rfl | hc
      · have hu := (h node List.mem_cons_self).2
        refine ⟨?_, fun d hd => ⟨node, List.mem_cons_self, convertNode_duplicate hu hd⟩⟩
        rw [convertNode_construct]
        exact (convertNode_app_parentId hu).imp id fun he => ⟨node, List.mem_cons_self, he⟩
      · exact htail hc

/-! Parents and the ends of links. -/

theorem nodeIndex_ok (h : v ∈ ids nodes) : ∃ n ∈ nodes, nodeIndex nodes v = .ok n ∧ n.id = v := by
  obtain ⟨m, hm, rfl⟩ := List.mem_map.mp h
  rw [nodeIndex]
  cases hf : nodes.reverse.find? fun n => n.id = m.id with
  | none => simpa using List.find?_eq_none.mp hf m (List.mem_reverse.mpr hm)
  | some n =>
    refine ⟨n, List.mem_reverse.mp (List.mem_of_find?_eq_some hf), rfl, ?_⟩
    simpa using List.find?_some hf

/-- The nodes after step 3. -/
structure Regrouped (cs : List (Converted F)) (nodes : List (Node F)) : Prop where
  nodup : (ids nodes).Nodup
  old : (cs.map fun c => c.app.id).Nodup
  new : (cs.map fun c => c.construct.id).Nodup
  construct : ∀ c ∈ cs, c.construct.id ∈ ids nodes
  parents : ∀ n ∈ nodes, ∀ p, n.parentId = some p → p ∈ ids nodes
  duplicates : ∀ c ∈ cs, ∀ d, c.duplicate = some d → ∀ p, d.parentId = some p → p ∈ ids nodes

omit [DecidableEq F] in
theorem duplicates_sublist (cs : List (Converted F)) :
    ((cs.filterMap fun c => c.duplicate.map fun d => (c.construct.id, d)).map Prod.fst).Sublist
      (cs.map fun c => c.construct.id) := by
  induction cs with
  | nil => exact List.Sublist.refl _
  | cons c cs ih =>
    rw [List.filterMap_cons]
    cases c.duplicate with
    | none => exact ih.cons _
    | some d => exact ih.cons_cons _

theorem gatherMap_spec (h : Regrouped cs nodes) (hl : (oldNewGatherMap cs).lookup p = some v) :
    v ∈ ids nodes ∧ ∃ d, (duplicatedGatherApp cs).lookup v = some d ∧
      ∀ p, d.parentId = some p → p ∈ ids nodes := by
  have hfilter : ((cs.filter fun c => c.duplicate.isSome).map fun c => c.app.id).Nodup :=
    (List.filter_sublist.map _).nodup h.old
  have hmem := mem_of_dictOf (by simpa [Function.comp_def] using hfilter) hl
  obtain ⟨c, hc, he⟩ := List.mem_map.mp hmem
  obtain ⟨hc, hd⟩ := List.mem_filter.mp hc
  obtain ⟨d, hd⟩ := Option.isSome_iff_exists.mp hd
  obtain ⟨-, rfl⟩ := Prod.mk.inj he
  have hkeys := (duplicates_sublist cs).nodup h.new
  refine ⟨h.construct c hc, d, ?_, h.duplicates c hc d hd⟩
  rw [duplicatedGatherApp, dictOf_eq hkeys, ← Association.mem_iff_lookup hkeys]
  exact List.mem_filterMap.mpr ⟨c, hc, by rw [hd]; rfl⟩

/-- What step 4 keeps: the nodes of step 3 come first, and only applications of Gathers follow. -/
structure Keeps (nodes : List (Node F)) (s : Relinked F) : Prop where
  isPrefix : nodes <+: s.nodes
  nodup : (ids s.nodes).Nodup
  parents : ∀ n ∈ s.nodes, ∀ p, n.parentId = some p → p ∈ ids s.nodes
  newnew : ∀ p v, s.oldNewnew.lookup p = some v → v ∈ ids s.nodes

variable {s : Relinked F} {link : Link F} {links : List (Link F)}

omit [DecidableEq F] in
theorem ids_subset_of_prefix {l : List (Node F)} (h : nodes <+: l) : ids nodes ⊆ ids l :=
  List.map_subset _ h.subset

/-- One link of step 4. -/
theorem relinkTarget_ok (hr : Regrouped cs nodes) (hs : Keeps nodes s)
    (hsource : link.source ∈ ids nodes) (htarget : link.target ∈ ids nodes) :
    ∃ link' s', relinkTarget cs s link = .ok (link', s') ∧ Keeps nodes s' ∧
      s.nodes <+: s'.nodes ∧ link'.source = link.source ∧ link'.target ∈ ids s'.nodes := by
  have hin := ids_subset_of_prefix hs.isPrefix
  rw [relinkTarget]
  cases hl : (oldNewGatherMap cs).lookup link.target with
  | none => exact ⟨link, s, rfl, hs, List.prefix_rfl, rfl, hin htarget⟩
  | some new =>
    obtain ⟨hnew, dup, hdup, hparent⟩ := gatherMap_spec hr hl
    obtain ⟨source, -, hindex, -⟩ := nodeIndex_ok (hin hsource)
    simp only [hindex, ok_bind, hdup]
    by_cases hinside : source.parentId = some new
    · rw [if_pos hinside]
      by_cases hthere : dup.id ∈ ids s.nodes
      · rw [if_pos hthere]
        exact ⟨_, s, rfl, hs, List.prefix_rfl, rfl, hthere⟩
      · obtain ⟨construct, -, hcons, -⟩ := nodeIndex_ok (hin hnew)
        simp only [if_neg hthere, hcons, ok_bind]
        have hid : ∀ v, (dup.setKey "reprodata" v).id = dup.id := fun v => setKey_id (by decide)
        have hids : ∀ v, ids (s.nodes ++ [dup.setKey "reprodata" v]) = ids s.nodes ++ [dup.id] := by
          intro v
          simp [ids, hid]
        refine ⟨_, _, rfl, ⟨hs.isPrefix.trans (List.prefix_append _ _), ?_, ?_, ?_⟩,
          List.prefix_append _ _, rfl, ?_⟩
        · rw [hids]
          exact List.nodup_append.mpr ⟨hs.nodup, List.nodup_singleton _,
            fun a ha b hb he => hthere (by rw [← List.mem_singleton.mp hb, ← he]; exact ha)⟩
        · intro n hn p hp
          rw [hids]
          refine List.mem_append_left _ ?_
          rcases List.mem_append.mp hn with hn | hn
          · exact hs.parents n hn p hp
          · rw [List.mem_singleton.mp hn, setKey_parentId (by decide)] at hp
            exact hin (hparent p hp)
        · intro p v hv
          rw [hids]
          rcases Association.lookup_set hv with rfl | hv
          · simp
          · exact List.mem_append_left _ (hs.newnew p v hv)
        · rw [hids]
          simp
    · rw [if_neg hinside]
      exact ⟨_, s, rfl, hs, List.prefix_rfl, rfl, hin hnew⟩

theorem relinkTargets_ok (hr : Regrouped cs nodes) (hs : Keeps nodes s)
    (hlinks : ∀ link ∈ links, link.source ∈ ids nodes ∧ link.target ∈ ids nodes) :
    ∃ links' s', relinkTargets cs s links = .ok (links', s') ∧ Keeps nodes s' ∧
      s.nodes <+: s'.nodes ∧
      ∀ link ∈ links', link.source ∈ ids nodes ∧ link.target ∈ ids s'.nodes := by
  induction links generalizing s with
  | nil => exact ⟨[], s, rfl, hs, List.prefix_rfl, by simp⟩
  | cons link links ih =>
    obtain ⟨hsource, htarget⟩ := hlinks link List.mem_cons_self
    obtain ⟨link', s', hstep, hs', hpre, heq, hin⟩ := relinkTarget_ok hr hs hsource htarget
    obtain ⟨links', s'', hrest, hs'', hpre', hall⟩ :=
      ih hs' fun l hl => hlinks l (List.mem_cons_of_mem link hl)
    refine ⟨link' :: links', s'', ?_, hs'', hpre.trans hpre', ?_⟩
    · rw [relinkTargets, hstep, ok_bind, hrest]
      rfl
    · intro l hl
      rcases List.mem_cons.mp hl with rfl | hl
      · exact ⟨heq ▸ hsource, ids_subset_of_prefix hpre' hin⟩
      · exact hall l hl

/-- One link of step 5. -/
theorem relinkSource_ok (hr : Regrouped cs nodes) (hs : Keeps nodes s)
    (hsource : link.source ∈ ids nodes) (htarget : link.target ∈ ids s.nodes) :
    ∃ link', relinkSource cs s link = .ok link' ∧ link'.source ∈ ids s.nodes ∧
      link'.target ∈ ids s.nodes := by
  have hin := ids_subset_of_prefix hs.isPrefix
  rw [relinkSource]
  cases hl : (oldNewGatherMap cs).lookup link.source with
  | none => exact ⟨link, rfl, hin hsource, htarget⟩
  | some new =>
    obtain ⟨target, -, htarg, -⟩ := nodeIndex_ok htarget
    obtain ⟨construct, -, hcons, -⟩ := nodeIndex_ok (hin (gatherMap_spec hr hl).1)
    simp only [htarg, hcons, ok_bind]
    split_ifs
    · cases hv : s.oldNewnew.lookup link.source with
      | none => exact ⟨link, rfl, hin hsource, htarget⟩
      | some newnew => exact ⟨_, rfl, hs.newnew _ _ hv, htarget⟩
    · exact ⟨link, rfl, hin hsource, htarget⟩

theorem mem_convertNodes (h : n ∈ (convertNodes supply k nodes).1) :
    ∃ m ∈ nodes, n.parentId = m.parentId := by
  induction nodes generalizing k with
  | nil => cases h
  | cons node nodes ih =>
    rw [convertNodes] at h
    split at h
    · rcases List.mem_cons.mp h with rfl | h
      · exact ⟨n, List.mem_cons_self, rfl⟩
      · obtain ⟨m, hm, he⟩ := ih h
        exact ⟨m, List.mem_cons_of_mem node hm, he⟩
    · rcases List.mem_cons.mp h with rfl | h
      · exact ⟨node, List.mem_cons_self, by rw [convertNode_construct]⟩
      · obtain ⟨m, hm, he⟩ := ih h
        exact ⟨m, List.mem_cons_of_mem node hm, he⟩

theorem convertNodes_of_nil (h : (convertNodes supply k nodes).2 = []) :
    (convertNodes supply k nodes).1 = nodes := by
  induction nodes generalizing k with
  | nil => rfl
  | cons node nodes ih =>
    rw [convertNodes] at h ⊢
    split at h
    · exact congrArg (node :: ·) (ih h)
    · cases h

/-- The nodes after step 3: those of the graph in their places, and the applications. -/
def regroup (supply : Supply F) (nodes : List (Node F)) : List (Node F) :=
  ((convertNodes supply 0 nodes).1 ++ (convertNodes supply 0 nodes).2.map (·.app)).map
    (updateParent (oldNewGrpkMap (convertNodes supply 0 nodes).2))

theorem ids_regroup (supply : Supply F) (hf : PlainFields nodes) : (ids (regroup supply nodes)).Perm
    (ids nodes ++ (convertNodes supply 0 nodes).2.map fun c => c.construct.id) := by
  rw [regroup, ids_updateParent, ids, List.map_append]
  exact ids_perm hf

theorem grpkMap_eq (hn : (ids nodes).Nodup) (hf : PlainFields nodes) :
    oldNewGrpkMap (convertNodes supply 0 nodes).2 =
      (convertNodes supply 0 nodes).2.map fun c => (c.app.id, c.construct.id) := by
  refine dictOf_eq ?_
  simpa [Function.comp_def] using (old_ids_sublist supply 0 hf).nodup hn

theorem regrouped (hg : WellFormed g) (hf : PlainFields g.nodes)
    (hfresh : ∀ k, supply.uuid k ∉ ids g.nodes) :
    Regrouped (convertNodes supply 0 g.nodes).2 (regroup supply g.nodes) := by
  have hperm := ids_regroup supply hf
  have hold : ∀ v ∈ ids g.nodes, v ∈ ids (regroup supply g.nodes) := fun v hv =>
    hperm.symm.subset (List.mem_append_left _ hv)
  have hnew : ∀ c ∈ (convertNodes supply 0 g.nodes).2,
      c.construct.id ∈ ids (regroup supply g.nodes) := fun c hc =>
    hperm.symm.subset (List.mem_append_right _ (List.mem_map_of_mem hc))
  refine ⟨?_, (old_ids_sublist supply 0 hf).nodup hg.nodup, nodup_new_ids, hnew, ?_, ?_⟩
  · refine hperm.nodup_iff.mpr (List.nodup_append.mpr ⟨hg.nodup, nodup_new_ids, ?_⟩)
    rintro a ha b hb rfl
    obtain ⟨c, hc, rfl⟩ := List.mem_map.mp hb
    obtain ⟨j, -, hj⟩ := new_ids hc
    exact hfresh j (hj ▸ ha)
  · intro n hn p hp
    obtain ⟨m, hm, rfl⟩ := List.mem_map.mp hn
    obtain ⟨q, hq, hpq⟩ := parentId_of_updateParent hp
    rcases hpq with rfl | hlookup
    · rcases List.mem_append.mp hm with hm | hm
      · obtain ⟨m', hm', he⟩ := mem_convertNodes hm
        exact hold p (hg.parents m' hm' p (he ▸ hq))
      · obtain ⟨c, hc, rfl⟩ := List.mem_map.mp hm
        rcases (parent_of_converted hf hc).1 with he | ⟨m', hm', he⟩
        · obtain rfl : p = c.construct.id := Option.some.inj (hq.symm.trans he)
          exact hnew c hc
        · exact hold p (hg.parents m' hm' p (he ▸ hq))
    · rw [grpkMap_eq hg.nodup hf] at hlookup
      obtain ⟨c, hc, he⟩ := List.mem_map.mp (Association.mem_of_lookup hlookup)
      obtain ⟨-, rfl⟩ := Prod.mk.inj he
      exact hnew c hc
  · intro c hc d hd p hp
    obtain ⟨m, hm, he⟩ := (parent_of_converted hf hc).2 d hd
    exact hold p (hg.parents m hm p (he ▸ hp))

/-- A member of a converted construct has it as its parent under the new id. -/
theorem member_regroup (supply : Supply F) (hg : WellFormed g) (hf : PlainFields g.nodes)
    {i j : Nat} {c : Node F}
    (hi : g.nodes[i]? = some c) (hc : (appType c).isSome = true) (hj : g.nodes[j]? = some n)
    (hp : n.parentId = some c.id) :
    ∃ c' n', (regroup supply g.nodes)[i]? = some c' ∧ c'.category = c.category ∧
      (regroup supply g.nodes)[j]? = some n' ∧ n'.parentId = some c'.id := by
  obtain ⟨id, hbase, hconv⟩ := getElem?_convertNodes supply 0 hf hi
  obtain ⟨id', hbase', -⟩ := getElem?_convertNodes supply 0 hf hj
  obtain ⟨cv, hcv, hold, rfl⟩ := hconv hc
  have hat : ∀ {i : Nat} {m : Node F}, (convertNodes supply 0 g.nodes).1[i]? = some m →
      (regroup supply g.nodes)[i]? =
        some (updateParent (oldNewGrpkMap (convertNodes supply 0 g.nodes).2) m) := by
    intro i m hm
    have hlt := (List.getElem?_eq_some_iff.mp hm).1
    rw [regroup, List.getElem?_map, List.getElem?_append_left hlt, hm]
    rfl
  refine ⟨_, _, hat hbase, ?_, hat hbase', ?_⟩
  · rw [updateParent]
    split <;> rfl
  · have hmember : Node.parentId { n with id := id' } = some c.id := hp
    have hkeys : ((convertNodes supply 0 g.nodes).2.map
        fun c => (c.app.id, c.construct.id)).map Prod.fst |>.Nodup := by
      simpa [Function.comp_def] using (old_ids_sublist supply 0 hf).nodup hg.nodup
    have hlookup : (oldNewGrpkMap (convertNodes supply 0 g.nodes).2).lookup c.id =
        some cv.construct.id := by
      rw [grpkMap_eq hg.nodup hf, ← Association.mem_iff_lookup hkeys, ← hold]
      exact List.mem_map_of_mem hcv
    rw [updateParent_id, updateParent_parentId hmember, hlookup]
    rfl

/-- Node by node, the members of the converted constructs have them as their parents. -/
def MembersKept (g g' : Graph F) : Prop :=
  ∀ (i j : Nat) (c n : Node F), g.nodes[i]? = some c → (appType c).isSome = true →
    g.nodes[j]? = some n → n.parentId = some c.id →
      ∃ c' n' : Node F, g'.nodes[i]? = some c' ∧ c'.category = c.category ∧
        g'.nodes[j]? = some n' ∧ n'.parentId = some c'.id

/-- Converting constructs keeps a graph well formed, and their members in them. -/
theorem convertConstruct_wellFormed (hg : WellFormed g) (hf : PlainFields g.nodes)
    (hfresh : ∀ k, supply.uuid k ∉ ids g.nodes) :
    ∃ g', convertConstruct supply g = .ok g' ∧ WellFormed g' ∧ MembersKept g g' := by
  have hr := regrouped hg hf hfresh
  have hlinks : ∀ link ∈ g.links, link.source ∈ ids (regroup supply g.nodes) ∧
      link.target ∈ ids (regroup supply g.nodes) := by
    intro link hl
    have hold := (ids_regroup supply hf).symm.subset
    exact ⟨hold (List.mem_append_left _ (hg.links link hl).1),
      hold (List.mem_append_left _ (hg.links link hl).2)⟩
  rw [convertConstruct]
  simp only
  split
  · rename_i hempty
    have hnil := List.isEmpty_iff.mp hempty
    refine ⟨_, rfl, ?_, fun i j c n hi hc => ?_⟩
    · rw [convertNodes_of_nil hnil]
      exact hg
    · obtain ⟨id, -, hconv⟩ := getElem?_convertNodes supply 0 hf hi
      obtain ⟨cv, hcv, -⟩ := hconv hc
      rw [hnil] at hcv
      cases hcv
  · split
    · exact ⟨_, rfl, ⟨⟨hlinks, hr.parents⟩, hr.nodup⟩,
        fun i j c n hi hc hj hp => member_regroup supply hg hf hi hc hj hp⟩
    · have hstart : Keeps (regroup supply g.nodes) ⟨regroup supply g.nodes, []⟩ :=
        ⟨List.prefix_rfl, hr.nodup, hr.parents, by simp⟩
      obtain ⟨links', s, hs, hkeep, hpre, hall⟩ := relinkTargets_ok hr hstart hlinks
      have hsource := fun link hl => relinkSource_ok hr hkeep (hall link hl).1 (hall link hl).2
      choose! f hf' hends using hsource
      refine ⟨⟨s.nodes, links'.map f⟩, ?_, ⟨⟨?_, hkeep.parents⟩, hkeep.nodup⟩, ?_⟩
      · have hs' : relinkTargets (convertNodes supply 0 g.nodes).2
            ⟨((convertNodes supply 0 g.nodes).1 ++
              (convertNodes supply 0 g.nodes).2.map (·.app)).map
              (updateParent (oldNewGrpkMap (convertNodes supply 0 g.nodes).2)), []⟩ g.links =
            .ok (links', s) := hs
        rw [hs', ok_bind]
        simp only
        rw [mapM_eq_map hf', ok_bind]
        rfl
      · intro link hl
        obtain ⟨l, hmem, rfl⟩ := List.mem_map.mp hl
        exact hends l hmem
      · intro i j c n hi hc hj hp
        obtain ⟨c', n', hi', hcat, hj', hp'⟩ := member_regroup supply hg hf hi hc hj hp
        have hat : ∀ {i : Nat} {m : Node F}, (regroup supply g.nodes)[i]? = some m →
            s.nodes[i]? = some m := by
          intro i m hm
          obtain ⟨rest, hrest⟩ := hpre
          rw [← hrest, List.getElem?_append_left (List.getElem?_eq_some_iff.mp hm).1]
          exact hm
        exact ⟨c', n', hat hi', hcat, hat hj', hp'⟩

/-- A Gather in a Scatter, with a file in each, and a link out of the Gather's own file. -/
def scatteredGather : Graph Unit where
  nodes := [
    { id := .text "scatter", category := .text "Scatter", name := .text "s"
      appFields := [("inputAppFields", [⟨.str "f", "func", "", .text "split"⟩])]
      keys := [("inputApplicationType", .text "PythonApp")] },
    { id := .text "gather", category := .text "Gather", name := .text "g"
      parentId := some (.text "scatter")
      keys := [("inputApplicationType", .text "None"),
        ("outputApplicationType", .text "PythonApp")] },
    { id := .text "file", category := .text "File", name := .text "f"
      parentId := some (.text "scatter") },
    { id := .text "inner", category := .text "File", name := .text "i"
      parentId := some (.text "gather") }]
  links := [⟨.text "scatter", .text "file", []⟩, ⟨.text "file", .text "gather", []⟩,
    ⟨.text "inner", .text "gather", []⟩]

theorem scatteredGather_converted : ∃ g', convertConstruct numbers scatteredGather = .ok g' ∧
    WellFormed g' ∧ MembersKept scatteredGather g' := by
  refine convertConstruct_wellFormed ⟨⟨by decide, ?_⟩, by decide⟩ ?_ ?_
  · intro n hn p hp
    simp only [scatteredGather, List.mem_cons, List.not_mem_nil, or_false] at hn
    rcases hn with rfl | rfl | rfl | rfl
    · cases hp
    all_goals
      obtain rfl := Option.some.inj hp
      decide
  · intro n hn
    simp only [scatteredGather, List.mem_cons, List.not_mem_nil, or_false] at hn
    rcases hn with rfl | rfl | rfl | rfl <;> constructor <;> unfold Unnamed <;> decide
  · intro k
    simp [numbers, ids, scatteredGather]

end Daliuge.Prepare.Normalise
