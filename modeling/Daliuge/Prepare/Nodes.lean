import Daliuge.Lib.Association
import Daliuge.Prepare.Graph

/-!
# Nodes made from other nodes

The nodes and links that normalising works on. A node is a dictionary: its id, category, name and
parent are fields here, its lists of fields and its other keys are kept by name.
-/
namespace Daliuge.Prepare.Normalise

inductive Err
  | keyError
  | nonTermination
  deriving DecidableEq, Repr

structure Node (F : Type) where
  id : Value F
  category : Value F
  name : Value F
  text : Option (Value F) := none
  parentId : Option (Value F) := none
  fields : List (Field F) := []
  appFields : List (String × List (Field F)) := []
  keys : List (String × Value F) := []
  deriving DecidableEq, Repr

/-- A link, by its `from` and `to`. -/
structure Link (F : Type) where
  source : Value F
  target : Value F
  keys : List (String × Value F) := []
  deriving DecidableEq, Repr

structure Graph (F : Type) where
  nodes : List (Node F)
  links : List (Link F)
  deriving DecidableEq, Repr

variable {F : Type}

/-- Write one key of a node. -/
def Node.setKey (node : Node F) (key : String) (value : Value F) : Node F :=
  if key = "id" then { node with id := value }
  else if key = "category" then { node with category := value }
  else if key = "name" then { node with name := value }
  else if key = "text" then { node with text := some value }
  else if key = "parentId" then { node with parentId := some value }
  else if key = "fields" then
    { node with fields := [], keys := Association.set node.keys key value }
  else
    { node with
      appFields := node.appFields.filter (·.1 ≠ key)
      keys := Association.set node.keys key value }

/-- `create_from_node`; the parameter `fields` of `app_params` is an argument of its own. -/
def createFromNode (node : Node F) (category : Value F) (fields : Option String)
    (appParams : List (String × Value F)) : Node F :=
  let new : Node F :=
    { id := node.id
      category := category
      name := node.text.getD node.name
      parentId := node.parentId
      keys := [("reprodata", (node.keys.lookup "reprodata").getD (.nested "\x7b\x7d"))] }
  let new :=
    match fields.bind fun field => node.appFields.lookup field with
    | none => new
    | some l =>
      l.foldl (fun n afd => n.setKey afd.name afd.value) { new with fields := l ++ node.fields }
  appParams.foldl (fun n p => n.setKey p.1 p.2) new

/-- The key is there and names an application. -/
def hasApp [DecidableEq F] (node : Node F) (key : String) : Bool :=
  match node.keys.lookup key with
  | some value => decide (value ≠ .text "None" ∧ value ≠ .text "UnknownApplication")
  | none => false

/-- `has_app_keywords`: the first such key, or the last one when all have to be there. -/
def hasAppKeywords [DecidableEq F] (node : Node F) (keywords : List String) (requiresAll : Bool) :
    Option String :=
  if requiresAll then if keywords.all (hasApp node) then keywords.getLast? else none
  else keywords.find? (hasApp node)

def ids (nodes : List (Node F)) : List (Value F) := nodes.map (·.id)

/-- The ends of every link and every parent are nodes of the graph. -/
structure Referring (g : Graph F) : Prop where
  links : ∀ link ∈ g.links, link.source ∈ ids g.nodes ∧ link.target ∈ ids g.nodes
  parents : ∀ n ∈ g.nodes, ∀ p, n.parentId = some p → p ∈ ids g.nodes

/-- A well formed graph. -/
structure WellFormed (g : Graph F) : Prop extends Referring g where
  nodup : (ids g.nodes).Nodup

section Maps

variable [DecidableEq F]

/-- A dictionary that is written entry by entry. -/
def dictOf {α β : Type} [DecidableEq α] (entries : List (α × β)) : List (α × β) :=
  Association.merge [] entries

/-- The parent of a node under its new id, as step 3 of `convert_construct` and `_update_keys`
write it. -/
def updateParent (map : List (Value F × Value F)) (node : Node F) : Node F :=
  match node.parentId.bind fun p => map.lookup p with
  | some new => { node with parentId := some new }
  | none => node

end Maps

/-- `uuid4`, called over and over. -/
structure Supply (F : Type) where
  uuid : Nat → Value F
  injective : Function.Injective uuid

/-- Numbers for new ids. -/
def numbers : Supply Unit := ⟨fun k => .int k, fun _ _ h => Int.ofNat.inj (Value.int.inj h)⟩

variable {node n : Node F} {key : String} {value : Value F} {l : List (Field F)}
  {params : List (String × Value F)}

theorem mem_ids {nodes : List (Node F)} (h : node ∈ nodes) : node.id ∈ ids nodes :=
  List.mem_map_of_mem h

theorem setKey_id (h : key ≠ "id") : (node.setKey key value).id = node.id := by
  rw [Node.setKey, if_neg h]
  split_ifs <;> rfl

theorem setKey_parentId (h : key ≠ "parentId") :
    (node.setKey key value).parentId = node.parentId := by
  rw [Node.setKey]
  split_ifs <;> rfl

theorem setKey_category (h : key ≠ "category") :
    (node.setKey key value).category = node.category := by
  rw [Node.setKey]
  split_ifs <;> rfl

/-- What no key writes is kept by writing many. -/
theorem foldl_setKey {α β : Type} {f : Node F → β} {keyOf : α → String} {valueOf : α → Value F}
    {key : String} (hf : ∀ n k v, k ≠ key → f (n.setKey k v) = f n) {l : List α}
    (hl : ∀ a ∈ l, keyOf a ≠ key) (n : Node F) :
    f (l.foldl (fun n a => n.setKey (keyOf a) (valueOf a)) n) = f n := by
  induction l generalizing n with
  | nil => rfl
  | cons a l ih =>
    rw [List.foldl_cons, ih fun b hb => hl b (List.mem_cons_of_mem a hb),
      hf n _ _ (hl a List.mem_cons_self)]

/-- No application field of the node is called by a key. -/
def Unnamed (node : Node F) (key : String) : Prop :=
  ∀ p ∈ node.appFields, ∀ f ∈ p.2, f.name ≠ key

theorem createFromNode_kept {β : Type} {f : Node F → β} {key : String} {category : Value F}
    {fields : Option String} (hf : ∀ n k v, k ≠ key → f (n.setKey k v) = f n)
    (hfields : ∀ n l, f { n with fields := l } = f n) (hu : Unnamed node key)
    (hp : ∀ p ∈ params, p.1 ≠ key) :
    f (createFromNode node category fields params) =
      f (createFromNode node category none []) := by
  rw [createFromNode, foldl_setKey hf hp]
  cases hl : fields.bind fun field => node.appFields.lookup field with
  | none => rfl
  | some l =>
    obtain ⟨name, -, hlookup⟩ := Option.bind_eq_some_iff.mp hl
    have hnames : ∀ a ∈ l, a.name ≠ key := hu _ (Association.mem_of_lookup hlookup)
    simp only
    rw [foldl_setKey hf hnames]
    exact hfields (createFromNode node category none []) _

/-- What one of the parameters writes, when no later one writes it again. -/
theorem createFromNode_written {β : Type} {f : Node F → β} {key : String} {category v : Value F}
    {fields : Option String} {b : β} {qs : List (String × Value F)}
    (hf : ∀ n k v, k ≠ key → f (n.setKey k v) = f n) (hv : ∀ n : Node F, f (n.setKey key v) = b)
    (hq : ∀ q ∈ qs, q.1 ≠ key) :
    f (createFromNode node category fields (params ++ (key, v) :: qs)) = b := by
  rw [createFromNode, List.foldl_append, List.foldl_cons, foldl_setKey hf hq, hv]

theorem createFromNode_id {category : Value F} {fields : Option String} (hu : Unnamed node "id")
    (hp : ∀ p ∈ params, p.1 ≠ "id") :
    (createFromNode node category fields params).id = node.id :=
  createFromNode_kept (f := Node.id) (fun _ _ _ => setKey_id) (fun _ _ => rfl) hu hp

theorem createFromNode_parentId {category : Value F} {fields : Option String}
    (hu : Unnamed node "parentId") (hp : ∀ p ∈ params, p.1 ≠ "parentId") :
    (createFromNode node category fields params).parentId = node.parentId :=
  createFromNode_kept (f := Node.parentId) (fun _ _ _ => setKey_parentId) (fun _ _ => rfl) hu hp

theorem dictOf_eq {α β : Type} [DecidableEq α] {l : List (α × β)} (h : (l.map Prod.fst).Nodup) :
    dictOf l = l := Association.merge_of_nodup h

theorem mem_of_dictOf {α β : Type} [DecidableEq α] {l : List (α × β)} {a : α} {b : β}
    (h : (l.map Prod.fst).Nodup) (hl : (dictOf l).lookup a = some b) : (a, b) ∈ l := by
  rw [dictOf_eq h] at hl
  exact Association.mem_of_lookup hl

variable [DecidableEq F] {p : Value F} {nodes : List (Node F)}

theorem updateParent_id (map : List (Value F × Value F)) : (updateParent map n).id = n.id := by
  rw [updateParent]
  split <;> rfl

theorem ids_updateParent (map : List (Value F × Value F)) :
    ids (nodes.map (updateParent map)) = ids nodes := by
  rw [ids, List.map_map]
  exact List.map_congr_left fun n _ => updateParent_id map

theorem updateParent_parentId {map : List (Value F × Value F)} (h : n.parentId = some p) :
    (updateParent map n).parentId = some ((map.lookup p).getD p) := by
  rw [updateParent, h, Option.bind_some]
  cases map.lookup p with
  | none => exact h
  | some new => rfl

theorem parentId_of_updateParent {map : List (Value F × Value F)}
    (h : (updateParent map n).parentId = some p) :
    ∃ q, n.parentId = some q ∧ (p = q ∨ map.lookup q = some p) := by
  cases hq : n.parentId with
  | none =>
    rw [updateParent, hq, Option.bind_none] at h
    exact absurd (hq.symm.trans h) (by simp)
  | some q =>
    rw [updateParent_parentId hq] at h
    refine ⟨q, rfl, ?_⟩
    cases hl : map.lookup q with
    | none => exact Or.inl (by simpa [hl] using h.symm)
    | some new => exact Or.inr (by simpa [hl] using h)

end Daliuge.Prepare.Normalise
