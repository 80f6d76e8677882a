import Mathlib.Algebra.BigOperators.Ring.Finset
import Mathlib.Data.List.Dedup
import Daliuge.Unroll.GroupDrops

/-!
# Grouping by keys

A GroupBy sorts the drops of its input by their indices in some of the Scatters around them.
Which GroupBy drop a group goes to is only its place in the sorted list of keys; the drops carry
keys of their own, made where they are instantiated. The names of the keys are read once to count
the drops and again to wire them, and a default that stands in for an empty field is gone by then.
-/
namespace Daliuge.Unroll

open Enumeration Collect

variable {lg : LG} {m n s t : LGNode} {placed : List Placed} {groups : List Node}
  {sources targets : List Drop} {edges : List (Drop × Drop)} {layers : List (Nat × LGNode)}
  {keys : List Int} {made : Bool}

/-- How many instances each group of a chain has, from the inside. -/
def instances (lg : LG) : List Node → List Nat
  | [] => []
  | g :: gs => lg.copies ⟨g, gs⟩ :: instances lg gs

/-- Each source drop is joined with exactly one target drop, which is related to it. -/
structure Assigned (sources targets : List Drop) (related : Drop → Drop → Prop)
    (edges : List (Drop × Drop)) : Prop where
  nodup : edges.Nodup
  mem : ∀ a b, (a, b) ∈ edges ↔ a ∈ sources ∧ b ∈ targets ∧ related a b
  unique : ∀ a ∈ sources, ∃! b, (a, b) ∈ edges

/-- The places of the groups whose ids are keys, counted from the inside. -/
def keyPlaces (keys : List Int) (groups : List Node) : List Nat :=
  (groups.zipIdx.filter fun g => keys.any fun k => g.1.id == .int k).map (·.2)

/-- The places of the groups whose indices make a GroupBy's keys. -/
def placesOf (ks : Option (List Int)) (groups : List Node) : List Nat :=
  match ks with
  | none => [0]
  | some [_] => [0]
  | some keys => keyPlaces keys groups

/-- The indices of a drop in the groups at some places. -/
def indicesAt (places : List Nat) (d : Drop) : List Nat :=
  places.map fun c => d.coord.path.reverse.getD c 0

/-- What a GroupBy drop and one of its source drops have in common by some keys. -/
def RegroupedBy (ks : Option (List Int)) (s : LGNode) (a b : Drop) : Prop :=
  match ks with
  | some (k :: k' :: ks) =>
    b.coord.groupKey = indicesAt (keyPlaces (k :: k' :: ks) s.groups) a
  | _ =>
    a.coord.path.getLast? = b.coord.path.getLast? ∧ b.coord.path.dropLast <+: a.coord.path

/-- The same, by the keys that the drops are counted by. -/
def Regrouped (s t : LGNode) (a b : Drop) : Prop :=
  ∃ ks, t.groupKeys false = .ok ks ∧ RegroupedBy ks s a b

/-- Whether the keys stay what they are when drops of the GroupBy have been made. -/
def LGNode.KeysKept (t : LGNode) : Prop := t.groupKeys true = t.groupKeys false

/-! Reading the keys twice. -/

theorem get?_rewritten (n : Node) (key : String) :
    n.rewritten.get? key = n.get? key ∨ n.rewritten.get? key = some (.text "") := by
  have hfind : (n.rewritten.fields.reverse.find? fun f => f.name == key) =
      (n.fields.reverse.find? fun f => f.name == key).map
        fun f => { f with defaultValue := .text "" } := by
    rw [Node.rewritten, ← List.map_reverse, List.find?_map]
    rfl
  rw [Node.get?, Node.get?, hfind]
  cases n.fields.reverse.find? fun f => f.name == key with
  | none => exact Or.inl rfl
  | some f =>
    simp only [Option.map_some, Field.converted]
    by_cases hv : f.value = .text ""
    · exact Or.inr (by rw [if_pos hv])
    · exact Or.inl (by rw [if_neg hv, if_neg hv])

/-- Keys are only ever lost. -/
theorem keysKept_or_lost (t : LGNode) : t.KeysKept ∨ t.groupKeys true = .ok none := by
  rcases get?_rewritten t.node "group_key" with hg | hg
  · refine Or.inl ?_
    show t.node.rewritten.groupKeys = t.node.groupKeys
    rw [Node.groupKeys, Node.groupKeys, hg]
  · refine Or.inr ?_
    show t.node.rewritten.groupKeys = .ok none
    rw [Node.groupKeys, hg]
    rfl

theorem LGNode.KeysKept.groupKeys (h : t.KeysKept) (made : Bool) :
    t.groupKeys made = t.groupKeys false := by
  cases made
  · rfl
  · exact h

theorem splitComma_ne_nil (cs : List Char) : splitComma cs ≠ [] := by
  cases cs with
  | nil => simp [splitComma]
  | cons c cs =>
    rw [splitComma]
    split
    · simp
    · split
      · simp
      · simp

/-- A key that is given is one at least. -/
theorem groupKeys_ne_nil (t : Node) : t.groupKeys ≠ .ok (some []) := by
  intro h
  unfold Node.groupKeys at h
  dsimp only at h
  split at h
  · cases h
  · split at h
    · rename_i keys hkeys
      obtain rfl := Option.some.inj (Except.ok.inj h)
      obtain ⟨cs, hcs⟩ := List.exists_mem_of_ne_nil _ (splitComma_ne_nil _)
      obtain ⟨k, hk⟩ := ok_of_mapM hkeys hcs
      exact absurd (mem_of_mapM hkeys hcs hk) List.not_mem_nil
    · cases h

theorem scatterLayers_congr {g : LogicalGraph} {inputs : Inputs} {made made' : Bool}
    (h : t.groupKeys made = t.groupKeys made') :
    scatterLayers g inputs t made = scatterLayers g inputs t made' := by
  rw [scatterLayers, h]
  rfl

/-! Sorting by keys. -/

section Sorting

variable {key label : Drop → List Nat} {E : List (List Nat)}

theorem groupByEdges_ok (key : Drop → List Nat)
    (hl : scatterLayers lg.graph lg.inputs t (!targets.isEmpty) = .ok layers)
    (hkey : ∀ d ∈ sources,
      groupKeyOf s t (!targets.isEmpty) (layers.map (·.1)) d = .ok (key d)) :
    groupByEdges lg s t sources targets = .ok edges ↔
      (sources.map key).dedup.length = targets.length ∧ [] ∉ sources.map key ∧
        edges = (((sources.map key).dedup.insertionSort (· ≤ ·)).zip targets).flatMap fun p =>
          (sources.filter fun d => key d == p.1).map fun d => (d, p.2) := by
  have hkeyed : sources.mapM (fun d => do
      return (← groupKeyOf s t (!targets.isEmpty) (layers.map (·.1)) d, d)) =
      Except.ok (sources.map fun d => (key d, d)) := by
    refine mapM_eq_map fun d hd => ?_
    rw [hkey d hd, ok_bind]
    rfl
  rw [groupByEdges, hl, ok_bind, hkeyed, ok_bind, List.map_map]
  simp only [Function.comp_def, List.mem_dedup]
  constructor
  · intro h
    split at h
    · cases h
    rename_i hlen
    split at h
    · cases h
    rename_i hnil
    refine ⟨by simpa using hlen, hnil, ?_⟩
    rw [← pure_ok.mp h]
    refine List.flatMap_congr fun p _ => ?_
    rw [List.filter_map, List.map_map]
    rfl
  · rintro ⟨hlen, hnil, rfl⟩
    rw [if_neg (by simpa using hlen), if_neg hnil]
    refine pure_ok.mpr (List.flatMap_congr fun p _ => ?_)
    rw [List.filter_map, List.map_map]
    rfl

/-- A source drop has to go somewhere. -/
theorem targets_of_groupByEdges (hok : groupByEdges lg s t sources targets = .ok edges)
    (hne : sources ≠ []) : targets ≠ [] := by
  obtain ⟨layers, -, hok⟩ := bind_ok.mp hok
  obtain ⟨keyed, hkeyed, hok⟩ := bind_ok.mp hok
  obtain ⟨d, hd⟩ := List.exists_mem_of_ne_nil _ hne
  obtain ⟨p, hp⟩ := ok_of_mapM hkeyed hd
  have hmem : p.1 ∈ (keyed.map (·.1)).dedup :=
    List.mem_dedup.mpr (List.mem_map_of_mem (mem_of_mapM hkeyed hd hp))
  simp only at hok
  split at hok
  · cases hok
  · rename_i hlen
    rintro rfl
    rw [List.length_nil, not_not, List.length_eq_zero_iff] at hlen
    exact absurd (hlen ▸ hmem) List.not_mem_nil

theorem nodup_of_lt (hE : E.Pairwise (· < ·)) : E.Nodup := by
  refine hE.imp ?_
  intro k k' h he
  subst he
  exact List.lt_irrefl k h

/-- The keys in use, sorted. -/
theorem insertionSort_keys (hE : E.Pairwise (· < ·)) (hmem : ∀ k, k ∈ E ↔ k ∈ sources.map key) :
    (sources.map key).dedup.insertionSort (· ≤ ·) = E := by
  have hnodup := nodup_of_lt hE
  have hperm : ((sources.map key).dedup.insertionSort (· ≤ ·)).Perm E := by
    refine (List.perm_insertionSort _ _).trans ?_
    refine (List.perm_ext_iff_of_nodup (List.nodup_dedup _) hnodup).mpr fun k => ?_
    rw [List.mem_dedup, hmem]
  exact hperm.eq_of_pairwise' (List.pairwise_insertionSort _ _) (hE.imp fun h => le_of_lt h)

theorem length_keys (hE : E.Pairwise (· < ·)) (hmem : ∀ k, k ∈ E ↔ k ∈ sources.map key) :
    (sources.map key).dedup.length = E.length := by
  rw [← insertionSort_keys hE hmem, List.length_insertionSort]

/-- Drops whose labels are the sorted keys get the groups of their labels. -/
theorem assigned_of_labels (label : Drop → List Nat) (hs : sources.Nodup) (hE : E.Pairwise (· < ·))
    (hmem : ∀ k, k ∈ E ↔ k ∈ sources.map key) (hlabel : targets.map label = E) :
    Assigned sources targets (fun a b => label b = key a)
      ((((sources.map key).dedup.insertionSort (· ≤ ·)).zip targets).flatMap fun p =>
        (sources.filter fun d => key d == p.1).map fun d => (d, p.2)) := by
  have hnodup : (targets.map label).Nodup := hlabel ▸ nodup_of_lt hE
  have hedges : ((((sources.map key).dedup.insertionSort (· ≤ ·)).zip targets).flatMap fun p =>
      (sources.filter fun d => key d == p.1).map fun d => (d, p.2)) =
      targets.flatMap fun b => (sources.filter fun d => key d == label b).map fun d => (d, b) := by
    rw [insertionSort_keys hE hmem, ← hlabel, List.zip_map_left, List.flatMap_map]
    have hzip : targets.zip targets = targets.map fun b => (b, b) := by
      rw [← List.zipWith_self, List.zip]
    rw [hzip, List.flatMap_map]
    rfl
  rw [hedges]
  have hedge : ∀ a b, (a, b) ∈ (targets.flatMap fun b =>
      (sources.filter fun d => key d == label b).map fun d => (d, b)) ↔
      a ∈ sources ∧ b ∈ targets ∧ label b = key a := by
    intro a b
    simp only [List.mem_flatMap, List.mem_map, List.mem_filter, beq_iff_eq, Prod.mk.injEq]
    constructor
    · rintro ⟨b', hb, d, ⟨hd, hk⟩, rfl, rfl⟩
      exact ⟨hd, hb, hk.symm⟩
    · rintro ⟨ha, hb, hk⟩
      exact ⟨b, hb, a, ⟨ha, hk.symm⟩, rfl, rfl⟩
  refine ⟨?_, hedge, fun a ha => ?_⟩
  · refine List.nodup_flatMap.mpr ⟨fun b _ => ?_, ?_⟩
    · exact (hs.filter _).map fun _ _ h => (Prod.mk.inj h).1
    · refine hnodup.of_map.imp fun hne => ?_
      rintro ⟨a, b⟩ hp hq
      obtain ⟨_, -, h⟩ := List.mem_map.mp hp
      obtain ⟨_, -, h'⟩ := List.mem_map.mp hq
      exact hne ((Prod.mk.inj h).2.trans (Prod.mk.inj h').2.symm)
  · have hk : key a ∈ targets.map label := hlabel ▸ (hmem _).mpr (List.mem_map_of_mem ha)
    obtain ⟨b, hb, hlb⟩ := List.mem_map.mp hk
    refine ⟨b, (hedge a b).mpr ⟨ha, hb, hlb⟩, fun b' hb' => ?_⟩
    obtain ⟨-, hb', hlb'⟩ := (hedge a b').mp hb'
    exact List.inj_on_of_nodup_map hnodup hb' hb (hlb'.trans hlb.symm)

end Sorting

theorem Assigned.congr {related related' : Drop → Drop → Prop}
    (h : Assigned sources targets related edges)
    (hr : ∀ a ∈ sources, ∀ b ∈ targets, related a b ↔ related' a b) :
    Assigned sources targets related' edges := by
  refine ⟨h.nodup, fun a b => ?_, h.unique⟩
  rw [h.mem]
  constructor
  · rintro ⟨ha, hb, hab⟩
    exact ⟨ha, hb, (hr a ha b hb).mp hab⟩
  · rintro ⟨ha, hb, hab⟩
    exact ⟨ha, hb, (hr a ha b hb).mpr hab⟩

theorem assigned_nil {related : Drop → Drop → Prop} : Assigned [] targets related [] := by
  refine ⟨List.nodup_nil, fun a b => ?_, fun a ha => ?_⟩
  · simp
  · cases ha

/-! The Scatters around a node. -/

theorem bounds_reverse (h : ∀ g ∈ groups, g.isGroup = true) :
    bounds lg [] groups.reverse = (instances lg groups).reverse := by
  induction groups with
  | nil => rfl
  | cons g gs ih =>
    rw [List.reverse_cons, bounds_append, ih fun g' hg' => h g' (List.mem_cons_of_mem g hg'),
      instances, List.reverse_cons]
    simp [bounds, h g List.mem_cons_self]

theorem sizes_eq_instances (h : ∀ g ∈ n.groups, g.isGroup = true) :
    sizes lg n = (instances lg n.groups).reverse := bounds_reverse h

theorem instances_drop (k : Nat) :
    (instances lg groups).drop k = instances lg (groups.drop k) := by
  induction groups generalizing k with
  | nil => simp [instances]
  | cons g gs ih =>
    cases k with
    | zero => rfl
    | succ k => exact ih k

theorem length_instances : (instances lg groups).length = groups.length := by
  induction groups with
  | nil => rfl
  | cons g gs ih => rw [instances, List.length_cons, List.length_cons, ih]

theorem mem_keyLayers {c : Nat} {l : Nat × LGNode} (h : l ∈ keyLayers keys c groups) :
    c ≤ l.1 ∧ groups.drop (l.1 - c) = l.2.node :: l.2.groups ∧
      l.2.isConstruct .scatter = true := by
  induction groups generalizing c with
  | nil => simp [keyLayers] at h
  | cons g gs ih =>
    have hrest : l ∈ keyLayers keys (c + 1) gs → c ≤ l.1 ∧
        (g :: gs).drop (l.1 - c) = l.2.node :: l.2.groups ∧ l.2.isConstruct .scatter = true := by
      intro hl
      obtain ⟨hle, hd, hs⟩ := ih hl
      have hsucc : l.1 - c = (l.1 - (c + 1)) + 1 := by omega
      exact ⟨by omega, by rw [hsucc, List.drop_succ_cons, hd], hs⟩
    rw [keyLayers] at h
    split at h
    · rename_i hs
      split at h
      · rcases List.mem_cons.mp h with rfl | h
        · exact ⟨le_refl _, by simp, hs⟩
        · exact hrest h
      · exact hrest h
    · cases h

theorem keyLayers_places (c : Nat) (h : ∀ g ∈ groups, g.isConstruct .scatter = true) :
    (keyLayers keys c groups).map (·.1) =
      ((groups.zipIdx c).filter fun g => keys.any fun k => g.1.id == .int k).map (·.2) := by
  induction groups generalizing c with
  | nil => rfl
  | cons g gs ih =>
    rw [keyLayers, if_pos (h g List.mem_cons_self), List.zipIdx_cons, List.filter_cons]
    have hrest := ih (c + 1) fun g' hg' => h g' (List.mem_cons_of_mem g hg')
    simp only
    split
    · rw [List.map_cons, List.map_cons, hrest]
    · exact hrest

theorem copies_of_layer {l : Nat × LGNode} (h : groups.drop l.1 = l.2.node :: l.2.groups) :
    lg.copies l.2 = (instances lg groups).getD l.1 0 := by
  have hd : (instances lg groups).drop l.1 = _ := instances_drop l.1
  rw [h, instances] at hd
  rw [List.getD_eq_getElem?_getD, ← List.head?_drop, hd]
  rfl

theorem keyPlaces_sublist (keys : List Int) (groups : List Node) :
    (keyPlaces keys groups).Sublist (List.range groups.length) := by
  have hsub := (List.filter_sublist (l := groups.zipIdx)
    (p := fun g => keys.any fun k => g.1.id == .int k)).map Prod.snd
  rw [List.zipIdx_map_snd, ← List.range_eq_range'] at hsub
  exact hsub

theorem pairwise_keyPlaces (keys : List Int) (groups : List Node) :
    (keyPlaces keys groups).Pairwise (· < ·) :=
  List.pairwise_lt_range.sublist (keyPlaces_sublist keys groups)

theorem nodup_keyPlaces (keys : List Int) (groups : List Node) : (keyPlaces keys groups).Nodup :=
  List.nodup_range.sublist (keyPlaces_sublist keys groups)

theorem isGroup_of_scatter {g : Node} (h : g.isConstruct .scatter = true) : g.isGroup = true := by
  have hc : g.isGroup = true ∧ g.category = .scatter := by simpa [Node.isConstruct] using h
  exact hc.1

theorem category_of_scatter {g : Node} (h : g.isConstruct .scatter = true) :
    g.category = .scatter := by
  have hc : g.isGroup = true ∧ g.category = .scatter := by simpa [Node.isConstruct] using h
  exact hc.2

theorem notGroupBy_of_scatter {g : Node} (gs : List Node) (h : g.isConstruct .scatter = true) :
    (⟨g, gs⟩ : LGNode).isConstruct .groupBy = false := by
  simp [LGNode.isConstruct, Node.isConstruct, category_of_scatter h]

theorem category_of_groupBy (h : t.isConstruct .groupBy = true) : t.node.category = .groupBy := by
  simpa [LGNode.isConstruct, Node.isConstruct] using h

theorem dop_scatter (h : n.isConstruct .scatter = true) (fuel : Nat) :
    dopAt lg.graph lg.inputs (fuel + 1) n = lg.graph.dop lg.inputs n := by
  have hg : n.node.isGroup = true := isGroup_of_scatter h
  have hc : n.node.category = .scatter := category_of_scatter h
  simp [LogicalGraph.dop, dopAt, Node.handler, hg, hc, bind, Except.bind]

/-- A group with an instance has a dop. -/
theorem dop_of_copies (h : 0 < lg.copies n) :
    lg.graph.dop lg.inputs n = .ok (lg.copies n : Int) := by
  rw [LG.copies] at h ⊢
  cases hd : lg.graph.dop lg.inputs n with
  | error e => simp [hd, Except.toOption] at h
  | ok d =>
    simp only [hd, Except.toOption, Option.getD_some] at h ⊢
    rw [Int.toNat_of_nonneg (by omega)]

theorem foldlM_product {α : Type} {f : α → Except Err Int} {g : α → Int} {l : List α}
    (h : ∀ a ∈ l, f a = .ok (g a)) (d : Int) :
    l.foldlM (fun d a => do return d * (← f a)) d = .ok (d * (l.map g).prod) := by
  induction l generalizing d with
  | nil => simp [pure, Except.pure]
  | cons a l ih =>
    rw [List.foldlM_cons, h a List.mem_cons_self, ok_bind]
    have hrest := ih (fun b hb => h b (List.mem_cons_of_mem a hb)) (d * g a)
    rw [List.map_cons, List.prod_cons, ← Int.mul_assoc]
    exact hrest

/-- What the layers of a GroupBy say about the instances of the groups around its input. -/
structure Layers (lg : LG) (s t : LGNode) (made : Bool) (layers : List (Nat × LGNode)) : Prop where
  ok : scatterLayers lg.graph lg.inputs t made = .ok layers
  layer : ∀ l ∈ layers, s.groups.drop l.1 = l.2.node :: l.2.groups ∧
    l.2.isConstruct .scatter = true

/-- The counts of the groups at some places. -/
def countsAt (lg : LG) (n : LGNode) (places : List Nat) : List Nat :=
  places.map fun c => (instances lg n.groups).getD c 0

theorem Layers.lt (h : Layers lg s t made layers) {l : Nat × LGNode} (hl : l ∈ layers) :
    l.1 < s.groups.length := by
  by_contra hge
  have hd := (h.layer l hl).1
  rw [List.drop_eq_nil_of_le (by omega)] at hd
  cases hd

theorem Layers.copies (h : Layers lg s t made layers) :
    layers.map (fun l => lg.copies l.2) = countsAt lg s (layers.map (·.1)) := by
  rw [countsAt, List.map_map]
  exact List.map_congr_left fun l hl => copies_of_layer (h.layer l hl).1

theorem Layers.copies_pos (h : Layers lg s t made layers)
    (hpos : ∀ d ∈ instances lg s.groups, 0 < d) : ∀ l ∈ layers, 0 < lg.copies l.2 := by
  intro l hl
  rw [copies_of_layer (h.layer l hl).1, List.getD_eq_getElem?_getD]
  have hlt : l.1 < (instances lg s.groups).length := length_instances.symm ▸ h.lt hl
  rw [List.getElem?_eq_getElem hlt]
  exact hpos _ (List.getElem_mem hlt)

theorem Layers.again {made' : Bool} (h : Layers lg s t made layers)
    (hk : t.groupKeys made' = t.groupKeys made) : Layers lg s t made' layers :=
  ⟨(scatterLayers_congr hk).trans h.ok, h.layer⟩

/-- The dop of a GroupBy is the product of those of its layers. -/
theorem Layers.dop_groupBy {dops : List Int} (h : Layers lg s t false layers)
    (hdops : layers.mapM (fun l => lg.graph.dop lg.inputs l.2) = .ok dops)
    (hg : t.isGroup = true) (hb : t.isConstruct .groupBy = true) (ht : t ∈ lg.graph.nodes) :
    lg.graph.dop lg.inputs t = .ok dops.prod := by
  have hc := category_of_groupBy hb
  obtain ⟨fuel, hfuel⟩ : ∃ fuel, lg.graph.nodes.length = fuel + 1 :=
    ⟨lg.graph.nodes.length - 1, by have := List.length_pos_of_mem ht; omega⟩
  have hlayer : ∀ l ∈ layers, lg.graph.dop lg.inputs l.2 =
      .ok ((lg.graph.dop lg.inputs l.2).toOption.getD 0) := by
    intro l hl
    obtain ⟨d, hd⟩ := ok_of_mapM hdops hl
    rw [hd]
    rfl
  obtain rfl := Except.ok.inj ((mapM_eq_map hlayer).symm.trans hdops)
  have hlayer' : ∀ l ∈ layers, dopAt lg.graph lg.inputs lg.graph.nodes.length l.2 =
      .ok ((lg.graph.dop lg.inputs l.2).toOption.getD 0) := by
    intro l hl
    rw [hfuel, dop_scatter (h.layer l hl).2]
    exact hlayer l hl
  have hhandler : t.node.handler = .ok .groupBy := by
    have hg : t.node.isGroup = true := hg
    simp [Node.handler, hg, hc]
  rw [LogicalGraph.dop, dopAt, hhandler, ok_bind]
  simp only
  rw [h.ok, ok_bind]
  exact (foldlM_product hlayer' 1).trans (by rw [Int.one_mul])

theorem Layers.copies_groupBy (h : Layers lg s t false layers)
    (hpos : ∀ l ∈ layers, 0 < lg.copies l.2) (hg : t.isGroup = true)
    (hb : t.isConstruct .groupBy = true) (ht : t ∈ lg.graph.nodes) :
    lg.copies t = (countsAt lg s (layers.map (·.1))).prod := by
  have hdop := h.dop_groupBy (mapM_eq_map fun l hl => dop_of_copies (hpos l hl)) hg hb ht
  have hcast : (layers.map fun l => (lg.copies l.2 : Int)).prod =
      (((layers.map fun l => lg.copies l.2).prod : Nat) : Int) := by
    rw [Nat.cast_list_prod, List.map_map]
    rfl
  rw [copies_of_dop hdop, hcast, Int.toNat_natCast, h.copies]

theorem shape_of_severalKeys (h : Layers lg s t made layers)
    (hpos : ∀ l ∈ layers, 0 < lg.copies l.2) (hb : t.isConstruct .groupBy = true) {k k' : Int}
    (hk : t.groupKeys made = .ok (some (k :: k' :: keys))) {c : InstanceId}
    (hc : c.isLater = made) : lg.shape t c = some (countsAt lg s (layers.map (·.1))) := by
  subst hc
  have hdops : layers.mapM (fun l => lg.graph.dop lg.inputs l.2) =
      Except.ok (layers.map fun l => (lg.copies l.2 : Int)) :=
    mapM_eq_map fun l hl => dop_of_copies (hpos l hl)
  have hall : (layers.map fun l => (lg.copies l.2 : Int)).any (· < 0) = false := by
    rw [List.any_eq_false]
    intro d hd
    obtain ⟨l, hl, rfl⟩ := List.mem_map.mp hd
    rw [decide_eq_true_eq]
    omega
  have hshape : groupShape lg t c = .ok (some (layers.map fun l => lg.copies l.2)) := by
    rw [groupShape, if_pos hb, hk, ok_bind]
    simp only
    rw [h.ok, ok_bind, hdops, ok_bind, if_neg (by simp [hall]), List.map_map]
    rfl
  rw [LG.shape, hshape]
  exact congrArg some h.copies

/-! The keys of the drops. -/

/-- `unravel_index` goes through the index tuples in order. -/
theorem map_unravelIndex (ds : List Nat) :
    (List.range ds.prod).map (fun i => unravelIndex i ds) = paths ds := by
  induction ds with
  | nil => rfl
  | cons d ds ih =>
    have hlen : ∀ i, ((paths ds).map (i :: ·)).length = ds.prod := fun i => by
      rw [List.length_map, length_paths]
    refine List.ext_getElem (by simp) fun k hk hpaths => ?_
    rw [List.length_map, List.length_range, List.prod_cons] at hk
    have hprod : 0 < ds.prod := Nat.pos_of_ne_zero fun h0 => by simp [h0] at hk
    have hdiv : k / ds.prod < d := Nat.div_lt_of_lt_mul (by rwa [Nat.mul_comm])
    have hat := getElem?_flatMap (f := fun i => (paths ds).map (i :: ·)) (l := List.range d)
      (fun i _ => hlen i) (Nat.mod_lt k hprod) (List.getElem?_range hdiv)
    rw [Nat.div_add_mod' k ds.prod] at hat
    have hpath : (paths ds)[k % ds.prod]? = some (unravelIndex (k % ds.prod) ds) := by
      rw [← ih, List.getElem?_map, List.getElem?_range (Nat.mod_lt k hprod)]
      rfl
    rw [List.getElem?_map, hpath] at hat
    rw [List.getElem_map, List.getElem_range]
    exact (Option.some.inj ((List.getElem?_eq_getElem hpaths).symm.trans hat)).symm

theorem item_getD {l : List Nat} {c : Nat} (h : c < l.length) : item l c = .ok (l.getD c 0) := by
  rw [item, List.getElem?_eq_getElem h, List.getD_eq_getElem _ _ h]

/-- Without a key the group around the GroupBy may be part of the key. -/
def hasContext (s t : LGNode) (ks : Option (List Int)) : Bool :=
  decide (ks = none ∧ s.hLevel = t.hLevel + 2 ∧ 0 < t.hLevel)

theorem groupKeyOf_scattered {ks : Option (List Int)} {g : Node} {gs : List Node}
    {places : List Nat} {d : Drop} (hg : s.groups = g :: gs) (hs : g.isConstruct .scatter = true)
    (hk : t.groupKeys made = .ok ks) (hnone : ks = none → places = [0])
    (hd : d.coord.path.length = s.groups.length + 1) (hp : ∀ c ∈ places, c < s.groups.length) :
    groupKeyOf s t made places d = .ok (if hasContext s t ks then
      d.coord.path.dropLast.dropLast ++ indicesAt [0] d else indicesAt places d) := by
  have hitem : ∀ c ≤ s.groups.length,
      item d.coord.path.reverse c = .ok (d.coord.path.reverse.getD c 0) := by
    intro c hc
    refine item_getD ?_
    rw [List.length_reverse]
    omega
  rw [groupKeyOf, hk, ok_bind]
  cases ks with
  | none =>
    simp only
    rw [hitem 0 (Nat.zero_le _), ok_bind]
    by_cases hc : s.hLevel = t.hLevel + 2 ∧ 0 < t.hLevel
    · rw [if_pos hc, if_pos (by simp [hasContext, hc])]
      rfl
    · rw [if_neg hc, if_neg (by simp [hasContext, hc]), hnone rfl]
      rfl
  | some keys =>
    have hgb := notGroupBy_of_scatter gs hs
    have hgroup : s.group = some ⟨g, gs⟩ := by rw [LGNode.group, hg]
    simp only [hgroup, hgb, Bool.false_eq_true, if_false]
    rw [if_neg (by simp [hasContext])]
    exact mapM_eq_map fun c hc => hitem c (hp c hc).le

/-- The layers of a GroupBy whose input is in Scatters only. -/
theorem layers_scattered (hin : lg.graph.firstInput lg.inputs t.id = .ok s)
    (hs : ∀ g ∈ s.groups, g.isConstruct .scatter = true)
    (h : scatterLayers lg.graph lg.inputs t made = .ok layers) :
    Layers lg s t made layers ∧ ∃ g gs ks, s.groups = g :: gs ∧ t.groupKeys made = .ok ks ∧
      layers.map (·.1) = placesOf ks s.groups := by
  have hall := h
  obtain ⟨ks, hks, h⟩ := bind_ok.mp h
  obtain ⟨g', hg', h⟩ := bind_ok.mp h
  rw [inputGroup, hin, ok_bind] at hg'
  cases hgroups : s.groups with
  | nil =>
    rw [LGNode.group, hgroups] at hg'
    cases hg'
  | cons g gs =>
    rw [LGNode.group, hgroups] at hg'
    obtain rfl := pure_ok.mp hg'
    have hscatter : g.isConstruct .scatter = true := hs g (hgroups ▸ List.mem_cons_self)
    have hgb := notGroupBy_of_scatter gs hscatter
    simp only [hgb, Bool.false_eq_true, if_false] at h
    have hfirst : ∀ l ∈ [(0, (⟨g, gs⟩ : LGNode))], s.groups.drop l.1 = l.2.node :: l.2.groups ∧
        l.2.isConstruct .scatter = true := by
      intro l hl
      obtain rfl := List.mem_singleton.mp hl
      exact ⟨hgroups, hscatter⟩
    have hkeys : ∀ keys, ∀ l ∈ keyLayers keys 0 (g :: gs),
        s.groups.drop l.1 = l.2.node :: l.2.groups ∧ l.2.isConstruct .scatter = true := by
      intro keys l hl
      obtain ⟨-, hd, hl⟩ := mem_keyLayers hl
      exact ⟨by rw [hgroups]; exact hd, hl⟩
    have hplaces : ∀ keys, (keyLayers keys 0 (g :: gs)).map (·.1) = keyPlaces keys (g :: gs) :=
      fun keys => keyLayers_places 0 (hgroups ▸ hs)
    cases ks with
    | none =>
      obtain rfl := pure_ok.mp h
      exact ⟨⟨hall, hfirst⟩, g, gs, none, rfl, hks, rfl⟩
    | some keys =>
      rcases keys with _ | ⟨k, _ | ⟨k', ks⟩⟩
      · obtain rfl := pure_ok.mp h
        exact ⟨⟨hall, hkeys []⟩, g, gs, some [], rfl, hks, hplaces []⟩
      · simp only at h
        split at h
        · obtain rfl := pure_ok.mp h
          exact ⟨⟨hall, hfirst⟩, g, gs, some [k], rfl, hks, rfl⟩
        · cases h
      · obtain rfl := pure_ok.mp h
        exact ⟨⟨hall, hkeys _⟩, g, gs, some _, rfl, hks, hplaces _⟩

theorem indicesAt_path {places is : List Nat} {d : Drop} (hd : d.coord.path = 0 :: is) :
    indicesAt places d = places.map fun c => is.reverse.getD c 0 := by
  refine List.map_congr_left fun c _ => ?_
  rw [hd, List.reverse_cons, List.getD_eq_getElem?_getD, List.getD_eq_getElem?_getD,
    List.getElem?_append]
  split
  · rfl
  · rename_i hge
    have hnone : is.reverse[c]? = none := List.getElem?_eq_none (by omega)
    rw [hnone]
    cases c - is.reverse.length <;> rfl

/-- The indices of the source drops at some places are all the tuples below their counts. -/
theorem mem_source_indices {places : List Nat} {drop : List Nat → Drop}
    (hpos : ∀ d ∈ instances lg s.groups, 0 < d) (hnodup : places.Nodup)
    (hlt : ∀ c ∈ places, c < s.groups.length)
    (hpath : ∀ is ∈ paths (instances lg s.groups).reverse, (drop is).coord.path = 0 :: is)
    (k : List Nat) : k ∈ paths (countsAt lg s places) ↔
      k ∈ ((paths (instances lg s.groups).reverse).map drop).map (indicesAt places) := by
  rw [countsAt, mem_paths_select hnodup (fun c hc => length_instances.symm ▸ hlt c hc) hpos,
    List.map_map, List.mem_map]
  constructor
  · rintro ⟨xs, hxs, rfl⟩
    have hmem : xs.reverse ∈ paths (instances lg s.groups).reverse := reverse_mem_paths.mpr hxs
    refine ⟨xs.reverse, hmem, ?_⟩
    rw [Function.comp_apply, indicesAt_path (hpath _ hmem), List.reverse_reverse]
  · rintro ⟨is, his, rfl⟩
    refine ⟨is.reverse, ?_, ?_⟩
    · rw [← List.reverse_reverse (instances lg s.groups)]
      exact reverse_mem_paths.mpr his
    · rw [Function.comp_apply, indicesAt_path (hpath _ his)]

/-- A GroupBy further out whose input is in Scatters only. -/
structure ScatteredInput (lg : LG) (s t : LGNode) : Prop where
  source : s ∈ lg.graph.started
  target : t ∈ lg.graph.started
  input : lg.graph.firstInput lg.inputs t.id = .ok s
  leaf : s.isLeaf = true
  scatters : ∀ g ∈ s.groups, g.isConstruct .scatter = true
  group : t.isGroup = true
  groupBy : t.isConstruct .groupBy = true
  around : t.groups <:+ s.groups
  shallower : t.groups.length < s.groups.length

theorem ScatteredInput.sizes_source (h : ScatteredInput lg s t) :
    sizes lg s = (instances lg s.groups).reverse :=
  sizes_eq_instances fun g hg => isGroup_of_scatter (h.scatters g hg)

theorem ScatteredInput.sizes_append (h : ScatteredInput lg s t) :
    ∃ extra, s.groups = extra ++ t.groups ∧ extra ≠ [] ∧
      sizes lg s = sizes lg t ++ bounds lg t.groups extra.reverse := by
  obtain ⟨extra, he⟩ := h.around
  refine ⟨extra, he.symm, ?_, ?_⟩
  · rintro rfl
    have hlt := h.shallower
    rw [← he] at hlt
    simp at hlt
  · rw [sizes, ← he, List.reverse_append, bounds_append, List.reverse_reverse, List.append_nil]
    rfl

theorem dropsOf_groupBy (hi : instantiate lg = .ok placed) (ht : t ∈ lg.graph.started)
    (hg : t.isGroup = true) (hb : t.isConstruct .groupBy = true) :
    ∃ drop : List Nat → Drop,
      dropsOf placed t.id = (paths (sizes lg t ++ [lg.copies t])).map drop ∧
      ∀ is ∈ paths (sizes lg t), ∀ i < lg.copies t,
        (drop (is ++ [i])).coord =
          instanceOf (placeOf lg t is).1 (lg.shape t (placeOf lg t is).1) i := by
  have hc := category_of_groupBy hb
  refine dropsOf_group hi ht hg ?_ ?_
  · simp [LGNode.isConstruct, Node.isConstruct, hc]
  · simp [LGNode.isConstruct, Node.isConstruct, hc]

/-- A group that is no GroupBy hands down the key it has been given. -/
theorem groupKey_descend {down : List Node} {b : Place} {is : List Nat}
    (h : ∀ g ∈ down, g.isConstruct .groupBy = false) :
    (descend lg groups b down is).1.groupKey = b.1.groupKey := by
  induction down generalizing groups b is with
  | nil => rfl
  | cons g down ih =>
    cases is with
    | nil => rfl
    | cons i is =>
      have hg : (⟨g, groups⟩ : LGNode).isConstruct .groupBy = false := h g List.mem_cons_self
      have hshape : lg.shape ⟨g, groups⟩ b.1 = none := by
        rw [LG.shape, groupShape, if_neg (by simp [hg])]
        rfl
      have henter : (enter lg ⟨g, groups⟩ b i).1.groupKey = b.1.groupKey := by
        rw [enter, hshape]
        rfl
      exact (ih fun g' hg' => h g' (List.mem_cons_of_mem g hg')).trans henter

/-- The first place around a node. -/
theorem isLater_placeOf {is : List Nat} (h : is ∈ paths (sizes lg t)) :
    (placeOf lg t is).1.isLater = is.any (· != 0) := by
  rw [InstanceId.isLater, path_placeOf h, List.any_cons]
  rfl

theorem isLater_of_ones {is : List Nat} (hone : ∀ d ∈ sizes lg t, d = 1)
    (h : is ∈ paths (sizes lg t)) : (placeOf lg t is).1.isLater = false := by
  rw [isLater_placeOf h, eq_zeros_of_mem_paths hone h]
  simp

/-- The GroupBy drops at the one place there is around them. -/
theorem dropsOf_single (hi : instantiate lg = .ok placed) (ht : t ∈ lg.graph.started)
    (hg : t.isGroup = true) (hb : t.isConstruct .groupBy = true)
    (hone : ∀ d ∈ sizes lg t, d = 1) :
    ∃ drop : Nat → Drop, ∃ is ∈ paths (sizes lg t),
      dropsOf placed t.id = (List.range (lg.copies t)).map drop ∧
      ∀ i < lg.copies t, (drop i).coord =
        instanceOf (placeOf lg t is).1 (lg.shape t (placeOf lg t is).1) i := by
  obtain ⟨drop, hdrops, hcoord⟩ := dropsOf_groupBy hi ht hg hb
  have hpaths := paths_of_ones hone
  have hmem : ((sizes lg t).map fun _ => 0) ∈ paths (sizes lg t) :=
    hpaths ▸ List.mem_singleton_self _
  refine ⟨fun i => drop (((sizes lg t).map fun _ => 0) ++ [i]), _, hmem, ?_,
    fun i hlt => hcoord _ hmem i hlt⟩
  rw [hdrops, paths_snoc, hpaths, List.flatMap_singleton, List.map_map]
  rfl

theorem indicesAt_last {c : InstanceId} {shape : Option (List Nat)} {i : Nat} {d : Drop}
    (hd : d.coord = instanceOf c shape i) : indicesAt [0] d = [i] := by
  rw [indicesAt, hd, path_instanceOf, List.reverse_append]
  rfl

/-- The last indices of the GroupBy drops. -/
theorem ScatteredInput.map_last (h : ScatteredInput lg s t) (hi : instantiate lg = .ok placed)
    (hone : ∀ d ∈ sizes lg t, d = 1) :
    (dropsOf placed t.id).map (indicesAt [0]) = paths [lg.copies t] := by
  obtain ⟨drop, is, -, hdrops, hcoord⟩ := dropsOf_single hi h.target h.group h.groupBy hone
  rw [hdrops, List.map_map, paths_singleton]
  exact List.map_congr_left fun i hlt => indicesAt_last (hcoord i (List.mem_range.mp hlt))

/-- The keys the GroupBy drops carry. -/
theorem ScatteredInput.map_groupKey (h : ScatteredInput lg s t) (hi : instantiate lg = .ok placed)
    (hone : ∀ d ∈ sizes lg t, d = 1) {shape : List Nat}
    (hshape : ∀ c : InstanceId, c.isLater = false → lg.shape t c = some shape)
    (hprod : lg.copies t = shape.prod) :
    (dropsOf placed t.id).map (·.coord.groupKey) = paths shape := by
  obtain ⟨drop, is, his, hdrops, hcoord⟩ := dropsOf_single hi h.target h.group h.groupBy hone
  rw [hdrops, List.map_map, ← map_unravelIndex shape, ← hprod]
  refine List.map_congr_left fun i hlt => ?_
  rw [Function.comp_apply, hcoord i (List.mem_range.mp hlt), hshape _ (isLater_of_ones hone his)]
  rfl

/-- As many keys as GroupBy drops: there is one place around the GroupBy. -/
theorem ScatteredInput.ones_of_length (h : ScatteredInput lg s t)
    (hi : instantiate lg = .ok placed) {counts : List Nat} (hprod : lg.copies t = counts.prod)
    (hpos : ∀ d ∈ counts, 0 < d)
    (hlen : (paths counts).length = (dropsOf placed t.id).length) :
    ∀ d ∈ sizes lg t, d = 1 := by
  obtain ⟨drop, hdrops, -⟩ := dropsOf_groupBy hi h.target h.group h.groupBy
  rw [hdrops, List.length_map, length_paths, length_paths, List.prod_append, List.prod_singleton,
    hprod] at hlen
  have hne : counts.prod ≠ 0 := by
    intro h0
    have hnil : paths counts = [] := List.length_eq_zero_iff.mp (length_paths.trans h0)
    exact absurd (hpos 0 (paths_eq_nil_iff.mp hnil)) (by omega)
  exact ones_of_prod (Nat.eq_of_mul_eq_mul_right (Nat.pos_of_ne_zero hne) (by omega))

theorem indicesAt_zero {d : Drop} : indicesAt [0] d = [d.coord.path.getLast?.getD 0] := by
  rw [indicesAt, List.map_singleton, List.getD_eq_getElem?_getD, List.getLast?_eq_head?_reverse,
    List.head?_eq_getElem?]

/-- The ends of a path and of the one of a group around it. -/
theorem last_and_prefix_iff {p q r : List Nat} {i j : Nat} (h : p.length = q.length) :
    (0 :: (q ++ r ++ [i])).getLast? = (0 :: p ++ [j]).getLast? ∧
      (0 :: p ++ [j]).dropLast <+: 0 :: (q ++ r ++ [i]) ↔ i = j ∧ p = q := by
  have hlast : ∀ (l : List Nat) (a : Nat), (0 :: (l ++ [a])).getLast? = some a := fun l a => by
    rw [← List.cons_append, List.getLast?_append]
    rfl
  rw [hlast, List.cons_append, hlast, ← List.cons_append, List.dropLast_concat, Option.some.injEq,
    List.cons_prefix_cons]
  constructor
  · rintro ⟨hij, -, hp⟩
    have hq : q <+: q ++ r ++ [i] := by rw [List.append_assoc]; exact List.prefix_append q _
    exact ⟨hij, (List.prefix_of_prefix_length_le hp hq h.le).eq_of_length h⟩
  · rintro ⟨hij, rfl⟩
    refine ⟨hij, rfl, ?_⟩
    rw [List.append_assoc]
    exact List.prefix_append p _

theorem regrouped_iff {ks : Option (List Int)} {a b : Drop} (hk : t.groupKeys false = .ok ks) :
    Regrouped s t a b ↔ RegroupedBy ks s a b := by
  constructor
  · rintro ⟨ks', hk', hr⟩
    obtain rfl := Except.ok.inj (hk.symm.trans hk')
    exact hr
  · exact fun hr => ⟨ks, hk, hr⟩

theorem regroupedBy_few {ks : Option (List Int)} {a b : Drop}
    (hks : ∀ k k' l, ks ≠ some (k :: k' :: l)) :
    RegroupedBy ks s a b ↔
      a.coord.path.getLast? = b.coord.path.getLast? ∧ b.coord.path.dropLast <+: a.coord.path := by
  match ks with
  | none => rfl
  | some [] => rfl
  | some [k] => rfl
  | some (k :: k' :: l) => exact absurd rfl (hks k k' l)

section Wired

variable {ks : Option (List Int)} {g : Node} {gs : List Node} {source target : List Nat → Drop}
  (h : ScatteredInput lg s t) (hpos : ∀ d ∈ instances lg s.groups, 0 < d)
  (hpath : ∀ is ∈ paths (sizes lg s), (source is).coord.path = 0 :: is)
  (hcoord : ∀ is ∈ paths (sizes lg t), ∀ i < lg.copies t, (target (is ++ [i])).coord =
    instanceOf (placeOf lg t is).1 (lg.shape t (placeOf lg t is).1) i)

include hcoord in
theorem path_target {is : List Nat} {i : Nat} (his : is ∈ paths (sizes lg t))
    (hi : i < lg.copies t) : (target (is ++ [i])).coord.path = 0 :: is ++ [i] := by
  rw [hcoord is his i hi, path_instanceOf, path_placeOf his]

include h hpath hcoord in
/-- The indices of a source drop and of a GroupBy drop, at the one place around the GroupBy. -/
theorem indices_of_ones (hone : ∀ d ∈ sizes lg t, d = 1) {a b : Drop}
    (ha : a ∈ (paths (sizes lg s)).map source)
    (hb : b ∈ (paths (sizes lg t ++ [lg.copies t])).map target) :
    ∃ p r i j, a.coord.path = 0 :: (p ++ r ++ [i]) ∧ b.coord.path = 0 :: p ++ [j] := by
  obtain ⟨extra, -, hne, hsizes⟩ := h.sizes_append
  obtain ⟨is, his, rfl⟩ := List.mem_map.mp ha
  obtain ⟨js, hjs, rfl⟩ := List.mem_map.mp hb
  obtain ⟨p, hp, j, hj, rfl⟩ := mem_paths_snoc.mp hjs
  have hat := hpath is his
  rw [hsizes] at his
  obtain ⟨q, hq, r, hr, rfl⟩ := mem_paths_append.mp his
  have hpq : q = p := by
    rw [eq_zeros_of_mem_paths hone hp, eq_zeros_of_mem_paths hone hq]
  subst hpq
  have hrne : r ≠ [] := by
    rintro rfl
    have hlen := length_of_mem_paths hr
    rw [length_bounds, List.length_reverse] at hlen
    exact hne (List.length_eq_zero_iff.mp hlen.symm)
  obtain ⟨r', i, rfl⟩ : ∃ r' i, r = r' ++ [i] := ⟨_, _, (List.dropLast_append_getLast hrne).symm⟩
  exact ⟨q, r', i, j, by rw [hat, List.append_assoc], path_target hcoord hp hj⟩

include h hpath hcoord in
/-- Without a context the last indices decide, where there is one place around the GroupBy. -/
theorem last_iff_regrouped (hks : ∀ k k' l, ks ≠ some (k :: k' :: l))
    (hone : ∀ d ∈ sizes lg t, d = 1) {a b : Drop} (ha : a ∈ (paths (sizes lg s)).map source)
    (hb : b ∈ (paths (sizes lg t ++ [lg.copies t])).map target) :
    indicesAt [0] b = indicesAt [0] a ↔ RegroupedBy ks s a b := by
  obtain ⟨p, r, i, j, hap, hbp⟩ := indices_of_ones h hpath hcoord hone ha hb
  rw [regroupedBy_few hks, indicesAt_zero, indicesAt_zero, hap, hbp,
    last_and_prefix_iff rfl, ← List.cons_append, List.getLast?_append,
    ← List.cons_append, List.getLast?_append]
  simp [eq_comm]

/-- What the code groups a source drop by. -/
def readKey (s t : LGNode) (ks : Option (List Int)) (places : List Nat) (d : Drop) : List Nat :=
  if hasContext s t ks then d.coord.path.dropLast.dropLast ++ indicesAt [0] d
  else indicesAt places d

include h in
/-- With a context there are two groups around the source that the GroupBy is not in. -/
theorem sizes_of_context (hc : hasContext s t ks = true) :
    ∃ d, sizes lg s = sizes lg t ++ [d] ++ [(instances lg s.groups).getD 0 0] ∧
      d ∈ instances lg s.groups := by
  obtain ⟨rfl, hlevel, -⟩ := of_decide_eq_true hc
  obtain ⟨extra, hextra, -, hsizes⟩ := h.sizes_append
  have hmpi : t.isConstruct .mpi = false := by
    simp [LGNode.isConstruct, Node.isConstruct, category_of_groupBy h.groupBy]
  have htwo : extra.length = 2 := by
    rw [hLevel_leaf h.leaf, LGNode.hLevel, hmpi, hextra, List.length_append] at hlevel
    simp only [Bool.false_eq_true, if_false] at hlevel
    omega
  obtain ⟨g, g', rfl⟩ := List.length_eq_two.mp htwo
  have hgroup : g'.isGroup = true := isGroup_of_scatter (h.scatters g' (by simp [hextra]))
  have hgroup' : g.isGroup = true := isGroup_of_scatter (h.scatters g (by simp [hextra]))
  have hinst : instances lg s.groups = lg.copies ⟨g, g' :: t.groups⟩ ::
      lg.copies ⟨g', t.groups⟩ :: instances lg t.groups := by rw [hextra]; rfl
  refine ⟨lg.copies ⟨g', t.groups⟩, ?_, by simp [hinst]⟩
  rw [hsizes, hinst]
  simp [bounds, hgroup, hgroup']

include hpath in
theorem contextKey_eq {q : List Nat} {i j d e : Nat}
    (hsizes : sizes lg s = sizes lg t ++ [d] ++ [e]) (hq : q ∈ paths (sizes lg t))
    (hj : j < d) (hi : i < e) :
    (source (q ++ [j] ++ [i])).coord.path = 0 :: (q ++ [j] ++ [i]) ∧
    (source (q ++ [j] ++ [i])).coord.path.dropLast.dropLast ++
      indicesAt [0] (source (q ++ [j] ++ [i])) = 0 :: q ++ [i] := by
  have hp := hpath (q ++ [j] ++ [i]) (by
    rw [hsizes]
    exact mem_paths_snoc.mpr ⟨_, mem_paths_snoc.mpr ⟨q, hq, j, hj, rfl⟩, i, hi, rfl⟩)
  refine ⟨hp, ?_⟩
  rw [indicesAt_zero, hp, ← List.cons_append, List.dropLast_concat, ← List.cons_append,
    List.dropLast_concat, List.getLast?_append]
  rfl

include h hpos hpath in
/-- With a context the keys in use are the places of the GroupBy, with a last index each. -/
theorem mem_contextKeys (hc : hasContext s t ks = true) (k : List Nat) :
    k ∈ (paths (sizes lg t ++ [(instances lg s.groups).getD 0 0])).map (0 :: ·) ↔
      k ∈ ((paths (sizes lg s)).map source).map fun a =>
        a.coord.path.dropLast.dropLast ++ indicesAt [0] a := by
  obtain ⟨d, hsizes, hd⟩ := sizes_of_context h hc
  rw [List.map_map, hsizes, List.mem_map, List.mem_map]
  constructor
  · rintro ⟨js, hjs, rfl⟩
    obtain ⟨q, hq, i, hi, rfl⟩ := mem_paths_snoc.mp hjs
    refine ⟨q ++ [0] ++ [i], mem_paths_snoc.mpr ⟨_, mem_paths_snoc.mpr
      ⟨q, hq, 0, hpos d hd, rfl⟩, i, hi, rfl⟩, ?_⟩
    exact (contextKey_eq hpath hsizes hq (hpos d hd) hi).2
  · rintro ⟨is, his, rfl⟩
    obtain ⟨q', hq', i, hi, rfl⟩ := mem_paths_snoc.mp his
    obtain ⟨q, hq, j, hj, rfl⟩ := mem_paths_snoc.mp hq'
    exact ⟨q ++ [i], mem_paths_snoc.mpr ⟨q, hq, i, hi, rfl⟩,
      (contextKey_eq hpath hsizes hq hj hi).2.symm⟩

include h hpath hcoord in
/-- With a context the groups around the GroupBy decide too. -/
theorem context_regrouped (hc : hasContext s t ks = true) {a b : Drop}
    (ha : a ∈ (paths (sizes lg s)).map source)
    (hb : b ∈ (paths (sizes lg t ++ [lg.copies t])).map target) :
    b.coord.path = a.coord.path.dropLast.dropLast ++ indicesAt [0] a ↔ RegroupedBy ks s a b := by
  obtain ⟨d, hsizes, -⟩ := sizes_of_context h hc
  obtain ⟨rfl, -, -⟩ := of_decide_eq_true hc
  obtain ⟨is, his, rfl⟩ := List.mem_map.mp ha
  obtain ⟨js, hjs, rfl⟩ := List.mem_map.mp hb
  rw [hsizes] at his
  obtain ⟨q', hq', i, hi, rfl⟩ := mem_paths_snoc.mp his
  obtain ⟨q, hq, j, hj, rfl⟩ := mem_paths_snoc.mp hq'
  obtain ⟨p, hp, i', hi', rfl⟩ := mem_paths_snoc.mp hjs
  have hlen : p.length = q.length := by rw [length_of_mem_paths hp, length_of_mem_paths hq]
  obtain ⟨hpat, hkey⟩ := contextKey_eq hpath hsizes hq hj hi
  rw [regroupedBy_few (by simp), hkey, hpat, path_target hcoord hp hi', last_and_prefix_iff hlen]
  constructor
  · intro he
    obtain ⟨hpq, hii⟩ := List.append_inj' he rfl
    exact ⟨(List.cons.inj hii).1.symm, (List.cons.inj hpq).2⟩
  · rintro ⟨rfl, rfl⟩
    rfl

/-- A reading of the keys, with the layers and the places it gives. -/
structure Reading (lg : LG) (s t : LGNode) (made : Bool) (layers : List (Nat × LGNode))
    (ks : Option (List Int)) : Prop where
  found : Layers lg s t made layers
  keys : t.groupKeys made = .ok ks
  places : layers.map (·.1) = placesOf ks s.groups

theorem Reading.places_lt (hr : Reading lg s t made layers ks) :
    ∀ c ∈ layers.map (·.1), c < s.groups.length := by
  intro c hc
  obtain ⟨l, hl, rfl⟩ := List.mem_map.mp hc
  exact hr.found.lt hl

theorem Reading.places_nodup (hr : Reading lg s t made layers ks) :
    (layers.map (·.1)).Nodup := by
  rw [hr.places]
  unfold placesOf
  split
  · exact List.nodup_singleton 0
  · exact List.nodup_singleton 0
  · exact nodup_keyPlaces _ _

theorem Reading.counts_pos (hr : Reading lg s t made layers ks)
    (hpos : ∀ d ∈ instances lg s.groups, 0 < d) :
    ∀ d ∈ countsAt lg s (layers.map (·.1)), 0 < d := by
  intro d hd
  obtain ⟨c, hc, rfl⟩ := List.mem_map.mp hd
  have hlt : c < (instances lg s.groups).length := length_instances.symm ▸ hr.places_lt c hc
  rw [List.getD_eq_getElem _ _ hlt]
  exact hpos _ (List.getElem_mem hlt)

theorem Reading.of_scattered (h : ScatteredInput lg s t)
    (hl : scatterLayers lg.graph lg.inputs t made = .ok layers) :
    ∃ ks, Reading lg s t made layers ks := by
  obtain ⟨hl, g, gs, ks, -, hk, hplaces⟩ := layers_scattered h.input h.scatters hl
  exact ⟨ks, hl, hk, hplaces⟩

/-- Each source drop has a key. -/
theorem Reading.groupKeyOf_eq (hr : Reading lg s t made layers ks) (h : ScatteredInput lg s t)
    (hi : instantiate lg = .ok placed) {d : Drop} (hd : d ∈ dropsOf placed s.id) :
    groupKeyOf s t made (layers.map (·.1)) d = .ok (readKey s t ks (layers.map (·.1)) d) := by
  obtain ⟨source, hsrc, hpath⟩ := dropsOf_leaf hi h.source h.leaf
  obtain ⟨g, gs, hgroups⟩ : ∃ g gs, s.groups = g :: gs :=
    List.exists_cons_of_length_pos (Nat.zero_lt_of_lt h.shallower)
  rw [hsrc] at hd
  obtain ⟨is, his, rfl⟩ := List.mem_map.mp hd
  refine groupKeyOf_scattered hgroups (h.scatters g (hgroups ▸ List.mem_cons_self)) hr.keys
    (fun hn => by rw [hr.places, hn]; rfl) ?_ hr.places_lt
  rw [hpath is his, List.length_cons, length_of_mem_paths his, length_bounds, List.length_reverse]

/-- What the GroupBy drops are called by, where there is one place around them. -/
theorem exists_label (h : ScatteredInput lg s t) (hi : instantiate lg = .ok placed)
    (hr : Reading lg s t made layers ks)
    (hcopies : lg.copies t = (countsAt lg s (layers.map (·.1))).prod)
    (hshape : ∀ k k' l, ks = some (k :: k' :: l) → ∀ c : InstanceId,
      lg.shape t c = some (countsAt lg s (layers.map (·.1))))
    (hone : ∀ d ∈ sizes lg t, d = 1) :
    ∃ label : Drop → List Nat,
      (dropsOf placed t.id).map label = paths (countsAt lg s (layers.map (·.1))) ∧
      ∀ a ∈ dropsOf placed s.id, ∀ b ∈ dropsOf placed t.id,
        label b = indicesAt (layers.map (·.1)) a ↔ RegroupedBy ks s a b := by
  obtain ⟨source, hsrc, hpath⟩ := dropsOf_leaf hi h.source h.leaf
  obtain ⟨target, htgt, hcoord⟩ := dropsOf_groupBy hi h.target h.group h.groupBy
  have hlast : layers.map (·.1) = [0] → (∀ k k' l, ks ≠ some (k :: k' :: l)) →
      ∃ label : Drop → List Nat,
        (dropsOf placed t.id).map label = paths (countsAt lg s (layers.map (·.1))) ∧
        ∀ a ∈ dropsOf placed s.id, ∀ b ∈ dropsOf placed t.id,
          label b = indicesAt (layers.map (·.1)) a ↔ RegroupedBy ks s a b := by
    intro hzero hfew
    rw [hzero] at hcopies ⊢
    refine ⟨indicesAt [0], ?_, fun a ha b hb => ?_⟩
    · rw [h.map_last hi hone, hcopies]
      simp [countsAt]
    · rw [hsrc] at ha
      rw [htgt] at hb
      exact last_iff_regrouped h hpath hcoord hfew hone ha hb
  have hplaces := hr.places
  have hkeys := hr.keys
  match ks, hplaces, hkeys, hlast, hshape with
  | none, hplaces, _, hlast, _ => exact hlast hplaces (by simp)
  | some [k], hplaces, _, hlast, _ => exact hlast hplaces (by simp)
  | some [], _, hkeys, _, _ => exact absurd hkeys (groupKeys_ne_nil _)
  | some (k :: k' :: keys), hplaces, _, _, hshape =>
    refine ⟨fun b => b.coord.groupKey,
      h.map_groupKey hi hone (fun c _ => hshape k k' keys rfl c) hcopies, fun a _ b _ => ?_⟩
    rw [hplaces]
    rfl

end Wired

section Readings

variable {ks : Option (List Int)} (h : ScatteredInput lg s t) (hi : instantiate lg = .ok placed)
  (hok : groupByEdges lg s t (dropsOf placed s.id) (dropsOf placed t.id) = .ok edges)

/-- The edges of a wiring that succeeds. -/
def edgesBy (key : Drop → List Nat) (sources targets : List Drop) : List (Drop × Drop) :=
  (((sources.map key).dedup.insertionSort (· ≤ ·)).zip targets).flatMap fun p =>
    (sources.filter fun d => key d == p.1).map fun d => (d, p.2)

include h hi hok in
theorem edges_of_reading
    (hr : Reading lg s t (!(dropsOf placed t.id).isEmpty) layers ks) :
    ((dropsOf placed s.id).map (readKey s t ks (layers.map (·.1)))).dedup.length =
        (dropsOf placed t.id).length ∧
      [] ∉ (dropsOf placed s.id).map (readKey s t ks (layers.map (·.1))) ∧
      edges = edgesBy (readKey s t ks (layers.map (·.1))) (dropsOf placed s.id)
        (dropsOf placed t.id) :=
  (groupByEdges_ok _ hr.found.ok fun _ hd => hr.groupKeyOf_eq h hi hd).mp hok

include h hi in
theorem instances_pos (hne : dropsOf placed s.id ≠ []) : ∀ d ∈ instances lg s.groups, 0 < d := by
  obtain ⟨source, hsrc, -⟩ := dropsOf_leaf hi h.source h.leaf
  intro d hd
  have hpaths : paths (sizes lg s) ≠ [] := by
    rintro hnil
    exact hne (hsrc.trans (by rw [← sizes, hnil, List.map_nil]))
  obtain ⟨is, his⟩ := List.exists_mem_of_ne_nil _ hpaths
  rw [h.sizes_source] at his
  exact pos_of_mem_paths his (List.mem_reverse.mpr hd)

include h hi hok in
/-- Where the drops are counted by the keys the wiring reads, it groups by them. -/
theorem assigned_of_reading (hne : dropsOf placed s.id ≠ [])
    (hr : Reading lg s t (!(dropsOf placed t.id).isEmpty) layers ks)
    (hcopies : lg.copies t = (countsAt lg s (layers.map (·.1))).prod)
    (hshape : ∀ k k' l, ks = some (k :: k' :: l) → ∀ c : InstanceId,
      lg.shape t c = some (countsAt lg s (layers.map (·.1)))) :
    Assigned (dropsOf placed s.id) (dropsOf placed t.id) (RegroupedBy ks s) edges := by
  have hpos := instances_pos h hi hne
  obtain ⟨source, hsrc, hpath⟩ := dropsOf_leaf hi h.source h.leaf
  obtain ⟨target, htgt, hcoord⟩ := dropsOf_groupBy hi h.target h.group h.groupBy
  have hnodup : (dropsOf placed s.id).Nodup := hsrc ▸ nodup_drops hpath
  obtain ⟨hlen, hnil, rfl⟩ := edges_of_reading h hi hok hr
  cases hc : hasContext s t ks with
  | true =>
    have hkey : readKey s t ks (layers.map (·.1)) = fun d =>
        d.coord.path.dropLast.dropLast ++ indicesAt [0] d := by
      funext d
      rw [readKey, if_pos hc]
    have hnone : ks = none := (of_decide_eq_true hc).1
    have hfirst : lg.copies t = (instances lg s.groups).getD 0 0 := by
      rw [hcopies, hr.places, hnone]
      simp [placesOf, countsAt]
    rw [hkey]
    rw [hsrc] at hnodup ⊢
    rw [htgt]
    refine (assigned_of_labels (fun b => b.coord.path) hnodup ?_
      (fun k => mem_contextKeys h hpos hpath hc k) ?_).congr
      fun a ha b hb => context_regrouped h hpath hcoord hc ha hb
    · rw [List.pairwise_map]
      exact pairwise_lt_paths.imp fun hlt => List.cons_lt_cons_iff.mpr (Or.inr ⟨rfl, hlt⟩)
    · rw [List.map_map, ← hfirst]
      refine List.map_congr_left fun js hjs => ?_
      obtain ⟨p, hp, i, hlt, rfl⟩ := mem_paths_snoc.mp hjs
      exact path_target hcoord hp hlt
  | false =>
    have hkey : readKey s t ks (layers.map (·.1)) = indicesAt (layers.map (·.1)) := by
      funext d
      rw [readKey, hc]
      rfl
    rw [hkey] at hlen hnil ⊢
    have hmem : ∀ k, k ∈ paths (countsAt lg s (layers.map (·.1))) ↔
        k ∈ (dropsOf placed s.id).map (indicesAt (layers.map (·.1))) := by
      rw [hsrc, ← sizes, h.sizes_source]
      exact mem_source_indices hpos hr.places_nodup hr.places_lt (h.sizes_source ▸ hpath)
    have hsorted : (paths (countsAt lg s (layers.map (·.1)))).Pairwise (· < ·) := pairwise_lt_paths
    rw [length_keys hsorted hmem] at hlen
    obtain ⟨label, hlabel, hrel⟩ := exists_label h hi hr hcopies hshape
      (h.ones_of_length hi hcopies (hr.counts_pos hpos) hlen)
    exact (assigned_of_labels label hnodup hsorted hmem hlabel).congr hrel

include h hi in
theorem copies_of_targets (ht : dropsOf placed t.id ≠ []) : 0 < lg.copies t := by
  obtain ⟨target, htgt, -⟩ := dropsOf_groupBy hi h.target h.group h.groupBy
  by_contra h0
  refine ht (htgt.trans ?_)
  rw [paths_eq_nil_iff.mpr (List.mem_append_right _ (List.mem_singleton.mpr (by omega))),
    List.map_nil]

include h in
/-- The layers the drops were counted by. -/
theorem reading_of_copies (hc : 0 < lg.copies t) :
    ∃ layers ks, Reading lg s t false layers ks := by
  cases hl : scatterLayers lg.graph lg.inputs t false with
  | ok layers =>
    obtain ⟨ks, hr⟩ := Reading.of_scattered h hl
    exact ⟨layers, ks, hr⟩
  | error e =>
    have hhandler : t.node.handler = .ok .groupBy := by
      have hg : t.node.isGroup = true := h.group
      simp [Node.handler, hg, category_of_groupBy h.groupBy]
    have herr : lg.graph.dop lg.inputs t = .error e := by
      rw [LogicalGraph.dop, dopAt, hhandler, ok_bind]
      simp only
      rw [hl, error_bind]
    simp [LG.copies, herr, Except.toOption] at hc

theorem length_dedup_le {α β γ : Type} [DecidableEq β] [DecidableEq γ] {f : α → β} {g : α → γ}
    {l : List α} (h : ∀ a ∈ l, ∀ a' ∈ l, f a = f a' → g a = g a') :
    (l.map g).dedup.length ≤ (l.map f).dedup.length := by
  induction l with
  | nil => simp
  | cons a l ih =>
    have hl := ih fun b hb b' hb' => h b (List.mem_cons_of_mem a hb) b' (List.mem_cons_of_mem a hb')
    rw [List.map_cons, List.map_cons]
    by_cases hg : g a ∈ l.map g
    · rw [List.dedup_cons_of_mem hg, List.dedup_cons]
      split
      · exact hl
      · exact hl.trans (Nat.le_succ _)
    · have hf : f a ∉ l.map f := by
        intro hf
        obtain ⟨b, hb, he⟩ := List.mem_map.mp hf
        exact hg (h b (List.mem_cons_of_mem a hb) a List.mem_cons_self he ▸ List.mem_map_of_mem hb)
      rw [List.dedup_cons_of_notMem hg, List.dedup_cons_of_notMem hf]
      simpa using hl

/-- A target is the end of one key's edges only. -/
theorem key_of_edge {key : Drop → List Nat} (ht : targets.Nodup) {a a' b : Drop}
    (h : (a, b) ∈ edgesBy key sources targets) (h' : (a', b) ∈ edgesBy key sources targets) :
    key a = key a' := by
  have hzip : ∀ {a : Drop}, (a, b) ∈ edgesBy key sources targets →
      (key a, b) ∈ ((sources.map key).dedup.insertionSort (· ≤ ·)).zip targets := by
    intro a ha
    obtain ⟨⟨k, b'⟩, hp, ha⟩ := List.mem_flatMap.mp ha
    obtain ⟨d, hd, he⟩ := List.mem_map.mp ha
    obtain ⟨rfl, rfl⟩ := Prod.mk.inj he
    have hk : key d = k := by simpa using (List.mem_filter.mp hd).2
    exact hk ▸ hp
  obtain ⟨i, hi, hat⟩ := List.mem_iff_getElem.mp (hzip h)
  obtain ⟨j, hj, hat'⟩ := List.mem_iff_getElem.mp (hzip h')
  rw [List.getElem_zip] at hat hat'
  rw [List.length_zip, lt_min_iff] at hi hj
  obtain ⟨hk, hb⟩ := Prod.mk.inj hat
  obtain ⟨hk', hb'⟩ := Prod.mk.inj hat'
  have hij : i = j := (ht.getElem_inj_iff).mp (hb.trans hb'.symm)
  subst hij
  exact hk.symm.trans hk'

end Readings

end Daliuge.Unroll
