import Daliuge.Lib.MixedRadix
import Daliuge.Unroll.LostKeys
import Daliuge.Unroll.InputOrder

/-!
# A GroupBy of a GroupBy

The data inside a GroupBy with several keys carries the indices of its key Scatters only. A second
GroupBy counts all the Scatters to number its own keys, and reads the carried indices by these
numbers. Keys that are lost once drops have been made are not there to be read.
-/
namespace Daliuge.Unroll

open Enumeration Collect MixedRadix

variable {lg : LG} {m n s t s₁ t₁ s₂ t₂ : LGNode} {placed : List Placed} {groups : List Node}
  {edges : List (Drop × Drop)} {layers : List (Nat × LGNode)} {keys keys₁ keys₂ : List Int}

/-- Two GroupBys in a row: the input of the second one is in the first one, which is in no other
GroupBy. -/
structure GroupByChain (lg : LG) (s₁ t₁ s₂ t₂ : LGNode) (keys₁ keys₂ : List Int) : Prop where
  inputFirst : lg.graph.firstInput lg.inputs t₁.id = .ok s₁
  scattered : s₁.groups ≠ []
  scatters : ∀ g ∈ s₁.groups, g.isConstruct .scatter = true
  groupFirst : t₁.isGroup = true
  groupByFirst : t₁.isConstruct .groupBy = true
  keysFirst : t₁.groupKeys false = .ok (some keys₁)
  several : 2 ≤ keys₁.length
  source : s₂ ∈ lg.graph.started
  leaf : s₂.isLeaf = true
  outside : ∀ g ∈ t₁.groups, g.isConstruct .groupBy = false
  inFirst : s₂.groups = t₁.node :: t₁.groups
  inputSecond : lg.graph.firstInput lg.inputs t₂.id = .ok s₂
  target : t₂ ∈ lg.graph.started
  groupSecond : t₂.isGroup = true
  groupBySecond : t₂.isConstruct .groupBy = true
  keysSecond : t₂.groupKeys false = .ok (some keys₂)
  nonempty : keys₂ ≠ []
  subset : keys₂ ⊆ keys₁

/-- The indices a GroupBy drop stands for. -/
def groupIndices (t : LGNode) (b : Drop) : List Nat :=
  match t.groupKeys false with
  | .ok (some (_ :: _ :: _)) => b.coord.groupKey
  | _ => indicesAt [0] b

/-- The indices of a drop in the Scatters at some places, told by the indices it carries. -/
def carriedIndices (carried places : List Nat) (a : Drop) : List Nat :=
  places.map fun c => a.coord.groupKey.getD (carried.idxOf c) 0

/-- The second GroupBy groups by the Scatters that its keys name. -/
def GroupsByOwnKeys (lg : LG) (placed : List Placed) (s₁ s₂ t₂ : LGNode) (keys₁ keys₂ : List Int) :
    Prop :=
  ∃ edges, groupByEdges lg s₂ t₂ (dropsOf placed s₂.id) (dropsOf placed t₂.id) =
      .ok edges ∧
    Assigned (dropsOf placed s₂.id) (dropsOf placed t₂.id)
      (fun a b => groupIndices t₂ b =
        carriedIndices (keyPlaces keys₁ s₁.groups) (keyPlaces keys₂ s₁.groups) a) edges

/-- How often the group at a place is there. -/
def countAt (lg : LG) (n : LGNode) (c : Nat) : Nat := (instances lg n.groups).getD c 0

/-- The places whose indices are read instead of those at the given ones. -/
def readPlaces (carried places : List Nat) : List Nat := places.map fun c => carried.getD c 0

/-- The indices at some positions of those that a drop carries. -/
def readIndices (positions : List Nat) (d : Drop) : List Nat :=
  positions.map fun c => d.coord.groupKey.getD c 0

/-- The keys of both GroupBys are there when they are read again: those of the second one for its
wiring, those of the first one at each of its places. -/
structure KeysThere (lg : LG) (t₁ t₂ : LGNode) : Prop where
  second : t₂.KeysKept
  first : t₁.KeysKept ∨ ∀ d ∈ sizes lg t₁, d = 1

/-- What the keys of the second GroupBy have to be. -/
structure KeysInPlace (lg : LG) (s₁ t₂ : LGNode) (carried places : List Nat) : Prop where
  some : places ≠ []
  inside : ∀ c ∈ places, c < carried.length
  single : ∀ d ∈ sizes lg t₂, d = 1
  same : (readPlaces carried places).filter (fun c => 2 ≤ countAt lg s₁ c) =
    places.filter fun c => 2 ≤ countAt lg s₁ c

/-! Index tuples and their numbers. -/

section Digits

variable {size digit : Nat → Nat} {cs : List Nat} {i : Nat}

theorem unravelIndex_value (h : ∀ c ∈ cs, digit c < size c) :
    unravelIndex (value size digit cs) (cs.map size) = cs.map digit := by
  induction cs with
  | nil => rfl
  | cons c cs ih =>
    have hrest : ∀ c' ∈ cs, digit c' < size c' := fun c' hc' => h c' (List.mem_cons_of_mem c hc')
    have hlt := value_lt hrest
    have hpos : 0 < (cs.map size).prod := by omega
    rw [List.map_cons, unravelIndex, value, List.map_cons, Nat.add_comm,
      Nat.add_mul_div_right _ _ hpos, Nat.div_eq_of_lt hlt, Nat.add_mul_mod_self_right,
      Nat.mod_eq_of_lt hlt, ih hrest, Nat.zero_add]

theorem value_of_unravelIndex (hi : i < (cs.map size).prod)
    (h : unravelIndex i (cs.map size) = cs.map digit) : i = value size digit cs := by
  induction cs generalizing i with
  | nil =>
    rw [value]
    simpa using hi
  | cons c cs ih =>
    rw [List.map_cons, List.prod_cons] at hi
    have hpos : 0 < (cs.map size).prod := Nat.pos_of_ne_zero fun h0 => by simp [h0] at hi
    rw [List.map_cons, unravelIndex, List.map_cons, List.cons.injEq] at h
    have hrest := ih (Nat.mod_lt i hpos) h.2
    rw [value, ← hrest, ← h.1, Nat.div_add_mod']

/-- The tuples below the sizes of some places are the digits there can be. -/
theorem mem_paths_digits (hn : cs.Nodup) {p : List Nat} : p ∈ paths (cs.map size) ↔
    ∃ digit : Nat → Nat, (∀ c ∈ cs, digit c < size c) ∧ (∀ c ∉ cs, digit c = 0) ∧
      cs.map digit = p := by
  constructor
  · intro hp
    have hlen := length_of_mem_paths hp
    rw [List.length_map] at hlen
    refine ⟨fun c => p.getD (cs.idxOf c) 0, fun c hc => ?_, fun c hc => ?_, ?_⟩
    · obtain ⟨i, hi, hpi⟩ := index_lt hp (k := cs.idxOf c) (d := size c) (by
        rw [List.getElem?_map, List.getElem?_idxOf hc]
        rfl)
      show p.getD (cs.idxOf c) 0 < size c
      rw [List.getD_eq_getElem?_getD, hpi]
      exact hi
    · show p.getD (cs.idxOf c) 0 = 0
      rw [List.idxOf_eq_length_iff.mpr hc, List.getD_eq_default _ _ (by omega)]
    · refine List.ext_getElem (by simp [hlen]) fun k hk hk' => ?_
      rw [List.length_map] at hk
      rw [List.getElem_map, hn.idxOf_getElem, List.getD_eq_getElem _ _ hk']
  · rintro ⟨digit, h, -, rfl⟩
    rw [mem_paths, List.forall₂_map_left_iff, List.forall₂_map_right_iff, List.forall₂_same]
    exact h

theorem unravelIndex_eq_iff (h : ∀ c ∈ cs, digit c < size c) (hi : i < (cs.map size).prod) :
    unravelIndex i (cs.map size) = cs.map digit ↔ i = value size digit cs := by
  constructor
  · exact value_of_unravelIndex hi
  · rintro rfl
    exact unravelIndex_value h

/-- Two lists of places number the digits alike when they are the same but for places of size 1. -/
theorem value_agree_iff {all cs' : List Nat} (hpos : ∀ c ∈ all, 0 < size c) (hcs : cs ⊆ all)
    (hcs' : cs' ⊆ all) (hn : cs.Nodup) (hn' : cs'.Nodup) :
    (∀ digit : Nat → Nat, (∀ c ∈ all, digit c < size c) →
      value size digit cs = value size digit cs') ↔
    cs.filter (fun c => 2 ≤ size c) = cs'.filter fun c => 2 ≤ size c := by
  have hsqueeze : ∀ l ⊆ all, ∀ digit : Nat → Nat, (∀ c ∈ all, digit c < size c) →
      value size digit (l.filter fun c => 2 ≤ size c) = value size digit l :=
    fun l hl digit hd => value_squeeze fun c hc => hd c (hl hc)
  have hlarge : ∀ l : List Nat, ∀ c ∈ l.filter (fun c => 2 ≤ size c), 2 ≤ size c :=
    fun l c hc => of_decide_eq_true (List.mem_filter.mp hc).2
  constructor
  · intro h
    refine eq_of_units (hn.filter _) (hn'.filter _) (hlarge cs) (hlarge cs') fun e he => ?_
    have htwo : 2 ≤ size e := by
      rcases List.mem_append.mp he with he | he
      · exact hlarge cs e he
      · exact hlarge cs' e he
    have hunit : ∀ c ∈ all, unit e c < size c := unit_lt hpos htwo
    rw [hsqueeze cs hcs _ hunit, hsqueeze cs' hcs' _ hunit]
    exact h _ hunit
  · intro h digit hd
    rw [← hsqueeze cs hcs digit hd, h, hsqueeze cs' hcs' digit hd]

end Digits

/-! The groups of the second GroupBy. -/

theorem nodup_group_ids {g : LogicalGraph} (hm : m ∈ g.nodes) : (m.groups.map (·.id)).Nodup := by
  have hsuffix : ∀ xs gs : List Node, m.groups = xs ++ gs → (gs.map (·.id)).Nodup := by
    intro xs gs hx
    induction gs generalizing xs with
    | nil => exact List.nodup_nil
    | cons a gs ih =>
      rw [List.map_cons, List.nodup_cons]
      refine ⟨fun hmem => ?_, ih (xs ++ [a]) (by simpa using hx)⟩
      obtain ⟨c, hc, hid⟩ := List.mem_map.mp hmem
      obtain ⟨ys, zs, rfl⟩ := List.append_of_mem hc
      exact id_ne_of_groups hm hx hid.symm
  exact hsuffix [] m.groups rfl

theorem length_keyPlaces_one {k : Int} (h : (groups.map (·.id)).Nodup) :
    (keyPlaces [k] groups).length ≤ 1 := by
  have hcount := List.nodup_iff_count_le_one.mp h (.int k)
  have hids : groups.map (·.id) = groups.zipIdx.map fun g => g.1.id := by
    have hfst : (groups.zipIdx.map Prod.fst).map (·.id) = groups.map (·.id) := by
      rw [List.zipIdx_map_fst]
    rw [← hfst, List.map_map]
    rfl
  rw [hids, List.count, List.countP_map, List.countP_eq_length_filter] at hcount
  rw [keyPlaces, List.length_map]
  simpa [Function.comp_def] using hcount

theorem carriedIndices_digits {carried places : List Nat} {digit : Nat → Nat} {a : Drop}
    (ha : a.coord.groupKey = carried.map digit) (hsub : places ⊆ carried) :
    carriedIndices carried places a = places.map digit := by
  refine List.map_congr_left fun c hc => ?_
  have hlt : carried.idxOf c < carried.length := List.idxOf_lt_length_of_mem (hsub hc)
  rw [ha, List.getD_eq_getElem _ _ (by rwa [List.length_map]), List.getElem_map,
    List.getElem_idxOf]

theorem readIndices_digits {carried places : List Nat} {digit : Nat → Nat} {a : Drop}
    (ha : a.coord.groupKey = carried.map digit) (hin : ∀ c ∈ places, c < carried.length) :
    readIndices places a = (readPlaces carried places).map digit := by
  rw [readIndices, readPlaces, List.map_map]
  refine List.map_congr_left fun c hc => ?_
  have hlt := hin c hc
  rw [ha, List.getD_eq_getElem _ _ (by rwa [List.length_map]), List.getElem_map,
    Function.comp_apply, List.getD_eq_getElem _ _ hlt]

theorem readPlaces_subset {carried places : List Nat} (hin : ∀ c ∈ places, c < carried.length) :
    readPlaces carried places ⊆ carried := by
  intro c hc
  obtain ⟨e, he, rfl⟩ := List.mem_map.mp hc
  rw [List.getD_eq_getElem _ _ (hin e he)]
  exact List.getElem_mem _

theorem nodup_readPlaces {carried places : List Nat} (hin : ∀ c ∈ places, c < carried.length)
    (hn : carried.Nodup) (hn' : places.Nodup) : (readPlaces carried places).Nodup := by
  refine hn'.map_on fun c hc e he heq => ?_
  rw [List.getD_eq_getElem _ _ (hin c hc), List.getD_eq_getElem _ _ (hin e he)] at heq
  exact (hn.getElem_inj_iff).mp heq

/-! The layers of the two GroupBys, and the drops between them. -/

section Chain

variable (h : GroupByChain lg s₁ t₁ s₂ t₂ keys₁ keys₂)

include h

theorem GroupByChain.firstStarted : t₁ ∈ lg.graph.started :=
  mem_nodes_of_groups h.source (h.inFirst.trans (List.nil_append _).symm) List.nil_suffix

theorem GroupByChain.keys_cons : ∃ k k' keys, keys₁ = k :: k' :: keys := by
  have hlen := h.several
  cases keys₁ with
  | nil => simp at hlen
  | cons k keys =>
    cases keys with
    | nil => simp at hlen
    | cons k' keys => exact ⟨k, k', keys, rfl⟩

theorem GroupByChain.groups_cons : ∃ g gs, s₁.groups = g :: gs ∧ g.isConstruct .scatter = true := by
  obtain ⟨g, gs, hg⟩ := List.exists_cons_of_ne_nil h.scattered
  exact ⟨g, gs, hg, h.scatters g (hg ▸ List.mem_cons_self)⟩

theorem GroupByChain.inputGroup_first {g : Node} {gs : List Node} (hg : s₁.groups = g :: gs) :
    inputGroup lg.graph lg.inputs t₁ = .ok ⟨g, gs⟩ := by
  rw [inputGroup, h.inputFirst, ok_bind, LGNode.group, hg]
  rfl

theorem GroupByChain.inputGroup_second : inputGroup lg.graph lg.inputs t₂ = .ok t₁ := by
  rw [inputGroup, h.inputSecond, ok_bind, LGNode.group, h.inFirst]
  rfl

theorem GroupByChain.layers_first : ∃ layers, Layers lg s₁ t₁ false layers ∧
    layers.map (·.1) = keyPlaces keys₁ s₁.groups := by
  obtain ⟨g, gs, hg, hs⟩ := h.groups_cons
  have hgb := notGroupBy_of_scatter gs hs
  obtain ⟨k, k', keys, rfl⟩ := h.keys_cons
  have hok : scatterLayers lg.graph lg.inputs t₁ false =
      .ok (keyLayers (k :: k' :: keys) 0 (g :: gs)) := by
    rw [scatterLayers, h.keysFirst, ok_bind, h.inputGroup_first hg, ok_bind, hgb]
    rfl
  obtain ⟨hl, -, -, ks, -, hks, hplaces⟩ := layers_scattered h.inputFirst h.scatters hok
  obtain rfl := Except.ok.inj (h.keysFirst.symm.trans hks)
  exact ⟨_, hl, hplaces⟩

theorem GroupByChain.layers_second {made : Bool} (hk : t₂.groupKeys made = .ok (some keys₂)) :
    ∃ layers, Layers lg s₁ t₂ made layers ∧
      layers.map (·.1) = keyPlaces keys₂ s₁.groups := by
  obtain ⟨g, gs, hg, hs⟩ := h.groups_cons
  have hgb := notGroupBy_of_scatter gs hs
  obtain ⟨fuel, hfuel⟩ : ∃ fuel, lg.graph.nodes.length = fuel + 1 :=
    ⟨lg.graph.nodes.length - 1, by
      have := List.length_pos_of_mem (mem_nodes_of_started h.source)
      omega⟩
  -- the Scatters are found through the first GroupBy, whose input is in no GroupBy
  have hroot : rootGroupBy lg.graph lg.inputs (lg.graph.nodes.length + 1) t₂ = .ok t₁ := by
    rw [hfuel, rootGroupBy, h.inputGroup_second, ok_bind, if_pos h.groupByFirst, rootGroupBy,
      h.inputGroup_first hg, ok_bind, hgb]
    rfl
  have hok : scatterLayers lg.graph lg.inputs t₂ made = .ok (keyLayers keys₂ 0 s₁.groups) := by
    rw [scatterLayers, hk, ok_bind, h.inputGroup_second, ok_bind, if_pos h.groupByFirst]
    simp only
    rw [hroot, ok_bind, h.inputGroup_first hg, ok_bind, hg]
    rfl
  refine ⟨_, ⟨hok, fun l hl => ?_⟩, keyLayers_places 0 h.scatters⟩
  obtain ⟨-, hd, hl⟩ := mem_keyLayers hl
  exact ⟨hd, hl⟩

theorem GroupByChain.sizes_source : sizes lg s₂ = sizes lg t₁ ++ [lg.copies t₁] := by
  have hg : t₁.node.isGroup = true := h.groupFirst
  rw [sizes, h.inFirst, List.reverse_cons, bounds_append, List.reverse_reverse, List.append_nil]
  simp [bounds, hg, sizes]

/-- Where the first GroupBy has an instance, its key Scatters have instances. -/
theorem GroupByChain.carried_pos (hi : instantiate lg = .ok placed)
    (hne : 0 ∉ sizes lg s₂) : ∀ c ∈ keyPlaces keys₁ s₁.groups, 0 < countAt lg s₁ c := by
  obtain ⟨layers, hl, hplaces⟩ := h.layers_first
  rw [h.sizes_source, List.mem_append, not_or, List.mem_singleton] at hne
  have hzeros : ((sizes lg t₁).map fun _ => 0) ∈ paths (sizes lg t₁) :=
    map_mem_paths fun d hd => Nat.pos_of_ne_zero fun h0 => hne.1 (h0 ▸ hd)
  obtain ⟨shape, hshape⟩ := groupShape_ok (b := (.root, none)) hi h.firstStarted
    (by simp : t₁.groups = t₁.groups.reverse.reverse ++ []) h.groupFirst hzeros
  have hfirst : (descend lg [] (.root, none) t₁.groups.reverse
      ((sizes lg t₁).map fun _ => 0)).1.isLater = false := by
    have hlater : (placeOf lg t₁ ((sizes lg t₁).map fun _ => 0)).1.isLater = _ :=
      isLater_placeOf hzeros
    exact hlater.trans (by simp)
  obtain ⟨k, k', keys, rfl⟩ := h.keys_cons
  rw [groupShape, if_pos h.groupByFirst, hfirst, h.keysFirst, ok_bind] at hshape
  simp only at hshape
  rw [hl.ok, ok_bind] at hshape
  obtain ⟨dops, hdops, hshape⟩ := bind_ok.mp hshape
  split at hshape
  · cases hshape
  rename_i hany
  -- an instance needs a positive product, and that no count is negative
  have hprod : 0 < dops.prod := by
    have hdop := hl.dop_groupBy hdops h.groupFirst h.groupByFirst
      (mem_nodes_of_started h.firstStarted)
    have hcopies := copies_of_dop hdop
    omega
  intro c hc
  rw [← hplaces] at hc
  obtain ⟨l, hlm, rfl⟩ := List.mem_map.mp hc
  obtain ⟨d, hdop⟩ := ok_of_mapM hdops hlm
  have hd := mem_of_mapM hdops hlm hdop
  have hneg : ¬ d < 0 := fun hlt =>
    hany ⟨hprod, List.any_eq_true.mpr ⟨d, hd, decide_eq_true hlt⟩⟩
  have hzero : d ≠ 0 := by
    rintro rfl
    exact hprod.ne' (List.prod_eq_zero hd)
  rw [countAt, ← copies_of_layer (hl.layer l hlm).1, copies_of_dop hdop]
  omega

/-- The counts of the layers that a GroupBy's keys name make its dop. -/
theorem GroupByChain.copies_first (hpos : ∀ c ∈ keyPlaces keys₁ s₁.groups, 0 < countAt lg s₁ c) :
    lg.copies t₁ = ((keyPlaces keys₁ s₁.groups).map (countAt lg s₁)).prod ∧
      ∀ c : InstanceId, t₁.groupKeys c.isLater = t₁.groupKeys false →
        lg.shape t₁ c = some ((keyPlaces keys₁ s₁.groups).map (countAt lg s₁)) := by
  obtain ⟨layers, hl, hplaces⟩ := h.layers_first
  have hlpos : ∀ l ∈ layers, 0 < lg.copies l.2 := by
    intro l hlm
    rw [copies_of_layer (hl.layer l hlm).1]
    exact hpos l.1 (hplaces ▸ List.mem_map_of_mem hlm)
  have hcopies := hl.copies_groupBy hlpos h.groupFirst h.groupByFirst
    (mem_nodes_of_started h.firstStarted)
  obtain ⟨k, k', keys, rfl⟩ := h.keys_cons
  rw [hplaces] at hcopies
  refine ⟨hcopies, fun c hc => ?_⟩
  have hshape := shape_of_severalKeys (hl.again hc) hlpos h.groupByFirst
    (hc.trans h.keysFirst) rfl
  rwa [hplaces] at hshape

theorem GroupByChain.copies_second (hpos : ∀ c ∈ keyPlaces keys₂ s₁.groups, 0 < countAt lg s₁ c) :
    lg.copies t₂ = ((keyPlaces keys₂ s₁.groups).map (countAt lg s₁)).prod := by
  obtain ⟨layers, hl, hplaces⟩ := h.layers_second h.keysSecond
  have hlpos : ∀ l ∈ layers, 0 < lg.copies l.2 := by
    intro l hlm
    rw [copies_of_layer (hl.layer l hlm).1]
    exact hpos l.1 (hplaces ▸ List.mem_map_of_mem hlm)
  have hcopies := hl.copies_groupBy hlpos h.groupSecond h.groupBySecond
    (mem_nodes_of_started h.target)
  rw [hplaces] at hcopies
  exact hcopies

theorem GroupByChain.places_subset :
    keyPlaces keys₂ s₁.groups ⊆ keyPlaces keys₁ s₁.groups := by
  intro c hc
  obtain ⟨g, hg, rfl⟩ := List.mem_map.mp hc
  obtain ⟨hmem, hkey⟩ := List.mem_filter.mp hg
  obtain ⟨k, hk, hid⟩ := List.any_eq_true.mp hkey
  refine List.mem_map_of_mem (List.mem_filter.mpr ⟨hmem, ?_⟩)
  exact List.any_eq_true.mpr ⟨k, h.subset hk, hid⟩

omit h in
theorem groupKeys_placeOf (hk : t₁.KeysKept ∨ ∀ d ∈ sizes lg t₁, d = 1)
    {is : List Nat} (his : is ∈ paths (sizes lg t₁)) :
    t₁.groupKeys (placeOf lg t₁ is).1.isLater = t₁.groupKeys false := by
  rcases hk with hkept | hone
  · exact hkept.groupKeys _
  · rw [isLater_of_ones hone his]

/-- The coordinates of the data in the first GroupBy. -/
theorem GroupByChain.coords_source (hi : instantiate lg = .ok placed) :
    ∃ source : List Nat → Drop,
      dropsOf placed s₂.id = (paths (sizes lg s₂)).map source ∧
      (∀ is ∈ paths (sizes lg s₂), (source is).coord.path = 0 :: is) ∧
      ∀ is ∈ paths (sizes lg t₁), ∀ i < lg.copies t₁, (source (is ++ [i])).coord =
        instanceOf (placeOf lg t₁ is).1 (lg.shape t₁ (placeOf lg t₁ is).1) i := by
  obtain ⟨source, hsrc, hcoord⟩ := dropsOf_leaf_at hi h.source h.leaf
  refine ⟨source, hsrc, fun is his => ?_, fun is his i hlt => ?_⟩
  · rw [(hcoord is his).1, path_descend (length_of_mem_paths his |>.trans length_bounds)]
    rfl
  · have hmem : is ++ [i] ∈ paths (sizes lg s₂) := by
      rw [h.sizes_source]
      exact mem_paths_snoc.mpr ⟨is, his, i, hlt, rfl⟩
    have hlen : is.length = t₁.groups.reverse.length := by
      rw [length_of_mem_paths his, length_sizes, List.length_reverse]
    rw [(hcoord _ hmem).1, h.inFirst, List.reverse_cons, descend_snoc hlen, List.reverse_reverse,
      List.append_nil]
    rfl

theorem GroupByChain.groupKeyOf_eq {made : Bool} (hk : t₂.groupKeys made = .ok (some keys₂))
    (places : List Nat) (d : Drop) :
    groupKeyOf s₂ t₂ made places d = if d.coord.groupKey.isEmpty then
      .error (.groupHierarchyMissing s₂.id) else places.mapM (item d.coord.groupKey) := by
  rw [groupKeyOf, hk, ok_bind]
  simp only [LGNode.group, h.inFirst]
  rw [if_pos h.groupByFirst]

section Carried

variable (hk : KeysThere lg t₁ t₂)

include hk

theorem GroupByChain.keys_again (made : Bool) : t₂.groupKeys made = .ok (some keys₂) :=
  (hk.second.groupKeys made).trans h.keysSecond

/-- The data in the first GroupBy carries the digits of its place in it. -/
theorem GroupByChain.dropsOf_source (hi : instantiate lg = .ok placed)
    (hpos : ∀ c ∈ keyPlaces keys₁ s₁.groups, 0 < countAt lg s₁ c) :
    ∃ source : List Nat → Drop,
      dropsOf placed s₂.id = (paths (sizes lg s₂)).map source ∧
      (∀ is ∈ paths (sizes lg s₂), (source is).coord.path = 0 :: is) ∧
      ∀ is ∈ paths (sizes lg t₁), ∀ i < lg.copies t₁, (source (is ++ [i])).coord.groupKey =
        unravelIndex i ((keyPlaces keys₁ s₁.groups).map (countAt lg s₁)) := by
  obtain ⟨source, hsrc, hpath, hcoord⟩ := h.coords_source hi
  refine ⟨source, hsrc, hpath, fun is his i hlt => ?_⟩
  rw [hcoord is his i hlt, (h.copies_first hpos).2 _ (groupKeys_placeOf hk.first his)]
  rfl

/-- The indices that the data in the first GroupBy carries are digits of the key Scatters, -/
theorem GroupByChain.digits_of_source (hi : instantiate lg = .ok placed)
    (hpos : ∀ c ∈ keyPlaces keys₁ s₁.groups, 0 < countAt lg s₁ c) {a : Drop}
    (ha : a ∈ dropsOf placed s₂.id) :
    ∃ digit : Nat → Nat, (∀ c ∈ keyPlaces keys₁ s₁.groups, digit c < countAt lg s₁ c) ∧
      a.coord.groupKey = (keyPlaces keys₁ s₁.groups).map digit := by
  obtain ⟨source, hsrc, -, hkey⟩ := h.dropsOf_source hk hi hpos
  rw [hsrc, h.sizes_source] at ha
  obtain ⟨js, hjs, rfl⟩ := List.mem_map.mp ha
  obtain ⟨is, his, i, hlt, rfl⟩ := mem_paths_snoc.mp hjs
  have hmem : unravelIndex i ((keyPlaces keys₁ s₁.groups).map (countAt lg s₁)) ∈
      paths ((keyPlaces keys₁ s₁.groups).map (countAt lg s₁)) := by
    rw [← map_unravelIndex, ← (h.copies_first hpos).1]
    exact List.mem_map_of_mem (List.mem_range.mpr hlt)
  obtain ⟨digit, hdigit, -, he⟩ := (mem_paths_digits (nodup_keyPlaces _ _)).mp hmem
  exact ⟨digit, hdigit, (hkey is his i hlt).trans he.symm⟩

/-- and all digits there are occur. -/
theorem GroupByChain.exists_source (hi : instantiate lg = .ok placed)
    (hpos : ∀ c ∈ keyPlaces keys₁ s₁.groups, 0 < countAt lg s₁ c)
    (hne : paths (sizes lg t₁) ≠ []) {digit : Nat → Nat}
    (hdigit : ∀ c ∈ keyPlaces keys₁ s₁.groups, digit c < countAt lg s₁ c) :
    ∃ a ∈ dropsOf placed s₂.id,
      a.coord.groupKey = (keyPlaces keys₁ s₁.groups).map digit := by
  obtain ⟨source, hsrc, -, hkey⟩ := h.dropsOf_source hk hi hpos
  obtain ⟨is, his⟩ := List.exists_mem_of_ne_nil _ hne
  have hlt := value_lt hdigit
  rw [← (h.copies_first hpos).1] at hlt
  refine ⟨source (is ++ [value (countAt lg s₁) digit (keyPlaces keys₁ s₁.groups)]), ?_, ?_⟩
  · rw [hsrc, h.sizes_source]
    exact List.mem_map_of_mem (mem_paths_snoc.mpr ⟨is, his, _, hlt, rfl⟩)
  · rw [hkey is his _ hlt, unravelIndex_value hdigit]

/-! The keys of the second GroupBy. -/

theorem GroupByChain.groupKeyOf_read {made : Bool} {places : List Nat} {digit : Nat → Nat}
    {d : Drop}
    (hd : d.coord.groupKey = (keyPlaces keys₁ s₁.groups).map digit) (hne : places ≠ [])
    (hin : ∀ c ∈ places, c < (keyPlaces keys₁ s₁.groups).length) :
    groupKeyOf s₂ t₂ made places d = .ok (readIndices places d) := by
  have hlen : d.coord.groupKey.length = (keyPlaces keys₁ s₁.groups).length := by
    rw [hd, List.length_map]
  have hcarried : d.coord.groupKey.isEmpty = false := by
    obtain ⟨c, hc⟩ := List.exists_mem_of_ne_nil _ hne
    rw [List.isEmpty_eq_false_iff, ← List.length_pos_iff, hlen]
    exact Nat.zero_lt_of_lt (hin c hc)
  rw [h.groupKeyOf_eq (h.keys_again hk made), hcarried]
  exact mapM_eq_map fun c hc => item_getD (hlen ▸ hin c hc)

/-- Where the wiring succeeds with source drops, the named Scatters are among those whose indices
are there to be read. -/
theorem GroupByChain.inside_of_ok (hi : instantiate lg = .ok placed)
    (hpos : ∀ c ∈ keyPlaces keys₁ s₁.groups, 0 < countAt lg s₁ c) {a : Drop}
    (ha : a ∈ dropsOf placed s₂.id)
    (hok : groupByEdges lg s₂ t₂ (dropsOf placed s₂.id) (dropsOf placed t₂.id) =
      .ok edges) :
    keyPlaces keys₂ s₁.groups ≠ [] ∧
      ∀ c ∈ keyPlaces keys₂ s₁.groups, c < (keyPlaces keys₁ s₁.groups).length := by
  obtain ⟨layers, hl, hplaces⟩ := h.layers_second (h.keys_again hk _)
  obtain ⟨digit, -, hkey⟩ := h.digits_of_source hk hi hpos ha
  rw [groupByEdges, hl.ok, ok_bind, hplaces] at hok
  obtain ⟨keyed, hkeyed, hok⟩ := bind_ok.mp hok
  obtain ⟨⟨k, d⟩, hpair⟩ := ok_of_mapM hkeyed ha
  have hmem := mem_of_mapM hkeyed ha hpair
  obtain ⟨k', hk', hpair⟩ := bind_ok.mp hpair
  obtain ⟨rfl, rfl⟩ := Prod.mk.inj (pure_ok.mp hpair)
  rw [h.groupKeyOf_eq (h.keys_again hk _)] at hk'
  split at hk'
  · cases hk'
  constructor
  · intro hnil
    rw [hnil] at hk'
    obtain rfl := pure_ok.mp hk'
    have hempty : [] ∈ (keyed.map (·.1)).dedup := List.mem_dedup.mpr (List.mem_map_of_mem hmem)
    simp only [if_pos hempty] at hok
    split at hok
    · cases hok
    · cases hok
  · intro c hc
    obtain ⟨i, hi⟩ := ok_of_mapM hk' hc
    by_contra hge
    rw [item, List.getElem?_eq_none (by rw [hkey, List.length_map]; omega)] at hi
    cases hi

/-- The indices a GroupBy drop stands for are told by its place among those of its instance. -/
theorem GroupByChain.groupIndices_eq (hpos : ∀ c ∈ keyPlaces keys₂ s₁.groups, 0 < countAt lg s₁ c)
    (hne : keyPlaces keys₂ s₁.groups ≠ []) {c : InstanceId} {i : Nat} {b : Drop}
    (hb : b.coord = instanceOf c (lg.shape t₂ c) i) :
    groupIndices t₂ b = unravelIndex i ((keyPlaces keys₂ s₁.groups).map (countAt lg s₁)) := by
  obtain ⟨layers, hl, hplaces⟩ := h.layers_second (h.keys_again hk c.isLater)
  have hkeys := h.keysSecond
  have hagain := h.keys_again hk c.isLater
  match keys₂, h.nonempty with
  | [k], _ =>
    have hone := length_keyPlaces_one (k := k) (nodup_group_ids (firstInput_mem h.inputFirst))
    obtain ⟨e, he⟩ : ∃ e, keyPlaces [k] s₁.groups = [e] := by
      refine List.length_eq_one_iff.mp (Nat.le_antisymm hone ?_)
      exact List.length_pos_iff.mpr hne
    rw [groupIndices, hkeys, he]
    simp only
    rw [indicesAt_last hb]
    simp [unravelIndex]
  | k :: k' :: keys, _ =>
    have hlpos : ∀ l ∈ layers, 0 < lg.copies l.2 := by
      intro l hlm
      rw [copies_of_layer (hl.layer l hlm).1]
      exact hpos l.1 (hplaces ▸ List.mem_map_of_mem hlm)
    have hshape := shape_of_severalKeys hl hlpos h.groupBySecond hagain rfl
    rw [hplaces] at hshape
    rw [groupIndices, hkeys, hb, hshape]
    rfl

/-- The keys in use are the tuples below the counts at the places that are read. -/
theorem GroupByChain.mem_keys (hi : instantiate lg = .ok placed)
    (hpos : ∀ c ∈ keyPlaces keys₁ s₁.groups, 0 < countAt lg s₁ c)
    (hne : paths (sizes lg t₁) ≠ []) {places : List Nat} (hn : places.Nodup)
    (hin : ∀ c ∈ places, c < (keyPlaces keys₁ s₁.groups).length) (k : List Nat) :
    k ∈ paths ((readPlaces (keyPlaces keys₁ s₁.groups) places).map (countAt lg s₁)) ↔
      k ∈ (dropsOf placed s₂.id).map (readIndices places) := by
  rw [mem_paths_digits (nodup_readPlaces hin (nodup_keyPlaces _ _) hn), List.mem_map]
  constructor
  · rintro ⟨digit, hdigit, hzero, rfl⟩
    have hall : ∀ c ∈ keyPlaces keys₁ s₁.groups, digit c < countAt lg s₁ c := by
      intro c hc
      by_cases hread : c ∈ readPlaces (keyPlaces keys₁ s₁.groups) places
      · exact hdigit c hread
      · rw [hzero c hread]
        exact hpos c hc
    obtain ⟨a, ha, hkey⟩ := h.exists_source hk hi hpos hne hall
    exact ⟨a, ha, readIndices_digits hkey hin⟩
  · rintro ⟨a, ha, rfl⟩
    obtain ⟨digit, hdigit, hkey⟩ := h.digits_of_source hk hi hpos ha
    -- the digits at the other places are forgotten
    refine ⟨fun c => if c ∈ readPlaces (keyPlaces keys₁ s₁.groups) places then digit c else 0,
      fun c hc => ?_, fun c hc => if_neg hc, ?_⟩
    · simp only [if_pos hc]
      exact hdigit c (readPlaces_subset hin hc)
    · rw [readIndices_digits hkey hin]
      exact List.map_congr_left fun c hc => if_pos hc

/-- The edges of the second GroupBy. -/
theorem GroupByChain.edges_iff (hi : instantiate lg = .ok placed)
    (hpos : ∀ c ∈ keyPlaces keys₁ s₁.groups, 0 < countAt lg s₁ c)
    (hne : paths (sizes lg t₁) ≠ []) (hsome : keyPlaces keys₂ s₁.groups ≠ [])
    (hin : ∀ c ∈ keyPlaces keys₂ s₁.groups, c < (keyPlaces keys₁ s₁.groups).length) :
    groupByEdges lg s₂ t₂ (dropsOf placed s₂.id) (dropsOf placed t₂.id) = .ok edges ↔
      ((readPlaces (keyPlaces keys₁ s₁.groups) (keyPlaces keys₂ s₁.groups)).map
        (countAt lg s₁)).prod = (dropsOf placed t₂.id).length ∧
      edges = ((((dropsOf placed s₂.id).map
        (readIndices (keyPlaces keys₂ s₁.groups))).dedup.insertionSort (· ≤ ·)).zip
          (dropsOf placed t₂.id)).flatMap fun p => ((dropsOf placed s₂.id).filter
            fun d => readIndices (keyPlaces keys₂ s₁.groups) d == p.1).map fun d => (d, p.2) := by
  obtain ⟨layers, hl, hplaces⟩ := h.layers_second (h.keys_again hk _)
  have hmem := h.mem_keys hk hi hpos hne (nodup_keyPlaces keys₂ s₁.groups) hin
  have hnil : [] ∉ (dropsOf placed s₂.id).map (readIndices (keyPlaces keys₂ s₁.groups)) := by
    intro hmem
    obtain ⟨a, -, ha⟩ := List.mem_map.mp hmem
    exact hsome (List.map_eq_nil_iff.mp ha)
  rw [groupByEdges_ok (readIndices (keyPlaces keys₂ s₁.groups)) hl.ok fun d hd => ?_]
  · rw [length_keys pairwise_lt_paths hmem, length_paths]
    simp only [hnil, not_false_eq_true, true_and]
  · obtain ⟨digit, -, hkey⟩ := h.digits_of_source hk hi hpos hd
    rw [hplaces]
    exact h.groupKeyOf_read hk hkey hsome hin

/-- Only one place around the second GroupBy: any other one would get the same sources. -/
theorem GroupByChain.single_of_assigned (hi : instantiate lg = .ok placed)
    (hpos : ∀ c ∈ keyPlaces keys₂ s₁.groups, 0 < countAt lg s₁ c)
    (hsome : keyPlaces keys₂ s₁.groups ≠ []) {wanted : Drop → List Nat} {a : Drop}
    (ha : a ∈ dropsOf placed s₂.id)
    (hassigned : Assigned (dropsOf placed s₂.id) (dropsOf placed t₂.id)
      (fun a b => groupIndices t₂ b = wanted a) edges) : ∀ d ∈ sizes lg t₂, d = 1 := by
  obtain ⟨target, htgt, hcoord⟩ := dropsOf_groupBy hi h.target h.groupSecond h.groupBySecond
  obtain ⟨b, hb, hunique⟩ := hassigned.unique a ha
  obtain ⟨-, hmem, hab⟩ := (hassigned.mem a b).mp hb
  rw [htgt] at hmem
  obtain ⟨js, hjs, rfl⟩ := List.mem_map.mp hmem
  obtain ⟨is, his, i, hlt, rfl⟩ := mem_paths_snoc.mp hjs
  rw [h.groupIndices_eq hk hpos hsome (hcoord is his i hlt)] at hab
  have hsame : ∀ p ∈ paths (sizes lg t₂), target (p ++ [i]) = target (is ++ [i]) := by
    intro p hp
    refine hunique _ ((hassigned.mem _ _).mpr ⟨ha, ?_, ?_⟩)
    · rw [htgt]
      exact List.mem_map_of_mem (mem_paths_snoc.mpr ⟨p, hp, i, hlt, rfl⟩)
    · rw [h.groupIndices_eq hk hpos hsome (hcoord p hp i hlt)]
      exact hab
  have hpath : ∀ p ∈ paths (sizes lg t₂), (target (p ++ [i])).coord.path = 0 :: p ++ [i] := by
    intro p hp
    rw [hcoord p hp i hlt, path_instanceOf, path_placeOf hp]
  refine eq_one_of_subsingleton (fun p hp q hq => ?_) his
  have he := congrArg (fun d : Drop => d.coord.path) ((hsame p hp).trans (hsame q hq).symm)
  simp only [hpath p hp, hpath q hq] at he
  exact (List.cons.inj (List.append_cancel_right he)).2

/-- With as many keys as groups, the group of a drop is numbered by the indices that are read. -/
theorem GroupByChain.numbered (hi : instantiate lg = .ok placed)
    (hpos : ∀ c ∈ keyPlaces keys₁ s₁.groups, 0 < countAt lg s₁ c)
    (hne : paths (sizes lg t₁) ≠ [])
    (hin : ∀ c ∈ keyPlaces keys₂ s₁.groups, c < (keyPlaces keys₁ s₁.groups).length)
    {drop : Nat → Drop} (hdrops : dropsOf placed t₂.id =
      (List.range (lg.copies t₂)).map drop) {c : InstanceId}
    (hcoord : ∀ i < lg.copies t₂, (drop i).coord = instanceOf c (lg.shape t₂ c) i)
    (hprod : ((readPlaces (keyPlaces keys₁ s₁.groups) (keyPlaces keys₂ s₁.groups)).map
      (countAt lg s₁)).prod = lg.copies t₂) :
    Assigned (dropsOf placed s₂.id) (dropsOf placed t₂.id)
      (fun a b => unravelIndex (b.coord.path.getLast?.getD 0)
        ((readPlaces (keyPlaces keys₁ s₁.groups) (keyPlaces keys₂ s₁.groups)).map
          (countAt lg s₁)) = readIndices (keyPlaces keys₂ s₁.groups) a)
      (((((dropsOf placed s₂.id).map
        (readIndices (keyPlaces keys₂ s₁.groups))).dedup.insertionSort (· ≤ ·)).zip
          (dropsOf placed t₂.id)).flatMap fun p => ((dropsOf placed s₂.id).filter
            fun d => readIndices (keyPlaces keys₂ s₁.groups) d == p.1).map fun d => (d, p.2)) := by
  obtain ⟨source, hsrc, hpath, -⟩ := h.dropsOf_source hk hi hpos
  have hnodup : (dropsOf placed s₂.id).Nodup := hsrc ▸ nodup_drops hpath
  have hmem := h.mem_keys hk hi hpos hne (nodup_keyPlaces keys₂ s₁.groups) hin
  refine assigned_of_labels (fun b => unravelIndex (b.coord.path.getLast?.getD 0) _)
    hnodup pairwise_lt_paths hmem ?_
  rw [hdrops, List.map_map, ← map_unravelIndex, hprod]
  refine List.map_congr_left fun i hlt => ?_
  rw [Function.comp_apply, hcoord i (List.mem_range.mp hlt), path_instanceOf]
  simp

/-- The edges are there and go by the own keys just when the places agree. -/
theorem GroupByChain.groups_iff (hi : instantiate lg = .ok placed)
    (hzero : 0 ∉ sizes lg s₂) :
    GroupsByOwnKeys lg placed s₁ s₂ t₂ keys₁ keys₂ ↔
      KeysInPlace lg s₁ t₂ (keyPlaces keys₁ s₁.groups) (keyPlaces keys₂ s₁.groups) := by
  have hne : paths (sizes lg s₂) ≠ [] := fun hnil => hzero (paths_eq_nil_iff.mp hnil)
  have hne₁ : paths (sizes lg t₁) ≠ [] := by
    intro hnil
    rw [paths_eq_nil_iff] at hnil
    exact hzero (h.sizes_source ▸ List.mem_append_left _ hnil)
  have hpos := h.carried_pos hi hzero
  have hsub := h.places_subset
  have hpos₂ := fun c hc => hpos c (hsub hc)
  have hcopies := h.copies_second hpos₂
  have hn := nodup_keyPlaces keys₂ s₁.groups
  constructor
  · rintro ⟨edges, hok, hassigned⟩
    obtain ⟨source, hsrc, -⟩ := h.dropsOf_source hk hi hpos
    obtain ⟨is, his⟩ := List.exists_mem_of_ne_nil _ hne
    have ha₀ : source is ∈ dropsOf placed s₂.id := hsrc ▸ List.mem_map_of_mem his
    obtain ⟨hsome, hin⟩ := h.inside_of_ok hk hi hpos ha₀ hok
    have hone := h.single_of_assigned hk hi hpos₂ hsome ha₀ hassigned
    obtain ⟨drop, js, hjs, hdrops, hcoord⟩ :=
      dropsOf_single hi h.target h.groupSecond h.groupBySecond hone
    obtain ⟨hprod, rfl⟩ := (h.edges_iff hk hi hpos hne₁ hsome hin).mp hok
    rw [hdrops, List.length_map, List.length_range] at hprod
    have hnumbered := h.numbered hk hi hpos hne₁ hin hdrops hcoord hprod
    refine ⟨hsome, hin, hone, ?_⟩
    refine (value_agree_iff hpos (readPlaces_subset hin) hsub
      (nodup_readPlaces hin (nodup_keyPlaces _ _) hn) hn).mp fun digit hdigit => ?_
    obtain ⟨a, ha, hkey⟩ := h.exists_source hk hi hpos hne₁ hdigit
    have hread := fun c hc => hdigit c (readPlaces_subset hin hc)
    -- the group numbered by the indices that are read has to stand for the named ones
    have hlt := value_lt hread
    rw [hprod] at hlt
    have hb : drop (value (countAt lg s₁) digit _) ∈ dropsOf placed t₂.id :=
      hdrops ▸ List.mem_map_of_mem (List.mem_range.mpr hlt)
    have hedge := (hnumbered.mem a _).mpr ⟨ha, hb, by
      rw [hcoord _ hlt, path_instanceOf, readIndices_digits hkey hin, ← unravelIndex_value hread]
      simp⟩
    have hown := ((hassigned.mem a _).mp hedge).2.2
    rw [h.groupIndices_eq hk hpos₂ hsome (hcoord _ hlt), carriedIndices_digits hkey hsub] at hown
    exact value_of_unravelIndex (hcopies ▸ hlt) hown
  · rintro ⟨hsome, hin, hone, hsame⟩
    have hagree := (value_agree_iff hpos (readPlaces_subset hin) hsub
      (nodup_readPlaces hin (nodup_keyPlaces _ _) hn) hn).mpr hsame
    have hprod : ((readPlaces (keyPlaces keys₁ s₁.groups) (keyPlaces keys₂ s₁.groups)).map
        (countAt lg s₁)).prod = lg.copies t₂ := by
      rw [hcopies, ← prod_squeeze hpos₂,
        ← prod_squeeze fun c hc => hpos c (readPlaces_subset hin hc),
        hsame]
    obtain ⟨drop, js, hjs, hdrops, hcoord⟩ :=
      dropsOf_single hi h.target h.groupSecond h.groupBySecond hone
    refine ⟨_, (h.edges_iff hk hi hpos hne₁ hsome hin).mpr ⟨?_, rfl⟩, ?_⟩
    · rw [hprod, hdrops, List.length_map, List.length_range]
    · refine (h.numbered hk hi hpos hne₁ hin hdrops hcoord hprod).congr fun a ha b hb => ?_
      obtain ⟨digit, hdigit, hkey⟩ := h.digits_of_source hk hi hpos ha
      rw [hdrops] at hb
      obtain ⟨i, hlt, rfl⟩ := List.mem_map.mp hb
      rw [List.mem_range] at hlt
      have hlast : (drop i).coord.path.getLast?.getD 0 = i := by
        rw [hcoord i hlt, path_instanceOf]
        simp
      rw [hlast, readIndices_digits hkey hin, carriedIndices_digits hkey hsub,
        h.groupIndices_eq hk hpos₂ hsome (hcoord i hlt),
        unravelIndex_eq_iff (fun c hc => hdigit c (readPlaces_subset hin hc)) (hprod ▸ hlt),
        unravelIndex_eq_iff (fun c hc => hdigit c (hsub hc)) (hcopies ▸ hlt), hagree digit hdigit]

end Carried

/-- Where the wiring succeeds with source drops, it has found the keys of both GroupBys. -/
theorem GroupByChain.keysThere_of_ok (hi : instantiate lg = .ok placed) (hzero : 0 ∉ sizes lg s₂)
    (hok : groupByEdges lg s₂ t₂ (dropsOf placed s₂.id) (dropsOf placed t₂.id) =
      .ok edges) : KeysThere lg t₁ t₂ := by
  obtain ⟨source, hsrc, -, hcoord⟩ := h.coords_source hi
  have hsources : dropsOf placed s₂.id ≠ [] := by
    rw [hsrc, Ne, List.map_eq_nil_iff, paths_eq_nil_iff]
    exact hzero
  have htargets := targets_of_groupByEdges hok hsources
  have hmade : (!(dropsOf placed t₂.id).isEmpty) = true := by simpa using htargets
  have hsecond : t₂.KeysKept := by
    refine (keysKept_or_lost t₂).resolve_right fun hlost => ?_
    rw [groupByEdges, hmade, scatterLayers, hlost, ok_bind, h.inputGroup_second, ok_bind,
      if_pos h.groupByFirst] at hok
    cases hok
  refine ⟨hsecond, (keysKept_or_lost t₁).imp_right fun hlost d hd => ?_⟩
  rw [h.sizes_source, List.mem_append, not_or, List.mem_singleton] at hzero
  have hpos : ∀ e ∈ sizes lg t₁, 0 < e := fun e he =>
    Nat.pos_of_ne_zero fun h0 => hzero.1 (h0 ▸ he)
  by_contra hd1
  -- at a later place of the first GroupBy the data carry no indices
  have his : (sizes lg t₁).map (· - 1) ∈ paths (sizes lg t₁) :=
    map_mem_paths fun e he => Nat.sub_lt (hpos e he) Nat.one_pos
  have hlater : (placeOf lg t₁ ((sizes lg t₁).map (· - 1))).1.isLater = true := by
    rw [isLater_placeOf his]
    refine List.any_eq_true.mpr ⟨d - 1, List.mem_map_of_mem hd, ?_⟩
    have := hpos d hd
    simp only [bne_iff_ne, ne_eq]
    omega
  have hcopies : 0 < lg.copies t₁ := Nat.pos_of_ne_zero fun h0 => hzero.2 h0.symm
  have hshape : lg.shape t₁ (placeOf lg t₁ ((sizes lg t₁).map (· - 1))).1 = none := by
    rw [LG.shape, groupShape, if_pos h.groupByFirst, hlater, hlost, ok_bind]
    rfl
  have ha : source ((sizes lg t₁).map (· - 1) ++ [0]) ∈ dropsOf placed s₂.id := by
    rw [hsrc, h.sizes_source]
    exact List.mem_map_of_mem (mem_paths_snoc.mpr ⟨_, his, 0, hcopies, rfl⟩)
  have hkey : (source ((sizes lg t₁).map (· - 1) ++ [0])).coord.groupKey = [] := by
    rw [hcoord _ his 0 hcopies, hshape]
    exact groupKey_descend fun g hg => h.outside g (List.mem_reverse.mp hg)
  obtain ⟨layers, -, hok⟩ := bind_ok.mp hok
  obtain ⟨keyed, hkeyed, -⟩ := bind_ok.mp hok
  obtain ⟨p, hp⟩ := ok_of_mapM hkeyed ha
  obtain ⟨k, hk, -⟩ := bind_ok.mp hp
  rw [h.groupKeyOf_eq ((hsecond.groupKeys _).trans h.keysSecond), hkey] at hk
  cases hk

/-- A GroupBy of a GroupBy groups by its own keys just when the keys of both are there to be read
and the numbers its keys have among all the Scatters are their places among the keys of the first
GroupBy; Scatters with one instance do not matter. -/
theorem groupsByOwnKeys_iff (hi : instantiate lg = .ok placed) :
    GroupsByOwnKeys lg placed s₁ s₂ t₂ keys₁ keys₂ ↔
      (0 ∈ sizes lg s₂ ∧ 0 ∈ sizes lg t₂ ++ [lg.copies t₂]) ∨
      (0 ∉ sizes lg s₂ ∧ KeysThere lg t₁ t₂ ∧
        KeysInPlace lg s₁ t₂ (keyPlaces keys₁ s₁.groups) (keyPlaces keys₂ s₁.groups)) := by
  by_cases hzero : 0 ∈ sizes lg s₂
  · obtain ⟨source, hsrc, -⟩ := dropsOf_leaf hi h.source h.leaf
    obtain ⟨target, htgt, -⟩ := dropsOf_groupBy hi h.target h.groupSecond h.groupBySecond
    have hnone : dropsOf placed s₂.id = [] := by
      rw [hsrc, ← sizes, paths_eq_nil_iff.mpr hzero, List.map_nil]
    simp only [hzero, not_true_eq_false, false_and, or_false, true_and]
    rw [← paths_eq_nil_iff, ← List.map_eq_nil_iff (f := target), ← htgt]
    constructor
    · rintro ⟨edges, hedges, -⟩
      obtain ⟨layers, hl, -⟩ := bind_ok.mp hedges
      rw [hnone, groupByEdges_ok (fun _ => []) hl (by simp)] at hedges
      exact List.length_eq_zero_iff.mp hedges.1.symm
    · intro hnil
      -- without drops of its own the GroupBy has its keys still
      obtain ⟨layers, hl, -⟩ := h.layers_second h.keysSecond
      have hedges : groupByEdges lg s₂ t₂ [] [] = .ok [] := by
        have hl' : scatterLayers lg.graph lg.inputs t₂ (!([] : List Drop).isEmpty) = .ok layers :=
          hl.ok
        exact (groupByEdges_ok (fun _ => []) hl' fun d hd => absurd hd List.not_mem_nil).mpr
          ⟨rfl, List.not_mem_nil, rfl⟩
      refine ⟨[], ?_, ?_⟩
      · rw [hnone, hnil]
        exact hedges
      · rw [hnone]
        exact assigned_nil
  · simp only [hzero, false_and, false_or, not_false_eq_true, true_and]
    constructor
    · rintro hg
      obtain ⟨edges, hok, -⟩ := id hg
      have hk := h.keysThere_of_ok hi hzero hok
      exact ⟨hk, (h.groups_iff hk hi hzero).mp hg⟩
    · rintro ⟨hk, hplace⟩
      exact (h.groups_iff hk hi hzero).mpr hplace

end Chain

/-- Data in three Scatters of two, grouped by some of them and again by some of these. -/
def regrouped (first second : String) : LogicalGraph where
  sessionId := "s"
  forest :=
    .cons { id := .int 1, category := .scatter, categoryType := .construct, isGroup := true
            keys := [("num_of_copies", .int 2)] }
      (.cons { id := .int 2, category := .scatter, categoryType := .construct, isGroup := true
               keys := [("num_of_copies", .int 2)] }
        (.cons { id := .int 3, category := .scatter, categoryType := .construct, isGroup := true
                 keys := [("num_of_copies", .int 2)] }
          (.cons { id := .int 4, category := .file, categoryType := .data } .nil .nil) .nil) .nil)
      (.cons { id := .int 5, category := .groupBy, categoryType := .construct, isGroup := true
               keys := [("group_key", .text first)] }
        (.cons { id := .int 6, category := .file, categoryType := .data } .nil .nil)
        (.cons { id := .int 7, category := .groupBy, categoryType := .construct, isGroup := true
                 keys := [("group_key", .text second)] } .nil .nil))
  links := [{ source := .int 4, target := .int 5 }, { source := .int 6, target := .int 7 }]
  ids_nodup := by
    change [NodeId.int 1, .int 2, .int 3, .int 4, .int 5, .int 6, .int 7].Nodup
    decide
  ids_ne_newAdded := by
    have hids : ∀ id ∈ [NodeId.int 1, .int 2, .int 3, .int 4, .int 5, .int 6, .int 7],
        id ≠ newAdded := by decide
    exact fun n hn => hids n.id (List.mem_map_of_mem (f := fun n => n.id) hn)

def regroupedLG (first second : String) : LG where
  graph := regrouped first second
  inputs := [(.int 5, .int 4), (.int 7, .int 6), (.int 5, .int 6)]
  links := (regrouped first second).links ++ [{ source := .int 5, target := .int 6 }]
  loopAwareSet := []

theorem groupsByOwnKeys_regrouped : ∃ placed s₁ t₁ s₂ t₂,
    (do synthesiseLinks (← (regrouped "2,3" "3").init)) = .ok (regroupedLG "2,3" "3") ∧
    GroupByChain (regroupedLG "2,3" "3") s₁ t₁ s₂ t₂ [2, 3] [3] ∧
    instantiate (regroupedLG "2,3" "3") = .ok placed ∧
    GroupsByOwnKeys (regroupedLG "2,3" "3") placed s₁ s₂ t₂ [2, 3] [3] := by
  have hc : GroupByChain (regroupedLG "2,3" "3") (regrouped "2,3" "3").started[3]
      (regrouped "2,3" "3").started[4] (regrouped "2,3" "3").started[5]
      (regrouped "2,3" "3").started[6] [2, 3] [3] :=
    ⟨rfl, by decide, by decide, by decide, by decide, rfl, by decide, by decide, by decide,
      by decide, by decide, rfl, by decide, by decide, by decide, rfl, by decide, by decide⟩
  have hk : KeysThere (regroupedLG "2,3" "3") (regrouped "2,3" "3").started[4]
      (regrouped "2,3" "3").started[6] := ⟨rfl, Or.inl rfl⟩
  obtain ⟨placed, hp⟩ : ∃ placed, instantiate (regroupedLG "2,3" "3") = .ok placed := ⟨_, rfl⟩
  refine ⟨placed, _, _, _, _, rfl, hc, hp, ?_⟩
  exact (groupsByOwnKeys_iff hc hp).mpr
    (.inr ⟨by decide, hk, by decide, by decide, by decide, by decide⟩)

/-- The keys of the first GroupBy skip the innermost Scatter: the second one groups by Scatter 1
where its key is Scatter 2. -/
theorem not_groupsByOwnKeys_regrouped : ∃ placed s₁ t₁ s₂ t₂,
    (do synthesiseLinks (← (regrouped "1,2" "2").init)) = .ok (regroupedLG "1,2" "2") ∧
    GroupByChain (regroupedLG "1,2" "2") s₁ t₁ s₂ t₂ [1, 2] [2] ∧
    instantiate (regroupedLG "1,2" "2") = .ok placed ∧
    ¬GroupsByOwnKeys (regroupedLG "1,2" "2") placed s₁ s₂ t₂ [1, 2] [2] := by
  have hc : GroupByChain (regroupedLG "1,2" "2") (regrouped "1,2" "2").started[3]
      (regrouped "1,2" "2").started[4] (regrouped "1,2" "2").started[5]
      (regrouped "1,2" "2").started[6] [1, 2] [2] :=
    ⟨rfl, by decide, by decide, by decide, by decide, rfl, by decide, by decide, by decide,
      by decide, by decide, rfl, by decide, by decide, by decide, rfl, by decide, by decide⟩
  have hk : KeysThere (regroupedLG "1,2" "2") (regrouped "1,2" "2").started[4]
      (regrouped "1,2" "2").started[6] := ⟨rfl, Or.inl rfl⟩
  obtain ⟨placed, hp⟩ : ∃ placed, instantiate (regroupedLG "1,2" "2") = .ok placed := ⟨_, rfl⟩
  refine ⟨placed, _, _, _, _, rfl, hc, hp, fun hg => ?_⟩
  have hplace := (hc.groups_iff hk hp (by decide)).mp hg
  exact absurd hplace.same (by decide)

end Daliuge.Unroll
