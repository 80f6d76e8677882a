import Daliuge.Unroll.GroupKeys

/-!
# Keys that are lost

A key field that is empty names its keys by its default as long as no drop of the GroupBy has been
made. After that the GroupBy has no keys: its drops are those of the default, and the last indices
of the source drops are what they are wired by.
-/
namespace Daliuge.Unroll

open Enumeration Collect

variable {lg : LG} {s t : LGNode} {placed : List Placed} {edges : List (Drop × Drop)}
  {layers layers' : List (Nat × LGNode)} {ks : Option (List Int)} {keys : List Int} {k k' : Int}

/-- What keys that are lost have to be for the last index to tell the groups as well. -/
structure LastIndexTells (lg : LG) (s t : LGNode) (keys : List Int) : Prop where
  single : ∀ d ∈ sizes lg t, d = 1
  innermost : 0 ∈ keyPlaces keys s.groups ∨ (instances lg s.groups).head? = some 1

/-- Where the keys that are read for the wiring are as good as those the drops are counted by. -/
def KeysHold (lg : LG) (s t : LGNode) : Prop :=
  0 ∈ sizes lg s ∨ t.KeysKept ∨ ∀ k k' ks, t.groupKeys false = .ok (some (k :: k' :: ks)) →
    LastIndexTells lg s t (k :: k' :: ks)

theorem unravelIndex_ones {ds : List Nat} (h : ∀ d ∈ ds, d = 1) :
    unravelIndex 0 ds = ds.map fun _ => 0 := by
  induction ds with
  | nil => rfl
  | cons d ds ih =>
    rw [unravelIndex, Nat.zero_div, Nat.zero_mod,
      ih fun d' hd' => h d' (List.mem_cons_of_mem d hd'), List.map_cons]

/-- Where the first place counts as much as all the given ones, its digit numbers theirs. -/
theorem unravelIndex_iff_first {size digit : Nat → Nat} {cs : List Nat} {j : Nat}
    (hlt : ∀ c ∈ cs, digit c < size c) (hzero : 0 ∈ cs ∨ size 0 = 1) (hsorted : cs.Pairwise (· < ·))
    (hprod : (cs.map size).prod = size 0) (hfirst : digit 0 < size 0) (hj : j < size 0) :
    unravelIndex j (cs.map size) = cs.map digit ↔ j = digit 0 := by
  have hdigits : ∀ ds ⊆ cs, (ds.map size).prod = 1 →
      (∀ d ∈ ds.map size, d = 1) ∧ (ds.map size).map (fun _ => 0) = ds.map digit := by
    intro ds hds hone
    have hall := ones_of_prod hone
    refine ⟨hall, ?_⟩
    rw [List.map_map]
    refine List.map_congr_left fun c hc => ?_
    have hsize := hall _ (List.mem_map_of_mem hc)
    have hdigit := hlt c (hds hc)
    simp only [Function.comp_apply]
    omega
  by_cases hone : size 0 = 1
  · obtain ⟨hall, hds⟩ := hdigits cs (List.Subset.refl cs) (hprod.trans hone)
    obtain rfl : j = 0 := by omega
    rw [unravelIndex_ones hall, hds]
    simp only [true_iff]
    omega
  · have hmem : 0 ∈ cs := hzero.resolve_right hone
    cases cs with
    | nil => simp at hmem
    | cons c cs =>
      obtain rfl : c = 0 := by
        rcases List.mem_cons.mp hmem with rfl | hmem
        · rfl
        · exact absurd (List.rel_of_pairwise_cons hsorted hmem) (Nat.not_lt_zero c)
      rw [List.map_cons, List.prod_cons] at hprod
      have hrest : (cs.map size).prod = 1 :=
        Nat.eq_of_mul_eq_mul_left (by omega) (hprod.trans (Nat.mul_one _).symm)
      obtain ⟨hall, hds⟩ := hdigits cs (List.subset_cons_self 0 cs) hrest
      rw [List.map_cons, unravelIndex, hrest, Nat.div_one, Nat.mod_one, unravelIndex_ones hall, hds,
        List.map_cons, List.cons.injEq]
      simp

section Lost

variable (h : ScatteredInput lg s t) (hi : instantiate lg = .ok placed)
  (hok : groupByEdges lg s t (dropsOf placed s.id) (dropsOf placed t.id) = .ok edges)
  (hne : dropsOf placed s.id ≠ [])
  (hr : Reading lg s t true layers none)
  (hr' : Reading lg s t false layers' (some (k :: k' :: keys)))

theorem readKey_last {places : List Nat} {a a' : Drop} (hp : places = [0])
    (he : readKey s t ks places a = readKey s t ks places a') :
    a.coord.path.getLast?.getD 0 = a'.coord.path.getLast?.getD 0 := by
  subst hp
  have hlast : ∀ d : Drop, (readKey s t ks [0] d).getLast? =
      some (d.coord.path.getLast?.getD 0) := by
    intro d
    rw [readKey, indicesAt_zero]
    split
    · rw [List.getLast?_append]
      rfl
    · rfl
  have := congrArg List.getLast? he
  rw [hlast, hlast] at this
  exact Option.some.inj this

include h hi hne in
/-- How many keys are read: the last indices, for each place of the GroupBy with a context. -/
theorem length_lostKeys :
    ((dropsOf placed s.id).map (readKey s t none [0])).dedup.length =
      (if hasContext s t none then (sizes lg t).prod else 1) *
        (instances lg s.groups).getD 0 0 := by
  have hpos := instances_pos h hi hne
  obtain ⟨source, hsrc, hpath⟩ := dropsOf_leaf hi h.source h.leaf
  cases hc : hasContext s t none with
  | true =>
    have hkey : readKey s t none [0] = fun d =>
        d.coord.path.dropLast.dropLast ++ indicesAt [0] d := by
      funext d
      rw [readKey, if_pos hc]
    have hsorted : ((paths (sizes lg t ++ [(instances lg s.groups).getD 0 0])).map
        (0 :: ·)).Pairwise (· < ·) := by
      rw [List.pairwise_map]
      exact pairwise_lt_paths.imp fun hlt => List.cons_lt_cons_iff.mpr (Or.inr ⟨rfl, hlt⟩)
    rw [hkey, hsrc, ← sizes, length_keys hsorted fun k => mem_contextKeys h hpos hpath hc k,
      List.length_map, length_paths, List.prod_append, List.prod_singleton]
    rfl
  | false =>
    have hkey : readKey s t none [0] = indicesAt [0] := by
      funext d
      rw [readKey, hc]
      rfl
    have hlt : ∀ c ∈ [0], c < s.groups.length := by
      intro c hc
      obtain rfl := List.mem_singleton.mp hc
      exact Nat.zero_lt_of_lt h.shallower
    have hmem : ∀ k, k ∈ paths (countsAt lg s [0]) ↔
        k ∈ (dropsOf placed s.id).map (indicesAt [0]) := by
      rw [hsrc, ← sizes, h.sizes_source]
      exact mem_source_indices hpos (List.nodup_singleton 0) hlt (h.sizes_source ▸ hpath)
    rw [hkey, length_keys pairwise_lt_paths hmem, length_paths]
    simp [countsAt]

include h hi hne hr' in
/-- The tuples of indices at the key Scatters are as many as there are instances. -/
theorem length_indices :
    ((dropsOf placed s.id).map
      (indicesAt (keyPlaces (k :: k' :: keys) s.groups))).dedup.length = lg.copies t := by
  have hpos := instances_pos h hi hne
  obtain ⟨source, hsrc, hpath⟩ := dropsOf_leaf hi h.source h.leaf
  have hcopies := hr'.found.copies_groupBy (hr'.found.copies_pos hpos) h.group h.groupBy
    (mem_nodes_of_started h.target)
  have hmem : ∀ k, k ∈ paths (countsAt lg s (layers'.map (·.1))) ↔
      k ∈ (dropsOf placed s.id).map (indicesAt (layers'.map (·.1))) := by
    rw [hsrc, ← sizes, h.sizes_source]
    exact mem_source_indices hpos hr'.places_nodup hr'.places_lt (h.sizes_source ▸ hpath)
  have hplaces : layers'.map (·.1) = keyPlaces (k :: k' :: keys) s.groups := hr'.places
  rw [← hplaces, length_keys pairwise_lt_paths hmem, length_paths, hcopies]

include h hi in
theorem nodup_targets : (dropsOf placed t.id).Nodup := by
  obtain ⟨target, htgt, hcoord⟩ := dropsOf_groupBy hi h.target h.group h.groupBy
  rw [htgt]
  refine nodup_drops fun js hjs => ?_
  obtain ⟨p, hp, i, hlt, rfl⟩ := mem_paths_snoc.mp hjs
  exact path_target hcoord hp hlt

include h hi hok hne hr hr' in
/-- Where the groups are those of the keys, the last index tells them. -/
theorem lastIndexTells_of_assigned (ht : dropsOf placed t.id ≠ [])
    (ha : Assigned (dropsOf placed s.id) (dropsOf placed t.id)
      (RegroupedBy (some (k :: k' :: keys)) s) edges) :
    LastIndexTells lg s t (k :: k' :: keys) := by
  have hpos := instances_pos h hi hne
  have hmade : (!(dropsOf placed t.id).isEmpty) = true := by simpa using ht
  obtain ⟨hlen, -, rfl⟩ := edges_of_reading h hi hok (hmade.symm ▸ hr)
  have hplaces : layers.map (·.1) = [0] := hr.places
  rw [hplaces] at hlen ha
  -- drops of one group are drops of one target, and so have one key
  have hsame : ∀ a ∈ dropsOf placed s.id, ∀ a' ∈ dropsOf placed s.id,
      indicesAt (keyPlaces (k :: k' :: keys) s.groups) a =
        indicesAt (keyPlaces (k :: k' :: keys) s.groups) a' →
      readKey s t none [0] a = readKey s t none [0] a' := by
    intro a hamem a' hamem' he
    obtain ⟨b, hb, -⟩ := ha.unique a hamem
    obtain ⟨-, hbt, hab⟩ := (ha.mem a b).mp hb
    have hab' : RegroupedBy (some (k :: k' :: keys)) s a' b := Eq.trans hab he
    exact key_of_edge (nodup_targets h hi) hb ((ha.mem a' b).mpr ⟨hamem', hbt, hab'⟩)
  refine ⟨?_, ?_⟩
  · have hle := length_dedup_le hsame
    obtain ⟨target, htgt, -⟩ := dropsOf_groupBy hi h.target h.group h.groupBy
    have hcopies := copies_of_targets h hi ht
    rw [hlen, length_indices h hi hne hr', htgt, List.length_map, length_paths, List.prod_append,
      List.prod_singleton] at hle
    have hpaths : paths (sizes lg t ++ [lg.copies t]) ≠ [] := by
      intro hnil
      exact ht (htgt.trans (by rw [hnil, List.map_nil]))
    have hprod : 0 < (sizes lg t).prod := by
      refine Nat.pos_of_ne_zero fun h0 => hpaths ?_
      refine List.length_eq_zero_iff.mp ?_
      rw [length_paths, List.prod_append, h0, Nat.zero_mul]
    refine ones_of_prod (Nat.le_antisymm ?_ hprod)
    exact Nat.le_of_mul_le_mul_right (by omega) hcopies
  · obtain ⟨source, hsrc, hpath⟩ := dropsOf_leaf hi h.source h.leaf
    obtain ⟨g, gs, hgroups⟩ : ∃ g gs, s.groups = g :: gs :=
      List.exists_cons_of_length_pos (Nat.zero_lt_of_lt h.shallower)
    by_contra hnot
    obtain ⟨hzero, hone⟩ := not_or.mp hnot
    obtain ⟨count, rest, hinst⟩ : ∃ count rest, instances lg s.groups = count :: rest :=
      ⟨_, _, by rw [hgroups]; rfl⟩
    have hcount : 2 ≤ count := by
      have hc := hpos count (hinst ▸ List.mem_cons_self)
      rw [hinst, List.head?_cons, Option.some.injEq] at hone
      omega
    -- two drops that differ in their last index only
    have hmem : ∀ i < 2, rest.reverse.map (fun _ => 0) ++ [i] ∈ paths (sizes lg s) := by
      intro i hlt
      rw [h.sizes_source, hinst, List.reverse_cons]
      refine mem_paths_snoc.mpr ⟨_, map_mem_paths fun d hd => ?_, i, by omega, rfl⟩
      exact hpos d (hinst ▸ List.mem_cons_of_mem count (List.mem_reverse.mp hd))
    have hindices : ∀ i < 2, indicesAt (keyPlaces (k :: k' :: keys) s.groups)
        (source (rest.reverse.map (fun _ => 0) ++ [i])) =
          (keyPlaces (k :: k' :: keys) s.groups).map fun _ => 0 := by
      intro i hlt
      rw [indicesAt_path (hpath _ (hmem i hlt))]
      refine List.map_congr_left fun c hc => ?_
      cases c with
      | zero => exact absurd hc hzero
      | succ c =>
        rw [List.reverse_append, List.reverse_singleton, List.singleton_append, List.getD_cons_succ,
          ← List.map_reverse, List.reverse_reverse, List.getD_eq_getElem?_getD, List.getElem?_map]
        cases rest[c]? <;> rfl
    have hsrcs : ∀ i < 2, source (rest.reverse.map (fun _ => 0) ++ [i]) ∈ dropsOf placed s.id :=
      fun i hlt => hsrc ▸ List.mem_map_of_mem (hmem i hlt)
    have hkey := hsame _ (hsrcs 0 (by omega)) _ (hsrcs 1 (by omega))
      ((hindices 0 (by omega)).trans (hindices 1 (by omega)).symm)
    have hlast := readKey_last rfl hkey
    rw [hpath _ (hmem 0 (by omega)), hpath _ (hmem 1 (by omega)), ← List.cons_append,
      ← List.cons_append, List.getLast?_append, List.getLast?_append] at hlast
    exact absurd hlast (by simp)

include h hi hok hne hr hr' in
/-- Where the last index tells the groups of the keys, they are what it is wired by. -/
theorem assigned_of_lastIndexTells (ht : dropsOf placed t.id ≠ [])
    (hl : LastIndexTells lg s t (k :: k' :: keys)) :
    Assigned (dropsOf placed s.id) (dropsOf placed t.id)
      (RegroupedBy (some (k :: k' :: keys)) s) edges := by
  have hpos := instances_pos h hi hne
  have hmade : (!(dropsOf placed t.id).isEmpty) = true := by simpa using ht
  have hrm : Reading lg s t (!(dropsOf placed t.id).isEmpty) layers none := hmade.symm ▸ hr
  obtain ⟨hlen, -, -⟩ := edges_of_reading h hi hok hrm
  obtain ⟨source, hsrc, hpath⟩ := dropsOf_leaf hi h.source h.leaf
  obtain ⟨target, htgt, hcoord⟩ := dropsOf_groupBy hi h.target h.group h.groupBy
  have hplaces : layers.map (·.1) = [0] := hr.places
  have hplaces' : layers'.map (·.1) = keyPlaces (k :: k' :: keys) s.groups := hr'.places
  have hsizes : (sizes lg t).prod = 1 := List.prod_eq_one hl.single
  have hcopies : lg.copies t = (instances lg s.groups).getD 0 0 := by
    rw [hplaces, length_lostKeys h hi hne, htgt, List.length_map, length_paths, List.prod_append,
      List.prod_singleton, hsizes, ite_self, Nat.one_mul, Nat.one_mul] at hlen
    exact hlen.symm
  have hcopies' := hr'.found.copies_groupBy (hr'.found.copies_pos hpos) h.group h.groupBy
    (mem_nodes_of_started h.target)
  have hassigned := assigned_of_reading h hi hok hne hrm
    (by rw [hcopies, hplaces]; simp [countsAt]) (by simp)
  refine hassigned.congr fun a ha b hb => ?_
  have hshape : ∀ is ∈ paths (sizes lg t), lg.shape t (placeOf lg t is).1 =
      some (countsAt lg s (layers'.map (·.1))) := fun is his =>
    shape_of_severalKeys hr'.found (hr'.found.copies_pos hpos) h.groupBy hr'.keys
      (isLater_of_ones hl.single his)
  rw [hsrc] at ha
  rw [htgt] at hb
  rw [← last_iff_regrouped h hpath hcoord (by simp) hl.single ha hb]
  obtain ⟨is, his, rfl⟩ := List.mem_map.mp ha
  obtain ⟨js, hjs, rfl⟩ := List.mem_map.mp hb
  obtain ⟨q, hq, j, hj, rfl⟩ := mem_paths_snoc.mp hjs
  have hbc := hcoord q hq j hj
  have hgroupKey : (target (q ++ [j])).coord.groupKey =
      unravelIndex j (countsAt lg s (keyPlaces (k :: k' :: keys) s.groups)) := by
    rw [hbc, hshape q hq, hplaces']
    rfl
  rw [indicesAt_last hbc, indicesAt_path (hpath is his), List.map_singleton, List.singleton_inj]
  have hdigit : ∀ c < s.groups.length,
      is.reverse.getD c 0 < (instances lg s.groups).getD c 0 := by
    intro c hc
    have hrev : is.reverse ∈ paths (instances lg s.groups) := by
      rw [← sizes, h.sizes_source] at his
      rw [← List.reverse_reverse (instances lg s.groups)]
      exact reverse_mem_paths.mpr his
    have hc' : c < (instances lg s.groups).length := length_instances.symm ▸ hc
    obtain ⟨i, hi', hat⟩ := index_lt hrev (List.getElem?_eq_getElem hc')
    rw [List.getD_eq_getElem?_getD, hat, List.getD_eq_getElem _ _ hc']
    exact hi'
  have hin : ∀ c ∈ keyPlaces (k :: k' :: keys) s.groups, c < s.groups.length :=
    hplaces' ▸ hr'.places_lt
  have hnum := @unravelIndex_iff_first (fun c => (instances lg s.groups).getD c 0)
    (fun c => is.reverse.getD c 0) _ j (fun c hc => hdigit c (hin c hc)) ?_
    (pairwise_keyPlaces _ _) ?_ (hdigit 0 (Nat.zero_lt_of_lt h.shallower)) (hcopies ▸ hj)
  · rw [← hnum, RegroupedBy, hgroupKey, indicesAt_path (hpath is his), countsAt]
  · rcases hl.innermost with h0 | hone
    · exact Or.inl h0
    · refine Or.inr ?_
      rw [List.getD_eq_getElem?_getD, ← List.head?_eq_getElem?, hone]
      rfl
  · rw [← hcopies, hcopies', hplaces']
    rfl

end Lost

/-- A GroupBy groups by the keys its drops are counted by just where these are still there when
its input is wired, or the last index tells their groups as well: then every source drop goes to the
GroupBy drop of its group. -/
theorem groupByEdges_regrouped_iff (h : ScatteredInput lg s t) (hi : instantiate lg = .ok placed)
    (hok : groupByEdges lg s t (dropsOf placed s.id) (dropsOf placed t.id) = .ok edges) :
    Assigned (dropsOf placed s.id) (dropsOf placed t.id) (Regrouped s t) edges ↔
      KeysHold lg s t := by
  obtain ⟨layers, hscatter, -⟩ := bind_ok.mp hok
  obtain ⟨source, hsrc, -⟩ := dropsOf_leaf hi h.source h.leaf
  by_cases hne : dropsOf placed s.id = []
  · have hzero : 0 ∈ sizes lg s := by
      rw [hsrc, List.map_eq_nil_iff, paths_eq_nil_iff] at hne
      exact hne
    rw [hne] at hok ⊢
    obtain ⟨-, -, rfl⟩ := (groupByEdges_ok (fun _ => []) hscatter (by simp)).mp hok
    simpa [KeysHold, hzero] using assigned_nil
  have hpos := instances_pos h hi hne
  have hzero : 0 ∉ sizes lg s := by
    intro h0
    rw [hsrc, ← sizes, paths_eq_nil_iff.mpr h0] at hne
    exact hne rfl
  obtain ⟨ks, hr⟩ := Reading.of_scattered h hscatter
  have ht := targets_of_groupByEdges hok hne
  have hmade : (!(dropsOf placed t.id).isEmpty) = true := by simpa using ht
  obtain ⟨layers', ks', hr'⟩ := reading_of_copies h (copies_of_targets h hi ht)
  have hcopies := hr'.found.copies_groupBy (hr'.found.copies_pos hpos) h.group h.groupBy
    (mem_nodes_of_started h.target)
  rw [show Regrouped s t = RegroupedBy ks' s from
    funext fun a => funext fun b => propext (regrouped_iff hr'.keys)]
  rcases keysKept_or_lost t with hkept | hlost
  · -- both readings are the same
    refine iff_of_true ?_ (Or.inr (Or.inl hkept))
    rw [hmade, scatterLayers_congr hkept, hr'.found.ok] at hscatter
    obtain rfl := Except.ok.inj hscatter
    obtain rfl : ks = ks' := Except.ok.inj
      (hr.keys.symm.trans ((hkept.groupKeys _).trans hr'.keys))
    refine assigned_of_reading h hi hok hne hr hcopies fun k k' l hks c => ?_
    subst hks
    have hk := hkept.groupKeys c.isLater
    exact shape_of_severalKeys (hr'.found.again hk) (hr'.found.copies_pos hpos) h.groupBy
      (hk.trans hr'.keys) rfl
  · rw [hmade] at hr
    obtain rfl : ks = none := Except.ok.inj (hr.keys.symm.trans hlost)
    have few : (∀ k k' l, ks' ≠ some (k :: k' :: l)) → layers'.map (·.1) = [0] →
        (Assigned (dropsOf placed s.id) (dropsOf placed t.id) (RegroupedBy ks' s) edges ↔
          KeysHold lg s t) := by
      intro hfew hplaces
      have hplaces' : layers.map (·.1) = [0] := hr.places
      have hassigned := assigned_of_reading h hi hok hne (hmade.symm ▸ hr)
        (by rw [hcopies, hplaces, hplaces']) (by simp)
      refine iff_of_true (hassigned.congr fun a _ b _ => ?_) (Or.inr (Or.inr ?_))
      · rw [regroupedBy_few (by simp), regroupedBy_few hfew]
      · intro k k' l hk
        exact absurd (Except.ok.inj (hr'.keys.symm.trans hk)) (hfew k k' l)
    cases ks' with
    | none => exact few (by simp) hr'.places
    | some ks' =>
      cases ks' with
      | nil => exact absurd hr'.keys (groupKeys_ne_nil _)
      | cons k ks' =>
        cases ks' with
        | nil => exact few (by simp) hr'.places
        | cons k' keys =>
          constructor
          · intro ha
            refine Or.inr (Or.inr fun j j' l hk => ?_)
            obtain ⟨rfl, hk⟩ := List.cons.inj
              (Option.some.inj (Except.ok.inj (hk.symm.trans hr'.keys)))
            obtain ⟨rfl, rfl⟩ := List.cons.inj hk
            exact lastIndexTells_of_assigned h hi hok hne hr hr' ht ha
          · rintro (h0 | hkept | hl)
            · exact absurd h0 hzero
            · have hkeys := hr'.keys.symm.trans (hkept.symm.trans hlost)
              cases hkeys
            · exact assigned_of_lastIndexTells h hi hok hne hr hr' ht (hl k k' keys hr'.keys)

def groupedLG : LG where
  graph := groupedData
  inputs := [(.int 4, .int 3)]
  links := groupedData.links
  loopAwareSet := []

theorem groupByEdges_groupedLG : ∃ placed edges s t,
    instantiate groupedLG = .ok placed ∧
    groupByEdges groupedLG s t (dropsOf placed s.id) (dropsOf placed t.id) = .ok edges ∧
    (dropsOf placed s.id).length = 4 ∧
    Assigned (dropsOf placed s.id) (dropsOf placed t.id) (Regrouped s t) edges := by
  have hc : ScatteredInput groupedLG groupedData.started[2] groupedData.started[3] :=
    ⟨by decide, by decide, rfl, by decide, by decide, by decide, by decide, by decide, by decide⟩
  have hkept : groupedData.started[3].KeysKept := rfl
  obtain ⟨placed, hp⟩ : ∃ placed, instantiate groupedLG = .ok placed := ⟨_, rfl⟩
  obtain ⟨edges, he⟩ : ∃ edges, groupByEdges groupedLG groupedData.started[2] groupedData.started[3]
      (dropsOf placed groupedData.started[2].id)
      (dropsOf placed groupedData.started[3].id) = .ok edges := by
    obtain rfl := Except.ok.inj hp
    exact ⟨_, rfl⟩
  refine ⟨placed, edges, _, _, hp, he, ?_, (groupByEdges_regrouped_iff hc hp he).mpr
    (Or.inr (Or.inl hkept))⟩
  obtain rfl := Except.ok.inj hp
  decide

/-- Data in three Scatters, grouped by the outer two: the field that says so is empty, and its
default names them. -/
def defaultKeys : LogicalGraph where
  sessionId := "s"
  forest :=
    .cons { id := .int 1, category := .scatter, categoryType := .construct, isGroup := true
            keys := [("num_of_copies", .int 2)] }
      (.cons { id := .int 2, category := .scatter, categoryType := .construct, isGroup := true
               keys := [("num_of_copies", .int 1)] }
        (.cons { id := .int 3, category := .scatter, categoryType := .construct, isGroup := true
                 keys := [("num_of_copies", .int 2)] }
          (.cons { id := .int 4, category := .file, categoryType := .data } .nil .nil) .nil) .nil)
      (.cons { id := .int 5, category := .groupBy, categoryType := .construct, isGroup := true
               fields := [{ id := "k", name := "group_key", value := .text ""
                            defaultValue := .text "1,2" }] } .nil .nil)
  links := [{ source := .int 4, target := .int 5 }]
  ids_nodup := by decide
  ids_ne_newAdded := by decide

def defaultKeysLG : LG where
  graph := defaultKeys
  inputs := [(.int 5, .int 4)]
  links := defaultKeys.links
  loopAwareSet := []

/-- The graph unrolls, but the data are grouped by the innermost Scatter. -/
theorem defaultKeys_misgrouped : ∃ tpl placed edges s t,
    defaultKeys.unroll = .ok tpl ∧
    (do synthesiseLinks (← defaultKeys.init)) = .ok defaultKeysLG ∧
    instantiate defaultKeysLG = .ok placed ∧ ScatteredInput defaultKeysLG s t ∧
    groupByEdges defaultKeysLG s t (dropsOf placed s.id) (dropsOf placed t.id) = .ok edges ∧
    ¬ Assigned (dropsOf placed s.id) (dropsOf placed t.id) (Regrouped s t) edges := by
  have hc : ScatteredInput defaultKeysLG defaultKeys.started[3] defaultKeys.started[4] :=
    ⟨by decide, by decide, rfl, by decide, by decide, by decide, by decide, by decide, by decide⟩
  obtain ⟨tpl, htpl⟩ : ∃ tpl, defaultKeys.unroll = .ok tpl := ⟨_, rfl⟩
  obtain ⟨placed, hp⟩ : ∃ placed, instantiate defaultKeysLG = .ok placed := ⟨_, rfl⟩
  obtain ⟨edges, he, hany⟩ : ∃ edges,
      groupByEdges defaultKeysLG defaultKeys.started[3] defaultKeys.started[4]
        (dropsOf placed defaultKeys.started[3].id)
        (dropsOf placed defaultKeys.started[4].id) = .ok edges ∧
      (edges.any fun e => e.2.coord.groupKey != indicesAt [1, 2] e.1) = true := by
    obtain rfl := Except.ok.inj hp
    exact ⟨_, rfl, by decide⟩
  refine ⟨tpl, placed, edges, _, _, htpl, rfl, hp, hc, he, fun ha => ?_⟩
  obtain ⟨⟨a, b⟩, hmem, hne⟩ := List.any_eq_true.mp hany
  have hk : defaultKeys.started[4].groupKeys false = .ok (some [1, 2]) := rfl
  have hab : b.coord.groupKey = indicesAt [1, 2] a :=
    (regrouped_iff hk).mp ((ha.mem a b).mp hmem).2.2
  exact absurd hab (by simpa using hne)

end Daliuge.Unroll
