import Daliuge.Unroll.Locking

/-!
# Drops a node makes several of

A construct and an MPI node make drops of their own, several at each place around them: their
drop lists are enumerations with one index more than there are groups around the node.
-/
namespace Daliuge.Unroll

open Enumeration Collect

variable {lg : LG} {m n : LGNode} {placed : List Placed} {groups down : List Node} {f : Forest}
  {b : Place} {c : InstanceId}

/-- The place reached from the top by one index for each group around a node. -/
def placeOf (lg : LG) (n : LGNode) (is : List Nat) : Place :=
  descend lg [] (.root, none) n.groups.reverse is

theorem path_placeOf {is : List Nat} (h : is ∈ paths (sizes lg n)) :
    (placeOf lg n is).1.path = 0 :: is := by
  rw [placeOf, path_descend]
  · rfl
  · rw [length_of_mem_paths h, sizes, length_bounds]

/-- Where a walk succeeds, every instance of a group has been made at every place around it. -/
theorem groupDrops_ok (h : lgnToPgn lg groups f b.1 b.2 = .ok placed) (hm : m ∈ f.nodes groups)
    (hd : m.groups = down.reverse ++ groups) (hg : m.isGroup = true) {is : List Nat} {i : Nat}
    (his : is ∈ paths (bounds lg groups down)) (hi : i < lg.copies m) :
    ∃ own, groupDrops lg m (enter lg m (descend lg groups b down is) i).1 = .ok own := by
  induction f generalizing groups b placed down is with
  | nil => simp [Forest.nodes] at hm
  | cons n children rest ihc ihr =>
    obtain ⟨here, others, rfl, hothers, hgroup, -⟩ := lgnToPgn_cons h
    rcases List.mem_cons.mp hm with rfl | hm
    · obtain rfl := down_nil rfl hd
      have hn : n.isGroup = true := hg
      obtain ⟨g, -, hmem⟩ := hgroup hn
      obtain ⟨own, below, -, hown, -⟩ := hmem i (List.mem_range.mpr hi)
      exact ⟨own, by simpa [descend] using hown⟩
    rcases List.mem_append.mp hm with hm | hm
    · obtain ⟨down', hd'⟩ := exists_down hm
      obtain rfl := down_cons hd' hd
      obtain ⟨j, hj, his⟩ := List.mem_flatMap.mp his
      obtain ⟨js, hjs, rfl⟩ := List.mem_map.mp his
      have hn : n.isGroup = true := by
        by_contra hn
        simp [hn] at hj
      rw [if_pos hn] at hj
      obtain ⟨g, -, hmem⟩ := hgroup hn
      obtain ⟨own, below, -, -, hbelow⟩ := hmem j hj
      exact ihc hbelow hm hd' hjs
    · exact ihr hothers hm hd his

/-- Where a walk succeeds, a group has a shape and a dop if there is a place around it. -/
theorem groupShape_ok (h : lgnToPgn lg groups f b.1 b.2 = .ok placed) (hm : m ∈ f.nodes groups)
    (hd : m.groups = down.reverse ++ groups) (hg : m.isGroup = true) {is : List Nat}
    (his : is ∈ paths (bounds lg groups down)) :
    ∃ shape, groupShape lg m (descend lg groups b down is).1 = .ok shape := by
  induction f generalizing groups b placed down is with
  | nil => simp [Forest.nodes] at hm
  | cons n children rest ihc ihr =>
    obtain ⟨here, others, -, hothers, hgroup, -⟩ := lgnToPgn_cons h
    rcases List.mem_cons.mp hm with rfl | hm
    · obtain rfl := down_nil rfl hd
      obtain ⟨here, hhere, -⟩ := bind_ok.mp h
      have hn : n.isGroup = true := hg
      rw [if_pos hn] at hhere
      obtain ⟨shape, hshape, -⟩ := bind_ok.mp hhere
      exact ⟨shape, by simpa [descend] using hshape⟩
    rcases List.mem_append.mp hm with hm | hm
    · obtain ⟨down', hd'⟩ := exists_down hm
      obtain rfl := down_cons hd' hd
      obtain ⟨j, hj, his⟩ := List.mem_flatMap.mp his
      obtain ⟨js, hjs, rfl⟩ := List.mem_map.mp his
      have hn : n.isGroup = true := by
        by_contra hn
        simp [hn] at hj
      rw [if_pos hn] at hj
      obtain ⟨g, -, hmem⟩ := hgroup hn
      obtain ⟨own, below, -, -, hbelow⟩ := hmem j hj
      exact ihc hbelow hm hd' hjs
    · exact ihr hothers hm hd his

/-- What a place keeps under the key of the node whose drop it has made. -/
theorem filter_place {made : Made} {generated : Option Drop} (hn : n.id ≠ newAdded) :
    ((made.place n.id generated).filter fun p => p.key == n.id).map (·.drop) =
      [made.drop] := by
  cases generated with
  | none => simp [Made.place]
  | some d => simp [Made.place, Ne.symm hn]

/-- A group that is neither a Scatter nor a Loop makes one drop. -/
theorem groupDrops_one {own : List Placed} (hs : n.isConstruct .scatter = false)
    (hl : n.isConstruct .loop = false) (hn : n.id ≠ newAdded)
    (h : groupDrops lg n c = .ok own) : ∃ d : Drop,
      (own.filter fun p => p.key == n.id).map (·.drop) = [d] ∧ d.coord = c := by
  unfold groupDrops at h
  simp only [hs, hl, Bool.or_self, Bool.false_eq_true, if_false] at h
  split at h
  · obtain ⟨made, hmade, h⟩ := bind_ok.mp h
    obtain rfl := pure_ok.mp h
    refine ⟨made.drop, filter_place hn, ?_⟩
    rw [createAppDrop_ok hmade]
    rfl
  · obtain ⟨made, hmade, h⟩ := bind_ok.mp h
    have hcoord : made.drop.coord = c := by
      simp [Drop.coord, (makeSingleDrop_from hmade).1.main.ident]
    refine ⟨made.drop, ?_, hcoord⟩
    split at h
    · split at h
      · obtain rfl := pure_ok.mp h
        exact filter_place hn
      · cases h
    · obtain rfl := pure_ok.mp h
      exact filter_place hn

/-- The drops of a node that makes `k` of them at every place. -/
theorem dropsOf_counted (hi : instantiate lg = .ok placed) (hm : m ∈ lg.graph.started) {k : Nat}
    (coord : InstanceId → Nat → InstanceId)
    (hown : ∀ is ∈ paths (sizes lg m), ∃ d : Nat → Drop,
      ((ownPlaced lg m (placeOf lg m is)).filter fun p => p.key == m.id).map (·.drop) =
        (List.range k).map d ∧ ∀ i < k, (d i).coord = coord (placeOf lg m is).1 i) :
    ∃ drop : List Nat → Drop,
      dropsOf placed m.id = (paths (sizes lg m ++ [k])).map drop ∧
      ∀ is ∈ paths (sizes lg m), ∀ i < k,
        (drop (is ++ [i])).coord = coord (placeOf lg m is).1 i := by
  choose! d hd using hown
  refine ⟨fun js => d js.dropLast (js.getLast?.getD 0), ?_, fun is his i hlt => ?_⟩
  · have hgroups : m.groups = m.groups.reverse.reverse ++ [] := by simp
    rw [dropsOf, lgnToPgn_eq_layout (b := (.root, none)) hi,
      filter_layout (distinctIds_started lg.graph) hm hgroups, List.map_flatMap, paths_snoc,
      List.map_flatMap]
    refine List.flatMap_congr fun is his => ((hd is his).1).trans ?_
    rw [List.map_map]
    exact List.map_congr_left fun i _ => by simp
  · simpa using (hd is his).2 i hlt

/-- The drops of a group that is neither a Scatter nor a Loop. -/
theorem dropsOf_group (hi : instantiate lg = .ok placed) (hm : m ∈ lg.graph.started)
    (hg : m.isGroup = true) (hs : m.isConstruct .scatter = false)
    (hl : m.isConstruct .loop = false) :
    ∃ drop : List Nat → Drop,
      dropsOf placed m.id = (paths (sizes lg m ++ [lg.copies m])).map drop ∧
      ∀ is ∈ paths (sizes lg m), ∀ i < lg.copies m,
        (drop (is ++ [i])).coord =
          instanceOf (placeOf lg m is).1 (lg.shape m (placeOf lg m is).1) i := by
  have hne := (distinctIds_started lg.graph).ne_newAdded m hm
  have hgroups : m.groups = m.groups.reverse.reverse ++ [] := by simp
  refine dropsOf_counted hi hm (fun c i => instanceOf c (lg.shape m c) i) fun is his => ?_
  have hmade : ∀ i < lg.copies m, ∃ d : Drop,
      ((groupPlaced lg m (enter lg m (placeOf lg m is) i).1).filter
        fun p => p.key == m.id).map (·.drop) = [d] ∧
        d.coord = (enter lg m (placeOf lg m is) i).1 := by
    intro i hlt
    obtain ⟨own, hown⟩ := groupDrops_ok (b := (.root, none)) hi hm hgroups hg his hlt
    have hplaced : groupPlaced lg m (enter lg m (placeOf lg m is) i).1 = own :=
      toOption_getD_ok hown
    rw [hplaced]
    exact groupDrops_one hs hl hne hown
  choose! d hd using hmade
  refine ⟨d, ?_, fun i hlt => (hd i hlt).2⟩
  rw [ownPlaced, if_pos hg, List.filter_flatMap, List.map_flatMap, List.map_eq_flatMap]
  exact List.flatMap_congr fun i hlt => (hd i (List.mem_range.mp hlt)).1

/-- The drops of an MPI node, one for each process. -/
theorem dropsOf_mpi (hi : instantiate lg = .ok placed) (hm : m ∈ lg.graph.started)
    (hg : m.isGroup = false) (hmpi : m.isConstruct .mpi = true) :
    ∃ drop : List Nat → Drop,
      dropsOf placed m.id = (paths (sizes lg m ++ [lg.copies m])).map drop ∧
      ∀ is ∈ paths (sizes lg m), ∀ i < lg.copies m,
        (drop (is ++ [i])).coord = (placeOf lg m is).1.child i := by
  have hne := (distinctIds_started lg.graph).ne_newAdded m hm
  have hgroups : m.groups = m.groups.reverse.reverse ++ [] := by simp
  refine dropsOf_counted hi hm (fun c i => c.child i) fun is his => ?_
  obtain ⟨r, hr⟩ := leafDrops_ok (b := (.root, none)) hi hm hgroups hg his
  have hplaced : ownPlaced lg m (placeOf lg m is) = r := by
    rw [ownPlaced, hg]
    exact toOption_getD_ok hr
  rw [hplaced]
  rw [leafDrops, if_pos hmpi] at hr
  obtain ⟨k, hk, hr⟩ := bind_ok.mp hr
  have hcopies : lg.copies m = k.toNat := copies_of_dop hk
  obtain ⟨g, hmem, rfl⟩ := exists_of_collect hr
  have hmade : ∀ i < lg.copies m, ∃ d : Drop,
      ((g i).filter fun p => p.key == m.id).map (·.drop) = [d] ∧
        d.coord = (placeOf lg m is).1.child i := by
    intro i hlt
    obtain ⟨made, hmade, hplace⟩ := bind_ok.mp (hmem i (List.mem_range.mpr (hcopies ▸ hlt)))
    refine ⟨made.drop, ?_, ?_⟩
    · rw [← pure_ok.mp hplace]
      exact filter_place hne
    · simp only [Drop.coord, (makeSingleDrop_from hmade).1.main.ident]
      rfl
  choose! d hd using hmade
  refine ⟨d, ?_, fun i hlt => (hd i hlt).2⟩
  rw [← hcopies, List.filter_flatMap, List.map_flatMap, List.map_eq_flatMap]
  exact List.flatMap_congr fun i hlt => (hd i (List.mem_range.mp hlt)).1

end Daliuge.Unroll
