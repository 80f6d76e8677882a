import Daliuge.Unroll.LeafEdges

/-!
# Links that know of Loops

The Loop handler finds the iterations of a drop from its position in a flat list. For nested
leaves the position modulo the size of the Loop is the last index of the drop's coordinate.
-/
namespace Daliuge.Unroll

open Enumeration Collect

variable {lg : LG} {n m s t : LGNode} {placed : List Placed} {ds es : List Nat}
  {inner outer : List Nat → Drop} {d : Nat} {loopAware : Bool}

/-- What joins a source drop to a target drop over a link the Loop handler owns: on a circle the
target is one iteration on; leaving a Loop the source is in its last iteration, entering one the
target is in its first. -/
def LoopJoined (lg : LG) (placed : List Placed) (s t : LGNode) (a b : Drop) : Prop :=
  if isCircle s t (dropsOf placed s.id) (dropsOf placed t.id) then
    ∃ p i, a.coord.path = p ++ [i] ∧ b.coord.path = p ++ [i + 1]
  else if t.hLevel < s.hLevel then
    b.coord.path <+: a.coord.path ∧
      ∃ i : Nat, a.coord.path.getLast? = some i ∧ groupDop lg s = .ok ((i : Int) + 1)
  else a.coord.path <+: b.coord.path ∧ b.coord.path.getLast? = some 0

theorem splitList_paths (inner : List Nat → Drop) (h : 0 < es.prod) :
    splitList ((paths (ds ++ es)).map inner) (es.prod : Nat) =
      .ok ((paths ds).map fun p => (paths es).map fun q => inner (p ++ q)) := by
  rw [paths_append, List.map_flatMap]
  simp only [List.map_map, Function.comp_def]
  exact splitList_flatMap h fun p _ => by simp

theorem item_paths (outer : List Nat → Drop) {p : List Nat} {i : Nat}
    (h : (paths ds)[i]? = some p) :
    item ((paths ds).map outer) i = .ok (outer p) := by
  simp [item, h]

theorem filter_eq_flatMap {α β : Type} {l : List α} {p : α → Bool} {f : α → β} :
    (l.flatMap fun a => if p a then [f a] else []) = (l.filter p).map f := by
  induction l with
  | nil => rfl
  | cons a l ih => by_cases h : p a <;> simp [List.flatMap_cons, h, ih]

/-- The tuples with a given last index, piece by piece. -/
theorem filter_paths_append (f : List Nat → List Nat → Drop × Drop) (position : Nat) :
    (paths ds).flatMap (fun p =>
        ((paths (es ++ [d])).filter fun q => q.getLast? = some position).map
          fun q => f (p ++ q) p) =
      ((paths (ds ++ (es ++ [d]))).filter fun is => is.getLast? = some position).map
        fun is => f is (is.take ds.length) := by
  have happ : paths (ds ++ (es ++ [d])) =
      (paths ds).flatMap fun p => (paths (es ++ [d])).map (p ++ ·) := paths_append
  rw [happ, List.filter_flatMap, List.map_flatMap]
  refine List.flatMap_congr fun p hp => ?_
  rw [List.filter_map, List.map_map]
  have hlast : ∀ q ∈ paths (es ++ [d]), (p ++ q).getLast? = q.getLast? := by
    intro q hq
    have hlen := length_of_mem_paths hq
    cases q with
    | nil => simp at hlen
    | cons i q => rw [List.getLast?_append_cons]
  have hsame : (paths (es ++ [d])).filter
      ((fun is => decide (is.getLast? = some position)) ∘ fun q => p ++ q) =
      (paths (es ++ [d])).filter fun q => q.getLast? = some position :=
    List.filter_congr fun q hq => by simp [hlast q hq]
  rw [hsame]
  refine List.map_congr_left fun q _ => ?_
  simp [← length_of_mem_paths hp]

/-- Taking every piece's elements by their position modulo the size of the Loop takes the drops
by their last index. -/
theorem everyIteration_paths (ds : List Nat) (inner outer : List Nat → Drop) (position : Nat)
    (hd : 0 < d) (hpos : 0 < (es ++ [d]).prod) :
    everyIteration d position ((paths (ds ++ (es ++ [d]))).map inner) ((paths ds).map outer)
        ((es ++ [d]).prod : Nat) =
      .ok (((paths (ds ++ (es ++ [d]))).filter fun is => is.getLast? = some position).map
        fun is => (inner is, outer (is.take ds.length))) := by
  rw [everyIteration, splitList_paths inner hpos, ok_bind,
    ← filter_paths_append fun is p => (inner is, outer p)]
  refine collect_zipIdx 0 fun i p hp => ?_
  simp only [← filter_eq_flatMap]
  refine collect_zipIdx 0 fun j q hq => ?_
  have hlast := getLast?_of_paths_snoc hq
  have h0 : (d : Int) ≠ 0 := by omega
  simp only [Nat.add_zero, h0, if_false, item_paths outer hp, hlast, Option.some.injEq,
    decide_eq_true_eq]
  by_cases h : j % d = position
  · have hint : (j : Int) % d = position := by omega
    simp [h, hint, ok_bind, pure, Except.pure]
  · have hint : ¬ (j : Int) % d = position := by omega
    simp [h, hint]

theorem range_but_last {α : Type} (hd : 0 < d) {f : Nat → α} :
    (List.range d).flatMap (fun i => if i + 1 < d then [f i] else []) =
      (List.range (d - 1)).map f := by
  obtain ⟨k, rfl⟩ : ∃ k, d = k + 1 := ⟨d - 1, by omega⟩
  have hbelow : (List.range k).flatMap (fun i => if i + 1 < k + 1 then [f i] else []) =
      (List.range k).flatMap fun i => [f i] :=
    List.flatMap_congr fun i hi => if_pos (by simpa using hi)
  rw [List.range_succ, List.flatMap_append, hbelow]
  simp [List.map_eq_flatMap]

/-- Each iteration but the last is joined to the one after it. -/
theorem circleEdges_paths (hd : 0 < d) :
    circleEdges ((paths (ds ++ [d])).map inner) ((paths (ds ++ [d])).map outer) d =
      .ok ((paths ds).flatMap fun p =>
        (List.range (d - 1)).map fun i => (inner (p ++ [i]), outer (p ++ [i + 1]))) := by
  have hsplit : splitList ((paths (ds ++ [d])).map inner) d =
      .ok ((paths ds).map fun p => (List.range d).map fun i => inner (p ++ [i])) := by
    rw [paths_snoc, List.map_flatMap]
    simp only [List.map_map, Function.comp_def]
    exact splitList_flatMap hd fun p _ => by simp
  rw [circleEdges, hsplit, ok_bind]
  refine collect_zipIdx 0 fun i p hp => ?_
  rw [← range_but_last hd]
  refine collect_zipIdx 0 fun j k hk => ?_
  obtain ⟨hj, hk⟩ := List.getElem?_eq_some_iff.mp hk
  obtain rfl : j = k := by simpa using hk
  simp only [Nat.add_zero, Int.toNat_natCast]
  by_cases h : j + 1 < d
  · have hint : (j : Int) < d - 1 := by omega
    have hat := item_paths outer (getElem?_paths_snoc h hp)
    rw [if_pos hint, if_pos h, Nat.add_assoc, hat]
    rfl
  · have hint : ¬ (j : Int) < d - 1 := by omega
    rw [if_neg hint, if_neg h]

/-- The pairs of a drop and the one it is inside of, where the inner one is in a given iteration
of its innermost group. -/
theorem mem_iteration_pairs (position : Nat)
    (hi : ∀ is ∈ paths (ds ++ (es ++ [d])), (inner is).coord.path = 0 :: is)
    (ho : ∀ is ∈ paths ds, (outer is).coord.path = 0 :: is) {edges : List (Drop × Drop)}
    (he : edges = ((paths (ds ++ (es ++ [d]))).filter fun is => is.getLast? = some position).map
      fun is => (inner is, outer (is.take ds.length))) :
    edges.Nodup ∧ ∀ a b, (a, b) ∈ edges ↔
      a ∈ (paths (ds ++ (es ++ [d]))).map inner ∧ b ∈ (paths ds).map outer ∧
        b.coord.path <+: a.coord.path ∧ a.coord.path.getLast? = some position := by
  subst he
  have hpairs := prefixPairs_paths hi ho
  have hlast : ∀ is ∈ paths (ds ++ (es ++ [d])), (inner is).coord.path.getLast? = is.getLast? := by
    intro is his
    have hlen := length_of_mem_paths his
    cases is with
    | nil => simp at hlen
    | cons i is => simp [hi _ his]
  refine ⟨hpairs.1.sublist (List.filter_sublist.map _), fun a b => ?_⟩
  rw [← and_assoc, ← and_assoc, and_assoc (a := a ∈ _), ← hpairs.2 a b]
  constructor
  · intro h
    obtain ⟨is, his, h⟩ := List.mem_map.mp h
    obtain ⟨his, hp⟩ := List.mem_filter.mp his
    obtain ⟨rfl, rfl⟩ := Prod.mk.inj h
    exact ⟨List.mem_map.mpr ⟨is, his, rfl⟩, (hlast is his).trans (by simpa using hp)⟩
  · rintro ⟨h, hp⟩
    obtain ⟨is, his, h⟩ := List.mem_map.mp h
    obtain ⟨rfl, rfl⟩ := Prod.mk.inj h
    have hl := (hlast is his).symm.trans hp
    exact List.mem_map.mpr ⟨is, List.mem_filter.mpr ⟨his, by simpa using hl⟩, rfl⟩

/-- The pairs of one iteration and the next. -/
theorem mem_circle_pairs (hi : ∀ is ∈ paths (ds ++ [d]), (inner is).coord.path = 0 :: is)
    (ho : ∀ is ∈ paths (ds ++ [d]), (outer is).coord.path = 0 :: is) {edges : List (Drop × Drop)}
    (he : edges = (paths ds).flatMap fun p =>
      (List.range (d - 1)).map fun i => (inner (p ++ [i]), outer (p ++ [i + 1]))) :
    edges.Nodup ∧ ∀ a b, (a, b) ∈ edges ↔
      a ∈ (paths (ds ++ [d])).map inner ∧ b ∈ (paths (ds ++ [d])).map outer ∧
        ∃ p i, a.coord.path = p ++ [i] ∧ b.coord.path = p ++ [i + 1] := by
  subst he
  have hin : ∀ p ∈ paths ds, ∀ i < d, p ++ [i] ∈ paths (ds ++ [d]) :=
    fun p hp i hd => mem_paths_snoc.mpr ⟨p, hp, i, hd, rfl⟩
  constructor
  · apply List.Nodup.of_map Prod.fst
    have hfst : ((paths ds).flatMap fun p => (List.range (d - 1)).map fun i =>
        (inner (p ++ [i]), outer (p ++ [i + 1]))).map Prod.fst =
        (paths (ds ++ [d - 1])).map inner := by
      simp [paths_snoc, List.map_flatMap, Function.comp_def]
    rw [hfst]
    have hle : ∀ is ∈ paths (ds ++ [d - 1]), (inner is).coord.path = 0 :: is := by
      intro is his
      obtain ⟨p, hp, i, hid, rfl⟩ := mem_paths_snoc.mp his
      exact hi _ (hin p hp i (by omega))
    refine nodup_paths.map_on fun is his js hjs h => ?_
    simpa [hle is his, hle js hjs] using congrArg (fun a : Drop => a.coord.path) h
  · intro a b
    constructor
    · intro h
      obtain ⟨p, hp, h⟩ := List.mem_flatMap.mp h
      obtain ⟨i, hid, h⟩ := List.mem_map.mp h
      obtain ⟨rfl, rfl⟩ := Prod.mk.inj h
      have hlt : i < d - 1 := List.mem_range.mp hid
      have hs := hin p hp i (by omega)
      have ht := hin p hp (i + 1) (by omega)
      exact ⟨List.mem_map_of_mem hs, List.mem_map_of_mem ht, 0 :: p, i, hi _ hs, ho _ ht⟩
    · rintro ⟨ha, hb, q, i, haq, hbq⟩
      obtain ⟨is, his, rfl⟩ := List.mem_map.mp ha
      obtain ⟨js, hjs, rfl⟩ := List.mem_map.mp hb
      obtain ⟨p, hp, k, hk, rfl⟩ := mem_paths_snoc.mp his
      obtain ⟨p', hp', k', hk', rfl⟩ := mem_paths_snoc.mp hjs
      rw [hi _ his, ← List.cons_append] at haq
      rw [ho _ hjs, ← List.cons_append] at hbq
      obtain ⟨rfl, hki⟩ := List.append_inj' haq rfl
      obtain ⟨hpp, hki'⟩ := List.append_inj' hbq rfl
      obtain rfl : k = i := by simpa using hki
      obtain rfl : k' = k + 1 := by simpa using hki'
      obtain rfl : p' = p := by simpa using hpp
      refine List.mem_flatMap.mpr ⟨p', hp', List.mem_map.mpr ⟨k, ?_, rfl⟩⟩
      exact List.mem_range.mpr (by omega)

/-- The innermost group of a node bounds the last index of its drops. -/
theorem bounds_innermost (hn : Nested lg) (hm : m ∈ lg.graph.nodes) {g : Node}
    {extra groups : List Node} (h : m.groups = (g :: extra) ++ groups) :
    ∃ d : Nat, 0 < d ∧ groupDop lg m = .ok (d : Int) ∧
      bounds lg groups (g :: extra).reverse = bounds lg groups extra.reverse ++ [d] := by
  have hgm : (⟨g, extra ++ groups⟩ : LGNode) ∈ lg.graph.nodes :=
    mem_nodes_of_groups hm (show m.groups = [] ++ g :: (extra ++ groups) from h) List.nil_suffix
  have hg : g.isGroup = true := hn.around m hm g (by simp [h])
  obtain ⟨d, hd, hpos⟩ := hn.dop _ hgm hg
  refine ⟨d.toNat, by omega, ?_, ?_⟩
  · have hgroup : m.group = some ⟨g, extra ++ groups⟩ := by simp [LGNode.group, h]
    rw [groupDop, hgroup, Int.toNat_of_nonneg (by omega)]
    exact hd
  · rw [List.reverse_cons, bounds_append]
    simp [bounds, hg, copies_of_dop hd]

/-- The groups around a node start the hierarchy of every node inside of them. -/
theorem hierarchy_of_suffix (h : s.groups <:+ t.groups) :
    s.groupHierarchy.toList <+: t.groupHierarchy.toList := by
  obtain ⟨xs, hx⟩ := h
  cases hxs : xs with
  | nil =>
    obtain rfl := hxs
    simp [LGNode.groupHierarchy, ← hx]
  | cons x xs' =>
    have hr : (x :: xs').map (fun g : Node => g.id.text) ≠ [] := by simp
    have happ := String.intercalate_append_of_ne_nil (s := "-")
      (l := "0" :: (s.groups.map fun g => g.id.text).reverse)
      (m := ((x :: xs').map fun g => g.id.text).reverse) (by simp) (by simp)
    have ht : t.groupHierarchy = "-".intercalate ("0" ::
        (s.groups.map fun g => g.id.text).reverse ++
          ((x :: xs').map fun g => g.id.text).reverse) := by
      simp [LGNode.groupHierarchy, ← hx, hxs]
    rw [ht, happ]
    simp [LGNode.groupHierarchy]

theorem hRelated_of_suffix (h : t.groups <:+ s.groups ∨ s.groups <:+ t.groups) :
    s.hRelated t = true := by
  rcases h with h | h
  · have hf := (hierarchy_of_suffix h).isInfix
    simp [LGNode.hRelated, LGNode.finds, hf]
  · have hf := (hierarchy_of_suffix h).isInfix
    simp [LGNode.hRelated, LGNode.finds, hf]

/-- The ends of a circle are in the same groups. -/
theorem groups_of_circle (hn : Nested lg) (hs : s ∈ lg.graph.started) (ht : t ∈ lg.graph.started)
    (hr : t.groups <:+ s.groups ∨ s.groups <:+ t.groups)
    (hc : isCircle s t (dropsOf placed s.id) (dropsOf placed t.id) = true) :
    t.groups = s.groups := by
  have hgid : s.gid = t.gid := by
    simp [isCircle] at hc
    exact hc.1.1.2
  -- a group further in has another id than the groups around it
  have hout : ∀ m k : LGNode, m ∈ lg.graph.started → m.gid = k.gid → k.groups <:+ m.groups →
      k.groups = m.groups := by
    intro m k hm he hk
    obtain ⟨xs, hx⟩ := hk
    cases xs with
    | nil => exact hx
    | cons x xs =>
      have hm := mem_nodes_of_started hm
      cases hkg : k.groups with
      | nil =>
        have hxm : (⟨x, xs⟩ : LGNode) ∈ lg.graph.nodes :=
          mem_nodes_of_groups hm (show m.groups = [] ++ x :: xs by simp [← hx, hkg])
            List.nil_suffix
        have h0 : x.id = .int 0 := by simpa [LGNode.gid, ← hx, hkg] using he
        exact absurd h0 (hn.ids _ hxm)
      | cons g gs =>
        have hxg : x.id = g.id := by simpa [LGNode.gid, ← hx, hkg] using he
        have hgs : m.groups = [] ++ x :: (xs ++ g :: gs) := by simp [← hx, hkg]
        exact absurd hxg (id_ne_of_groups hm hgs)
  rcases hr with hr | hr
  · exact hout s t hs hgid hr
  · exact (hout t s ht hgid.symm hr).symm

/-- The edges of a circle. -/
theorem loopEdges_circle (hn : Nested lg) (hi : instantiate lg = .ok placed)
    (hs : s ∈ lg.graph.started) (ht : t ∈ lg.graph.started) (hsl : s.isLeaf = true)
    (htl : t.isLeaf = true) (hg : t.groups = s.groups)
    (hc : isCircle s t (dropsOf placed s.id) (dropsOf placed t.id) = true) :
    ∃ edges,
      loopEdges lg s t (dropsOf placed s.id) (dropsOf placed t.id) loopAware = .ok edges ∧
      edges.Nodup ∧ ∀ a b, (a, b) ∈ edges ↔ a ∈ dropsOf placed s.id ∧
        b ∈ dropsOf placed t.id ∧ LoopJoined lg placed s t a b := by
  obtain ⟨inner, hin, hinp⟩ := dropsOf_leaf hi hs hsl
  obtain ⟨outer, hout, houtp⟩ := dropsOf_leaf hi ht htl
  cases hsg : s.groups with
  | nil => simp [isCircle, LGNode.inLoop, hsg] at hc
  | cons g gs =>
    have hx : s.groups = (g :: gs) ++ [] := by simpa using hsg
    obtain ⟨d, hd, hdop, hb⟩ := bounds_innermost hn (mem_nodes_of_started hs) hx
    rw [hsg, hb] at hin hinp
    rw [hg, hsg, hb] at hout houtp
    have hmem := mem_circle_pairs hinp houtp rfl
    refine ⟨_, ?_, hmem.1, ?_⟩
    · rw [loopEdges, if_pos hc, hin, hout, if_neg (by simp), hdop, ok_bind]
      exact circleEdges_paths hd
    · intro a b
      rw [hmem.2 a b, LoopJoined, if_pos hc, hin, hout]

/-- The edges of a loop-aware link that leaves a Loop. -/
theorem loopEdges_leaving (hn : Nested lg) (hi : instantiate lg = .ok placed)
    (hs : s ∈ lg.graph.started) (ht : t ∈ lg.graph.started) (hsl : s.isLeaf = true)
    (htl : t.isLeaf = true) (hr : t.groups <:+ s.groups) (hlt : t.hLevel < s.hLevel)
    (hc : isCircle s t (dropsOf placed s.id) (dropsOf placed t.id) = false)
    (hl : isLocking s t = false)
    (ho : leavesLoop s t loopAware = true) :
    ∃ edges,
      loopEdges lg s t (dropsOf placed s.id) (dropsOf placed t.id) loopAware = .ok edges ∧
      edges.Nodup ∧ ∀ a b, (a, b) ∈ edges ↔ a ∈ dropsOf placed s.id ∧
        b ∈ dropsOf placed t.id ∧ LoopJoined lg placed s t a b := by
  obtain ⟨extra, hx⟩ := hr
  cases extra with
  | nil =>
    rw [hLevel_leaf hsl, hLevel_leaf htl, ← hx] at hlt
    simp at hlt
  | cons g extra =>
    obtain ⟨ds, inner, outer, hin, hout, hinp, houtp⟩ := dropsOf_nested hi hs ht hsl htl hx.symm
    have hdiff := (dopDiff_nested hn (mem_nodes_of_started hs) hsl htl hx.symm).1
    have hpos := bounds_pos hn (mem_nodes_of_started hs)
        (show s.groups = [] ++ ((g :: extra) ++ _) from hx.symm)
    obtain ⟨d, hd, hdop, hb⟩ := bounds_innermost hn (mem_nodes_of_started hs) hx.symm
    rw [hb] at hin hinp hdiff hpos
    have hmem := mem_iteration_pairs (d - 1) hinp houtp rfl
    refine ⟨_, ?_, hmem.1, ?_⟩
    · have hlast : (d : Int) - 1 = ((d - 1 : Nat) : Int) := by omega
      rw [loopEdges, if_neg (by simp [hc]), if_neg (by simp [hl]), if_pos ho, hdop, ok_bind,
        chunkSize_leaf htl, hdiff, ok_bind, hin, hout, hlast]
      exact everyIteration_paths ds inner outer (d - 1) hd hpos
    · intro a b
      have hat : a.coord.path.getLast? = some (d - 1) ↔
          ∃ i : Nat, a.coord.path.getLast? = some i ∧
            (.ok (d : Int) : Except Err Int) = .ok ((i : Int) + 1) := by
        constructor
        · intro h
          exact ⟨d - 1, h, congrArg Except.ok (by omega)⟩
        · rintro ⟨i, h, he⟩
          have := Except.ok.inj he
          rw [h]
          congr 1
          omega
      rw [hmem.2 a b, LoopJoined, if_neg (by simp [hc]), if_pos hlt, hin, hout, hdop, hat]

/-- The edges of a loop-aware link that enters a Loop. -/
theorem loopEdges_entering (hn : Nested lg) (hi : instantiate lg = .ok placed)
    (hs : s ∈ lg.graph.started) (ht : t ∈ lg.graph.started) (hsl : s.isLeaf = true)
    (htl : t.isLeaf = true) (hr : s.groups <:+ t.groups) (hlt : s.hLevel < t.hLevel)
    (hc : isCircle s t (dropsOf placed s.id) (dropsOf placed t.id) = false)
    (hl : isLocking s t = false)
    (ho : entersLoop s t loopAware = true) :
    ∃ edges,
      loopEdges lg s t (dropsOf placed s.id) (dropsOf placed t.id) loopAware = .ok edges ∧
      edges.Nodup ∧ ∀ a b, (a, b) ∈ edges ↔ a ∈ dropsOf placed s.id ∧
        b ∈ dropsOf placed t.id ∧ LoopJoined lg placed s t a b := by
  obtain ⟨extra, hx⟩ := hr
  cases extra with
  | nil =>
    rw [hLevel_leaf hsl, hLevel_leaf htl, ← hx] at hlt
    simp at hlt
  | cons g extra =>
    obtain ⟨ds, inner, outer, hin, hout, hinp, houtp⟩ := dropsOf_nested hi ht hs htl hsl hx.symm
    have hdiff := (dopDiff_nested hn (mem_nodes_of_started ht) htl hsl hx.symm).2
    have hpos := bounds_pos hn (mem_nodes_of_started ht)
        (show t.groups = [] ++ ((g :: extra) ++ _) from hx.symm)
    obtain ⟨d, hd, hdop, hb⟩ := bounds_innermost hn (mem_nodes_of_started ht) hx.symm
    rw [hb] at hin hinp hdiff hpos
    have hmem := mem_iteration_pairs 0 hinp houtp rfl
    have hleaves : leavesLoop s t loopAware = false := by
      have : ¬ t.hLevel < s.hLevel := by omega
      simp [leavesLoop, this]
    refine ⟨_, ?_, hmem.1.map Prod.swap_injective, ?_⟩
    · have hfirst := everyIteration_paths ds inner outer 0 hd hpos
      rw [loopEdges, if_neg (by simp [hc]), if_neg (by simp [hl]), if_neg (by simp [hleaves]),
        if_pos ho, hdop, ok_bind, chunkSize_leaf htl, hdiff, ok_bind, hin, hout]
      exact congrArg (· >>= fun r => pure (r.map Prod.swap)) hfirst
    · intro a b
      have hnot : ¬ t.hLevel < s.hLevel := by omega
      rw [LoopJoined, if_neg (by simp [hc]), if_neg hnot, hin, hout, and_left_comm,
        ← hmem.2 b a]
      simp [and_comm]

/-- The edges of a link the Loop handler owns between nested leaves are the pairs of drops whose
coordinates are in the iterations the link is about, each once; nothing is out of range. -/
theorem loopEdges_eq_joined (loopAware : Bool) (hn : Nested lg) (hi : instantiate lg = .ok placed)
    (hs : s ∈ lg.graph.started) (ht : t ∈ lg.graph.started)
    (hsl : s.isLeaf = true) (htl : t.isLeaf = true)
    (hr : t.groups <:+ s.groups ∨ s.groups <:+ t.groups)
    (ho : loopOwned s t (dropsOf placed s.id) (dropsOf placed t.id) loopAware = true) :
    ∃ edges,
      loopEdges lg s t (dropsOf placed s.id) (dropsOf placed t.id) loopAware = .ok edges ∧
      edges.Nodup ∧ ∀ a b, (a, b) ∈ edges ↔ a ∈ dropsOf placed s.id ∧
        b ∈ dropsOf placed t.id ∧ LoopJoined lg placed s t a b := by
  have hlocking : isLocking s t = false := by simp [isLocking, hRelated_of_suffix hr]
  by_cases hc : isCircle s t (dropsOf placed s.id) (dropsOf placed t.id) = true
  · exact loopEdges_circle hn hi hs ht hsl htl (groups_of_circle hn hs ht hr hc) hc
  · simp only [Bool.not_eq_true] at hc
    simp only [loopOwned, hc, hlocking, Bool.false_or, Bool.or_eq_true] at ho
    have hls := hLevel_leaf hsl
    have hlt := hLevel_leaf htl
    rcases ho with ho | ho
    · have hlv : t.hLevel < s.hLevel := by
        simp [leavesLoop] at ho
        exact ho.2
      refine loopEdges_leaving hn hi hs ht hsl htl ?_ hlv hc hlocking ho
      rcases hr with hr | hr
      · exact hr
      · have := hr.length_le
        omega
    · have hlv : s.hLevel < t.hLevel := by
        simp [entersLoop] at ho
        exact ho.2
      refine loopEdges_entering hn hi hs ht hsl htl ?_ hlv hc hlocking ho
      rcases hr with hr | hr
      · have := hr.length_le
        omega
      · exact hr

/-- A Loop of two in a Scatter of two: an application that ends the iteration, data that start the
next one, and data beside the Loop. -/
def iteratedLoop : LogicalGraph where
  sessionId := "s"
  forest :=
    .cons { id := .int 2, category := .scatter, categoryType := .construct, isGroup := true
            keys := [("num_of_copies", .int 2)] }
      (.cons { id := .int 3, category := .loop, categoryType := .construct, isGroup := true
               keys := [("num_of_iter", .int 2)] }
        (.cons { id := .int 4, category := .pythonApp, categoryType := .application
                 keys := [("group_end", .bool true)] } .nil
          (.cons { id := .int 5, category := .file, categoryType := .data
                   keys := [("group_start", .bool true)] } .nil .nil))
        (.cons { id := .int 6, category := .file, categoryType := .data } .nil .nil)) .nil
  links := [{ source := .int 4, target := .int 5 }, { source := .int 4, target := .int 6 }]
  ids_nodup := by decide
  ids_ne_newAdded := by decide

def iteratedLG : LG where
  graph := iteratedLoop
  inputs := [(.int 5, .int 4), (.int 6, .int 4)]
  links := iteratedLoop.links
  loopAwareSet := ["4-6"]

theorem nested_iteratedLG : Nested iteratedLG where
  around := by decide
  groups := by decide
  dop n hn hg := by
    have hd : ∀ n ∈ iteratedLG.graph.nodes, n.isGroup = true →
        iteratedLG.graph.dop iteratedLG.inputs n = .ok 2 := by decide
    exact ⟨2, hd n hn hg, by decide⟩
  ids := by decide

theorem loopEdges_iteratedLG : ∃ placed circle leaving s t u,
    instantiate iteratedLG = .ok placed ∧ s ∈ iteratedLoop.started ∧ t ∈ iteratedLoop.started ∧
    u ∈ iteratedLoop.started ∧
    loopEdges iteratedLG s t (dropsOf placed s.id) (dropsOf placed t.id) false =
      .ok circle ∧ circle.Nodup ∧
    loopEdges iteratedLG s u (dropsOf placed s.id) (dropsOf placed u.id) true =
      .ok leaving ∧ leaving.Nodup := by
  obtain ⟨placed, hp⟩ : ∃ placed, instantiate iteratedLG = .ok placed := ⟨_, rfl⟩
  -- no node has fields that its drops could rewrite
  have howned : ∀ sources targets, loopOwned iteratedLoop.started[2] iteratedLoop.started[3]
      sources targets false = true := by
    intro sources targets
    rw [loopOwned, isCircle, LGNode.rewrittenIf_of_fields _ rfl, LGNode.rewrittenIf_of_fields _ rfl]
    decide
  have hleaves : ∀ sources targets, loopOwned iteratedLoop.started[2] iteratedLoop.started[4]
      sources targets true = true := by
    intro sources targets
    rw [loopOwned, isCircle, LGNode.rewrittenIf_of_fields _ rfl, LGNode.rewrittenIf_of_fields _ rfl]
    decide
  obtain ⟨circle, hc, hcn, -⟩ := loopEdges_eq_joined false nested_iteratedLG hp
    (s := iteratedLoop.started[2]) (t := iteratedLoop.started[3])
    (by decide) (by decide) (by decide) (by decide) (by decide) (howned _ _)
  obtain ⟨leaving, hl, hln, -⟩ := loopEdges_eq_joined true nested_iteratedLG hp
    (s := iteratedLoop.started[2]) (t := iteratedLoop.started[4])
    (by decide) (by decide) (by decide) (by decide) (by decide) (hleaves _ _)
  exact ⟨placed, circle, leaving, _, _, _, hp, by decide, by decide, by decide, hc, hcn, hl, hln⟩

end Daliuge.Unroll
