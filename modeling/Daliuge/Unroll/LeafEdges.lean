import Daliuge.Unroll.Layout
import Daliuge.Unroll.Wire

/-!
# Leaf to leaf

Leaves are wired by cutting the longer drop list into pieces and giving the i-th piece to the
i-th drop of the shorter one. Coordinates say the same: a drop is joined to those it is inside
of, or that are inside of it.
-/
namespace Daliuge.Unroll

open Enumeration Collect

/-- A component: neither a group nor a construct with a wiring rule of its own. -/
def LGNode.isLeaf (n : LGNode) : Bool :=
  !n.isGroup && !n.isConstruct .mpi && !n.isConstruct .service && !n.isConstruct .gather &&
    !n.isConstruct .groupBy

/-- Graphs whose groups are Scatters, Loops and GroupBys with at least one instance each; no
id is the 0 that stands for no group. -/
structure Nested (lg : LG) : Prop where
  around : ∀ n ∈ lg.graph.nodes, ∀ g ∈ n.groups, g.isGroup = true
  groups : ∀ n ∈ lg.graph.nodes, n.isGroup = true →
    n.node.category = .scatter ∨ n.node.category = .loop ∨ n.node.category = .groupBy
  dop : ∀ n ∈ lg.graph.nodes, n.isGroup = true →
    ∃ d, lg.graph.dop lg.inputs n = .ok d ∧ 1 ≤ d
  ids : ∀ n ∈ lg.graph.nodes, n.id ≠ .int 0

variable {lg : LG} {n m s t : LGNode} {placed : List Placed} {groups down : List Node}

theorem pairChunks_map {α β γ : Type} {f : γ → List α} {g : γ → β} {l : List γ} :
    pairChunks (l.map f) (l.map g) = .ok (l.flatMap fun c => (f c).map (·, g c)) := by
  induction l with
  | nil => rfl
  | cons c l ih =>
    cases hf : f c with
    | nil => simp [pairChunks, ih, hf, bind, Except.bind, pure, Except.pure]
    | cons a as => simp [pairChunks, ih, hf, bind, Except.bind, pure, Except.pure]

theorem copies_of_dop {d : Int} (h : lg.graph.dop lg.inputs n = .ok d) : lg.copies n = d.toNat :=
  congrArg Int.toNat (toOption_getD_ok h)

/-- `dop_diff` multiplies the dops of the groups the outer node is not in. -/
theorem dopLoop_eq (hl : Nested lg) (hm : m ∈ lg.graph.nodes) {extra outer : List Node}
    {cg : Node} {xs : List Node} (h : m.groups = xs ++ (extra ++ outer))
    (hc : cg.isConstruct .mpi = false) :
    dopLoop (lg.graph.dop lg.inputs) (⟨cg, outer⟩ : LGNode).gid cg (extra ++ outer) =
      .ok ((bounds lg outer extra.reverse).prod : Int) := by
  induction extra generalizing cg xs with
  | nil =>
    cases outer with
    | nil => simp [dopLoop, hc, bounds]
    | cons g gs => simp [dopLoop, hc, bounds, LGNode.gid]
  | cons g extra ih =>
    have hgm : (⟨g, extra ++ outer⟩ : LGNode) ∈ lg.graph.nodes :=
      mem_nodes_of_groups hm (by simpa using h) List.nil_suffix
    have hg : g.isGroup = true := hl.around m hm g (by simp [h])
    obtain ⟨d, hd, hpos⟩ := hl.dop _ hgm hg
    have hmpi : g.isConstruct .mpi = false := by
      rcases hl.groups _ hgm hg with hk | hk | hk <;>
        exact (by simpa [Node.isConstruct] using congrArg (· == Category.mpi) hk)
    have hne : (g.id != (⟨cg, outer⟩ : LGNode).gid) = true := by
      cases outer with
      | nil => simpa [LGNode.gid] using hl.ids _ hgm
      | cons o os =>
        have ho : m.groups = xs ++ g :: (extra ++ o :: os) := by simpa using h
        simpa [LGNode.gid] using id_ne_of_groups hm ho
    have hx : m.groups = (xs ++ [g]) ++ (extra ++ outer) := by simpa using h
    have hrest := ih hx hmpi
    have hgid : (⟨g, outer⟩ : LGNode).gid = (⟨cg, outer⟩ : LGNode).gid := by
      cases outer <;> rfl
    rw [hgid] at hrest
    have hb : bounds lg outer (g :: extra).reverse =
        bounds lg outer extra.reverse ++ [d.toNat] := by
      rw [List.reverse_cons, bounds_append]
      simp [bounds, hg, copies_of_dop hd]
    simp only [List.cons_append, dopLoop, hne, hc, Bool.or_false, if_true, hrest, hd, hb,
      bind, Except.bind, pure, Except.pure]
    have hcast : ((d.toNat : Nat) : Int) = d := Int.toNat_of_nonneg (by omega)
    simp [hcast, Int.mul_comm]

/-- The drops of a leaf, one for each index tuple of the groups around it, with the coordinate and
the loop context of that place. -/
theorem dropsOf_leaf_at (hi : instantiate lg = .ok placed) (hm : m ∈ lg.graph.started)
    (hl : m.isLeaf = true) :
    ∃ drop : List Nat → Drop,
      dropsOf placed m.id = (paths (bounds lg [] m.groups.reverse)).map drop ∧
      ∀ is ∈ paths (bounds lg [] m.groups.reverse),
        (drop is).coord = (descend lg [] (.root, none) m.groups.reverse is).1 ∧
        (drop is).loopCtx = (descend lg [] (.root, none) m.groups.reverse is).2 := by
  have hg : m.isGroup = false := by
    simp [LGNode.isLeaf] at hl
    simp [hl]
  have hd : m.groups = m.groups.reverse.reverse ++ [] := by simp
  have hids := distinctIds_started lg.graph
  have hp := lgnToPgn_eq_layout (b := (.root, none)) hi
  have hown : ∀ is ∈ paths (bounds lg [] m.groups.reverse), ∃ d : Drop,
      (((ownPlaced lg m (descend lg [] (.root, none) m.groups.reverse is)).filter
        fun p => p.key == m.id).map (·.drop)) = [d] ∧
          d.coord = (descend lg [] (.root, none) m.groups.reverse is).1 ∧
          d.loopCtx = (descend lg [] (.root, none) m.groups.reverse is).2 := by
    intro is his
    obtain ⟨r, hr⟩ := leafDrops_ok (b := (.root, none)) hi hm hd hg his
    have hplaced : ownPlaced lg m (descend lg [] (.root, none) m.groups.reverse is) = r := by
      simp only [ownPlaced, hg, leafPlaced]
      exact toOption_getD_ok hr
    unfold leafDrops at hr
    simp [LGNode.isLeaf] at hl
    simp only [hl.1.1.1.2, hl.1.1.2] at hr
    obtain ⟨made, hmade, hr⟩ := bind_ok.mp hr
    obtain ⟨hf, hctx⟩ := makeSingleDrop_from hmade
    have hne : newAdded ≠ m.id := (hids.ne_newAdded m hm).symm
    refine ⟨made.drop, ?_, by simp [Drop.coord, hf.main.ident], hctx⟩
    rw [hplaced]
    split at hr <;> obtain rfl := pure_ok.mp hr
    · simp [Made.place]
    · cases hlis : made.listener <;> simp [Made.place, hne]
  choose! drop hdrop using hown
  refine ⟨drop, ?_, fun is his => (hdrop is his).2⟩
  rw [dropsOf, hp, filter_layout hids hm hd, List.map_flatMap, List.map_eq_flatMap]
  exact List.flatMap_congr fun is his => (hdrop is his).1

theorem dropsOf_leaf (hi : instantiate lg = .ok placed) (hm : m ∈ lg.graph.started)
    (hl : m.isLeaf = true) :
    ∃ drop : List Nat → Drop,
      dropsOf placed m.id = (paths (bounds lg [] m.groups.reverse)).map drop ∧
      ∀ is ∈ paths (bounds lg [] m.groups.reverse), (drop is).coord.path = 0 :: is := by
  obtain ⟨drop, hd, hp⟩ := dropsOf_leaf_at hi hm hl
  refine ⟨drop, hd, fun is his => ?_⟩
  rw [(hp is his).1, path_descend (by rw [length_of_mem_paths his, length_bounds])]
  rfl

theorem hLevel_leaf (hl : n.isLeaf = true) : n.hLevel = n.groups.length := by
  simp [LGNode.isLeaf] at hl
  simp [LGNode.hLevel, hl]

/-- `dop_diff` of two leaves, the first one inside all the groups of the second. -/
theorem dopDiff_nested (hn : Nested lg) {deep shallow : LGNode} {extra : List Node}
    (hm : deep ∈ lg.graph.nodes) (hd : deep.isLeaf = true) (hs : shallow.isLeaf = true)
    (h : deep.groups = extra ++ shallow.groups) :
    dopDiff (lg.graph.dop lg.inputs) deep shallow =
        .ok ((bounds lg shallow.groups extra.reverse).prod : Int) ∧
      dopDiff (lg.graph.dop lg.inputs) shallow deep =
        .ok ((bounds lg shallow.groups extra.reverse).prod : Int) := by
  have hld := hLevel_leaf hd
  have hls := hLevel_leaf hs
  have hlen : deep.groups.length = extra.length + shallow.groups.length := by simp [h]
  have hmpi : deep.node.isConstruct .mpi = false := by
    simp [LGNode.isLeaf, LGNode.isConstruct] at hd
    simp [hd]
  cases extra with
  | nil => simp [dopDiff, hld, hls, h, bounds]
  | cons g extra =>
    have hx : deep.groups = [] ++ ((g :: extra) ++ shallow.groups) := h
    have hloop := dopLoop_eq hn hm hx hmpi
    have hgid : (⟨deep.node, shallow.groups⟩ : LGNode).gid = shallow.gid := by
      cases hg : shallow.groups <;> simp [LGNode.gid, hg]
    rw [hgid, ← h] at hloop
    have hgt : shallow.hLevel < deep.hLevel := by
      simp at hlen
      omega
    constructor
    · unfold dopDiff
      rw [if_neg (by omega), if_pos hgt, hloop]
    · unfold dopDiff
      rw [if_neg (by omega), if_neg (by omega), hloop]

theorem splitList_flatMap {α β : Type} {l : List β} {f : β → List α} {k : Nat} (hk : 0 < k)
    (h : ∀ b ∈ l, (f b).length = k) : splitList (l.flatMap f) k = .ok (l.map f) := by
  have hlen : l.length ≤ (l.flatMap f).length := by
    rw [List.length_flatMap, List.map_congr_left h]
    simpa using Nat.le_mul_of_pos_right l.length hk
  have h0 : (k : Int) ≠ 0 := by omega
  have hneg : ¬ (k : Int) < 0 := by omega
  rw [splitList, if_neg h0, if_neg hneg, Int.toNat_natCast, chunks_flatMap hk h hlen]

theorem bounds_pos (hn : Nested lg) (hm : m ∈ lg.graph.nodes) {extra outer xs : List Node}
    (h : m.groups = xs ++ (extra ++ outer)) : 0 < (bounds lg outer extra.reverse).prod := by
  induction extra generalizing xs with
  | nil => simp [bounds]
  | cons g extra ih =>
    have hx : m.groups = (xs ++ [g]) ++ (extra ++ outer) := by simpa using h
    have hgm : (⟨g, extra ++ outer⟩ : LGNode) ∈ lg.graph.nodes :=
      mem_nodes_of_groups hm (by simpa using h) List.nil_suffix
    have hg : g.isGroup = true := hn.around m hm g (by simp [h])
    obtain ⟨d, hd, hpos⟩ := hn.dop _ hgm hg
    rw [List.reverse_cons, bounds_append, List.prod_append]
    refine Nat.mul_pos (ih hx) ?_
    simp only [bounds, hg, if_true, List.reverse_reverse, copies_of_dop hd, List.prod_cons,
      List.prod_nil]
    omega

/-- Pieces of the inner drops, one for each of the outer ones. -/
theorem pairChunks_nested (ds : List Nat) {es : List Nat} (inner outer : List Nat → Drop)
    (h : 0 < es.prod) :
    (splitList ((paths (ds ++ es)).map inner) (es.prod : Nat) >>= fun pieces =>
      pairChunks pieces ((paths ds).map outer)) =
      .ok ((paths (ds ++ es)).map fun is => (inner is, outer (is.take ds.length))) := by
  have hsplit : splitList ((paths (ds ++ es)).map inner) (es.prod : Nat) =
      .ok ((paths ds).map fun p => (paths es).map fun q => inner (p ++ q)) := by
    rw [paths_append, List.map_flatMap]
    simp only [List.map_map, Function.comp_def]
    exact splitList_flatMap h fun p _ => by simp
  rw [hsplit]
  simp only [bind, Except.bind]
  rw [pairChunks_map, paths_append, List.map_flatMap]
  refine congrArg Except.ok (List.flatMap_congr fun p hp => ?_)
  simp only [List.map_map, Function.comp_def, ← length_of_mem_paths hp, List.take_left]

/-- The pairs of drops of which one is inside the other, each once. -/
def PrefixPairs (deep shallow : List Drop) (pairs : List (Drop × Drop)) : Prop :=
  pairs.Nodup ∧ ∀ a b, (a, b) ∈ pairs ↔
    a ∈ deep ∧ b ∈ shallow ∧ b.coord.path <+: a.coord.path

theorem prefixPairs_paths {ds es : List Nat} {inner outer : List Nat → Drop}
    (hi : ∀ is ∈ paths (ds ++ es), (inner is).coord.path = 0 :: is)
    (ho : ∀ is ∈ paths ds, (outer is).coord.path = 0 :: is) :
    PrefixPairs ((paths (ds ++ es)).map inner) ((paths ds).map outer)
      ((paths (ds ++ es)).map fun is => (inner is, outer (is.take ds.length))) := by
  constructor
  · refine nodup_paths.map_on fun is his js hjs h => ?_
    have hp := congrArg (fun e : Drop × Drop => e.1.coord.path) h
    simpa [hi is his, hi js hjs] using hp
  · intro a b
    constructor
    · intro h
      obtain ⟨is, his, he⟩ := List.mem_map.mp h
      obtain ⟨q, hq, r, hr, rfl⟩ := mem_paths_append.mp his
      have hlen := length_of_mem_paths hq
      rw [← hlen, List.take_left] at he
      obtain ⟨rfl, rfl⟩ := Prod.mk.inj he
      refine ⟨List.mem_map.mpr ⟨_, his, rfl⟩, List.mem_map.mpr ⟨q, hq, rfl⟩, ?_⟩
      rw [hi _ his, ho q hq]
      exact ⟨r, rfl⟩
    · rintro ⟨ha, hb, hab⟩
      obtain ⟨is, his, rfl⟩ := List.mem_map.mp ha
      obtain ⟨q, hq, rfl⟩ := List.mem_map.mp hb
      rw [hi is his, ho q hq] at hab
      refine List.mem_map.mpr ⟨is, his, ?_⟩
      obtain ⟨r, hr⟩ := hab
      obtain rfl : q ++ r = is := by simpa using hr
      rw [← length_of_mem_paths hq, List.take_left]

/-- The two drop lists of nested leaves as enumerations, the inner one refining the outer. -/
theorem dropsOf_nested (hi : instantiate lg = .ok placed) {deep shallow : LGNode}
    {extra : List Node} (hd : deep ∈ lg.graph.started) (hs : shallow ∈ lg.graph.started)
    (hdl : deep.isLeaf = true) (hsl : shallow.isLeaf = true)
    (h : deep.groups = extra ++ shallow.groups) :
    ∃ ds, ∃ inner outer : List Nat → Drop,
      dropsOf placed deep.id =
        (paths (ds ++ bounds lg shallow.groups extra.reverse)).map inner ∧
      dropsOf placed shallow.id = (paths ds).map outer ∧
      (∀ is ∈ paths (ds ++ bounds lg shallow.groups extra.reverse),
        (inner is).coord.path = 0 :: is) ∧
      ∀ is ∈ paths ds, (outer is).coord.path = 0 :: is := by
  obtain ⟨inner, hin, hinp⟩ := dropsOf_leaf hi hd hdl
  obtain ⟨outer, hout, houtp⟩ := dropsOf_leaf hi hs hsl
  have hb : bounds lg [] deep.groups.reverse = bounds lg [] shallow.groups.reverse ++
      bounds lg shallow.groups extra.reverse := by
    rw [h, List.reverse_append, bounds_append]
    simp
  rw [hb] at hin hinp
  exact ⟨_, inner, outer, hin, hout, hinp, houtp⟩

theorem chunkSize_leaf (ht : t.isLeaf = true) :
    chunkSize lg s t = dopDiff (lg.graph.dop lg.inputs) s t := by
  simp [LGNode.isLeaf] at ht
  simp [chunkSize, ht]

/-- Wiring leaves by list index is wiring them by coordinates: every pair of drops of which the
shallower one's path is a prefix of the deeper one's is joined once, and nothing else. -/
theorem leafEdges_eq_prefix_pairs (hn : Nested lg) (hi : instantiate lg = .ok placed)
    (hs : s ∈ lg.graph.started) (ht : t ∈ lg.graph.started)
    (hsl : s.isLeaf = true) (htl : t.isLeaf = true) (hst : s.node.isStartNode = false)
    (hr : t.groups <:+ s.groups ∨ s.groups <:+ t.groups) :
    ∃ edges, leafEdges lg s t (dropsOf placed s.id) (dropsOf placed t.id) = .ok edges ∧
      edges.Nodup ∧ ∀ a b, (a, b) ∈ edges ↔
        a ∈ dropsOf placed s.id ∧ b ∈ dropsOf placed t.id ∧
          if t.hLevel ≤ s.hLevel then b.coord.path <+: a.coord.path
          else a.coord.path <+: b.coord.path := by
  have hls := hLevel_leaf hsl
  have hlt := hLevel_leaf htl
  unfold leafEdges
  rw [if_neg (by simp [hst]), chunkSize_leaf htl]
  by_cases hle : t.hLevel ≤ s.hLevel
  · -- the source is the deeper one
    obtain ⟨extra, hx⟩ : t.groups <:+ s.groups := by
      rcases hr with hr | hr
      · exact hr
      · rw [hr.eq_of_length (by have := hr.length_le; omega)]
    obtain ⟨ds, inner, outer, hin, hout, hinp, houtp⟩ := dropsOf_nested hi hs ht hsl htl hx.symm
    have hd := (dopDiff_nested hn (mem_nodes_of_started hs) hsl htl hx.symm).1
    have hpos := bounds_pos hn (mem_nodes_of_started hs) (show s.groups = [] ++ _ from hx.symm)
    have hpairs := prefixPairs_paths hinp houtp
    rw [hin, hout, hd]
    refine ⟨_, ?_, hpairs.1, ?_⟩
    · simp only [hle, if_true]
      exact pairChunks_nested ds inner outer hpos
    · simpa [hle] using hpairs.2
  · -- the target is the deeper one
    obtain ⟨extra, hx⟩ : s.groups <:+ t.groups := by
      rcases hr with hr | hr
      · have := hr.length_le
        omega
      · exact hr
    obtain ⟨ds, inner, outer, hin, hout, hinp, houtp⟩ := dropsOf_nested hi ht hs htl hsl hx.symm
    have hd := (dopDiff_nested hn (mem_nodes_of_started ht) htl hsl hx.symm).2
    have hpos := bounds_pos hn (mem_nodes_of_started ht) (show t.groups = [] ++ _ from hx.symm)
    have hpairs := prefixPairs_paths hinp houtp
    rw [hin, hout, hd]
    refine ⟨_, ?_, hpairs.1.map Prod.swap_injective, ?_⟩
    · obtain ⟨pieces, hsplit, hp⟩ := bind_ok.mp (pairChunks_nested ds inner outer hpos)
      simp only [hle, if_false, bind, Except.bind, hsplit, hp, pure, Except.pure]
    · intro a b
      simp only [hle, if_false]
      rw [and_left_comm, ← hpairs.2 b a]
      simp [and_comm]

/-- An application outside a Scatter of two with a Loop of two in it, and data in the Loop. -/
def scatteredLoop : LogicalGraph where
  sessionId := "s"
  forest :=
    .cons { id := .int 1, category := .pythonApp, categoryType := .application } .nil
      (.cons { id := .int 2, category := .scatter, categoryType := .construct, isGroup := true
               keys := [("num_of_copies", .int 2)] }
        (.cons { id := .int 3, category := .loop, categoryType := .construct, isGroup := true
                 keys := [("num_of_iter", .int 2)] }
          (.cons { id := .int 4, category := .file, categoryType := .data } .nil .nil) .nil) .nil)
  links := [{ source := .int 1, target := .int 4 }]
  ids_nodup := by decide
  ids_ne_newAdded := by decide

def scatteredLG : LG where
  graph := scatteredLoop
  inputs := [(.int 4, .int 1)]
  links := scatteredLoop.links
  loopAwareSet := []

theorem nested_scatteredLG : Nested scatteredLG where
  around := by decide
  groups := by decide
  dop n hn hg := by
    have hd : ∀ n ∈ scatteredLG.graph.nodes, n.isGroup = true →
        scatteredLG.graph.dop scatteredLG.inputs n = .ok 2 := by decide
    exact ⟨2, hd n hn hg, by decide⟩
  ids := by decide

theorem leafEdges_scatteredLG : ∃ placed edges s t,
    instantiate scatteredLG = .ok placed ∧ s ∈ scatteredLoop.started ∧ t ∈ scatteredLoop.started ∧
    leafEdges scatteredLG s t (dropsOf placed s.id) (dropsOf placed t.id) = .ok edges ∧
    edges.Nodup := by
  obtain ⟨placed, hp⟩ : ∃ placed, instantiate scatteredLG = .ok placed := ⟨_, rfl⟩
  obtain ⟨edges, he, hn, -⟩ := leafEdges_eq_prefix_pairs nested_scatteredLG hp
    (s := scatteredLoop.started[0]) (t := scatteredLoop.started[3])
    (by decide) (by decide) (by decide) (by decide) (by decide) (by decide)
  exact ⟨placed, edges, _, _, hp, by decide, by decide, he, hn⟩

end Daliuge.Unroll
