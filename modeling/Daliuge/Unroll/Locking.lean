import Mathlib.Data.List.TakeWhile
import Daliuge.Unroll.Admission
import Daliuge.Unroll.LoopEdges

/-!
# Loops locked to each other

A link between two unrelated Loops joins drops whose loop contexts agree. The context of a drop
holds its indices in the run of Loops directly around it and nothing of the groups beyond.
-/
namespace Daliuge.Unroll

open Enumeration Collect

variable {lg : LG} {n m s t : LGNode} {placed : List Placed} {groups down down' : List Node}
  {b : Place} {sources targets : List Drop}

/-- The Loops directly around a node, the innermost first. -/
def LGNode.loopRun (n : LGNode) : List Node := n.groups.takeWhile (·.isConstruct .loop)

/-- The groups around a node beyond those Loops. -/
def LGNode.beyond (n : LGNode) : List Node := n.groups.dropWhile (·.isConstruct .loop)

/-- How many instances each group around a node has, from the outside. -/
def sizes (lg : LG) (n : LGNode) : List Nat := bounds lg [] n.groups.reverse

/-- The k-th group from the outside encloses both nodes. -/
def Encloses (s t : LGNode) (k : Nat) : Prop :=
  ∃ g, s.groups.reverse[k]? = some g ∧ t.groups.reverse[k]? = some g

/-- Every target gets one source, and an edge joins drops that are in the same iteration of their
innermost groups and have the same index in every group around both. -/
def Stepwise (s t : LGNode) (targets : List Drop) (edges : List (Drop × Drop)) : Prop :=
  (∀ b ∈ targets, ∃! a, (a, b) ∈ edges) ∧
    ∀ a b, (a, b) ∈ edges → a.coord.path.getLast? = b.coord.path.getLast? ∧
      ∀ k, Encloses s t k → a.coord.path[k + 1]? = b.coord.path[k + 1]?

/-- What the group chains of two nodes have to be for their loop contexts to identify the
instances. -/
structure InLockstep (lg : LG) (s t : LGNode) : Prop where
  runs : s.loopRun.length = t.loopRun.length
  single : ∀ d ∈ bounds lg [] s.beyond.reverse, d = 1
  level : s.groups.length = t.groups.length ∨ ∀ k, Encloses s t k → (sizes lg s)[k]? = some 1

/-! The context of a place. -/

/-- Loops add their indices to the context. -/
theorem loopCtx_descend {is : List Nat} (hd : ∀ g ∈ down, g.isConstruct .loop = true)
    (h : is.length = down.length) (hne : down ≠ []) :
    (descend lg groups b down is).2 = some (b.2.getD [] ++ is) := by
  induction down generalizing groups b is with
  | nil => exact absurd rfl hne
  | cons g down ih =>
    cases is with
    | nil => simp at h
    | cons i is =>
      have hg := hd g (by simp)
      by_cases hdown : down = []
      · obtain rfl := hdown
        obtain rfl : is = [] := by simpa using h
        simp [descend, enter, getChildLpCtx, hg]
      · rw [descend, ih (fun g' hg' => hd g' (by simp [hg'])) (by simpa using h) hdown]
        simp [enter, getChildLpCtx, hg]

/-- A group that is not a Loop forgets it. -/
theorem loopCtx_forgotten {g : Node} {is : List Nat} (hg : g.isConstruct .loop = false)
    (h : is.length = (down ++ [g]).length) : (descend lg groups b (down ++ [g]) is).2 = none := by
  obtain ⟨is, i, rfl⟩ : ∃ js i, is = js ++ [i] := by
    refine ⟨is.dropLast, is.getLast ?_, (List.dropLast_append_getLast ?_).symm⟩ <;>
      · intro he
        simp [he] at h
  rw [descend_append (by simpa using h)]
  simp [descend, enter, getChildLpCtx, hg]

theorem groups_eq (n : LGNode) : n.groups = n.loopRun ++ n.beyond :=
  List.takeWhile_append_dropWhile.symm

theorem isLoop_of_mem_loopRun {g : Node} (h : g ∈ n.loopRun) : g.isConstruct .loop = true :=
  List.mem_takeWhile_imp (p := fun g : Node => g.isConstruct .loop) h

theorem loopRun_ne_nil (h : n.inLoop = true) : n.loopRun ≠ [] := by
  cases hg : n.groups with
  | nil => simp [LGNode.inLoop, hg] at h
  | cons g gs =>
    have : g.isConstruct .loop = true := by simpa [LGNode.inLoop, hg] using h
    simp [LGNode.loopRun, hg, this]

/-- The bounds of a node's drops: those of the groups beyond the Loops, then those of the Loops. -/
theorem sizes_eq (lg : LG) (n : LGNode) :
    sizes lg n = bounds lg [] n.beyond.reverse ++ bounds lg n.beyond n.loopRun.reverse := by
  have h := congrArg List.reverse (groups_eq n)
  rw [List.reverse_append] at h
  rw [sizes, h, bounds_append]
  simp

/-- The context at a place is the part of its index tuple that belongs to the run of Loops. -/
theorem loopCtx_place (h : n.inLoop = true) {u w : List Nat}
    (hu : u.length = n.beyond.length) (hw : w.length = n.loopRun.length) :
    (descend lg [] (.root, none) n.groups.reverse (u ++ w)).2 = some w := by
  have hg := congrArg List.reverse (groups_eq n)
  rw [List.reverse_append] at hg
  have hbeyond : (descend lg [] (.root, none) n.beyond.reverse u).2 = none := by
    cases hb : n.beyond with
    | nil =>
      obtain rfl : u = [] := by simpa [hb] using hu
      rfl
    | cons g gs =>
      have hg : g.isConstruct .loop = false := by
        have := List.head?_dropWhile_not (·.isConstruct .loop) n.groups
        rw [← LGNode.beyond, hb] at this
        simpa using this
      rw [List.reverse_cons]
      exact loopCtx_forgotten hg (by simp [hu, hb])
  rw [hg, descend_append (by simpa using hu), loopCtx_descend, hbeyond]
  · rfl
  · intro g hg
    exact isLoop_of_mem_loopRun (List.mem_reverse.mp hg)
  · simpa using hw
  · simpa using loopRun_ne_nil h

/-! Two chains of groups. -/

theorem bounds_synchronised {i : Inputs} {ss ts os ot : List Node}
    (hs : ∀ g ∈ ss, g.isConstruct .loop = true) (ht : ∀ g ∈ ts, g.isConstruct .loop = true)
    (hlen : ss.length = ts.length)
    (h : loopsSynchronised lg.graph i (ss ++ os) (ts ++ ot) = .ok ()) :
    bounds lg os ss.reverse = bounds lg ot ts.reverse := by
  rw [loopsSynchronised_eq (g := lg.graph) (i := lg.inputs)] at h
  induction ss generalizing ts with
  | nil =>
    obtain rfl : ts = [] := by simpa using hlen.symm
    rfl
  | cons g ss ih =>
    cases ts with
    | nil => simp at hlen
    | cons g' ts =>
      have hg := hs g (by simp)
      have hg' := ht g' (by simp)
      simp only [List.cons_append, loopsSynchronised, hg, hg', Bool.and_self, if_true] at h
      obtain ⟨d, hd, h⟩ := bind_ok.mp h
      obtain ⟨d', hd', h⟩ := bind_ok.mp h
      by_cases hne : d = d'
      · simp only [hne, ne_eq, not_true, if_false] at h
        have hrest := ih (fun k hk => hs k (by simp [hk])) (fun k hk => ht k (by simp [hk]))
          (by simpa using hlen) h
        have hgg : g.isGroup = true := by
          simp [Node.isConstruct] at hg
          exact hg.1
        have hgg' : g'.isGroup = true := by
          simp [Node.isConstruct] at hg'
          exact hg'.1
        rw [List.reverse_cons, List.reverse_cons, bounds_append, bounds_append, hrest]
        simp [bounds, hgg, hgg', copies_of_dop hd, copies_of_dop hd', hne]
      · simp [hne] at h

theorem take_bounds (lg : LG) (groups down : List Node) (k : Nat) :
    (bounds lg groups down).take k = bounds lg groups (down.take k) := by
  induction down generalizing groups k with
  | nil => simp [bounds]
  | cons g down ih =>
    cases k with
    | zero => rfl
    | succ k => simp [bounds, ih]

theorem length_sizes (lg : LG) (n : LGNode) : (sizes lg n).length = n.groups.length := by
  rw [sizes, length_bounds, List.length_reverse]

/-- A group around two nodes has the same groups around it. -/
theorem take_of_encloses {k : Nat} (hs : s ∈ lg.graph.nodes) (ht : t ∈ lg.graph.nodes)
    (h : Encloses s t k) :
    s.groups.reverse.take (k + 1) = t.groups.reverse.take (k + 1) := by
  obtain ⟨g, hsg, htg⟩ := h
  -- the chain down to the k-th group, and that group in its own place
  have hchain : ∀ m ∈ lg.graph.nodes, m.groups.reverse[k]? = some g →
      ∃ gs, (⟨g, gs⟩ : LGNode) ∈ lg.graph.nodes ∧
        m.groups.reverse.take (k + 1) = (g :: gs).reverse := by
    intro m hm hk
    have hlt := (List.getElem?_eq_some_iff.mp hk).1
    have hsplit := List.take_append_drop (k + 1) m.groups.reverse
    rw [List.take_add_one, hk] at hsplit
    have hg := congrArg List.reverse hsplit
    simp only [Option.toList, List.reverse_append, List.reverse_reverse, List.reverse_cons,
      List.singleton_append, List.append_assoc] at hg
    refine ⟨(m.groups.reverse.take k).reverse, mem_nodes_of_groups hm hg.symm List.nil_suffix, ?_⟩
    simp [List.take_add_one, hk]
  obtain ⟨gs, hgs, hst⟩ := hchain s hs hsg
  obtain ⟨gs', hgs', htt⟩ := hchain t ht htg
  have he := eq_of_id hgs hgs' rfl
  rw [hst, htt, (LGNode.mk.inj he).2]

theorem sizes_of_encloses {k : Nat} (hs : s ∈ lg.graph.nodes) (ht : t ∈ lg.graph.nodes)
    (h : Encloses s t k) : (sizes lg s)[k]? = (sizes lg t)[k]? := by
  have htake := take_of_encloses hs ht h
  have hat : ∀ n : LGNode, (sizes lg n)[k]? =
      (bounds lg [] (n.groups.reverse.take (k + 1)))[k]? := by
    intro n
    rw [← take_bounds, List.getElem?_take_of_lt (by omega)]
    rfl
  rw [hat, hat, htake]

/-- Where one node has more groups beyond its Loops, the groups it shares are among them. -/
theorem lt_of_encloses {k : Nat} (hs : s ∈ lg.graph.nodes) (ht : t ∈ lg.graph.nodes)
    (h : Encloses s t k) (hlt : s.beyond.length < t.beyond.length) : k < t.beyond.length := by
  by_contra hk
  have htake := take_of_encloses hs ht h
  cases hb : t.beyond with
  | nil => simp [hb] at hlt
  | cons g gs =>
    have hg : g.isConstruct .loop = false := by
      have := List.head?_dropWhile_not (·.isConstruct .loop) t.groups
      rw [← LGNode.beyond, hb] at this
      simpa using this
    have hlen : t.beyond.length = gs.length + 1 := by simp [hb]
    have hgt : t.groups.reverse[gs.length]? = some g := by
      rw [groups_eq t, hb]
      simp
    have hgs : s.groups.reverse[gs.length]? = some g := by
      rw [← hgt, ← List.getElem?_take_of_lt (j := k + 1) (by omega), htake,
        List.getElem?_take_of_lt (by omega)]
    have hmem : g ∈ s.loopRun := by
      rw [groups_eq s, List.reverse_append, List.getElem?_append_right (by simp; omega)] at hgs
      exact List.mem_reverse.mp (List.mem_of_getElem? hgs)
    have := isLoop_of_mem_loopRun hmem
    simp [hg] at this

/-! The pairs whose contexts agree. -/

section Pairs

variable {os rs ot rt : List Nat} {inner outer : List Nat → Drop} {edges : List (Drop × Drop)}

/-- The pairs of drops with one context: index tuples that end alike. -/
def AlikeEnds (os rs ot rt : List Nat) (inner outer : List Nat → Drop)
    (edges : List (Drop × Drop)) : Prop :=
  ∀ a b, (a, b) ∈ edges ↔ ∃ u ∈ paths os, ∃ u' ∈ paths ot, ∃ w, w ∈ paths rs ∧ w ∈ paths rt ∧
    a = inner (u ++ w) ∧ b = outer (u' ++ w)

/-- Every target has one source when the runs are alike and nothing but the run tells the sources
apart. -/
theorem one_source_iff (hs : ∀ is ∈ paths (os ++ rs), (inner is).coord.path = 0 :: is)
    (ht : ∀ is ∈ paths (ot ++ rt), (outer is).coord.path = 0 :: is)
    (he : AlikeEnds os rs ot rt inner outer edges) (hpos : 0 ∉ ot ++ rt)
    (hr : rs.length = rt.length → rs = rt) :
    (∀ b ∈ (paths (ot ++ rt)).map outer, ∃! a, (a, b) ∈ edges) ↔
      rs.length = rt.length ∧ ∀ d ∈ os, d = 1 := by
  have hzero : ∀ ds : List Nat, (∀ d ∈ ds, d ∈ ot ++ rt) → ds.map (fun _ => 0) ∈ paths ds := by
    intro ds hds
    refine map_mem_paths fun d hd => Nat.pos_of_ne_zero fun h0 => ?_
    exact hpos (h0 ▸ hds d hd)
  constructor
  · intro h
    have hu' := hzero ot fun d hd => List.mem_append_left _ hd
    have hw := hzero rt fun d hd => List.mem_append_right _ hd
    have hb : outer (ot.map (fun _ => 0) ++ rt.map fun _ => 0) ∈ (paths (ot ++ rt)).map outer :=
      List.mem_map_of_mem (mem_paths_append.mpr ⟨_, hu', _, hw, rfl⟩)
    obtain ⟨a, ha, huniq⟩ := h _ hb
    obtain ⟨u, hu, -, -, w, hws, hwt, -, -⟩ := (he _ _).mp ha
    have hlen : rs.length = rt.length := by
      rw [← length_of_mem_paths hws, length_of_mem_paths hwt]
    obtain rfl := hr hlen
    refine ⟨rfl, eq_one_of_subsingleton (fun p hp q hq => ?_) hu⟩
    have hpa := huniq _ ((he _ _).mpr ⟨p, hp, _, hu', _, hw, hw, rfl, rfl⟩)
    have hqa := huniq _ ((he _ _).mpr ⟨q, hq, _, hu', _, hw, hw, rfl, rfl⟩)
    have hpq := congrArg (fun d : Drop => d.coord.path) (hpa.trans hqa.symm)
    simp only [hs _ (mem_paths_append.mpr ⟨p, hp, _, hw, rfl⟩),
      hs _ (mem_paths_append.mpr ⟨q, hq, _, hw, rfl⟩), List.cons.injEq, true_and] at hpq
    exact List.append_cancel_right hpq
  · rintro ⟨hlen, hone⟩ b hb
    obtain rfl := hr hlen
    obtain ⟨is, his, rfl⟩ := List.mem_map.mp hb
    obtain ⟨u', hu', w, hw, rfl⟩ := mem_paths_append.mp his
    have hu : os.map (fun _ => 0) ∈ paths os :=
      map_mem_paths fun d hd => by have := hone d hd; omega
    refine ⟨inner (os.map (fun _ => 0) ++ w),
      (he _ _).mpr ⟨_, hu, u', hu', w, hw, hw, rfl, rfl⟩, fun a ha => ?_⟩
    obtain ⟨v, hv, v', hv', x, hx, -, rfl, hb⟩ := (he _ _).mp ha
    have hp := congrArg (fun d : Drop => d.coord.path) hb
    simp only [ht _ his, ht _ (mem_paths_append.mpr ⟨v', hv', x, hx, rfl⟩), List.cons.injEq,
      true_and] at hp
    have hlast := List.append_inj_right' hp
      (by rw [length_of_mem_paths hw, length_of_mem_paths hx])
    rw [eq_zeros_of_mem_paths hone hv, hlast]

/-- An edge joins the same iteration of the innermost groups. -/
theorem getLast?_of_alike (hs : ∀ is ∈ paths (os ++ rs), (inner is).coord.path = 0 :: is)
    (ht : ∀ is ∈ paths (ot ++ rt), (outer is).coord.path = 0 :: is)
    (he : AlikeEnds os rs ot rt inner outer edges) (hne : rs ≠ []) {a b : Drop}
    (h : (a, b) ∈ edges) : a.coord.path.getLast? = b.coord.path.getLast? := by
  obtain ⟨u, hu, u', hu', w, hw, hw', rfl, rfl⟩ := (he _ _).mp h
  rw [hs _ (mem_paths_append.mpr ⟨u, hu, w, hw, rfl⟩),
    ht _ (mem_paths_append.mpr ⟨u', hu', w, hw', rfl⟩)]
  have hlen := length_of_mem_paths hw
  cases w with
  | nil => exact absurd (List.length_eq_zero_iff.mp hlen.symm) hne
  | cons i w => simp only [← List.cons_append, List.getLast?_append_cons]

end Pairs

/-! Locked links. -/

/-- The drops of a leaf in a Loop, with their contexts. -/
theorem dropsOf_inLoop (hi : instantiate lg = .ok placed) (hm : m ∈ lg.graph.started)
    (hl : m.isLeaf = true) (hin : m.inLoop = true) :
    ∃ drop : List Nat → Drop, dropsOf placed m.id = (paths (sizes lg m)).map drop ∧
      (∀ is ∈ paths (sizes lg m), (drop is).coord.path = 0 :: is) ∧
      ∀ u ∈ paths (bounds lg [] m.beyond.reverse),
        ∀ w ∈ paths (bounds lg m.beyond m.loopRun.reverse), (drop (u ++ w)).loopCtx = some w := by
  obtain ⟨drop, hd, hp⟩ := dropsOf_leaf_at hi hm hl
  refine ⟨drop, hd, fun is his => ?_, fun u hu w hw => ?_⟩
  · rw [(hp is his).1, path_descend (by rw [length_of_mem_paths his, sizes, length_bounds])]
    rfl
  have hmem : u ++ w ∈ paths (sizes lg m) := by
    rw [sizes_eq]
    exact mem_paths_append.mpr ⟨u, hu, w, hw, rfl⟩
  have hlu := length_of_mem_paths hu
  have hlw := length_of_mem_paths hw
  rw [length_bounds, List.length_reverse] at hlu hlw
  rw [(hp _ hmem).2, loopCtx_place hin hlu hlw]

/-- The pairs a locked link joins. -/
def lockedPairs (sources targets : List Drop) : List (Drop × Drop) :=
  sources.flatMap fun s => (targets.filter fun t => s.loopCtx == t.loopCtx).map (s, ·)

theorem mem_lockedPairs {a b : Drop} : (a, b) ∈ lockedPairs sources targets ↔
    a ∈ sources ∧ b ∈ targets ∧ a.loopCtx = b.loopCtx := by
  simp [lockedPairs]

theorem nodup_lockedPairs (hs : sources.Nodup) (ht : targets.Nodup) :
    (lockedPairs sources targets).Nodup := by
  refine List.nodup_flatMap.mpr ⟨fun a _ => (ht.filter _).map fun b b' h => by simpa using h, ?_⟩
  refine hs.imp fun {a a'} hne => ?_
  intro e he he'
  obtain ⟨b, -, rfl⟩ := List.mem_map.mp he
  obtain ⟨b', -, h⟩ := List.mem_map.mp he'
  exact hne (by simpa using (Prod.mk.inj h).1.symm)

theorem nodup_drops {ds : List Nat} {drop : List Nat → Drop}
    (h : ∀ is ∈ paths ds, (drop is).coord.path = 0 :: is) : ((paths ds).map drop).Nodup := by
  refine nodup_paths.map_on fun is his js hjs he => ?_
  simpa [h is his, h js hjs] using congrArg (fun d : Drop => d.coord.path) he

/-- Nodes of one group are related. -/
theorem isCircle_of_isLocking (sources targets : List Drop) (hs : s ∈ lg.graph.nodes)
    (ht : t ∈ lg.graph.nodes) (hl : isLocking s t = true) :
    isCircle s t sources targets = false := by
  by_contra hc
  simp only [Bool.not_eq_false, isCircle, Bool.and_eq_true, beq_iff_eq] at hc
  obtain ⟨⟨⟨hsl, hgid⟩, -⟩, -⟩ := hc
  simp only [isLocking, Bool.and_eq_true, Bool.not_eq_true'] at hl
  obtain ⟨⟨-, htl⟩, hr⟩ := hl
  cases hsg : s.groups with
  | nil => simp [LGNode.inLoop, hsg] at hsl
  | cons g gs =>
    cases htg : t.groups with
    | nil => simp [LGNode.inLoop, htg] at htl
    | cons g' gs' =>
      have hg := mem_nodes_of_groups hs (show s.groups = [] ++ g :: gs from hsg) List.nil_suffix
      have hg' := mem_nodes_of_groups ht (show t.groups = [] ++ g' :: gs' from htg) List.nil_suffix
      have hid : g.id = g'.id := by simpa [LGNode.gid, hsg, htg] using hgid
      obtain ⟨hn, hgs⟩ := LGNode.mk.inj (eq_of_id hg hg' hid)
      have hsuff : s.groups <:+ t.groups := by rw [hsg, htg, hn, hgs]
      rw [hRelated_of_suffix (Or.inr hsuff)] at hr
      exact Bool.noConfusion hr

/-- What a locked link resolves to. -/
theorem resolveEdges_locking (hs : s ∈ lg.graph.nodes) (ht : t ∈ lg.graph.nodes)
    (hsl : s.isLeaf = true) (htl : t.isLeaf = true) (hl : isLocking s t = true) (lk : Link) :
    resolveEdges lg placed s t lk = .ok (if s.node.isStartNode then []
      else lockedPairs (dropsOf placed s.id) (dropsOf placed t.id)) := by
  have hsg : s.isGroup = false := by
    simp [LGNode.isLeaf] at hsl
    simp [hsl]
  have htg : t.isGroup = false := by
    simp [LGNode.isLeaf] at htl
    simp [htl]
  have hc := isCircle_of_isLocking (dropsOf placed s.id) (dropsOf placed t.id) hs ht hl
  by_cases hstart : s.node.isStartNode = true
  · simp [resolveEdges, hsg, htg, hstart, leafEdges]
  · have howned : loopOwned s t (dropsOf placed s.id) (dropsOf placed t.id)
        (lg.loopAwareSet.contains lk.pair) = true := by
      simp [loopOwned, hl]
    simp only [resolveEdges, hsg, htg, hstart, howned, loopEdges, hc, hl]
    rfl

/-- Where one node of a locked link has more groups beyond its Loops than the other, an index of
the shared groups in the run of the first is compared with nothing. -/
theorem size_of_shared (hs : s ∈ lg.graph.nodes) (ht : t ∈ lg.graph.nodes) {k : Nat}
    (hk : Encloses s t k) (hlt : s.beyond.length < t.beyond.length)
    {inner outer : List Nat → Drop} {edges : List (Drop × Drop)} {os rs ot : List Nat}
    (hsz : sizes lg s = os ++ rs) (hst : sizes lg t = ot ++ rs) (hlo : os.length ≤ k)
    (hlot : ot.length = t.beyond.length)
    (hsp : ∀ is ∈ paths (os ++ rs), (inner is).coord.path = 0 :: is)
    (htp : ∀ is ∈ paths (ot ++ rs), (outer is).coord.path = 0 :: is)
    (he : AlikeEnds os rs ot rs inner outer edges) (hpos : 0 ∉ sizes lg t)
    (hone : ∀ d ∈ os, d = 1)
    (h : ∀ a b, (a, b) ∈ edges → ∀ k, Encloses s t k →
      a.coord.path[k + 1]? = b.coord.path[k + 1]?) : (sizes lg s)[k]? = some 1 := by
  have hkt := lt_of_encloses hs ht hk hlt
  rw [hst] at hpos
  -- the last instances of the run against the first ones of the groups beyond
  have hw : rs.map (· - 1) ∈ paths rs := map_mem_paths fun d hd => by
    have : d ≠ 0 := fun h0 => hpos (h0 ▸ List.mem_append_right _ hd)
    omega
  have hu' : ot.map (fun _ => 0) ∈ paths ot := map_mem_paths fun d hd =>
    Nat.pos_of_ne_zero fun h0 => hpos (h0 ▸ List.mem_append_left _ hd)
  have hu : os.map (fun _ => 0) ∈ paths os := map_mem_paths fun d hd => by
    have := hone d hd
    omega
  have hat := h _ _ ((he _ _).mpr ⟨_, hu, _, hu', _, hw, hw, rfl, rfl⟩) k hk
  rw [hsp _ (mem_paths_append.mpr ⟨_, hu, _, hw, rfl⟩),
    htp _ (mem_paths_append.mpr ⟨_, hu', _, hw, rfl⟩), List.getElem?_cons_succ,
    List.getElem?_cons_succ, List.getElem?_append_right (by simpa using hlo),
    List.getElem?_append_left (by simpa [hlot] using hkt), List.length_map, List.getElem?_map,
    List.getElem?_map] at hat
  obtain ⟨c, hc⟩ : ∃ c, ot[k]? = some c := ⟨_, List.getElem?_eq_getElem (by omega)⟩
  rw [hc] at hat
  rw [hsz, List.getElem?_append_right hlo]
  cases hd : rs[k - os.length]? with
  | none => simp [hd] at hat
  | some d =>
    have hmem : d ∈ rs := List.mem_of_getElem? hd
    have hne : d ≠ 0 := fun h0 => hpos (h0 ▸ List.mem_append_right _ hmem)
    have : d - 1 = 0 := by simpa [hd] using hat
    rw [show d = 1 by omega]

theorem synchronised_of_validateLink {i : Inputs} (hv : validateLink lg.graph i s t = .ok ())
    (hl : isLocking s t = true) :
    loopsSynchronised lg.graph i s.groups t.groups = .ok () := by
  simp only [isLocking, Bool.and_eq_true, Bool.not_eq_true'] at hl
  obtain ⟨k, -, hv⟩ := bind_ok.mp hv
  obtain ⟨u, -, hv⟩ := bind_ok.mp hv
  obtain ⟨k', -, hv⟩ := bind_ok.mp hv
  obtain ⟨u', -, hv⟩ := bind_ok.mp hv
  simpa [validateHierarchy, hl] using hv

/-- Stepwise locking in terms of the index tuples of the two ends. -/
theorem alikeEnds_lockedPairs {os rs ot rt : List Nat} {inner outer : List Nat → Drop}
    (hs : ∀ u ∈ paths os, ∀ w ∈ paths rs, (inner (u ++ w)).loopCtx = some w)
    (ht : ∀ u ∈ paths ot, ∀ w ∈ paths rt, (outer (u ++ w)).loopCtx = some w) :
    AlikeEnds os rs ot rt inner outer
      (lockedPairs ((paths (os ++ rs)).map inner) ((paths (ot ++ rt)).map outer)) := by
  intro a b
  rw [mem_lockedPairs]
  constructor
  · rintro ⟨ha, hb, hab⟩
    obtain ⟨is, his, rfl⟩ := List.mem_map.mp ha
    obtain ⟨js, hjs, rfl⟩ := List.mem_map.mp hb
    obtain ⟨u, hu, w, hw, rfl⟩ := mem_paths_append.mp his
    obtain ⟨u', hu', w', hw', rfl⟩ := mem_paths_append.mp hjs
    obtain rfl : w = w' := by simpa [hs u hu w hw, ht u' hu' w' hw'] using hab
    exact ⟨u, hu, u', hu', w, hw, hw', rfl, rfl⟩
  · rintro ⟨u, hu, u', hu', w, hw, hw', rfl, rfl⟩
    refine ⟨List.mem_map_of_mem (mem_paths_append.mpr ⟨u, hu, w, hw, rfl⟩),
      List.mem_map_of_mem (mem_paths_append.mpr ⟨u', hu', w, hw', rfl⟩), ?_⟩
    rw [hs u hu w hw, ht u' hu' w hw']

/-- Whether the shared groups are told apart, where every target has one source. -/
theorem shared_indices_iff (hs : s ∈ lg.graph.nodes) (ht : t ∈ lg.graph.nodes)
    {inner outer : List Nat → Drop} {edges : List (Drop × Drop)} {os rs ot : List Nat}
    (hsz : sizes lg s = os ++ rs) (hst : sizes lg t = ot ++ rs)
    (hlos : os.length = s.beyond.length) (hlot : ot.length = t.beyond.length)
    (hsp : ∀ is ∈ paths (os ++ rs), (inner is).coord.path = 0 :: is)
    (htp : ∀ is ∈ paths (ot ++ rs), (outer is).coord.path = 0 :: is)
    (he : AlikeEnds os rs ot rs inner outer edges) (hpos : 0 ∉ sizes lg t)
    (hone : ∀ d ∈ os, d = 1) :
    (∀ a b, (a, b) ∈ edges → ∀ k, Encloses s t k → a.coord.path[k + 1]? = b.coord.path[k + 1]?) ↔
      s.groups.length = t.groups.length ∨ ∀ k, Encloses s t k → (sizes lg s)[k]? = some 1 := by
  have hlens : s.groups.length = os.length + rs.length := by
    rw [← length_sizes lg, hsz, List.length_append]
  have hlent : t.groups.length = ot.length + rs.length := by
    rw [← length_sizes lg, hst, List.length_append]
  have hbeyond : ∀ k < os.length, (sizes lg s)[k]? = some 1 := by
    intro k hk
    rw [hsz, List.getElem?_append_left hk, List.getElem?_eq_getElem hk,
      hone _ (List.getElem_mem hk)]
  constructor
  · intro h
    rcases Nat.lt_trichotomy s.beyond.length t.beyond.length with hlt | heq | hgt
    · right
      intro k hk
      by_cases hko : k < os.length
      · exact hbeyond k hko
      · exact size_of_shared hs ht hk hlt hsz hst (by omega) hlot hsp htp he hpos hone h
    · left
      omega
    · right
      intro k hk
      have hkt : Encloses t s k := by
        obtain ⟨g, hsg, htg⟩ := hk
        exact ⟨g, htg, hsg⟩
      exact hbeyond k (by rw [hlos]; exact lt_of_encloses ht hs hkt hgt)
  · intro h a b hab k hk
    obtain ⟨u, hu, u', hu', w, hw, -, rfl, rfl⟩ := (he _ _).mp hab
    have hsm := mem_paths_append.mpr ⟨u, hu, w, hw, rfl⟩
    have htm := mem_paths_append.mpr ⟨u', hu', w, hw, rfl⟩
    rw [hsp _ hsm, htp _ htm, List.getElem?_cons_succ, List.getElem?_cons_succ]
    -- a shared group of one instance has the index 0 on both sides
    have hsingle : (sizes lg s)[k]? = some 1 → (u ++ w)[k]? = (u' ++ w)[k]? := by
      intro h1
      have h1t := (sizes_of_encloses hs ht hk).symm.trans h1
      rw [hsz] at h1
      rw [hst] at h1t
      obtain ⟨i, hi, hsi⟩ := index_lt hsm h1
      obtain ⟨j, hj, htj⟩ := index_lt htm h1t
      rw [hsi, htj]
      congr 1
      omega
    rcases h with hlen | hall
    · by_cases hko : k < os.length
      · exact hsingle (hbeyond k hko)
      · have hlu := length_of_mem_paths hu
        have hlu' := length_of_mem_paths hu'
        rw [List.getElem?_append_right (by omega), List.getElem?_append_right (by omega)]
        congr 1
        omega
    · exact hsingle (hall k hk)

theorem stepwise_of_no_targets {edges : List (Drop × Drop)} (ht : targets = [])
    (he : ∀ a b, (a, b) ∈ edges → b ∈ targets) : Stepwise s t targets edges := by
  subst ht
  refine ⟨fun b hb => absurd hb (by simp), fun a b hab => ?_⟩
  exact absurd (he a b hab) (by simp)

/-- Stepwise locking joins matching iterations exactly when the runs of Loops around both ends are
equally long and nothing beyond the run tells the sources, or the shared groups, apart. -/
theorem stepwise_iff (i : Inputs) (hi : instantiate lg = .ok placed)
    (hs : s ∈ lg.graph.started) (ht : t ∈ lg.graph.started)
    (hsl : s.isLeaf = true) (htl : t.isLeaf = true)
    (hv : validateLink lg.graph i s t = .ok ()) (hl : isLocking s t = true) (lk : Link) :
    ∃ edges, resolveEdges lg placed s t lk = .ok edges ∧ edges.Nodup ∧
      (Stepwise s t (dropsOf placed t.id) edges ↔
        0 ∈ sizes lg t ∨ s.node.isStartNode = false ∧ InLockstep lg s t) := by
  have hsn := mem_nodes_of_started hs
  have htn := mem_nodes_of_started ht
  have hin : s.inLoop = true ∧ t.inLoop = true := by
    simp only [isLocking, Bool.and_eq_true] at hl
    exact hl.1
  obtain ⟨inner, hsd, hsp, hsc⟩ := dropsOf_inLoop hi hs hsl hin.1
  obtain ⟨outer, htd, htp, htc⟩ := dropsOf_inLoop hi ht htl hin.2
  have hnone : 0 ∈ sizes lg t → dropsOf placed t.id = [] := by
    intro h0
    rw [htd, List.map_eq_nil_iff, List.eq_nil_iff_forall_not_mem]
    intro is his
    exact absurd (pos_of_mem_paths his h0) (by omega)
  have hsome : 0 ∉ sizes lg t → ∃ b, b ∈ dropsOf placed t.id := by
    intro h0
    rw [htd]
    refine ⟨_, List.mem_map_of_mem (map_mem_paths (f := fun _ => 0) fun d hd => ?_)⟩
    exact Nat.pos_of_ne_zero fun hd0 => h0 (hd0 ▸ hd)
  refine ⟨_, resolveEdges_locking hsn htn hsl htl hl lk, ?_, ?_⟩
  · split
    · exact List.nodup_nil
    · rw [hsd, htd]
      exact nodup_lockedPairs (nodup_drops hsp) (nodup_drops htp)
  by_cases h0 : 0 ∈ sizes lg t
  · refine iff_of_true (stepwise_of_no_targets (hnone h0) fun a b hab => ?_) (Or.inl h0)
    split at hab
    · simp at hab
    · exact (mem_lockedPairs.mp hab).2.1
  by_cases hstart : s.node.isStartNode = true
  · rw [if_pos hstart]
    refine iff_of_false (fun h => ?_) (by simp [h0, hstart])
    obtain ⟨b, hb⟩ := hsome h0
    obtain ⟨a, ha, -⟩ := h.1 b hb
    simp at ha
  -- the runs count alike where they are equally long
  have hsync := synchronised_of_validateLink hv hl
  rw [groups_eq s, groups_eq t] at hsync
  have hrun : s.loopRun.length = t.loopRun.length →
      bounds lg s.beyond s.loopRun.reverse = bounds lg t.beyond t.loopRun.reverse :=
    fun hlen => bounds_synchronised (fun _ => isLoop_of_mem_loopRun)
      (fun _ => isLoop_of_mem_loopRun) hlen hsync
  have hsz := sizes_eq lg s
  have hst := sizes_eq lg t
  have halike := alikeEnds_lockedPairs hsc htc
  rw [← hsz, ← hst, ← hsd, ← htd] at halike
  have hone := one_source_iff (by rwa [hsz] at hsp) (by rwa [hst] at htp) halike
    (by rwa [hst] at h0) (by simpa [length_bounds] using hrun)
  rw [← hst, ← htd, length_bounds, length_bounds, List.length_reverse, List.length_reverse] at hone
  rw [if_neg hstart, Stepwise, hone]
  have hshared : s.loopRun.length = t.loopRun.length →
      (∀ d ∈ bounds lg [] s.beyond.reverse, d = 1) → _ := fun hlen hsingle =>
    shared_indices_iff hsn htn hsz (by rw [hrun hlen]; exact hst)
      (by simp [length_bounds]) (by simp [length_bounds]) (by rwa [hsz] at hsp)
      (by rw [hrun hlen, ← hst]; exact htp) (by rw [hrun hlen] at halike ⊢; exact halike) h0 hsingle
  constructor
  · rintro ⟨⟨hlen, hsingle⟩, h⟩
    refine Or.inr ⟨by simpa using hstart, hlen, hsingle, (hshared hlen hsingle).mp ?_⟩
    exact fun a b hab => (h a b hab).2
  · rintro (h | ⟨-, h⟩)
    · exact absurd h h0
    refine ⟨⟨h.runs, h.single⟩, fun a b hab => ⟨?_, (hshared h.runs h.single).mpr h.level a b hab⟩⟩
    refine getLast?_of_alike (by rwa [hsz] at hsp) (by rwa [hst] at htp) halike ?_ hab
    intro hnil
    have := congrArg List.length hnil
    rw [length_bounds, List.length_reverse] at this
    exact loopRun_ne_nil hin.1 (List.length_eq_zero_iff.mp this)

/-- Two Loops of two beside each other, an application in one and its output in the other. -/
def loopsBeside : LogicalGraph where
  sessionId := "s"
  forest :=
    .cons { id := .int 2, category := .loop, categoryType := .construct, isGroup := true
            keys := [("num_of_iter", .int 2)] }
      (.cons { id := .int 3, category := .pythonApp, categoryType := .application } .nil .nil)
      (.cons { id := .int 4, category := .loop, categoryType := .construct, isGroup := true
               keys := [("num_of_iter", .int 2)] }
        (.cons { id := .int 5, category := .file, categoryType := .data } .nil .nil) .nil)
  links := [{ source := .int 3, target := .int 5 }]
  ids_nodup := by decide
  ids_ne_newAdded := by decide

def lockLink : Link := { source := .int 3, target := .int 5 }

theorem loopsBeside_stepwise : ∃ lg placed edges s t,
    loopsBeside.init = .ok lg ∧ instantiate lg = .ok placed ∧
    resolveEdges lg placed s t lockLink = .ok edges ∧
    Stepwise s t (dropsOf placed t.id) edges := by
  obtain ⟨lg, hlg⟩ : ∃ lg, loopsBeside.init = .ok lg := ⟨_, rfl⟩
  obtain ⟨placed, hp⟩ : ∃ placed, instantiate lg = .ok placed := by
    cases hlg
    exact ⟨_, rfl⟩
  cases hlg
  obtain ⟨edges, he, -, h⟩ := stepwise_iff [] hp (s := loopsBeside.started[1])
    (t := loopsBeside.started[3]) (by decide) (by decide) (by decide) (by decide) (by decide)
    (by decide) lockLink
  refine ⟨_, placed, edges, _, _, rfl, hp, he, h.mpr (Or.inr ⟨by decide, by decide, by decide, ?_⟩)⟩
  exact Or.inl (by decide)

/-- The same two Loops in a Scatter of two. -/
def loopsScattered : LogicalGraph where
  sessionId := "s"
  forest :=
    .cons { id := .int 1, category := .scatter, categoryType := .construct, isGroup := true
            keys := [("num_of_copies", .int 2)] } loopsBeside.forest .nil
  links := loopsBeside.links
  ids_nodup := by decide
  ids_ne_newAdded := by decide

theorem loopsScattered_notStepwise : ∃ lg placed edges s t,
    loopsScattered.init = .ok lg ∧ instantiate lg = .ok placed ∧
    s ∈ lg.graph.started ∧ t ∈ lg.graph.started ∧ s.isLeaf = true ∧ t.isLeaf = true ∧
    validateLink lg.graph lg.inputs s t = .ok () ∧ isLocking s t = true ∧
    resolveEdges lg placed s t lockLink = .ok edges ∧
    ¬ Stepwise s t (dropsOf placed t.id) edges := by
  refine ⟨_, _, _, loopsScattered.started[2], loopsScattered.started[4], rfl, rfl, by decide,
    by decide, by decide, by decide, by decide, by decide, rfl, fun h => ?_⟩
  obtain ⟨a, -, huniq⟩ := h.1 _ (List.getElem_mem (n := 0) (by decide))
  have hfirst := huniq _ (List.getElem_mem (n := 0) (by decide))
  have hother := huniq _ (List.getElem_mem (n := 4) (by decide))
  exact absurd (hfirst.trans hother.symm) (by decide)

end Daliuge.Unroll
