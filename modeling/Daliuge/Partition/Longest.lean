import Daliuge.Partition.Digraph

/-!
# Start times and the longest path

`label_schedule` gives every node its start and end time; `get_longest_path` looks for the
heaviest path. Both go through the nodes once, in topological order.
-/
namespace Daliuge.Partition

open Collect

variable {V : Type}

/-- What the modelled functions raise. -/
inductive Err
  | keyError (key : String)
  | typeError
  | attributeError
  | emptyMax
  | schedulerException (text : String)
  deriving DecidableEq, Repr

/-- `d[key]`. -/
def look {α : Type} (key : String) : Option α → Except Err α
  | some a => .ok a
  | none => .error (.keyError key)

theorem look_ok {α : Type} {key : String} {o : Option α} {a : α} :
    look key o = .ok a ↔ o = some a := by
  cases o <;> simp [look]

/-- The attributes `stt` and `edt` of a node. -/
structure Label where
  stt : Int
  edt : Int
  deriving DecidableEq, Repr

namespace Weights

variable (W : Weights V)

/-- `get("weight", 0)` of a node and of an edge. -/
def ofNode (v : V) : Int := ((W.node v).getD 0 : Nat)

def ofEdge (u v : V) : Int := ((W.edge u v).getD 0 : Nat)

/-- The weights of the nodes and edges of a path together. -/
def weigh : List V → Int
  | [] => 0
  | [v] => W.ofNode v
  | u :: v :: l => W.ofNode u + W.ofEdge u v + weigh (v :: l)

end Weights

/-- Python's `max` of a list: the first of those that no other one is above. -/
def pyMax {α : Type} (below : α → α → Bool) : List α → Option α
  | [] => none
  | a :: l => some (l.foldl (fun best b => if below best b then b else best) a)

/-- The order of the tuples `(length, node)`. -/
def tupleBelow [LT V] [DecidableEq V] [DecidableLT V] (a b : Int × V) : Bool :=
  decide (a.1 < b.1) || (decide (a.1 = b.1) && decide (a.2 < b.2))

section Functions

variable [LinearOrder V] (G : Digraph V) (W : Weights V)

/-- The latest end of a parent, with the edge to the node. -/
def latestEnd (labels : V → Option Label) (v : V) (parents : List V) (ledt : Int) :
    Except Err Int :=
  parents.foldlM (fun ledt parent => do
    let pedt := (← look "edt" (labels parent)).edt + W.ofEdge parent v
    return if pedt > ledt then pedt else ledt) ledt

/-- The start of a node: 0 without parents. -/
def startTime (labels : V → Option Label) (v : V) : Except Err Int :=
  if G.predecessors v = [] then .ok 0 else latestEnd W labels v (G.predecessors v) (-1)

/-- The body of the loop in `label_schedule`. -/
def labelNode (labels : V → Option Label) (v : V) : Except Err (V → Option Label) := do
  let stt ← startTime G W labels v
  return Function.update labels v (some ⟨stt, stt + W.ofNode v⟩)

/-- `label_schedule`. -/
def labelSchedule (order : List V) : Except Err (V → Option Label) :=
  order.foldlM (labelNode G W) fun _ => none

/-- The body of the loop in `get_longest_path`. -/
def distNode (defaultWeight : Nat) (dist : V → Option (Int × V)) (v : V) :
    Except Err (V → Option (Int × V)) := do
  let us ← (G.predecessors v).mapM fun u => do
    let du ← look "dist" (dist u)
    let edge : Int := ((W.edge u v).getD defaultWeight : Nat)
    let last := if G.successors v = [] then W.ofNode v else 0
    return (du.1 + edge + W.ofNode u + last, u)
  let maxu := (pyMax tupleBelow us).getD (0, v)
  return Function.update dist v (some (if maxu.1 ≥ 0 then maxu else (0, v)))

/-- The loop that goes back from the end of the path, for as long as there is fuel. -/
def backtrack (dist : V → Option (Int × V)) : Nat → V → Except Err (List V)
  | 0, _ => .ok []
  | fuel + 1, v => do
    let u := (← look "dist" (dist v)).2
    if u = v then return [v] else return v :: (← backtrack dist fuel u)

/-- `get_longest_path` with `show_path`. -/
def getLongestPath (defaultWeight : Nat) (order : List V) : Except Err (List V × Int) := do
  let dist ← order.foldlM (distNode G W defaultWeight) fun _ => none
  let below (u v : V) : Bool := tupleBelow ((dist u).getD (0, u)) ((dist v).getD (0, v))
  match pyMax below order with
  | none => .error .emptyMax
  | some v => do
    let lp := (← look "dist" (dist v)).1
    return ((← backtrack dist order.length v).reverse, lp)

end Functions

/-! Times. -/

section Times

variable [LinearOrder V] {G : Digraph V} {W : Weights V} {ns : List V} {stt edt : V → Int}
  {labels : V → Option Label} {u v : V}

/-- A node starts when the last of its parents has ended and the edge from there has passed. -/
structure Timed (G : Digraph V) (W : Weights V) (ns : List V) (stt edt : V → Int) : Prop where
  nonneg : ∀ v ∈ ns, 0 ≤ stt v
  ends : ∀ v ∈ ns, edt v = stt v + W.ofNode v
  root : ∀ v ∈ ns, G.predecessors v = [] → stt v = 0
  after : ∀ v ∈ ns, ∀ u, G.Edge u v → edt u + W.ofEdge u v ≤ stt v
  attained : ∀ v ∈ ns, G.predecessors v ≠ [] → ∃ u, G.Edge u v ∧ stt v = edt u + W.ofEdge u v

omit [LinearOrder V] in
theorem ofNode_nonneg : 0 ≤ W.ofNode v := Int.natCast_nonneg _

omit [LinearOrder V] in
theorem ofEdge_nonneg : 0 ≤ W.ofEdge u v := Int.natCast_nonneg _

omit [LinearOrder V] in
/-- The latest end is above all others and one of them. -/
theorem latestEnd_ok (us : List V) {a : Int}
    (h : ∀ u ∈ us, labels u = some ⟨stt u, edt u⟩) : ∃ m, latestEnd W labels v us a = .ok m ∧
      a ≤ m ∧ (∀ u ∈ us, edt u + W.ofEdge u v ≤ m) ∧
      (m = a ∨ ∃ u ∈ us, m = edt u + W.ofEdge u v) := by
  induction us generalizing a with
  | nil => exact ⟨a, rfl, le_rfl, by simp, Or.inl rfl⟩
  | cons u us ih =>
    obtain ⟨m, hm, ha, hle, hat⟩ := ih
      (a := if edt u + W.ofEdge u v > a then edt u + W.ofEdge u v else a)
      fun w hw => h w (by simp [hw])
    have hmax : a ≤ m ∧ edt u + W.ofEdge u v ≤ m := by
      split at ha <;> omega
    refine ⟨m, ?_, hmax.1, fun w hw => ?_, ?_⟩
    · rw [latestEnd, List.foldlM_cons, h u (by simp), look, ok_bind]
      exact hm
    · rcases List.mem_cons.mp hw with rfl | hw
      · exact hmax.2
      · exact hle w hw
    · rcases hat with rfl | ⟨w, hw, rfl⟩
      · split
        · exact Or.inr ⟨u, by simp, rfl⟩
        · exact Or.inl rfl
      · exact Or.inr ⟨w, by simp [hw], rfl⟩

/-- One node more. -/
theorem labelNode_ok (hd : v ∉ ns) (hns : ∀ w ∈ ns, ∀ u, G.Edge u w → u ∈ ns)
    (hv : ∀ u, G.Edge u v → u ∈ ns) (ht : Timed G W ns stt edt)
    (hl : ∀ u ∈ ns, labels u = some ⟨stt u, edt u⟩) : ∃ stt' edt' labels',
      labelNode G W labels v = .ok labels' ∧ Timed G W (ns ++ [v]) stt' edt' ∧
      (∀ u ∈ ns ++ [v], labels' u = some ⟨stt' u, edt' u⟩) := by
  obtain ⟨t, ht₀, hnn, hroot, hafter, hat⟩ : ∃ t : Int,
      startTime G W labels v = .ok t ∧ 0 ≤ t ∧
      (G.predecessors v = [] → t = 0) ∧ (∀ u, G.Edge u v → edt u + W.ofEdge u v ≤ t) ∧
      (G.predecessors v ≠ [] → ∃ u, G.Edge u v ∧ t = edt u + W.ofEdge u v) := by
    by_cases hp : G.predecessors v = []
    · refine ⟨0, by simp [startTime, hp], le_rfl, fun _ => rfl, fun u he => ?_,
        fun h => absurd hp h⟩
      rw [← Digraph.mem_predecessors, hp] at he
      simp at he
    · obtain ⟨m, hm, -, hle, hat⟩ := latestEnd_ok (W := W) (v := v) (a := -1)
        (G.predecessors v) fun u hu => hl u (hv u (Digraph.mem_predecessors.mp hu))
      obtain ⟨u, hu⟩ := List.exists_mem_of_ne_nil _ hp
      have hun := hv u (Digraph.mem_predecessors.mp hu)
      have hm0 : 0 ≤ m := by
        have h1 := hle u hu
        have h2 := ht.ends u hun
        have h3 := ht.nonneg u hun
        have h4 : 0 ≤ W.ofNode u := ofNode_nonneg
        have h5 : 0 ≤ W.ofEdge u v := ofEdge_nonneg
        omega
      refine ⟨m, by simp [startTime, hp, hm], hm0, fun h => absurd h hp,
        fun u he => hle u (Digraph.mem_predecessors.mpr he), fun _ => ?_⟩
      rcases hat with rfl | ⟨w, hw, he⟩
      · omega
      · exact ⟨w, Digraph.mem_predecessors.mp hw, he⟩
  have hne : ∀ u ∈ ns, u ≠ v := fun u hu he => hd (he ▸ hu)
  refine ⟨Function.update stt v t, Function.update edt v (t + W.ofNode v),
    Function.update labels v (some ⟨t, t + W.ofNode v⟩), ?_, ?_, ?_⟩
  · rw [labelNode, ht₀, ok_bind]
    rfl
  · constructor
    case nonneg =>
      intro w hw
      rcases List.mem_append.mp hw with hw | hw
      · simpa [hne w hw] using ht.nonneg w hw
      · obtain rfl : w = v := by simpa using hw
        simpa using hnn
    case ends =>
      intro w hw
      rcases List.mem_append.mp hw with hw | hw
      · simpa [hne w hw] using ht.ends w hw
      · obtain rfl : w = v := by simpa using hw
        simp
    case root =>
      intro w hw hp
      rcases List.mem_append.mp hw with hw | hw
      · simpa [hne w hw] using ht.root w hw hp
      · obtain rfl : w = v := by simpa using hw
        simpa using hroot hp
    case after =>
      intro w hw u he
      rcases List.mem_append.mp hw with hw | hw
      · simpa [hne w hw, hne u (hns w hw u he)] using ht.after w hw u he
      · obtain rfl : w = v := by simpa using hw
        simpa [hne u (hv u he)] using hafter u he
    case attained =>
      intro w hw hp
      rcases List.mem_append.mp hw with hw | hw
      · obtain ⟨u, he, hu⟩ := ht.attained w hw hp
        exact ⟨u, he, by simpa [hne w hw, hne u (hns w hw u he)] using hu⟩
      · obtain rfl : w = v := by simpa using hw
        obtain ⟨u, he, hu⟩ := hat hp
        exact ⟨u, he, by simpa [hne u (hv u he)] using hu⟩
  · intro w hw
    rcases List.mem_append.mp hw with hw | hw
    · simpa [hne w hw] using hl w hw
    · obtain rfl : w = v := by simpa using hw
      simp

theorem Timed.lt_of_ne (ht : Timed G W ns stt edt) (hv : v ∈ ns) (h : edt v ≠ stt v) :
    stt v < edt v := by
  have h1 := ht.ends v hv
  have h2 : 0 ≤ W.ofNode v := ofNode_nonneg
  omega

/-- `label_schedule` over a graph without cycles gives every node its times. -/
theorem labelSchedule_ok (hG : G.Dag) {order : List V} (ho : G.TopologicalSort order) :
    ∃ stt edt labels, labelSchedule G W order = .ok labels ∧ Timed G W G.nodes stt edt ∧
      ∀ v ∈ G.nodes, labels v = some ⟨stt v, edt v⟩ := by
  obtain ⟨labels, hrun, stt, edt, -, ht, hl⟩ := Kahn.foldlM_topological
    (f := labelNode G W) (s := fun _ => none)
    (I := fun pre labels => ∃ stt edt, (∀ w ∈ pre, ∀ u, G.Edge u w → u ∈ pre) ∧
      Timed G W pre stt edt ∧ ∀ v ∈ pre, labels v = some ⟨stt v, edt v⟩)
    (ho.nodup hG) ho.2
    (by
      rintro pre d labels - hn - hbehind ⟨stt, edt, hclosed, ht, hl⟩
      have hd : ∀ u, G.Edge u d → u ∈ pre := fun u he =>
        hbehind u ⟨(hG.closed u d he).1, Digraph.mem_successors.mpr he⟩
      obtain ⟨stt', edt', labels', hok, ht', hl'⟩ := labelNode_ok hn hclosed hd ht hl
      refine ⟨labels', hok, stt', edt', fun w hw u he => ?_, ht', hl'⟩
      rcases List.mem_append.mp hw with hw | hw
      · exact List.mem_append_left _ (hclosed w hw u he)
      · obtain rfl : w = d := by simpa using hw
        exact List.mem_append_left _ (hd u he))
    ⟨fun _ => 0, fun _ => 0, by simp, by constructor <;> simp, by simp⟩
  have hm : ∀ v, v ∈ order ↔ v ∈ G.nodes := fun v => ho.mem_iff
  refine ⟨stt, edt, labels, hrun, ?_, fun v hv => hl v ((hm v).mpr hv)⟩
  constructor
  · exact fun v hv => ht.nonneg v ((hm v).mpr hv)
  · exact fun v hv => ht.ends v ((hm v).mpr hv)
  · exact fun v hv => ht.root v ((hm v).mpr hv)
  · exact fun v hv => ht.after v ((hm v).mpr hv)
  · exact fun v hv => ht.attained v ((hm v).mpr hv)

end Times

/-! Distances. -/

section Distances

variable [LinearOrder V] {G : Digraph V} {W : Weights V} {stt edt : V → Int}
  {dist : V → Option (Int × V)} {order : List V} {u v : V}

/-- What a sink adds of its own. -/
def tail (G : Digraph V) (W : Weights V) (v : V) : Int :=
  if G.predecessors v ≠ [] ∧ G.successors v = [] then W.ofNode v else 0

theorem tail_nonneg : 0 ≤ tail G W v := by
  rw [tail]
  split
  · exact ofNode_nonneg
  · exact le_rfl

/-- The distance kept for a node, and the parent it comes from. -/
structure Dist (G : Digraph V) (W : Weights V) (stt edt : V → Int) (v : V) (d : Int × V) :
    Prop where
  length : d.1 = stt v + tail G W v
  root : G.predecessors v = [] → d.2 = v
  parent : G.predecessors v ≠ [] → G.Edge d.2 v ∧ stt v = edt d.2 + W.ofEdge d.2 v

omit [LinearOrder V] in
/-- The first maximum is in the list and above all others. -/
theorem pyMax_spec {α : Type} (below : α → α → Bool) {f : α → Int} {l : List α}
    (hlt : ∀ a b, below a b = true → f a ≤ f b) (hge : ∀ a b, below a b = false → f b ≤ f a)
    (h : l ≠ []) : ∃ a ∈ l, pyMax below l = some a ∧ ∀ b ∈ l, f b ≤ f a := by
  cases l with
  | nil => exact absurd rfl h
  | cons a l =>
    suffices hgen : ∀ (l : List α) (a : α), ∃ c ∈ a :: l,
        l.foldl (fun best b => if below best b then b else best) a = c ∧
        ∀ b ∈ a :: l, f b ≤ f c by
      obtain ⟨c, hc, he, hle⟩ := hgen l a
      exact ⟨c, hc, congrArg some he, hle⟩
    intro l
    induction l with
    | nil => exact fun a => ⟨a, by simp, rfl, by simp⟩
    | cons b l ih =>
      intro a
      obtain ⟨c, hc, he, hle⟩ := ih (if below a b then b else a)
      have hab : f a ≤ f c ∧ f b ≤ f c := by
        have hm := hle _ (List.mem_cons_self)
        cases hb : below a b with
        | true =>
          rw [if_pos hb] at hm
          exact ⟨(hlt a b hb).trans hm, hm⟩
        | false =>
          rw [if_neg (by simp [hb])] at hm
          exact ⟨hm, (hge a b hb).trans hm⟩
      refine ⟨c, ?_, he, fun d hd => ?_⟩
      · rcases List.mem_cons.mp hc with rfl | hc
        · split <;> simp
        · simp [hc]
      · simp only [List.mem_cons] at hd
        rcases hd with rfl | rfl | hd
        · exact hab.1
        · exact hab.2
        · exact hle d (by simp [hd])

theorem tupleBelow_le {a b : Int × V} (h : tupleBelow a b = true) : a.1 ≤ b.1 := by
  simp only [tupleBelow, Bool.or_eq_true, Bool.and_eq_true, decide_eq_true_eq] at h
  omega

theorem le_of_not_tupleBelow {a b : Int × V} (h : tupleBelow a b = false) : b.1 ≤ a.1 := by
  simp only [tupleBelow, Bool.or_eq_false_iff, decide_eq_false_iff_not] at h
  omega

/-- The distance of one node more. -/
theorem distNode_ok (ht : Timed G W G.nodes stt edt) (hG : G.Dag) (hv : v ∈ G.nodes)
    (hd : ∀ u, G.Edge u v → ∃ d, dist u = some d ∧ Dist G W stt edt u d) :
    ∃ d, distNode G W 0 dist v = .ok (Function.update dist v (some d)) ∧
      Dist G W stt edt v d := by
  -- what a parent offers
  have hoffer : ∀ u ∈ G.predecessors v, (do
      let du ← look "dist" (dist u)
      let edge : Int := ((W.edge u v).getD 0 : Nat)
      let last := if G.successors v = [] then W.ofNode v else 0
      return (du.1 + edge + W.ofNode u + last, u)) =
      (.ok (edt u + W.ofEdge u v + tail G W v, u) : Except Err (Int × V)) := by
    intro u hu
    have he := Digraph.mem_predecessors.mp hu
    obtain ⟨d, hdu, hdist⟩ := hd u he
    have htail : tail G W u = 0 := by
      rw [tail, if_neg]
      rintro ⟨-, hs⟩
      simpa [hs] using Digraph.mem_successors.mpr he
    have hlast : tail G W v = if G.successors v = [] then W.ofNode v else 0 := by
      have hne := List.ne_nil_of_mem hu
      simp [tail, hne]
    have hlen := hdist.length
    have hend := ht.ends u (hG.closed u v he).1
    rw [hdu, look, ok_bind, hlast, hlen, htail, hend]
    simp only [pure, Except.pure, Except.ok.injEq, Prod.mk.injEq, and_true, Weights.ofEdge]
    omega
  have hmap := mapM_eq_map hoffer
  by_cases hp : G.predecessors v = []
  · refine ⟨(0, v), ?_, ?_, fun _ => rfl, fun h => absurd hp h⟩
    · rw [distNode, hp]
      rfl
    · simp [tail, hp, ht.root v hv hp]
  · obtain ⟨m, hm, hmax, hle⟩ := pyMax_spec (f := Prod.fst) tupleBelow (fun a b => tupleBelow_le)
      (fun a b => le_of_not_tupleBelow) (l := (G.predecessors v).map fun u =>
        (edt u + W.ofEdge u v + tail G W v, u)) (by simpa using hp)
    obtain ⟨u, hu, rfl⟩ := List.mem_map.mp hm
    have he := Digraph.mem_predecessors.mp hu
    have hstt : stt v = edt u + W.ofEdge u v := by
      obtain ⟨w, hw, hsw⟩ := ht.attained v hv hp
      have h1 := hle _ (List.mem_map_of_mem (Digraph.mem_predecessors.mpr hw))
      have h2 := ht.after v hv u he
      simp only at h1
      omega
    have hnn : 0 ≤ edt u + W.ofEdge u v + tail G W v := by
      have h1 := ht.nonneg v hv
      have h2 : 0 ≤ tail G W v := tail_nonneg
      omega
    refine ⟨(edt u + W.ofEdge u v + tail G W v, u), ?_, ?_, fun h => absurd h hp,
      fun _ => ⟨he, hstt⟩⟩
    · rw [distNode, hmap, ok_bind]
      simp only [hmax, Option.getD_some, ge_iff_le, hnn, if_true]
      rfl
    · rw [hstt]

/-- The distances `get_longest_path` keeps. -/
theorem dist_ok (ht : Timed G W G.nodes stt edt) (hG : G.Dag) (ho : G.TopologicalSort order) :
    ∃ dist, order.foldlM (distNode G W 0) (fun _ => none) = .ok dist ∧
      ∀ v ∈ G.nodes, ∃ d, dist v = some d ∧ Dist G W stt edt v d := by
  obtain ⟨dist, hrun, hd⟩ := Kahn.foldlM_topological
    (f := distNode G W 0) (s := fun _ => none)
    (I := fun pre dist => ∀ v ∈ pre, ∃ d, dist v = some d ∧ Dist G W stt edt v d)
    (ho.nodup hG) ho.2
    (by
      rintro pre v dist hv hn - hbehind hd
      obtain ⟨d, hok, hdist⟩ := distNode_ok ht hG (ho.mem_iff.mp hv) fun u he =>
        hd u (hbehind u ⟨(hG.closed u v he).1, Digraph.mem_successors.mpr he⟩)
      refine ⟨_, hok, fun w hw => ?_⟩
      rcases List.mem_append.mp hw with hw | hw
      · have hne : w ≠ v := fun he => hn (he ▸ hw)
        simpa [hne] using hd w hw
      · obtain rfl : w = v := by simpa using hw
        exact ⟨d, by simp, hdist⟩)
    (by simp)
  exact ⟨dist, hrun, fun v hv => hd v (ho.mem_iff.mpr hv)⟩

end Distances

/-! Paths. -/

section Paths

variable [LinearOrder V] {G : Digraph V} {W : Weights V} {stt edt : V → Int}
  {dist : V → Option (Int × V)} {order : List V} {u v : V} {l : List V}

/-- A path of the graph, with one node at least. -/
structure Digraph.IsPath (G : Digraph V) (l : List V) : Prop where
  nonempty : l ≠ []
  nodes : ∀ v ∈ l, v ∈ G.nodes
  chain : l.IsChain G.Edge

omit [LinearOrder V] in
theorem weigh_snoc (l : List V) : W.weigh (l ++ [u, v]) =
    W.weigh (l ++ [u]) + W.ofEdge u v + W.ofNode v := by
  induction l with
  | nil => simp [Weights.weigh]
  | cons a l ih =>
    cases l with
    | nil =>
      simp only [List.nil_append, List.cons_append, Weights.weigh]
      omega
    | cons b l =>
      simp only [List.cons_append, Weights.weigh] at ih ⊢
      omega

/-- A path weighs no more than it takes to get to the end of its last node. -/
theorem weigh_le_edt (ht : Timed G W G.nodes stt edt) (hp : G.IsPath (l ++ [v])) :
    W.weigh (l ++ [v]) ≤ edt v := by
  induction l using List.reverseRecOn generalizing v with
  | nil =>
    have hv : v ∈ G.nodes := hp.nodes v (by simp)
    have h1 := ht.nonneg v hv
    have h2 := ht.ends v hv
    simp only [List.nil_append, Weights.weigh]
    omega
  | append_singleton l u ih =>
    have hv : v ∈ G.nodes := hp.nodes v (by simp)
    have hsplit : l ++ [u] ++ [v] = l ++ [u, v] := by simp
    rw [hsplit] at hp ⊢
    have hpu : G.IsPath (l ++ [u]) := by
      refine ⟨by simp, fun w hw => hp.nodes w ?_, ?_⟩
      · simp only [List.mem_append, List.mem_singleton] at hw
        rcases hw with hw | rfl
        · simp [hw]
        · simp
      · rw [← hsplit] at hp
        exact hp.chain.left_of_append
    have he : G.Edge u v := by
      have hc := hp.chain.right_of_append
      simpa using hc
    have h1 := ih hpu
    have h2 := ht.after v hv u he
    have h3 := ht.ends v hv
    rw [weigh_snoc]
    omega

theorem idxOf_lt (hG : G.Dag) (ho : G.TopologicalSort order) (he : G.Edge u v) :
    order.idxOf u < order.idxOf v := by
  have hv : v ∈ order := ho.mem_iff.mpr (hG.closed u v he).2
  obtain ⟨pre, post, rfl⟩ := List.append_of_mem hv
  have hu : u ∈ pre := ho.before hG rfl he
  have hn : v ∉ pre := ho.notMem_before hG rfl
  rw [List.idxOf_append_of_mem hu, List.idxOf_append_of_notMem hn]
  have := List.idxOf_lt_length_iff.mpr hu
  omega

theorem Timed.stt_le {stt' edt' : V → Int} (ht : Timed G W G.nodes stt edt)
    (ht' : Timed G W G.nodes stt' edt') (hG : G.Dag) : ∀ v ∈ G.nodes, stt v ≤ stt' v := by
  refine hG.induction fun v hv ih => ?_
  by_cases hp : G.predecessors v = []
  · rw [ht.root v hv hp]
    exact ht'.nonneg v hv
  · obtain ⟨u, he, hstt⟩ := ht.attained v hv hp
    have hu := (hG.closed u v he).1
    have h1 := ih u he
    have h2 := ht.ends u hu
    have h3 := ht'.ends u hu
    have h4 := ht'.after v hv u he
    omega

/-- The times are determined by the graph. -/
theorem Timed.unique {stt' edt' : V → Int} (ht : Timed G W G.nodes stt edt)
    (ht' : Timed G W G.nodes stt' edt') (hG : G.Dag) (hv : v ∈ G.nodes) :
    stt v = stt' v ∧ edt v = edt' v := by
  have h := le_antisymm (ht.stt_le ht' hG v hv) (ht'.stt_le ht hG v hv)
  exact ⟨h, by rw [ht.ends v hv, ht'.ends v hv, h]⟩

/-- Going back from a node gives a path to it that takes as long as its end time says. -/
theorem backtrack_ok (ht : Timed G W G.nodes stt edt) (hG : G.Dag)
    (ho : G.TopologicalSort order)
    (hd : ∀ v ∈ G.nodes, ∃ d, dist v = some d ∧ Dist G W stt edt v d) {fuel : Nat}
    (hv : v ∈ G.nodes) (hf : order.idxOf v < fuel) : ∃ back,
      backtrack dist fuel v = .ok (v :: back) ∧ G.IsPath (v :: back).reverse ∧
      W.weigh (v :: back).reverse = edt v ∧ (G.predecessors v ≠ [] → back ≠ []) := by
  induction fuel generalizing v with
  | zero => omega
  | succ fuel ih =>
    obtain ⟨d, hdv, hdist⟩ := hd v hv
    by_cases hp : G.predecessors v = []
    · have hroot := hdist.root hp
      refine ⟨[], ?_, ⟨by simp, by simpa using hv, by simp⟩, ?_, fun h => absurd hp h⟩
      · rw [backtrack, hdv, look, ok_bind, if_pos hroot]
        rfl
      · have h1 := ht.ends v hv
        have h2 := ht.root v hv hp
        simp only [List.reverse_singleton, Weights.weigh]
        omega
    · obtain ⟨he, hstt⟩ := hdist.parent hp
      have hu := (hG.closed _ v he).1
      have hne : d.2 ≠ v := by
        intro h
        rw [h] at he
        exact hG.acyclic v (.single he)
      have hlt := idxOf_lt hG ho he
      obtain ⟨back, hback, hpath, hw, -⟩ := ih hu (by omega)
      have hrev : (v :: d.2 :: back).reverse = back.reverse ++ [d.2, v] := by simp
      have hrev' : (d.2 :: back).reverse = back.reverse ++ [d.2] := by simp
      refine ⟨d.2 :: back, ?_, ⟨by simp, fun w hw => ?_, ?_⟩, ?_, fun _ => by simp⟩
      · rw [backtrack, hdv, look, ok_bind, if_neg hne, hback]
        rfl
      · simp only [List.mem_reverse, List.mem_cons] at hw
        rcases hw with rfl | hw
        · exact hv
        · exact hpath.nodes w (List.mem_reverse.mpr (List.mem_cons.mpr hw))
      · have hc := hpath.chain
        rw [List.isChain_reverse] at hc ⊢
        exact List.isChain_cons_cons.mpr ⟨he, hc⟩
      · rw [hrev, weigh_snoc, ← hrev', hw]
        have h1 := ht.ends v hv
        omega

/-- What is said of the two computations: the largest end time is the length of the path that
is returned, which is a path of the graph and weighs as much. -/
def CompletionAgrees (G : Digraph V) (W : Weights V) (order order' : List V) : Prop :=
  ∃ labels path lp, labelSchedule G W order = .ok labels ∧
    getLongestPath G W 0 order' = .ok (path, lp) ∧
    (∀ v ∈ G.nodes, ∃ l, labels v = some l ∧ l.edt ≤ lp) ∧
    (∃ v ∈ G.nodes, ∃ l, labels v = some l ∧ l.edt = lp) ∧
    G.IsPath path ∧ W.weigh path = lp

/-- What `get_longest_path` returns. -/
theorem getLongestPath_ok (ht : Timed G W G.nodes stt edt) (hG : G.Dag) (hne : G.nodes ≠ [])
    (ho : G.TopologicalSort order) : ∃ v ∈ G.nodes, ∃ path,
      getLongestPath G W 0 order = .ok (path, stt v + tail G W v) ∧
      (∀ u ∈ G.nodes, stt u + tail G W u ≤ stt v + tail G W v) ∧
      G.IsPath path ∧ W.weigh path = edt v ∧ (G.predecessors v ≠ [] → 2 ≤ path.length) := by
  obtain ⟨dist, hrun, hd⟩ := dist_ok ht hG ho
  have hlen : ∀ v ∈ G.nodes, ((dist v).getD (0, v)).1 = stt v + tail G W v := by
    intro v hv
    obtain ⟨d, hdv, hdist⟩ := hd v hv
    rw [hdv, Option.getD_some, hdist.length]
  have hone : order ≠ [] := fun he => hne (List.Perm.nil_eq (he ▸ ho.1)).symm
  obtain ⟨v, hv, hmax, hle⟩ := pyMax_spec (f := fun v => ((dist v).getD (0, v)).1)
    (fun u v => tupleBelow ((dist u).getD (0, u)) ((dist v).getD (0, v)))
    (fun a b => tupleBelow_le) (fun a b => le_of_not_tupleBelow) hone
  have hvn := ho.mem_iff.mp hv
  obtain ⟨d, hdv, hdist⟩ := hd v hvn
  obtain ⟨back, hback, hpath, hw, htwo⟩ := backtrack_ok ht hG ho hd hvn
    (List.idxOf_lt_length_iff.mpr hv)
  refine ⟨v, hvn, (v :: back).reverse, ?_, fun u hu => ?_, hpath, hw, fun hp => ?_⟩
  · rw [getLongestPath, hrun, ok_bind]
    simp only [hmax, hdv, look, ok_bind, hback, hdist.length]
    rfl
  · rw [← hlen u hu, ← hlen v hvn]
    exact hle u (ho.mem_iff.mpr hu)
  · have h0 := List.length_pos_iff.mpr (htwo hp)
    simp only [List.length_reverse, List.length_cons]
    omega

/-- A node that others lead to or that leads to others ends no later than some sink that is not
isolated. -/
theorem exists_sink_later (ht : Timed G W G.nodes stt edt) (hG : G.Dag) (hv : v ∈ G.nodes)
    (hi : ¬ G.Isolated v) : ∃ u ∈ G.nodes, edt v ≤ stt u + tail G W u := by
  have hmono : ∀ a b, G.Edge a b → edt a ≤ edt b := by
    intro a b he
    have h1 := ht.after b (hG.closed a b he).2 a he
    have h2 := ht.ends b (hG.closed a b he).2
    have h3 : 0 ≤ W.ofNode b := ofNode_nonneg
    have h4 : 0 ≤ W.ofEdge a b := ofEdge_nonneg
    omega
  obtain ⟨u, hu, hs, hp⟩ := hG.exists_sink v hv
  have hle : edt v ≤ edt u := by
    clear hs hu
    induction hp with
    | refl => exact le_rfl
    | tail _ he ih => exact ih.trans (hmono _ _ he)
  have hpre : G.predecessors u ≠ [] := by
    rcases Relation.ReflTransGen.cases_tail hp with rfl | ⟨w, -, he⟩
    · exact fun h => hi ⟨h, hs⟩
    · exact List.ne_nil_of_mem (Digraph.mem_predecessors.mpr he)
  refine ⟨u, hu, ?_⟩
  rw [tail, if_pos ⟨hpre, hs⟩, ← ht.ends u hu]
  exact hle

theorem tail_le (ht : Timed G W G.nodes stt edt) (hv : v ∈ G.nodes) :
    stt v + tail G W v ≤ edt v := by
  have h1 := ht.ends v hv
  have h2 : 0 ≤ W.ofNode v := ofNode_nonneg
  rw [tail]
  split <;> omega

/-- A distance above 0 is the one of a node that others lead to. -/
theorem predecessors_ne_nil (ht : Timed G W G.nodes stt edt) (hv : v ∈ G.nodes)
    (hpos : 0 < stt v + tail G W v) : G.predecessors v ≠ [] := by
  intro h
  have h1 := ht.root v hv h
  have h2 : tail G W v = 0 := by simp [tail, h]
  omega

/-- No node ends after the longest distance, isolated ones aside. -/
theorem edt_le_max (ht : Timed G W G.nodes stt edt) (hG : G.Dag) {c lp : Int}
    (h : ∀ v ∈ G.nodes, G.Isolated v → c < W.ofNode v →
      ∃ l, G.IsPath l ∧ 2 ≤ l.length ∧ W.ofNode v ≤ W.weigh l)
    (hmax : ∀ u ∈ G.nodes, stt u + tail G W u ≤ lp) : ∀ u ∈ G.nodes, edt u ≤ max lp c := by
  intro u hu
  by_cases hiso : G.Isolated u
  · have hend := ht.ends u hu
    have hroot := ht.root u hu hiso.1
    by_cases hpos : c < W.ofNode u
    · -- the path that is as heavy ends at a node that is not isolated
      obtain ⟨l, hpl, hlen, hle⟩ := h u hu hiso hpos
      obtain ⟨a, b, rfl⟩ : ∃ a b, l = a ++ [b] :=
        ⟨l.dropLast, l.getLast hpl.nonempty, (List.dropLast_append_getLast hpl.nonempty).symm⟩
      have hb : b ∈ G.nodes := hpl.nodes b (by simp)
      have hnot : ¬ G.Isolated b := by
        intro hib
        obtain ⟨a', c, rfl⟩ : ∃ a' c, a = a' ++ [c] := by
          have ha : a ≠ [] := by
            rintro rfl
            simp at hlen
          exact ⟨a.dropLast, a.getLast ha, (List.dropLast_append_getLast ha).symm⟩
        have he : G.Edge c b := by
          have hc := hpl.chain
          rw [List.append_assoc] at hc
          simpa using hc.right_of_append
        simpa [hib.1] using Digraph.mem_predecessors.mpr he
      obtain ⟨w, hw, hbw⟩ := exists_sink_later ht hG hb hnot
      have h1 := weigh_le_edt ht hpl
      have h2 := hmax w hw
      omega
    · omega
  · obtain ⟨w, hw, huw⟩ := exists_sink_later ht hG hu hiso
    have h1 := hmax w hw
    omega

/-- The two computations agree exactly when no isolated node is heavier than every path that
has an edge: the weight of an isolated node is no part of its distance. -/
theorem completionAgrees_iff (hG : G.Dag) (hne : G.nodes ≠ []) {order order' : List V}
    (ho : G.TopologicalSort order) (ho' : G.TopologicalSort order') :
    CompletionAgrees G W order order' ↔
      ∀ v ∈ G.nodes, G.Isolated v → 0 < W.ofNode v →
        ∃ l, G.IsPath l ∧ 2 ≤ l.length ∧ W.ofNode v ≤ W.weigh l := by
  obtain ⟨stt, edt, labels, hlabel, ht, hl⟩ := labelSchedule_ok (W := W) hG ho
  obtain ⟨v, hv, path, hrun, hmax, hpath, hw, htwo⟩ := getLongestPath_ok ht hG hne ho'
  constructor
  · rintro ⟨labels', path', lp, hlabel', hrun', hle, -, hp', hw'⟩ i hi hiso hpos
    obtain rfl : labels' = labels := Except.ok.inj (hlabel'.symm.trans hlabel)
    obtain ⟨rfl, rfl⟩ : path' = path ∧ lp = stt v + tail G W v := by
      simpa using hrun'.symm.trans hrun
    obtain ⟨l, hli, hle⟩ := hle i hi
    have hei : W.ofNode i ≤ l.edt := by
      rw [hl i hi] at hli
      obtain rfl := Option.some.inj hli
      have h1 := ht.ends i hi
      have h2 := ht.nonneg i hi
      simp only
      omega
    have hpre := predecessors_ne_nil ht hv (by omega)
    exact ⟨path', hpath, htwo hpre, by omega⟩
  · intro h
    have hall : ∀ u ∈ G.nodes, edt u ≤ stt v + tail G W v := by
      intro u hu
      have hle := edt_le_max ht hG h hmax u hu
      have hnn := ht.nonneg v hv
      have htn : 0 ≤ tail G W v := tail_nonneg
      omega
    have hlast : edt v = stt v + tail G W v := le_antisymm (hall v hv) (tail_le ht hv)
    refine ⟨labels, path, stt v + tail G W v, hlabel, hrun, fun u hu => ?_, ?_, hpath, ?_⟩
    · exact ⟨_, hl u hu, hall u hu⟩
    · exact ⟨v, hv, _, hl v hv, hlast⟩
    · rw [hw, hlast]

end Paths

/-- Two nodes of weight 2 and 3 with an edge of weight 1 between them, and a lone one of
weight 5. -/
def pairAndLoner : Digraph Nat := { nodes := [1, 2, 3], edges := [(1, 2)] }

def pairAndLonerWeights : Weights Nat where
  node v := [(1, 2), (2, 3), (3, 5)].lookup v
  edge u v := if u = 1 ∧ v = 2 then some 1 else none

/-- The lone node is done before the other two. -/
theorem pairAndLoner_agrees :
    CompletionAgrees pairAndLoner pairAndLonerWeights [1, 2, 3] [3, 1, 2] := by
  refine (completionAgrees_iff (Digraph.dag_of_lt (by decide) (by decide) (by decide)) (by decide)
    (Digraph.topologicalSort_of_before (by decide) (by decide) (by decide))
    (Digraph.topologicalSort_of_before (by decide) (by decide) (by decide))).mpr ?_
  intro v hv hlone _
  have hthree : ∀ v ∈ pairAndLoner.nodes, pairAndLoner.predecessors v = [] ∧
      pairAndLoner.successors v = [] → v = 3 := by decide
  obtain rfl := hthree v hv hlone
  exact ⟨[1, 2], ⟨by decide, by decide, by decide⟩, by decide, by decide⟩

/-- A single node of weight 5 ends at 5, and the longest path has length 0. -/
theorem lone_node_not_counted :
    ¬ ∀ (G : Digraph Nat) (W : Weights Nat) (order order' : List Nat), G.Dag → G.nodes ≠ [] →
      G.TopologicalSort order → G.TopologicalSort order' → CompletionAgrees G W order order' := by
  intro h
  have hsort : Digraph.TopologicalSort { nodes := [1] } [1] :=
    Digraph.topologicalSort_of_before (by decide) (by decide) (by decide)
  obtain ⟨labels, path, lp, -, hrun, -, -, -, hw⟩ := h { nodes := [1] }
    { node := fun _ => some 5, edge := fun _ _ => none } [1] [1]
    (Digraph.dag_of_lt (by decide) (by decide) (by decide)) (by decide) hsort hsort
  have hret : getLongestPath { nodes := [1] }
      { node := fun _ => some 5, edge := fun _ _ => none } 0 [1] = .ok ([1], 0) := rfl
  obtain ⟨rfl, rfl⟩ : path = [1] ∧ lp = 0 := by simpa using hrun.symm.trans hret
  exact absurd hw (by decide)

end Daliuge.Partition
