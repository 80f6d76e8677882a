import Daliuge.Partition.Incremental

/-!
# Linearising additions

Linearisation links a new node to the roots above its neighbour, or the leaves below its neighbour
to it, after the antichains have been listed without these links. What the part records then is
one node too wide.
-/
namespace Daliuge.Partition

open Collect Relation

/-! An antichain keeps its size when a node is exchanged for a root next to it. -/

section Exchange

variable {V : Type} [DecidableEq V] {r s : V → V → Prop} {A : List V} {t w : V}

theorem antichain_exchange (hsub : ∀ a b, r a b → s a b) (hroot : ∀ a, ¬ r a t) (he : s w t)
    (hnd : A.Nodup) (hw : w ∈ A) (hA : ∀ a ∈ A, ∀ b ∈ A, ¬ TransGen s a b) :
    (t :: A.erase w).Nodup ∧ ∀ a ∈ t :: A.erase w, ∀ b ∈ t :: A.erase w, ¬ TransGen r a b := by
  have hup : ∀ a, ¬ TransGen r a t := by
    intro a h
    obtain ⟨b, -, hb⟩ := TransGen.tail'_iff.mp h
    exact hroot b hb
  have hmono : ∀ a b, TransGen r a b → TransGen s a b :=
    fun a b h => TransGen.mono hsub _ _ h
  have hdown : ∀ b ∈ A, ¬ TransGen r t b := by
    intro b hb h
    exact hA w hw b hb (.head he (hmono t b h))
  constructor
  · refine List.nodup_cons.mpr ⟨fun ht => ?_, hnd.erase w⟩
    exact hA w hw t (List.mem_of_mem_erase ht) (.single he)
  · intro a ha b hb hab
    rcases List.mem_cons.mp hb with rfl | hb
    · exact hup a hab
    · have hb' := List.mem_of_mem_erase hb
      rcases List.mem_cons.mp ha with rfl | ha
      · exact hdown b hb' hab
      · exact hA a (List.mem_of_mem_erase ha) b hb' (hmono a b hab)

end Exchange

section Linked

variable {V : Type} [DecidableEq V] {nx : DagTools V} {P : Problem V} {G D H : Digraph V}
  {A : List V} {t u v w : V} {d : Nat}

/-- The node has been put above a root of the graph, or below a leaf of it, and the graph has got
more edges. -/
structure Above (G D : Digraph V) (w t : V) : Prop where
  sub : ∀ a b, G.Edge a b → D.Edge a b
  nodes : ∀ a ∈ D.nodes, a ∈ G.nodes ∨ a = w
  keeps : ∀ a ∈ G.nodes, a ∈ D.nodes
  mem : t ∈ G.nodes
  edge : (∀ a, ¬ G.Edge a t) ∧ D.Edge w t ∨ (∀ a, ¬ G.Edge t a) ∧ D.Edge t w

/-- It does not make the graph wider. -/
theorem Above.length_le (h : Above G D w t) (hd : G.Width d) (hA : D.Antichain A) :
    A.length ≤ d := by
  by_cases hw : w ∈ A
  · have hex : (t :: A.erase w).Nodup ∧ ∀ a ∈ t :: A.erase w, ∀ b ∈ t :: A.erase w,
        ¬ TransGen G.Edge a b := by
      rcases h.edge with ⟨hroot, he⟩ | ⟨hleaf, he⟩
      · exact antichain_exchange h.sub hroot he hA.1 hw hA.2.2
      · -- the same, with all edges turned round
        obtain ⟨hnd, hno⟩ := antichain_exchange (r := Function.swap G.Edge)
          (s := Function.swap D.Edge) (fun a b => h.sub b a) hleaf he hA.1 hw
          (fun a ha b hb hab => hA.2.2 b hb a ha (transGen_swap.mp hab))
        exact ⟨hnd, fun a ha b hb hab => hno b hb a ha (transGen_swap.mpr hab)⟩
    have hmem : ∀ a ∈ t :: A.erase w, a ∈ G.nodes := by
      intro a ha
      rcases List.mem_cons.mp ha with rfl | ha
      · exact h.mem
      · rcases h.nodes a (hA.2.1 a (List.mem_of_mem_erase ha)) with hg | rfl
        · exact hg
        · exact absurd ha (hA.1.not_mem_erase)
    have hlen : (t :: A.erase w).length = A.length := by
      rw [List.length_cons, List.length_erase_of_mem hw]
      have hpos := List.length_pos_of_mem hw
      omega
    rw [← hlen]
    exact hd.2 ⟨_, ⟨hex.1, hmem, hex.2⟩, rfl⟩
  · refine hd.2 ⟨A, ⟨hA.1, fun a ha => ?_, fun a ha b hb hab => ?_⟩, rfl⟩
    · rcases h.nodes a (hA.2.1 a ha) with hg | rfl
      · exact hg
      · exact absurd ha hw
    · exact hA.2.2 a ha b hb (TransGen.mono h.sub _ _ hab)

/-- To every node a path leads from one that nothing leads to. -/
theorem Digraph.Dag.exists_source (hG : G.Dag) : ∀ v ∈ G.nodes,
    ∃ r ∈ G.nodes, (∀ a, ¬ G.Edge a r) ∧ ReflTransGen G.Edge r v := by
  refine hG.induction fun v hv ih => ?_
  by_cases hp : ∃ a, G.Edge a v
  · obtain ⟨a, ha⟩ := hp
    obtain ⟨r, hr, hroot, hpath⟩ := ih a ha
    exact ⟨r, hr, hroot, hpath.tail ha⟩
  · exact ⟨v, hv, not_exists.mp hp, .refl⟩

/-! Looking at a graph from above or from below. -/

/-- The edges, turned round where the graph is looked at from below. -/
def Digraph.Leads (G : Digraph V) (up : Bool) (a b : V) : Prop :=
  if up then G.Edge a b else G.Edge b a

/-- The neighbours on the near side. -/
def Digraph.nearest (G : Digraph V) (up : Bool) (v : V) : List V :=
  if up then G.predecessors v else G.successors v

/-- Everything on the near side. -/
def DagTools.beyond (nx : DagTools V) (up : Bool) (G : Digraph V) (v : V) : List V :=
  if up then nx.ancestors G v else nx.descendants G v

/-- An edge from a node on the near side. -/
def Digraph.hang (G : Digraph V) (up : Bool) (w v : V) : Digraph V :=
  if up then G.addEdge w v else G.addEdge v w

section Directed

variable {up : Bool} {a b : V}

theorem mem_nearest : a ∈ G.nearest up v ↔ G.Leads up a v := by
  cases up
  · exact Digraph.mem_successors
  · exact Digraph.mem_predecessors

theorem nearest_eq_nil : G.nearest up v = [] ↔ ∀ a, ¬ G.Leads up a v := by
  simp [List.eq_nil_iff_forall_not_mem, mem_nearest]

theorem leads_hang : (G.hang up w v).Leads up a b ↔ G.Leads up a b ∨ a = w ∧ b = v := by
  cases up
  · exact Digraph.edge_addEdge.trans (or_congr_right And.comm)
  · exact Digraph.edge_addEdge

theorem mem_hang : a ∈ (G.hang up w v).nodes ↔ a ∈ G.nodes ∨ a = w ∨ a = v := by
  cases up
  · exact Digraph.mem_addEdge.trans (or_congr_right Or.comm)
  · exact Digraph.mem_addEdge

omit [DecidableEq V] in
theorem transGen_leads : TransGen (G.Leads up) a b ↔
    if up then TransGen G.Edge a b else TransGen G.Edge b a := by
  cases up
  · exact transGen_swap
  · rfl

omit [DecidableEq V] in
theorem mem_beyond (hnx : nx.Faithful) (hG : G.Dag) (hv : v ∈ G.nodes) :
    a ∈ nx.beyond up G v ↔ TransGen (G.Leads up) a v := by
  rw [transGen_leads]
  cases up
  · exact hnx.descendants G hG v hv a
  · exact hnx.ancestors G hG v hv a

omit [DecidableEq V] in
theorem Digraph.Dag.leads_closed (hG : G.Dag) (h : G.Leads up a b) :
    a ∈ G.nodes ∧ b ∈ G.nodes := by
  cases up
  · exact (hG.closed b a h).symm
  · exact hG.closed a b h

omit [DecidableEq V] in
theorem Digraph.Dag.leads_acyclic (hG : G.Dag) : ¬ TransGen (G.Leads up) a a := by
  rw [transGen_leads]
  cases up <;> exact hG.acyclic a

variable (up) in
/-- To every node a path leads from one that nothing leads to. -/
theorem Digraph.Dag.exists_first (hG : G.Dag) (hv : v ∈ G.nodes) :
    ∃ r ∈ G.nodes, (∀ a, ¬ G.Leads up a r) ∧ ReflTransGen (G.Leads up) r v := by
  cases up
  · obtain ⟨r, hr, hnil, hpath⟩ := hG.exists_sink v hv
    exact ⟨r, hr, nearest_eq_nil.mp hnil, reflTransGen_swap.mpr hpath⟩
  · exact hG.exists_source v hv

omit [DecidableEq V] in
theorem Above.of_leads (hsub : ∀ a b, G.Leads up a b → D.Leads up a b)
    (hnodes : ∀ a ∈ D.nodes, a ∈ G.nodes ∨ a = w) (hkeeps : ∀ a ∈ G.nodes, a ∈ D.nodes)
    (ht : t ∈ G.nodes) (hfirst : ∀ a, ¬ G.Leads up a t) (he : D.Leads up w t) : Above G D w t := by
  cases up
  · exact ⟨fun a b => hsub b a, hnodes, hkeeps, ht, Or.inr ⟨hfirst, he⟩⟩
  · exact ⟨hsub, hnodes, hkeeps, ht, Or.inl ⟨hfirst, he⟩⟩

theorem dag_hang (hG : G.Dag) (hw : w ∉ G.nodes) (hv : v ∈ G.nodes) : (G.hang up w v).Dag := by
  cases up
  · exact dag_sink hG hv hw
  · exact dag_source hG hw hv

variable (up) in
theorem hung_hang (hnx : nx.Faithful) (hG : G.Dag) (hw : w ∉ G.nodes) (hv : v ∈ G.nodes) :
    ∃ ups, G.Hung (G.hang up w v) w ups := by
  cases up
  · exact ⟨_, hung_sink hnx hG hv hw⟩
  · exact ⟨_, hung_source hnx hG hw hv⟩

/-- Nothing leads to the new node. -/
theorem not_leads_new (hG : G.Dag) (hw : w ∉ G.nodes) (hv : v ∈ G.nodes) :
    ¬ (G.hang up w v).Leads up a w := by
  intro h
  rcases leads_hang.mp h with h | ⟨-, rfl⟩
  · exact hw (hG.leads_closed h).2
  · exact hw hv

/-- What comes before the old node comes before it with the new one too, and nothing else. -/
theorem leads_old (hG : G.Dag) (hw : w ∉ G.nodes) (hv : v ∈ G.nodes) (haw : a ≠ w) :
    TransGen ((G.hang up w v).Leads up) a b ↔ TransGen (G.Leads up) a b :=
  transGen_source (fun _ _ => leads_hang) (fun _ => not_leads_new hG hw hv) haw

end Directed

/-! The loops that link. -/

/-- A loop that adds edges from one node to the part. -/
def Links (f : Digraph V × Edges V → V → Digraph V × Edges V) (up : Bool) (w : V) : Prop :=
  ∀ c x, (f c x).1 = c.1 ∨ (f c x).1 = c.1.hang up w x

section Loops

variable {f : Digraph V × Edges V → V → Digraph V × Edges V} {up : Bool} {l : List V}
  {c : Digraph V × Edges V}

theorem Links.spec (hf : Links f up w) :
    (∀ a b, c.1.Leads up a b → (l.foldl f c).1.Leads up a b) ∧
    (∀ a b, (l.foldl f c).1.Leads up a b → c.1.Leads up a b ∨ a = w ∧ b ∈ l) ∧
    (∀ a ∈ (l.foldl f c).1.nodes, a ∈ c.1.nodes ∨ a = w ∨ a ∈ l) ∧
    ∀ a ∈ c.1.nodes, a ∈ (l.foldl f c).1.nodes := by
  induction l generalizing c with
  | nil => exact ⟨fun _ _ h => h, fun _ _ h => Or.inl h, fun _ h => Or.inl h, fun _ h => h⟩
  | cons x l ih =>
    obtain ⟨hsub, hedge, hnodes, hkeep⟩ := ih (c := f c x)
    have hx : (∀ a b, c.1.Leads up a b → (f c x).1.Leads up a b) ∧
        (∀ a b, (f c x).1.Leads up a b → c.1.Leads up a b ∨ a = w ∧ b = x) ∧
        (∀ a ∈ (f c x).1.nodes, a ∈ c.1.nodes ∨ a = w ∨ a = x) ∧
        ∀ a ∈ c.1.nodes, a ∈ (f c x).1.nodes := by
      rcases hf c x with h | h <;> rw [h]
      · exact ⟨fun _ _ h => h, fun _ _ h => Or.inl h, fun _ h => Or.inl h, fun _ h => h⟩
      · exact ⟨fun a b he => leads_hang.mpr (Or.inl he), fun a b he => leads_hang.mp he,
          fun a ha => mem_hang.mp ha, fun a ha => mem_hang.mpr (Or.inl ha)⟩
    refine ⟨fun a b he => hsub a b (hx.1 a b he), fun a b he => ?_, fun a ha => ?_,
      fun a ha => hkeep a (hx.2.2.2 a ha)⟩
    · rcases hedge a b he with he | ⟨rfl, hb⟩
      · rcases hx.2.1 a b he with he | ⟨rfl, rfl⟩
        · exact Or.inl he
        · exact Or.inr ⟨rfl, by simp⟩
      · exact Or.inr ⟨rfl, by simp [hb]⟩
    · rcases hnodes a ha with ha | rfl | ha
      · rcases hx.2.2.1 a ha with ha | rfl | rfl
        · exact Or.inl ha
        · exact Or.inr (Or.inl rfl)
        · exact Or.inr (Or.inr (by simp))
      · exact Or.inr (Or.inl rfl)
      · exact Or.inr (Or.inr (by simp [ha]))

/-- The link of one of the nodes, where the turn of that node makes sure that it is there. -/
theorem Links.leads_of_mem (hf : Links f up w) (ht : t ∈ l)
    (hturn : ∀ c' : Digraph V × Edges V, (∀ a b, c'.1.Leads up a b → c.1.Leads up a b ∨
        a = w ∧ b ∈ l) → (f c' t).1.Leads up w t) : (l.foldl f c).1.Leads up w t := by
  obtain ⟨pre, post, rfl⟩ := List.append_of_mem ht
  rw [List.foldl_append, List.foldl_cons]
  refine hf.spec.1 _ _ (hturn _ fun a b he => ?_)
  rcases hf.spec.2.1 a b he with he | ⟨rfl, hb⟩
  · exact Or.inl he
  · exact Or.inr ⟨rfl, by simp [hb]⟩

theorem foldl_unchanged {σ α : Type} {f : σ → α → σ} {s : σ} {l : List α}
    (h : ∀ x ∈ l, f s x = s) : l.foldl f s = s := by
  induction l with
  | nil => rfl
  | cons x l ih =>
    rw [List.foldl_cons, h x (by simp)]
    exact ih fun y hy => h y (by simp [hy])

omit [DecidableEq V] in
/-- A root that is not next to the new node makes an antichain with it. -/
theorem Digraph.Hung.antichain_pair {ups : List V} (h : G.Hung H w ups) (hG : G.Dag)
    (ht : t ∈ G.nodes) (hno : ¬ TransGen H.Edge t w ∧ ¬ TransGen H.Edge w t) :
    H.Antichain [t, w] := by
  refine (h.antichain_new (A := [t])).mpr ⟨hG.antichain_singleton ht, fun a ha hups => ?_⟩
  obtain rfl := List.mem_singleton.mp ha
  rcases (h.ups a ht).mp hups with hr | hr
  · exact hno.1 hr
  · exact hno.2 hr

variable (up) in
/-- The loop over everything beyond an old node, on whose near side there is a new one: that is
linked to what comes first there, if there is anything. -/
theorem foldl_beyond (hnx : nx.Faithful) (hG : G.Dag) (hw : w ∉ G.nodes) (hv : v ∈ G.nodes)
    (hskip : ∀ c, f c w = c) (hnext : ∀ c x, x ≠ w → c.1.nearest up x ≠ [] → f c x = c)
    (hlink : ∀ c x, x ≠ w → c.1.nearest up x = [] → (f c x).1 = c.1.hang up w x) (E : Edges V) :
    G.nearest up v = [] ∧
        (nx.beyond up (G.hang up w v) v).foldl f (G.hang up w v, E) = (G.hang up w v, E) ∧
        Above G (G.hang up w v) w v ∨
      G.nearest up v ≠ [] ∧
        ∃ r, Above G ((nx.beyond up (G.hang up w v) v).foldl f (G.hang up w v, E)).1 w r ∧
          (G.hang up w v).Antichain [r, w] := by
  have hH : (G.hang up w v).Dag := dag_hang hG hw hv
  obtain ⟨ups, hhung⟩ := hung_hang up hnx hG hw hv
  have hmem : ∀ a, a ∈ nx.beyond up (G.hang up w v) v ↔
      TransGen ((G.hang up w v).Leads up) a v :=
    fun a => mem_beyond hnx hH (mem_hang.mpr (Or.inl hv))
  have hsub : ∀ a b, G.Leads up a b → (G.hang up w v).Leads up a b :=
    fun a b he => leads_hang.mpr (Or.inl he)
  have hkeeps : ∀ a ∈ G.nodes, a ∈ (G.hang up w v).nodes := fun a ha => mem_hang.mpr (Or.inl ha)
  have hnodes : ∀ a ∈ (G.hang up w v).nodes, a ∈ G.nodes ∨ a = w :=
    fun a ha => (hhung.nodes a).mp ha
  by_cases hp : G.nearest up v = []
  · refine Or.inl ⟨hp, foldl_unchanged fun a ha => ?_, .of_leads hsub hnodes hkeeps hv
      (nearest_eq_nil.mp hp) (leads_hang.mpr (Or.inr ⟨rfl, rfl⟩))⟩
    -- only the new node leads to the old one
    have haw : a = w := by
      by_contra hne
      obtain ⟨b, -, hb⟩ := TransGen.tail'_iff.mp ((leads_old hG hw hv hne).mp ((hmem a).mp ha))
      exact nearest_eq_nil.mp hp b hb
    rw [haw, hskip]
  · right
    obtain ⟨a, ha⟩ := List.exists_mem_of_ne_nil _ hp
    have hav := mem_nearest.mp ha
    obtain ⟨r, hr, hfirst, hra⟩ := hG.exists_first up (hG.leads_closed hav).1
    have hrv : TransGen (G.Leads up) r v := TransGen.tail'_iff.mpr ⟨a, hra, hav⟩
    have hrw : r ≠ w := fun he => hw (he ▸ hr)
    have hlinks : Links f up w := by
      intro c x
      by_cases hx : x = w
      · rw [hx, hskip]
        exact Or.inl rfl
      · by_cases hn : c.1.nearest up x = []
        · exact Or.inr (hlink c x hx hn)
        · rw [hnext c x hx hn]
          exact Or.inl rfl
    refine ⟨hp, r, .of_leads (fun a b he => hlinks.spec.1 a b (hsub a b he)) (fun a ha => ?_)
      (fun a ha => hlinks.spec.2.2.2 a (hkeeps a ha)) hr hfirst ?_, ?_⟩
    · rcases hlinks.spec.2.2.1 a ha with ha | rfl | ha
      · exact hnodes a ha
      · exact Or.inr rfl
      · obtain ⟨b, he, -⟩ := TransGen.head'_iff.mp ((hmem a).mp ha)
        exact hnodes a (hH.leads_closed he).1
    · refine hlinks.leads_of_mem ((hmem r).mpr (TransGen.mono hsub _ _ hrv)) fun c hc => ?_
      by_cases hn : c.1.nearest up r = []
      · rw [hlink c r hrw hn]
        exact leads_hang.mpr (Or.inr ⟨rfl, rfl⟩)
      · -- whatever leads to the first one now is such a link
        rw [hnext c r hrw hn]
        obtain ⟨b, hb⟩ := List.exists_mem_of_ne_nil _ hn
        have hbr := mem_nearest.mp hb
        rcases hc b r hbr with he | ⟨rfl, -⟩
        · rcases leads_hang.mp he with he | ⟨-, rfl⟩
          · exact absurd he (hfirst b)
          · exact absurd hav (hfirst a)
        · exact hbr
    · -- no path leads from the first one to the new node, or back
      have hto : ¬ TransGen ((G.hang up w v).Leads up) r w := by
        intro h
        obtain ⟨b, -, he⟩ := TransGen.tail'_iff.mp h
        exact not_leads_new hG hw hv he
      have hback : ¬ TransGen ((G.hang up w v).Leads up) w r := by
        intro h
        obtain ⟨b, -, he⟩ := TransGen.tail'_iff.mp h
        rcases leads_hang.mp he with he | ⟨-, rfl⟩
        · exact hfirst b he
        · exact hG.leads_acyclic hrv
      refine hhung.antichain_pair hG hr ?_
      rw [transGen_leads] at hto hback
      cases up
      · exact ⟨hback, hto⟩
      · exact ⟨hto, hback⟩

end Loops

/-- A new node above an old one: it is linked to the roots above that, if there are any. -/
theorem linearise_source (hnx : nx.Faithful) (hG : G.Dag) (hu : u ∉ G.nodes) (hv : v ∈ G.nodes)
    (E : Edges V) :
    G.predecessors v = [] ∧
        Partition.linearise nx true u v (G.addEdge u v) E = (G.addEdge u v, E) ∧
        Above G (G.addEdge u v) u v ∨
      G.predecessors v ≠ [] ∧
        ∃ r, Above G (Partition.linearise nx true u v (G.addEdge u v) E).1 u r ∧
          (G.addEdge u v).Antichain [r, u] := by
  refine foldl_beyond true hnx hG hu hv (fun c => if_pos rfl) (fun c x hx hn => ?_)
    (fun c x hx hn => ?_) E
  · exact (if_neg (Ne.symm hx)).trans (if_neg hn)
  · have hroot : c.1.predecessors x = [] := hn
    rw [if_neg (Ne.symm hx), if_pos hroot]
    rfl

/-- A new node below an old one: the leaves below that are linked to it, if there are any. -/
theorem linearise_sink (hnx : nx.Faithful) (hG : G.Dag) (hu : u ∈ G.nodes) (hv : v ∉ G.nodes)
    (E : Edges V) :
    G.successors u = [] ∧
        Partition.linearise nx false u v (G.addEdge u v) E = (G.addEdge u v, E) ∧
        Above G (G.addEdge u v) v u ∨
      G.successors u ≠ [] ∧
        ∃ r, Above G (Partition.linearise nx false u v (G.addEdge u v) E).1 v r ∧
          (G.addEdge u v).Antichain [r, v] := by
  refine foldl_beyond false hnx hG hv hu (fun c => if_pos rfl) (fun c x hx hn => ?_)
    (fun c x hx hn => ?_) E
  · exact (if_neg hx).trans (if_neg hn)
  · have hleaf : c.1.successors x = [] := hn
    rw [if_neg hx, if_pos hleaf]
    rfl

end Linked

/-! Runs with linearisation. -/

section Runs

variable {V : Type} [DecidableEq V] {nx : DagTools V} {P : Problem V} {p q r : Partition V}
  {E E' : Edges V} {u v : V} {s t : Partition V × Edges V} {c : Call V}
  {l : List (Call V × (Partition V × Edges V))}

/-- The part records the size of its largest antichain, and its edges are edges of the graph. -/
def Honest (s : Partition V × Edges V) : Prop :=
  s.1.dag.nodes ≠ [] → (∃ d, s.1.maxDop = some d ∧ s.1.dag.Width d) ∧
    ∀ a b, s.1.dag.Edge a b → s.2.graph.Edge a b

/-- A linearising addition has nothing to link: nothing in the part leads to the old node that the
new one is put above, and the old node that the new one is put below leads to nothing. -/
def NothingToLink (s : Partition V × Edges V) : Call V → Prop
  | .linearise u v => (u ∉ s.1.dag.nodes → s.1.dag.predecessors v = []) ∧
      (v ∉ s.1.dag.nodes → s.1.dag.successors u = [])
  | _ => True

/-- So it is at every call of a run. -/
def NeverLinks : Partition V × Edges V → List (Call V × (Partition V × Edges V)) → Prop
  | _, [] => True
  | s, (c, t) :: l => NothingToLink s c ∧ NeverLinks t l

/-- What a run keeps while nothing is linked. -/
structure Kept (P : Problem V) (s : Partition V × Edges V) : Prop where
  exact : s.1.Exact
  edges : ∀ a b, s.1.dag.Edge a b → s.2.graph.Edge a b
  asked : ∀ ask d, P.askNumCpus = .ok ask → s.1.dag.Width d → d ≤ max 1 ask

theorem Kept.width_le {ask d : Nat} (hs : Kept P (p, E)) (hask : P.askNumCpus = .ok ask)
    {D : Digraph V} {w t : V} (h : Above p.dag D w t) (hd : D.Width d) : d ≤ max 1 ask := by
  obtain ⟨d', -, hw⟩ := hs.exact.dop
  obtain ⟨A, hA, rfl⟩ := hd.1
  exact (h.length_le hw hA).trans (hs.asked ask d' hask hw)

/-- What a linearising addition does, with something to link and without. -/
theorem Kept.linearise (hnx : nx.Faithful) (hs : Kept P (p, E)) (hp : p.Asked E u v)
    (hc : p.canAdd nx P u v = .ok (false, q)) (ha : q.add nx P u v true E = .ok (r, E')) :
    NothingToLink (p, E) (.linearise u v) ∧ Kept P (r, E') ∨
      ¬ NothingToLink (p, E) (.linearise u v) ∧ ¬ Honest (r, E') := by
  have ho : p.OneInside u v := by simpa [hs.exact.nonempty] using hp.2
  obtain ⟨newAc, d, ask, hf, hask, hca, rfl⟩ := hs.exact.canAdd hnx ho hc
  obtain ⟨D, hD, rfl⟩ := hs.exact.add_ok ho ha
  have hlt : ask < d := by simpa using hca
  have hcases : NothingToLink (p, E) (.linearise u v) ∧ (D, E') = (p.dag.addEdge u v, E) ∧
        (∃ w t, Above p.dag (p.dag.addEdge u v) w t) ∨
      ¬ NothingToLink (p, E) (.linearise u v) ∧
        ∃ w t, Above p.dag D w t ∧ (p.dag.addEdge u v).Antichain [t, w] := by
    rcases ho with ⟨hu, hv⟩ | ⟨hu, hv⟩
    · simp only [hu, not_true_eq_false, decide_false, if_true] at hD
      rcases linearise_sink hnx hs.exact.dag hu hv E with ⟨hn, he, hab⟩ | ⟨hn, t, hab, hanti⟩
      · exact Or.inl ⟨⟨fun h => absurd hu h, fun _ => hn⟩, hD.trans he, _, _, hab⟩
      · refine Or.inr ⟨fun h => hn (h.2 hv), _, t, ?_, hanti⟩
        rw [← hD] at hab
        exact hab
    · simp only [hu, not_false_eq_true, decide_true, if_true] at hD
      rcases linearise_source hnx hs.exact.dag hu hv E with ⟨hn, he, hab⟩ | ⟨hn, t, hab, hanti⟩
      · exact Or.inl ⟨⟨fun _ => hn, fun h => absurd hv h⟩, hD.trans he, _, _, hab⟩
      · refine Or.inr ⟨fun h => hn (h.1 hu), _, t, ?_, hanti⟩
        rw [← hD] at hab
        exact hab
  rcases hcases with ⟨hn, he, w, t, hab⟩ | ⟨hn, w, t, hab, hanti⟩
  · obtain ⟨rfl, rfl⟩ := Prod.mk.inj he
    refine Or.inl ⟨hn, hf.exact, fun a b hab => ?_, fun ask' d' hask' hd' => ?_⟩
    · rcases Digraph.edge_addEdge.mp hab with he | ⟨rfl, rfl⟩
      · exact hs.edges a b he
      · exact hp.1
    · exact hs.width_le hask' hab hd'
  · -- the probe has counted two nodes that are linked by now
    refine Or.inr ⟨hn, fun hh => ?_⟩
    have hne : D.nodes ≠ [] := List.ne_nil_of_mem (hab.keeps t hab.mem)
    obtain ⟨⟨d', hd', hw⟩, -⟩ := hh hne
    obtain rfl := Option.some.inj hd'
    have hle := hs.width_le hask hab hw
    have htwo : 2 ≤ d := hf.width.2 ⟨_, hanti, rfl⟩
    omega

/-- Every other call. -/
theorem Step.kept (hnx : nx.Faithful) (h : Step nx P s c t) (hc : ∀ u v, c ≠ .linearise u v)
    (hs : s.1.dag = {} ∨ Kept P s) : t.1.dag = {} ∨ Kept P t := by
  cases h with
  | linearise => exact absurd rfl (hc _ _)
  | elsewhere hE =>
    rcases hs with he | hk
    · exact Or.inl he
    · exact Or.inr ⟨hk.exact, fun a b he => hE a b (hk.edges a b he), hk.asked⟩
  | @probe p q E u v ca hp hcan =>
    rcases hs with he | hk
    · obtain ⟨-, rfl⟩ := canAdd_empty he hcan
      exact Or.inl he
    · have ho : p.OneInside u v := by simpa [hk.exact.nonempty] using hp.2
      obtain ⟨newAc, d, ask, -, -, -, rfl⟩ := hk.exact.canAdd hnx ho hcan
      exact Or.inr ⟨hk.exact.tmp, hk.edges, hk.asked⟩
  | @join p q r E E' u v hp hcan ha =>
    right
    rcases hs with he | hk
    · have huv : u ≠ v := by simpa [show p.dag = {} from he] using hp.2
      obtain ⟨-, rfl⟩ := canAdd_empty he hcan
      obtain ⟨hex, hdag, hdop, rfl⟩ := add_first hnx he huv ha
      refine ⟨hex, fun a b hab => ?_, fun ask d _ hd => ?_⟩
      · rw [hdag] at hab
        rcases Digraph.edge_addEdge.mp hab with hab | ⟨rfl, rfl⟩
        · simp [Digraph.Edge] at hab
        · exact hp.1
      · obtain ⟨d', hd', hw⟩ := hex.dop
        obtain rfl := Option.some.inj (hdop.symm.trans hd')
        rw [hd.unique hw]
        exact le_max_left 1 ask
    · have ho : p.OneInside u v := by simpa [hk.exact.nonempty] using hp.2
      obtain ⟨newAc, d, ask, hf, hask, hca, rfl⟩ := hk.exact.canAdd hnx ho hcan
      obtain ⟨dag, hd, rfl⟩ := hk.exact.add_ok ho ha
      obtain ⟨rfl, rfl⟩ := Prod.mk.inj hd
      refine ⟨hf.exact, fun a b hab => ?_, fun ask' d' hask' hd' => ?_⟩
      · rcases Digraph.edge_addEdge.mp hab with he | ⟨rfl, rfl⟩
        · exact hk.edges a b he
        · exact hp.1
      · obtain rfl := Except.ok.inj (hask.symm.trans hask')
        rw [hd'.unique hf.width]
        exact (of_decide_eq_true hca.symm).trans (le_max_right 1 ask)

omit [DecidableEq V] in
theorem Kept.honest (h : s.1.dag = {} ∨ Kept P s) : Honest s := by
  intro hne
  rcases h with he | hk
  · exact absurd (by rw [he]) hne
  · exact ⟨hk.exact.dop, hk.edges⟩

/-- In a run a part stays honest exactly when no linearising addition has anything to link. -/
theorem honest_iff_neverLinks (hnx : nx.Faithful) (h : IsRun nx P s l) (hs : s.1.dag = {}) :
    (∀ c t, (c, t) ∈ l → Honest t) ↔ NeverLinks s l := by
  have hall : ∀ (l : List (Call V × (Partition V × Edges V))) s, IsRun nx P s l →
      (s.1.dag = {} ∨ Kept P s) → ((∀ c t, (c, t) ∈ l → Honest t) ↔ NeverLinks s l) := by
    intro l
    induction l with
    | nil => simp [NeverLinks]
    | cons y l ih =>
      obtain ⟨c, t⟩ := y
      rintro s ⟨hstep, hr⟩ hk
      have hgood : NothingToLink s c → (t.1.dag = {} ∨ Kept P t) →
          ((∀ c' t', (c', t') ∈ (c, t) :: l → Honest t') ↔ NeverLinks s ((c, t) :: l)) := by
        intro hn ht
        have hrest := ih t hr ht
        constructor
        · intro hh
          exact ⟨hn, hrest.mp fun c' t' hm => hh c' t' (by simp [hm])⟩
        · rintro ⟨-, hl⟩ c' t' hm
          rcases List.mem_cons.mp hm with he | hm
          · obtain ⟨rfl, rfl⟩ := Prod.mk.inj he
            exact Kept.honest ht
          · exact hrest.mpr hl c' t' hm
      by_cases hc : ∃ u v, c = .linearise u v
      · obtain ⟨u, v, rfl⟩ := hc
        cases hstep with
        | @linearise p q r E E' _ _ hp hcan ha =>
          rcases hk with he | hk
          · obtain ⟨hf, -⟩ := canAdd_empty he hcan
            exact absurd hf (by simp)
          · rcases hk.linearise hnx hp hcan ha with ⟨hn, ht⟩ | ⟨hn, ht⟩
            · exact hgood hn (Or.inr ht)
            · constructor
              · exact fun hh => absurd (hh _ _ List.mem_cons_self) ht
              · exact fun hl => absurd hl.1 hn
      · have hne : ∀ u v, c ≠ .linearise u v := fun u v he => hc ⟨u, v, he⟩
        refine hgood ?_ (hstep.kept hnx hne hk)
        cases c with
        | linearise u v => exact absurd rfl (hne u v)
        | _ => trivial
  exact hall l s h (Or.inl hs)

/-- One node leads to another one directly and through two others. -/
def detour (cpus : Nat) : Problem Nat where
  dag := { nodes := [1, 2, 3, 4], edges := [(1, 4), (1, 2), (2, 3), (3, 4)] }
  nodeWeight _ := some 1
  edgeWeight _ _ := 5
  resource _ _ := some 1
  dropCount := 4
  maxDop := .dict [("num_cpus", some cpus)]

def unplacedDetour (cpus : Nat) : Partition Nat × Edges Nat :=
  ({ partitionId := 5 }, { graph := (detour cpus).dag, weight := (detour cpus).edgeWeight })

/-- Every probe is refused, and nothing has to be linked. -/
theorem detour_chain : ∃ l, IsRun pathTools (detour 0) (unplacedDetour 0) l ∧
    l.map Prod.fst = [.join 1 2, .linearise 2 3] ∧ ∀ c t, (c, t) ∈ l → Honest t := by
  have hrun : ∃ s₁ s₂, IsRun pathTools (detour 0) (unplacedDetour 0)
      [(.join 1 2, s₁), (.linearise 2 3, s₂)] ∧
      s₁.1.dag = { nodes := [1, 2], edges := [(1, 2)] } :=
    ⟨_, _, ⟨.join (by decide) rfl rfl, .linearise (by decide) rfl rfl, trivial⟩, rfl⟩
  obtain ⟨s₁, s₂, hrun, hdag⟩ := hrun
  refine ⟨_, hrun, rfl, (honest_iff_neverLinks pathTools_faithful hrun rfl).mpr ?_⟩
  have hmem : 2 ∈ s₁.1.dag.nodes := by
    rw [hdag]
    decide
  refine ⟨trivial, ⟨fun h => absurd hmem h, fun _ => ?_⟩, trivial⟩
  rw [hdag]
  decide

/-- The link from 3 to 1 is in the part only, where it leaves nothing side by side; the part still
records two. -/
theorem detour_linked : ∃ l c t, IsRun pathTools (detour 1) (unplacedDetour 1) l ∧
    l.map Prod.fst = [.join 1 4, .linearise 3 4] ∧ (c, t) ∈ l ∧
    t.1.maxDop = some 2 ∧ ¬ t.1.dag.Width 2 ∧ t.1.dag.Edge 3 1 ∧ ¬ t.2.graph.Edge 3 1 := by
  have hrun : ∃ s₁ s₂, IsRun pathTools (detour 1) (unplacedDetour 1)
      [(.join 1 4, s₁), (.linearise 3 4, s₂)] ∧ s₂.1.maxDop = some 2 ∧
      s₂.1.dag = { nodes := [1, 4, 3], edges := [(1, 4), (3, 4), (3, 1)] } ∧
      s₂.2.graph.edges = (detour 1).dag.edges :=
    ⟨_, _, ⟨.join (by decide) rfl rfl, .linearise (by decide) rfl rfl, trivial⟩, rfl, rfl, rfl⟩
  obtain ⟨s₁, s₂, hrun, hdop, hdag, hedges⟩ := hrun
  refine ⟨_, .linearise 3 4, s₂, hrun, rfl, by simp, hdop, ?_, ?_, ?_⟩
  · rintro ⟨⟨A, hA, hlen⟩, -⟩
    rw [hdag] at hA
    have hpair : ∀ a ∈ [1, 4, 3], ∀ b ∈ [1, 4, 3], a ≠ b →
        (a, b) ∈ [(1, 4), (3, 4), (3, 1)] ∨ (b, a) ∈ [(1, 4), (3, 4), (3, 1)] := by decide
    match A, hA, hlen with
    | [a, b], hA, _ =>
      have hab : a ≠ b := by
        rintro rfl
        exact (List.nodup_cons.mp hA.1).1 (by simp)
      rcases hpair a (hA.2.1 a (by simp)) b (hA.2.1 b (by simp)) hab with he | he
      · exact hA.2.2 a (by simp) b (by simp) (.single he)
      · exact hA.2.2 b (by simp) a (by simp) (.single he)
  · rw [hdag]
    simp [Digraph.Edge]
  · unfold Digraph.Edge
    rw [hedges]
    decide

end Runs

end Daliuge.Partition
