import Daliuge.Lib.Exchange
import Daliuge.Unroll.InputOrder

/-!
# The admission of links

The constructor looks at one link after the other. Unless a link leaves a Gather, what it does
with one depends on the links before it in a single way: a GroupBy takes no second input.
-/
namespace Daliuge.Unroll

open Collect

/-! What the links leave in the inputs. -/

section Inputs

variable {g g' : LogicalGraph} {i i' : Inputs} {id n m : NodeId} {links links' : List Link}

theorem mem_of : m ∈ i.of id ↔ (id, m) ∈ i := by
  simp [Inputs.of]

theorem of_add : (i.add n m).of id =
    if n = id then (if m ∈ i.of id then i.of id else i.of id ++ [m]) else i.of id := by
  unfold Inputs.add
  by_cases hn : n = id
  · subst hn
    simp only [mem_of, if_true]
    split
    · rfl
    · simp [Inputs.of]
  · split
    · simp
    · simp [Inputs.of, hn]

theorem head_add {x : NodeId} (h : (i.of id).head? = some x) :
    ((i.add n m).of id).head? = some x := by
  rw [of_add]
  split
  · split
    · exact h
    · rw [List.head?_append, h]
      rfl
  · exact h

theorem Choices.add (h : Choices g i i') : Choices g (i.add n m) (i'.add n m) where
  linked k hk ha he := by
    obtain ⟨⟨x, hx, hi⟩, y, hy, hi'⟩ := h.linked k hk ha he
    exact ⟨⟨x, hx, head_add hi⟩, y, hy, head_add hi'⟩
  others k hk ha he := by simp only [of_add, h.others k hk ha he]

/-- Inputs that differ in their order, and in the choice of the first ones. -/
structure Exchanged (g g' : LogicalGraph) (i i' : Inputs) : Prop where
  forest : g'.forest = g.forest
  sessionId : g'.sessionId = g.sessionId
  perm : ∀ id, (i'.of id).Perm (i.of id)
  choices : Choices g i i'

theorem Exchanged.alike (h : Exchanged g g' i i') (hs : Settled g) : Alike g g' i i' :=
  ⟨h.forest, h.sessionId, h.perm, hs i i' h.choices⟩

theorem Exchanged.add (h : Exchanged g g' i i') : Exchanged g g' (i.add n m) (i'.add n m) where
  forest := h.forest
  sessionId := h.sessionId
  perm id := by
    have hp := h.perm id
    simp only [of_add, hp.mem_iff]
    split
    · split
      · exact hp
      · exact hp.append_right _
    · exact hp
  choices := h.choices.add

/-- What a link adds to the inputs. -/
def Inputs.record (i : Inputs) (lk : Link) : Inputs := i.add lk.target lk.source

theorem mem_record {lk : Link} :
    m ∈ (i.record lk).of id ↔ m ∈ i.of id ∨ lk.target = id ∧ lk.source = m := by
  rw [Inputs.record, of_add]
  split
  · split
    · rename_i hm
      constructor
      · exact Or.inl
      · rintro (h | ⟨-, rfl⟩)
        · exact h
        · exact hm
    · simp [*, eq_comm]
  · simp [*]

theorem mem_records : m ∈ (links.foldl Inputs.record i).of id ↔
    m ∈ i.of id ∨ ∃ lk ∈ links, lk.target = id ∧ lk.source = m := by
  induction links generalizing i with
  | nil => simp
  | cons lk links ih => simp [ih, mem_record, or_assoc]

theorem nodup_records (h : (i.of id).Nodup) : ((links.foldl Inputs.record i).of id).Nodup := by
  induction links generalizing i with
  | nil => exact h
  | cons lk links ih =>
    refine ih ?_
    rw [Inputs.record, of_add]
    split
    · split
      · exact h
      · rename_i hm
        exact List.Nodup.append h (by simp) (by simpa using hm)
    · exact h

/-- The inputs of a node come from the links to it. -/
theorem records_filter : (links.foldl Inputs.record i).of id =
    ((links.filter (·.target == id)).foldl Inputs.record i).of id := by
  refine Exchange.view_foldl_filter (fun i => i.of id) (fun i lk ht => ?_)
    (fun i i' lk h => ?_) i
  · have hne : lk.target ≠ id := by simpa using ht
    simp [Inputs.record, of_add, hne]
  · simp only [Inputs.record, of_add, h]

/-- The first input of a node that links enter is one they give it. -/
theorem head_records (hl : links.Perm g.links) (he : g.entering id ≠ []) :
    ∃ m ∈ g.entering id, ((links.foldl Inputs.record []).of id).head? = some m := by
  have hmem : ∀ m, m ∈ (links.foldl Inputs.record []).of id ↔ m ∈ g.entering id := by
    intro m
    rw [mem_records]
    simp [hl.mem_iff, LogicalGraph.entering, Inputs.of, and_assoc]
  obtain ⟨k, hk⟩ := List.exists_mem_of_ne_nil _ he
  have hne : (links.foldl Inputs.record []).of id ≠ [] := List.ne_nil_of_mem ((hmem k).mpr hk)
  exact ⟨_, (hmem _).mp (List.head_mem hne), List.head?_eq_some_head hne⟩

theorem records_nil (hl : links.Perm g.links) (he : g.entering id = []) :
    (links.foldl Inputs.record []).of id = [] := by
  have hnone : links.filter (·.target == id) = [] := by
    refine ((hl.filter _).trans ?_).eq_nil
    rw [List.map_eq_nil_iff.mp he]
  rw [records_filter, hnone]
  rfl

/-- The inputs after the same links in another order. -/
theorem records_exchanged (hf : g'.forest = g.forest) (hs : g'.sessionId = g.sessionId)
    (hl : links.Perm g.links) :
    Exchanged g g' (g.links.foldl Inputs.record []) (links.foldl Inputs.record []) where
  forest := hf
  sessionId := hs
  perm id := by
    have hnil : (Inputs.of [] id).Nodup := List.nodup_nil
    refine (List.perm_ext_iff_of_nodup (nodup_records hnil) (nodup_records hnil)).mpr fun m => ?_
    simp only [mem_records, hl.mem_iff]
  choices := {
    linked := fun n _ _ he => ⟨head_records (List.Perm.refl _) he, head_records hl he⟩
    others := fun n _ _ he => by rw [records_nil hl he, records_nil (List.Perm.refl _) he] }

end Inputs

/-! The checks of a link. -/

section Validation

variable {g g' : LogicalGraph} {i i' : Inputs} {s t n : LGNode}

theorem validateGroupBy_ok : validateGroupBy i s t = .ok () ↔
    (t.isConstruct .groupBy = true →
      s.isGroup = false ∧ i.of t.id = [] ∧ s.gid ≠ .int 0) ∧
    (s.isConstruct .groupBy = true → t.isConstruct .gather = true) := by
  unfold validateGroupBy
  by_cases ht : t.isConstruct .groupBy = true
  · by_cases hs : s.isGroup = true
    · simp [ht, hs, bind, Except.bind]
    · by_cases hi : i.of t.id = []
      · by_cases hg : s.gid = .int 0
        · simp [ht, hs, hi, hg, bind, Except.bind]
        · by_cases hb : s.isConstruct .groupBy = true <;>
            simp [ht, hs, hi, hg, hb, pure, Except.pure]
      · have hl : 0 < (i.of t.id).length := List.length_pos_iff.mpr hi
        simp [ht, hs, hi, hl, bind, Except.bind]
  · by_cases hb : s.isConstruct .groupBy = true <;>
      simp [ht, hb, pure, Except.pure]

/-- A GroupBy takes one input. -/
theorem validateLink_fresh (h : validateLink g i s t = .ok ())
    (ht : t.node.handler = .ok .groupBy) : i.of t.id = [] := by
  obtain ⟨ks, hks, h⟩ := bind_ok.mp h
  obtain ⟨u, hu, h⟩ := bind_ok.mp h
  obtain ⟨k, hk, h⟩ := bind_ok.mp h
  obtain rfl : .groupBy = k := by simpa [ht] using hk
  obtain ⟨u, hv, -⟩ := bind_ok.mp h
  exact ((validateGroupBy_ok.mp hv).1 ((Node.category_of_handler ht).2 rfl).1).2.1

theorem dop_loop (h : n.isConstruct .loop = true) : g'.dop i' n = g.dop i n := by
  have hc : n.node.isGroup = true ∧ n.node.category = .loop := by
    simpa [LGNode.isConstruct, Node.isConstruct] using h
  simp [LogicalGraph.dop, dopAt, Node.handler, hc.1, hc.2, bind, Except.bind]

theorem loopsSynchronised_eq {ss ts : List Node} :
    loopsSynchronised g' i' ss ts = loopsSynchronised g i ss ts := by
  induction ss generalizing ts with
  | nil => rfl
  | cons a ss ih =>
    cases ts with
    | nil => rfl
    | cons b ts =>
      simp only [loopsSynchronised]
      split
      · rename_i hc
        obtain ⟨ha, hb⟩ := Bool.and_eq_true_iff.mp hc
        rw [dop_loop (n := ⟨a, ss⟩) ha, dop_loop (n := ⟨b, ts⟩) hb, ih]
      · rfl

/-- The checks of the handlers, but for the one of a GroupBy that gets a link. -/
theorem Handler.validateLink_eq {k : Handler} (hs : s.isConstruct .gather = false)
    (hk : k = .groupBy → i'.of t.id = i.of t.id) :
    k.validateLink g' i' s t = k.validateLink g i s t := by
  cases k with
  | gather => simp [Handler.validateLink, validateGather, hs]
  | groupBy => simp [Handler.validateLink, validateGroupBy, hk rfl]
  | _ => rfl

/-- A link that does not leave a Gather is admitted whatever came before it. -/
theorem validateLink_ok (hs : s.isConstruct .gather = false)
    (h : validateLink g i s t = .ok ()) (ht : t.node.handler = .ok .groupBy → i'.of t.id = []) :
    validateLink g' i' s t = .ok () := by
  have hfresh := validateLink_fresh h
  obtain ⟨k, hk, h⟩ := bind_ok.mp h
  obtain ⟨u, hv, h⟩ := bind_ok.mp h
  obtain ⟨k', hk', h⟩ := bind_ok.mp h
  obtain ⟨u', hv', h⟩ := bind_ok.mp h
  refine bind_ok.mpr ⟨k, hk, bind_ok.mpr ⟨(), ?_, bind_ok.mpr ⟨k', hk', bind_ok.mpr ⟨(), ?_, ?_⟩⟩⟩⟩
  · by_cases hg : k = .groupBy
    · subst hg
      -- a GroupBy has no link to another
      obtain ⟨hin, hout⟩ := validateGroupBy_ok.mp hv
      refine validateGroupBy_ok.mpr ⟨fun hc => ?_, hout⟩
      have hsg : s.isGroup = true := ((Node.category_of_handler hk).2 rfl).2
      simp [(hin hc).1] at hsg
    · rw [← hv]
      exact Handler.validateLink_eq hs fun h => absurd h hg
  · rw [← hv']
    exact Handler.validateLink_eq hs fun hg => by
      subst hg
      rw [ht hk', hfresh hk']
  · rw [← h, validateHierarchy, validateHierarchy, loopsSynchronised_eq (g := g) (i := i)]

end Validation

/-! The loop over the links. -/

section Loop

variable {g g' : LogicalGraph} {i r : Inputs} {links links' : List Link} {lk : Link}

/-- Whether a link leaves a Gather. -/
def LogicalGraph.leavesGather (g : LogicalGraph) (lk : Link) : Bool :=
  g.nodes.any fun n => n.id == lk.source && n.isConstruct .gather

/-- A link that is admitted as the first one. -/
def Admissible (g : LogicalGraph) (lk : Link) : Prop :=
  ∃ s t, g.node lk.source = .ok s ∧ g.node lk.target = .ok t ∧ validateLink g [] s t = .ok ()

/-- The links to each GroupBy that are still to come are at most as many as it can take. -/
def Unclaimed (g : LogicalGraph) (i : Inputs) (links : List Link) : Prop :=
  ∀ n ∈ g.nodes, n.node.handler = .ok .groupBy → (links.filter (·.target == n.id)).length ≤ 1 ∧
    (i.of n.id ≠ [] → links.filter (·.target == n.id) = [])

theorem addLink_ok : g.addLink i lk = .ok r ↔ ∃ s t, g.node lk.source = .ok s ∧
    g.node lk.target = .ok t ∧ validateLink g i s t = .ok () ∧ r = i.record lk := by
  constructor
  · intro h
    obtain ⟨s, hs, h⟩ := bind_ok.mp h
    obtain ⟨t, ht, h⟩ := bind_ok.mp h
    obtain ⟨u, hv, h⟩ := bind_ok.mp h
    refine ⟨s, t, hs, ht, hv, ?_⟩
    rw [← pure_ok.mp h, (mem_nodes_of_node hs).2, (mem_nodes_of_node ht).2, Inputs.record]
  · rintro ⟨s, t, hs, ht, hv, rfl⟩
    refine bind_ok.mpr ⟨s, hs, bind_ok.mpr ⟨t, ht, bind_ok.mpr ⟨(), hv, pure_ok.mpr ?_⟩⟩⟩
    rw [(mem_nodes_of_node hs).2, (mem_nodes_of_node ht).2, Inputs.record]

theorem not_gather_of_node {s : LGNode} (h : g.leavesGather lk = false)
    (hs : g.node lk.source = .ok s) : s.isConstruct .gather = false := by
  obtain ⟨hm, hid⟩ := mem_nodes_of_node hs
  have hn := List.any_eq_false.mp h s hm
  simpa [hid] using hn

theorem foldlM_addLink (hout : ∀ lk ∈ links, g.leavesGather lk = false)
    (h : links.foldlM g.addLink i = .ok r) :
    (∀ lk ∈ links, Admissible g lk) ∧ Unclaimed g i links ∧ r = links.foldl Inputs.record i := by
  induction links generalizing i with
  | nil =>
    obtain rfl : i = r := by simpa [pure, Except.pure] using h
    exact ⟨by simp, fun n _ _ => by simp, rfl⟩
  | cons lk links ih =>
    rw [List.foldlM_cons] at h
    obtain ⟨j, hj, h⟩ := bind_ok.mp h
    obtain ⟨s, t, hs, ht, hv, rfl⟩ := addLink_ok.mp hj
    obtain ⟨hadm, hun, hr⟩ := ih (fun l hl => hout l (by simp [hl])) h
    have hgather := not_gather_of_node (hout lk (by simp)) hs
    refine ⟨?_, ?_, hr⟩
    · intro l hl
      rcases List.mem_cons.mp hl with rfl | hl
      · exact ⟨s, t, hs, ht, validateLink_ok hgather hv fun _ => rfl⟩
      · exact hadm l hl
    · intro n hn hg
      obtain ⟨hone, hnone⟩ := hun n hn hg
      by_cases htn : lk.target = n.id
      · -- its only input: no other link may follow
        obtain rfl : t = n := eq_of_id (mem_nodes_of_node ht).1 hn
          ((mem_nodes_of_node ht).2.trans htn)
        have hi : i.of t.id = [] := validateLink_fresh hv hg
        have hrest := hnone (List.ne_nil_of_mem (mem_record.mpr (Or.inr ⟨htn, rfl⟩)))
        simp [htn, hrest, hi]
      · have hsame : (i.record lk).of n.id = i.of n.id := by simp [Inputs.record, of_add, htn]
        rw [hsame] at hnone
        simp only [List.filter_cons, beq_iff_eq, htn, if_false]
        exact ⟨hone, hnone⟩

theorem foldlM_addLink_ok (hf : g'.forest = g.forest)
    (hout : ∀ lk ∈ links, g.leavesGather lk = false) (hadm : ∀ lk ∈ links, Admissible g lk)
    (hun : Unclaimed g i links) :
    links.foldlM g'.addLink i = .ok (links.foldl Inputs.record i) := by
  induction links generalizing i with
  | nil => rfl
  | cons lk links ih =>
    obtain ⟨s, t, hs, ht, hv⟩ := hadm lk (by simp)
    have hnode : g'.node = g.node := by
      funext id
      simp [LogicalGraph.node, LogicalGraph.nodes, hf]
    have hadd : g'.addLink i lk = .ok (i.record lk) := by
      refine addLink_ok.mpr ⟨s, t, by rw [hnode, hs], by rw [hnode, ht], ?_, rfl⟩
      refine validateLink_ok (not_gather_of_node (hout lk (by simp)) hs) hv fun hg => ?_
      obtain ⟨htn, hid⟩ := mem_nodes_of_node ht
      by_contra hne
      have hnil := (hun t htn hg).2 hne
      simp [hid] at hnil
    rw [List.foldlM_cons, hadd]
    refine ih (fun l hl => hout l (by simp [hl])) (fun l hl => hadm l (by simp [hl])) ?_
    intro n hn hg
    obtain ⟨hone, hnone⟩ := hun n hn hg
    by_cases htn : lk.target = n.id
    · have hrest : links.filter (·.target == n.id) = [] := by
        simpa [htn] using hone
      simp [hrest]
    · have hsame : (i.record lk).of n.id = i.of n.id := by simp [Inputs.record, of_add, htn]
      simp only [List.filter_cons, beq_iff_eq, htn, if_false] at hone hnone
      exact ⟨hone, by rwa [hsame]⟩

/-- The graph with its links in another order, or with others. -/
def LogicalGraph.withLinks (g : LogicalGraph) (links : List Link) : LogicalGraph :=
  { g with links }

/-- What the constructor makes of the same links in another order. -/
structure Reordered (lg lg' : LG) : Prop where
  exchanged : Exchanged lg.graph lg'.graph lg.inputs lg'.inputs
  links : lg'.links.Perm lg.links
  loopAware : ∀ pair, lg'.loopAwareSet.contains pair = lg.loopAwareSet.contains pair

theorem init_reordered {lg : LG} (hl : links.Perm g.links)
    (hout : ∀ lk ∈ g.links, g.leavesGather lk = false)
    (h : g.init = .ok lg) : ∃ lg', (g.withLinks links).init = .ok lg' ∧ Reordered lg lg' := by
  obtain ⟨u, hnested, h⟩ := bind_ok.mp h
  obtain ⟨r, hr, h⟩ := bind_ok.mp h
  obtain rfl := pure_ok.mp h
  obtain ⟨hadm, hun, rfl⟩ := foldlM_addLink hout hr
  have hun' : Unclaimed g [] links := by
    intro n hn hg
    exact ⟨(hl.filter _).length_eq ▸ (hun n hn hg).1, fun hne => absurd rfl hne⟩
  have hforest : (g.withLinks links).forest = g.forest := rfl
  have hfold := foldlM_addLink_ok hforest (fun lk h => hout lk (hl.subset h))
    (fun lk h => hadm lk (hl.subset h)) hun'
  refine ⟨_, bind_ok.mpr ⟨u, hnested, bind_ok.mpr ⟨_, hfold, rfl⟩⟩, ?_, hl.map _, ?_⟩
  · exact records_exchanged rfl rfl hl
  · intro pair
    rw [Bool.eq_iff_iff, List.contains_iff_mem, List.contains_iff_mem]
    exact ((hl.filter _).map _).mem_iff

end Loop

/-! The artificial links. -/

section Synthesis

variable {g g' : LogicalGraph} {base base' : List Link} {s s' r : Synthesis} {n : LGNode}

theorem mem_roots {c : LGNode} {groups : List Node} {f : Forest} (h : c ∈ f.roots groups) :
    c ∈ f.nodes groups ∧ c.groups = groups := by
  induction f with
  | nil => simp [Forest.roots] at h
  | cons node below others _ ih =>
    rcases List.mem_cons.mp h with rfl | h
    · simp [Forest.nodes]
    · obtain ⟨hm, hg⟩ := ih h
      exact ⟨by simp [Forest.nodes, hm], hg⟩

/-- A link that may be artificial: it runs to a child of a group, from the group or from another
child. -/
def Artificial (g : LogicalGraph) (lk : Link) : Prop :=
  ∃ t ∈ g.nodes, t.id = lk.target ∧
    (t.gid = lk.source ∨ ∃ s ∈ g.nodes, s.id = lk.source ∧ s.groups ≠ [])

/-- The same links have been added to either list. -/
def SameAdded (g g' : LogicalGraph) (base base' : List Link) (s s' : Synthesis) : Prop :=
  Exchanged g g' s.inputs s'.inputs ∧ ∃ added, (∀ lk ∈ added, Artificial g lk) ∧
    s.links = base ++ added ∧ s'.links = base' ++ added

theorem artificial_snoc {added : List Link} {lk : Link} (h : ∀ lk ∈ added, Artificial g lk)
    (hlk : Artificial g lk) : ∀ l ∈ added ++ [lk], Artificial g l := by
  simp only [List.mem_append, List.mem_singleton]
  rintro l (hl | rfl)
  · exact h l hl
  · exact hlk

theorem SameAdded.addCircle {a b : NodeId} (h : SameAdded g g' base base' s s')
    (hab : Artificial g { source := a, target := b }) :
    SameAdded g g' base base' (s.addCircle a b) (s'.addCircle a b) := by
  obtain ⟨ha, added, hadded, hs, hs'⟩ := h
  exact ⟨ha.add, _, artificial_snoc hadded hab, by simp [Synthesis.addCircle, hs],
    by simp [Synthesis.addCircle, hs']⟩

theorem SameAdded.addFirst {a b : NodeId} (h : SameAdded g g' base base' s s')
    (hab : Artificial g { source := a, target := b }) :
    SameAdded g g' base base' (s.addFirst a b) (s'.addFirst a b) := by
  obtain ⟨ha, added, hadded, hs, hs'⟩ := h
  exact ⟨ha.add, _, artificial_snoc hadded hab, by simp [Synthesis.addFirst, hs],
    by simp [Synthesis.addFirst, hs']⟩

theorem foldl_sameAdded {f : Synthesis → LGNode → Synthesis} {l : List LGNode}
    (hf : ∀ n ∈ l, ∀ s s', SameAdded g g' base base' s s' →
      SameAdded g g' base base' (f s n) (f s' n))
    (h : SameAdded g g' base base' s s') :
    SameAdded g g' base base' (l.foldl f s) (l.foldl f s') := by
  induction l generalizing s s' with
  | nil => exact h
  | cons n l ih =>
    exact ih (fun m hm => hf m (List.mem_cons_of_mem _ hm)) (hf n List.mem_cons_self s s' h)

theorem groupLinks_sameAdded {children : List LGNode} (h : SameAdded g g' base base' s s')
    (hc : ∀ c ∈ children, c ∈ g.nodes ∧ c.groups = n.node :: n.groups)
    (hr : groupLinks n children s = .ok r) :
    ∃ r', groupLinks n children s' = .ok r' ∧ SameAdded g g' base base' r r' := by
  have hempty : ∀ id, (s'.inputs.of id).isEmpty = (s.inputs.of id).isEmpty :=
    fun id => (h.1.perm id).isEmpty_eq
  have hcircle : ∀ ge ∈ children, ∀ gs ∈ children,
      Artificial g { source := ge.id, target := gs.id } := by
    intro ge hge gs hgs
    refine ⟨gs, (hc gs hgs).1, rfl, Or.inr ⟨ge, (hc ge hge).1, rfl, ?_⟩⟩
    simp [(hc ge hge).2]
  have hfirst : ∀ gs ∈ children, Artificial g { source := n.id, target := gs.id } := by
    intro gs hgs
    refine ⟨gs, (hc gs hgs).1, rfl, Or.inl ?_⟩
    simp only [LGNode.gid, (hc gs hgs).2]
    rfl
  simp only [groupLinks, hempty] at hr ⊢
  split at hr
  · rename_i hloop
    rw [if_pos hloop]
    split at hr
    · simp at hr
    · rename_i hends
      obtain rfl := Except.ok.inj hr
      rw [if_neg hends]
      refine ⟨_, rfl, foldl_sameAdded (fun ge hge _ _ h => foldl_sameAdded
        (fun gs hgs _ _ h => h.addCircle (hcircle ge ?_ gs ?_)) h) h⟩
      · exact List.mem_of_mem_filter hge
      · exact List.mem_of_mem_filter hgs
  · rename_i hloop
    obtain rfl := Except.ok.inj hr
    rw [if_neg hloop]
    refine ⟨_, rfl, foldl_sameAdded (fun gs hgs _ _ h => h.addFirst (hfirst gs ?_)) h⟩
    split at hgs <;> exact List.mem_of_mem_filter hgs

theorem synthesise_sameAdded {groups : List Node} {f : Forest} (hset : Settled g)
    (hf : f.nodes groups ⊆ g.nodes) (h : SameAdded g g' base base' s s')
    (hr : synthesise g groups f s = .ok r) :
    ∃ r', synthesise g' groups f s' = .ok r' ∧ SameAdded g g' base base' r r' := by
  induction f generalizing groups s s' r with
  | nil =>
    obtain rfl := Except.ok.inj hr
    exact ⟨s', rfl, h⟩
  | cons node below others ihc ihr =>
    have hn : ⟨node, groups⟩ ∈ g.nodes := hf (by simp [Forest.nodes])
    have hbelow : below.nodes (node :: groups) ⊆ g.nodes :=
      fun m hm => hf (by simp [Forest.nodes, hm])
    have hothers : others.nodes groups ⊆ g.nodes :=
      fun m hm => hf (by simp [Forest.nodes, hm])
    obtain ⟨s₁, hs₁, hr⟩ := bind_ok.mp hr
    suffices hhere : ∃ s₁', SameAdded g g' base base' s₁ s₁' ∧ (if node.isGroup then do
        let s ← (if node.isConstruct .scatter then (.ok s' : Except Err Synthesis)
          else groupLinks ⟨node, groups⟩ (below.roots (node :: groups)) s')
        let d ← g'.dop s.inputs ⟨node, groups⟩
        (List.range d.toNat).foldlM (fun s _ => synthesise g' (node :: groups) below s) s
      else .ok s') = .ok s₁' by
      obtain ⟨s₁', h₁, hs₁'⟩ := hhere
      obtain ⟨r', hr', hrel⟩ := ihr hothers h₁ hr
      exact ⟨r', bind_ok.mpr ⟨s₁', hs₁', hr'⟩, hrel⟩
    split at hs₁
    · obtain ⟨s₂, hs₂, hs₁⟩ := bind_ok.mp hs₁
      obtain ⟨d, hd, hs₁⟩ := bind_ok.mp hs₁
      have hown : ∃ s₂', SameAdded g g' base base' s₂ s₂' ∧
          (if node.isConstruct .scatter then .ok s'
            else groupLinks ⟨node, groups⟩ (below.roots (node :: groups)) s') = .ok s₂' := by
        split at hs₂
        · obtain rfl := Except.ok.inj hs₂
          exact ⟨s', h, by simp [*]⟩
        · have hchildren : ∀ c ∈ below.roots (node :: groups),
              c ∈ g.nodes ∧ c.groups = node :: groups := fun c hc =>
            ⟨hbelow (mem_roots hc).1, (mem_roots hc).2⟩
          obtain ⟨s₂', hs₂', h₂⟩ := groupLinks_sameAdded h hchildren hs₂
          exact ⟨s₂', h₂, by simp [*]⟩
      obtain ⟨s₂', h₂, hs₂'⟩ := hown
      obtain ⟨s₁', hs₁', h₁⟩ := foldlM_related
        (fun _ _ _ _ _ hss ht => ihc hbelow hss ht) h₂ hs₁
      refine ⟨s₁', h₁, ?_⟩
      rw [if_pos ‹_›]
      exact bind_ok.mpr ⟨s₂', hs₂', bind_ok.mpr ⟨d, by rw [(h₂.1.alike hset).dop hn, hd], hs₁'⟩⟩
    · obtain rfl := Except.ok.inj hs₁
      exact ⟨s', h, by simp [*]⟩

/-- The artificial links come out the same, whatever the order of the others. -/
theorem synthesiseLinks_reordered {lg₀ lg₀' lg : LG} (h : Reordered lg₀ lg₀')
    (hset : Settled lg₀.graph) (hs : synthesiseLinks lg₀ = .ok lg) :
    ∃ lg' added, synthesiseLinks lg₀' = .ok lg' ∧ Reordered lg lg' ∧
      lg.graph = lg₀.graph ∧ lg'.graph = lg₀'.graph ∧
      (∀ lk ∈ added, Artificial lg.graph lk) ∧
      lg.links = lg₀.links ++ added ∧ lg'.links = lg₀'.links ++ added := by
  obtain ⟨r, hr, hs⟩ := bind_ok.mp hs
  obtain rfl := pure_ok.mp hs
  have hstart : SameAdded lg₀.graph lg₀'.graph lg₀.links lg₀'.links ⟨lg₀.inputs, lg₀.links⟩
      ⟨lg₀'.inputs, lg₀'.links⟩ := ⟨h.exchanged, [], by simp, by simp, by simp⟩
  obtain ⟨r', hr', hexchanged, added, hadded, hl, hl'⟩ :=
      synthesise_sameAdded hset startList_sublist.subset hstart hr
  refine ⟨_, added, bind_ok.mpr ⟨r', by rw [h.exchanged.forest]; exact hr', rfl⟩,
    ⟨hexchanged, ?_, h.loopAware⟩, rfl, rfl, hadded, hl, hl'⟩
  simp only [hl, hl']
  exact h.links.append_right _

end Synthesis

end Daliuge.Unroll
