import Mathlib.Data.List.Induction
import Daliuge.Manager.Calls

/-!
# Sessions of one composite manager

The drops a manager has seen and the reproducibility data are kept for all its sessions
together, and the table of a session is replaced by every graph it gets.
-/
namespace Daliuge.Manager

open Collect

namespace Composite

variable {R : Type} (initPgReproData : List (Item R) → R → Except Err R) (hosts : List String)

/-- What has been sent to the nodes and is recorded for a session. -/
def observed (m : Composite R) (session : String) : List (Sent R) × Option (List TableEntry) :=
  ((m.sent.filter (·.1 == session)).map Prod.snd, m.dropRels session)

/-- The relations recorded for a session. -/
def recordedRels (m : Composite R) (session : String) : List (DROPRel String) :=
  ((m.dropRels session).getD []).map (·.rel)

/-- A call whose graph is recorded, with its drops and its relations between partitions. -/
structure Accepted (m : Composite R) (c : Call R) (ds : List DropSpec)
    (rels : List (DROPRel String)) : Prop where
  drops : c.drops initPgReproData m.dmHosts = .ok ds
  inter : interPartitionRels ds = .ok rels
  located : ∀ rel ∈ rels, Located (registered m.graph ds) rel.lhs ∧
    Located (registered m.graph ds) rel.rhs

/-- No session sees that there are others. -/
def Isolated (calls : List (Call R)) : Prop :=
  ∀ session, (reached initPgReproData hosts calls).observed session =
    (reached initPgReproData hosts (calls.filter (·.session == session))).observed session

/-- The relations recorded for a session are those of all the graphs it got. -/
def Additive (calls : List (Call R)) : Prop :=
  ∀ session rel, rel ∈ (reached initPgReproData hosts calls).recordedRels session ↔
    ∃ pre c post ds rels, calls = pre ++ c :: post ∧ c.session = session ∧
      Accepted initPgReproData (reached initPgReproData hosts pre) c ds rels ∧ rel ∈ rels

/-! Whose data a manager keeps. -/

/-- The session that brought the reproducibility data, and those that registered drops. -/
structure Ledger where
  data : Option String := none
  owner : String → Option String := fun _ => none

def Ledger.note (l : Ledger) (c : Call R) : Ledger where
  data := if (c.data initPgReproData).isSome then some c.session else l.data
  owner key :=
    if key ∈ (c.admitted initPgReproData hosts).map DropSpec.uidForDrop then some c.session
    else l.owner key

def ledger (calls : List (Call R)) : Ledger :=
  calls.foldl (Ledger.note initPgReproData hosts) {}

/-- A call that does not read what other sessions left, and repeats what its own session has
recorded. -/
structure Apart (pre : List (Call R)) (c : Call R) : Prop where
  data : ∀ ds rels, Accepted initPgReproData (reached initPgReproData hosts pre) c ds rels →
    c.data initPgReproData = none → ∀ s, (ledger initPgReproData hosts pre).data = some s →
      s = c.session
  keys : ∀ ds rels, c.drops initPgReproData hosts = .ok ds → interPartitionRels ds = .ok rels →
    ∀ rel ∈ rels, ∀ key, key = rel.lhs ∨ key = rel.rhs →
      key ∉ ds.map DropSpec.uidForDrop → ∀ s,
        (ledger initPgReproData hosts pre).owner key = some s → s = c.session
  again : ∀ ds rels, Accepted initPgReproData (reached initPgReproData hosts pre) c ds rels →
    (reached initPgReproData hosts pre).recordedRels c.session ⊆ rels

/-! Looking up what a session has registered itself. -/

section Lookups

variable {graph graph' : String → Option DropSpec} {ds : List DropSpec} {key : String}
  {m m' : Composite R}

theorem registered_of_eq (h : graph key = graph' key) :
    registered graph ds key = registered graph' ds key := by
  induction ds generalizing graph graph' with
  | nil => exact h
  | cons d ds ih =>
    refine ih ?_
    by_cases hk : key = d.uidForDrop
    · simp [hk]
    · simp [hk, h]

theorem registered_of_mem (h : key ∈ ds.map DropSpec.uidForDrop) :
    registered graph ds key = registered graph' ds key := by
  induction ds generalizing graph graph' with
  | nil => simp at h
  | cons d ds ih =>
    by_cases hk : key = d.uidForDrop
    · change registered (Function.update graph _ _) ds key =
        registered (Function.update graph' _ _) ds key
      exact registered_of_eq (by simp [hk])
    · exact ih (by simpa [hk] using h)

theorem registered_of_notMem (h : key ∉ ds.map DropSpec.uidForDrop) :
    registered graph ds key = graph key := by
  induction ds generalizing graph with
  | nil => rfl
  | cons d ds ih =>
    rw [List.map_cons, List.mem_cons, not_or] at h
    exact (ih h.2).trans (by simp [h.1])

/-- The table of a graph depends on the drops its relations name only. -/
theorem dropRelsOf_congr (hk : Keyed m'.graph)
    (h : ∀ rels, interPartitionRels ds = .ok rels → ∀ rel ∈ rels,
      m.graph rel.lhs = m'.graph rel.lhs ∧ m.graph rel.rhs = m'.graph rel.rhs) :
    m.dropRelsOf ds = m'.dropRelsOf ds := by
  simp only [dropRelsOf]
  cases hr : interPartitionRels ds with
  | error e => rfl
  | ok rels =>
    have hlook : ∀ rel ∈ rels, m.sanitize rel = m'.sanitize rel ∧
        m.tabulate rel = m'.tabulate rel := by
      intro rel hrel
      obtain ⟨hl, hr⟩ := h rels hr rel hrel
      constructor <;> simp only [sanitize, tabulate, nodeOf, look, hl, hr]
    have hsan : rels.mapM m.sanitize = rels.mapM m'.sanitize :=
      mapM_congr _ _ fun rel hrel => (hlook rel hrel).1
    simp only [ok_bind, hsan]
    cases hs : rels.mapM m'.sanitize with
    | error e => rfl
    | ok rels' =>
      obtain rfl := mapM_sanitize hk hs
      exact collect_congr fun rel hrel => (hlook rel hrel).2

end Lookups

/-! One call. -/

section Step

variable {initPgReproData hosts} {m : Composite R} {c : Call R} {ds : List DropSpec}
  {rels : List (DROPRel String)} {session : String}

theorem drops_admitted (h : c.drops initPgReproData hosts = .ok ds) :
    c.admitted initPgReproData hosts = ds := by
  simp only [Call.drops, bind_ok, pure_ok] at h
  obtain ⟨items, hb, -, -, rfl⟩ := h
  simp [Call.admitted, hb]

theorem noted_graph (h : c.drops initPgReproData m.dmHosts = .ok ds) :
    (m.noted initPgReproData c).graph = registered m.graph ds :=
  congrArg (registered m.graph) (drops_admitted h)

/-- A call is accepted when it gets to recording a table, which holds its relations. -/
theorem tableOf_ok (hk : Keyed m.graph) {table : List TableEntry}
    (h : m.tableOf initPgReproData c = .ok (ds, table)) :
    ∃ rels, Accepted initPgReproData m c ds rels ∧
      ∀ rel, rel ∈ table.map (·.rel) ↔ rel ∈ rels := by
  simp only [tableOf, bind_ok, pure_ok] at h
  obtain ⟨ds', hd, table', ht, he⟩ := h
  obtain ⟨rfl, rfl⟩ := Prod.mk.inj he
  have hgraph := noted_graph hd
  obtain ⟨rels, hr, hloc, hmem⟩ := dropRelsOf_ok (m := m.noted initPgReproData c)
    (hgraph ▸ keyed_registered hk) ht
  exact ⟨rels, ⟨hd, hr, hgraph ▸ hloc⟩, hmem⟩

theorem Accepted.tableOf (hk : Keyed m.graph) (h : Accepted initPgReproData m c ds rels) :
    ∃ table, m.tableOf initPgReproData c = .ok (ds, table) := by
  have hgraph := noted_graph h.drops
  obtain ⟨table, ht⟩ := exists_dropRelsOf (m := m.noted initPgReproData c)
    (hgraph ▸ keyed_registered hk) h.inter (hgraph ▸ h.located)
  exact ⟨table, bind_ok.mpr ⟨ds, h.drops, bind_ok.mpr ⟨table, ht, rfl⟩⟩⟩

theorem Accepted.unique {ds' : List DropSpec} {rels' : List (DROPRel String)}
    (h : Accepted initPgReproData m c ds rels) (h' : Accepted initPgReproData m c ds' rels') :
    ds = ds' ∧ rels = rels' := by
  obtain rfl := Except.ok.inj (h.drops.symm.trans h'.drops)
  exact ⟨rfl, Except.ok.inj (h.inter.symm.trans h'.inter)⟩

theorem filter_sent_self {xs : List (Sent R)} :
    ((xs.map fun x => (session, x)).filter (·.1 == session)).map Prod.snd = xs := by
  induction xs with
  | nil => rfl
  | cons x xs ih => simpa using ih

/-- What is seen of a session after one of its own calls. -/
theorem observed_step : (m.step initPgReproData c).observed c.session =
    match m.tableOf initPgReproData c with
    | .error _ => m.observed c.session
    | .ok (ds, table) =>
      ((m.observed c.session).1 ++ (m.noted initPgReproData c).sentOf ds, some table) := by
  rw [step]
  rcases m.addGraphSpec_cases initPgReproData c with ⟨e, he, h⟩ | ⟨ds, table, ht, h⟩
  · rw [h, he]
    rfl
  · rw [h, ht]
    refine Prod.ext ?_ (Function.update_self _ _ _)
    simp only [observed, deliver, recorded, List.filter_append, List.map_append,
      filter_sent_self]
    rfl

/-- What is seen of a session after a call for another one. -/
theorem observed_step_other (hs : session ≠ c.session) :
    (m.step initPgReproData c).observed session = m.observed session := by
  refine Prod.ext ?_ (m.step_other initPgReproData c hs).2
  rw [step]
  rcases m.addGraphSpec_cases initPgReproData c with ⟨e, -, h⟩ | ⟨ds, table, -, h⟩
  · rw [h]
    rfl
  · rw [h]
    simp [observed, deliver, recorded, noted, hs.symm]

end Step

/-! A manager with many sessions beside one that has one of them only. -/

section Isolation

variable {initPgReproData hosts} {m own : Composite R} {l : Ledger} {session : String}
  {c : Call R}

/-- What the session sees is the same, and so is what it left last. -/
structure Sim (session : String) (l : Ledger) (m own : Composite R) : Prop where
  hosts : own.dmHosts = m.dmHosts
  keyed : Keyed m.graph ∧ Keyed own.graph
  observed : m.observed session = own.observed session
  noData : l.data = none → m.reprodata = none ∧ own.reprodata = none
  data : l.data = some session → m.reprodata = own.reprodata
  noOwner : ∀ key, l.owner key = none → m.graph key = none ∧ own.graph key = none
  owner : ∀ key, l.owner key = some session → m.graph key = own.graph key

theorem Sim.graph_eq (h : Sim session l m own) {key : String}
    (hk : ∀ s, l.owner key = some s → s = session) : m.graph key = own.graph key := by
  cases ho : l.owner key with
  | none => exact (h.noOwner key ho).1.trans (h.noOwner key ho).2.symm
  | some s =>
    obtain rfl := hk s ho
    exact h.owner key ho

theorem Sim.reprodata_eq (h : Sim session l m own) (hd : ∀ s, l.data = some s → s = session) :
    m.reprodata = own.reprodata := by
  cases ho : l.data with
  | none => exact (h.noData ho).1.trans (h.noData ho).2.symm
  | some s =>
    obtain rfl := hd s ho
    exact h.data ho

theorem note_owner_of_mem {key : String}
    (h : key ∈ (c.admitted initPgReproData hosts).map DropSpec.uidForDrop) :
    (l.note initPgReproData hosts c).owner key = some c.session := if_pos h

theorem note_owner_of_notMem {key : String}
    (h : key ∉ (c.admitted initPgReproData hosts).map DropSpec.uidForDrop) :
    (l.note initPgReproData hosts c).owner key = l.owner key := if_neg h

theorem Sim.step_other (h : Sim session l m own) (hs : c.session ≠ session) :
    Sim session (l.note initPgReproData m.dmHosts c) (m.step initPgReproData c) own where
  hosts := h.hosts.trans (m.step_dmHosts initPgReproData c).symm
  keyed := ⟨m.step_graph initPgReproData c ▸ keyed_registered h.keyed.1, h.keyed.2⟩
  observed := (observed_step_other hs.symm).trans h.observed
  noData hn := by
    rw [step_reprodata]
    cases hc : c.data initPgReproData with
    | some r => simp [Ledger.note, hc] at hn
    | none => exact h.noData (by simpa [Ledger.note, hc] using hn)
  data hn := by
    rw [step_reprodata]
    cases hc : c.data initPgReproData with
    | some r => exact absurd (by simpa [Ledger.note, hc] using hn) hs
    | none => exact h.data (by simpa [Ledger.note, hc] using hn)
  noOwner key hn := by
    rw [step_graph]
    by_cases hm : key ∈ (c.admitted initPgReproData m.dmHosts).map DropSpec.uidForDrop
    · simp [note_owner_of_mem hm] at hn
    · rw [registered_of_notMem hm]
      exact h.noOwner key (note_owner_of_notMem hm ▸ hn)
  owner key hn := by
    rw [step_graph]
    by_cases hm : key ∈ (c.admitted initPgReproData m.dmHosts).map DropSpec.uidForDrop
    · exact absurd (Option.some.inj ((note_owner_of_mem hm).symm.trans hn)) hs
    · rw [registered_of_notMem hm]
      exact h.owner key (note_owner_of_notMem hm ▸ hn)

/-- Both managers come to the same with a call of the session that stays apart. -/
theorem Sim.tableOf_eq (h : Sim c.session l m own)
    (hkeys : ∀ ds rels, c.drops initPgReproData m.dmHosts = .ok ds →
      interPartitionRels ds = .ok rels → ∀ rel ∈ rels, ∀ key, key = rel.lhs ∨ key = rel.rhs →
        key ∉ ds.map DropSpec.uidForDrop → ∀ s, l.owner key = some s → s = c.session) :
    m.tableOf initPgReproData c = own.tableOf initPgReproData c := by
  simp only [tableOf, h.hosts]
  cases hd : c.drops initPgReproData m.dmHosts with
  | error e => rfl
  | ok ds =>
    have hm : (m.noted initPgReproData c).graph = registered m.graph ds := noted_graph hd
    have ho : (own.noted initPgReproData c).graph = registered own.graph ds :=
      noted_graph (h.hosts ▸ hd)
    have hkey : ∀ rels, interPartitionRels ds = .ok rels → ∀ rel ∈ rels, ∀ key,
        key = rel.lhs ∨ key = rel.rhs →
        registered m.graph ds key = registered own.graph ds key := by
      intro rels hr rel hrel key hk
      by_cases hin : key ∈ ds.map DropSpec.uidForDrop
      · exact registered_of_mem hin
      · exact registered_of_eq (h.graph_eq (hkeys ds rels hd hr rel hrel key hk hin))
    have htab : (m.noted initPgReproData c).dropRelsOf ds =
        (own.noted initPgReproData c).dropRelsOf ds := by
      refine dropRelsOf_congr (ho ▸ keyed_registered h.keyed.2) fun rels hr rel hrel => ?_
      rw [hm, ho]
      exact ⟨hkey rels hr rel hrel _ (Or.inl rfl), hkey rels hr rel hrel _ (Or.inr rfl)⟩
    simp only [ok_bind, htab]

theorem Sim.step_own (h : Sim c.session l m own)
    (hdata : ∀ ds rels, Accepted initPgReproData m c ds rels → c.data initPgReproData = none →
      ∀ s, l.data = some s → s = c.session)
    (hkeys : ∀ ds rels, c.drops initPgReproData m.dmHosts = .ok ds →
      interPartitionRels ds = .ok rels → ∀ rel ∈ rels, ∀ key, key = rel.lhs ∨ key = rel.rhs →
        key ∉ ds.map DropSpec.uidForDrop → ∀ s, l.owner key = some s → s = c.session) :
    Sim c.session (l.note initPgReproData m.dmHosts c) (m.step initPgReproData c)
      (own.step initPgReproData c) where
  hosts := by rw [step_dmHosts, step_dmHosts, h.hosts]
  keyed := by
    rw [step_graph, step_graph]
    exact ⟨keyed_registered h.keyed.1, keyed_registered h.keyed.2⟩
  observed := by
    rw [observed_step, observed_step, ← h.tableOf_eq hkeys, ← h.observed]
    cases ht : m.tableOf initPgReproData c with
    | error e => rfl
    | ok p =>
      obtain ⟨ds, table⟩ := p
      obtain ⟨rels, hacc, -⟩ := tableOf_ok h.keyed.1 ht
      have hrepro : (m.noted initPgReproData c).reprodata =
          (own.noted initPgReproData c).reprodata := by
        simp only [noted]
        cases hc : c.data initPgReproData with
        | some r => rfl
        | none => exact h.reprodata_eq (hdata ds rels hacc hc)
      simp only [sentOf, hrepro]
  noData hn := by
    rw [step_reprodata, step_reprodata]
    cases hc : c.data initPgReproData with
    | some r => simp [Ledger.note, hc] at hn
    | none => exact h.noData (by simpa [Ledger.note, hc] using hn)
  data hn := by
    rw [step_reprodata, step_reprodata]
    cases hc : c.data initPgReproData with
    | some r => rfl
    | none => exact h.data (by simpa [Ledger.note, hc] using hn)
  noOwner key hn := by
    rw [step_graph, step_graph, h.hosts]
    by_cases hm : key ∈ (c.admitted initPgReproData m.dmHosts).map DropSpec.uidForDrop
    · simp [note_owner_of_mem hm] at hn
    · rw [registered_of_notMem hm, registered_of_notMem hm]
      exact h.noOwner key (note_owner_of_notMem hm ▸ hn)
  owner key hn := by
    rw [step_graph, step_graph, h.hosts]
    by_cases hm : key ∈ (c.admitted initPgReproData m.dmHosts).map DropSpec.uidForDrop
    · exact registered_of_mem hm
    · rw [registered_of_notMem hm, registered_of_notMem hm]
      exact h.owner key (note_owner_of_notMem hm ▸ hn)

theorem reached_concat {calls : List (Call R)} :
    reached initPgReproData hosts (calls ++ [c]) =
      (reached initPgReproData hosts calls).step initPgReproData c := Run.run_append

/-- Every manager beside the one that has a single session of it. -/
theorem sim_reached {calls : List (Call R)} (h : ∀ pre c post, calls = pre ++ c :: post →
    Apart initPgReproData hosts pre c) (session : String) :
    Sim session (ledger initPgReproData hosts calls) (reached initPgReproData hosts calls)
      (reached initPgReproData hosts (calls.filter (·.session == session))) := by
  induction calls using List.reverseRecOn with
  | nil =>
    exact
      { hosts := rfl
        keyed := ⟨by simp [Keyed, reached], by simp [Keyed, reached]⟩
        observed := rfl
        noData := fun _ => ⟨rfl, rfl⟩
        data := fun _ => rfl
        noOwner := fun _ _ => ⟨rfl, rfl⟩
        owner := fun _ _ => rfl }
  | append_singleton pre c ih =>
    have hpre := ih fun pre' c' post hp => h pre' c' (post ++ [c]) (by simp [hp])
    have hapart := h pre c [] rfl
    have hhosts := reached_dmHosts initPgReproData hosts pre
    have hl : ledger initPgReproData hosts (pre ++ [c]) =
        (ledger initPgReproData hosts pre).note initPgReproData
          (reached initPgReproData hosts pre).dmHosts c := by
      rw [hhosts, ledger, List.foldl_append]
      rfl
    rw [hl, reached_concat, List.filter_append]
    by_cases hs : c.session = session
    · subst hs
      have hown : reached initPgReproData hosts
          (pre.filter (·.session == c.session) ++ [c].filter (·.session == c.session)) =
          (reached initPgReproData hosts (pre.filter (·.session == c.session))).step
            initPgReproData c := by
        simp only [beq_self_eq_true, List.filter_cons_of_pos, List.filter_nil]
        exact reached_concat
      rw [hown]
      exact hpre.step_own hapart.data (hhosts.symm ▸ hapart.keys)
    · have hskip : [c].filter (·.session == session) = [] := by simp [hs]
      rw [hskip, List.append_nil]
      exact hpre.step_other hs

theorem recordedRels_step (hk : Keyed m.graph) {rel : DROPRel String}
    (hagain : ∀ ds rels, Accepted initPgReproData m c ds rels →
      m.recordedRels c.session ⊆ rels) :
    rel ∈ (m.step initPgReproData c).recordedRels c.session ↔ rel ∈ m.recordedRels c.session ∨
      ∃ ds rels, Accepted initPgReproData m c ds rels ∧ rel ∈ rels := by
  have hobs : (m.step initPgReproData c).dropRels c.session = _ :=
    congrArg Prod.snd observed_step
  simp only [recordedRels] at hagain ⊢
  rw [hobs]
  cases ht : m.tableOf initPgReproData c with
  | error e =>
    have hno : ¬ ∃ ds rels, Accepted initPgReproData m c ds rels ∧ rel ∈ rels := by
      rintro ⟨ds, rels, hacc, -⟩
      obtain ⟨table, htab⟩ := hacc.tableOf hk
      simp [ht] at htab
    simp only [hno, or_false]
    rfl
  | ok p =>
    obtain ⟨ds, table⟩ := p
    obtain ⟨rels, hacc, hmem⟩ := tableOf_ok hk ht
    simp only [Option.getD_some, hmem]
    constructor
    · exact fun hrel => Or.inr ⟨ds, rels, hacc, hrel⟩
    · rintro (hrel | ⟨ds', rels', hacc', hrel⟩)
      · exact hagain ds rels hacc hrel
      · obtain ⟨-, rfl⟩ := hacc.unique hacc'
        exact hrel

theorem recordedRels_step_other (hs : session ≠ c.session) :
    (m.step initPgReproData c).recordedRels session = m.recordedRels session := by
  rw [recordedRels, (m.step_other initPgReproData c hs).2]
  rfl

theorem additive_reached {calls : List (Call R)} (h : ∀ pre c post, calls = pre ++ c :: post →
    Apart initPgReproData hosts pre c) : Additive initPgReproData hosts calls := by
  intro session rel
  induction calls using List.reverseRecOn with
  | nil => simp [reached, recordedRels]
  | append_singleton pre c ih =>
    have hpre := ih fun pre' c' post hp => h pre' c' (post ++ [c]) (by simp [hp])
    have hkey := reached_keyed initPgReproData hosts pre
    -- a call of the longer run is the last one or a call of the shorter run
    have hsplit : (∃ pre' c' post ds rels, pre ++ [c] = pre' ++ c' :: post ∧
          c'.session = session ∧
          Accepted initPgReproData (reached initPgReproData hosts pre') c' ds rels ∧
          rel ∈ rels) ↔
        (∃ pre' c' post ds rels, pre = pre' ++ c' :: post ∧ c'.session = session ∧
          Accepted initPgReproData (reached initPgReproData hosts pre') c' ds rels ∧
          rel ∈ rels) ∨
        c.session = session ∧ ∃ ds rels,
          Accepted initPgReproData (reached initPgReproData hosts pre) c ds rels ∧
          rel ∈ rels := by
      constructor
      · rintro ⟨pre', c', post, ds, rels, he, hs, hacc, hrel⟩
        rcases List.eq_nil_or_concat post with rfl | ⟨post, last, rfl⟩
        · obtain ⟨rfl, hc⟩ := List.append_inj' he rfl
          obtain rfl : c = c' := by simpa using hc
          exact Or.inr ⟨hs, ds, rels, hacc, hrel⟩
        · rw [List.concat_eq_append, ← List.cons_append, ← List.append_assoc] at he
          exact Or.inl ⟨pre', c', post, ds, rels, (List.append_inj' he rfl).1, hs, hacc, hrel⟩
      · rintro (⟨pre', c', post, ds, rels, rfl, hs, hacc, hrel⟩ | ⟨hs, ds, rels, hacc, hrel⟩)
        · exact ⟨pre', c', post ++ [c], ds, rels, by simp, hs, hacc, hrel⟩
        · exact ⟨pre, c, [], ds, rels, rfl, hs, hacc, hrel⟩
    rw [hsplit, ← hpre, reached_concat]
    by_cases hs : c.session = session
    · subst hs
      rw [recordedRels_step hkey (h pre c [] rfl).again]
      simp
    · rw [recordedRels_step_other (Ne.symm hs)]
      simp [hs]

/-- As long as every call stays apart from the other sessions, and repeats what its own has
recorded, the sessions of a manager are isolated and their relations add up. -/
theorem isolated_additive_of_apart (initPgReproData : List (Item R) → R → Except Err R)
    (hosts : List String) (calls : List (Call R))
    (h : ∀ pre c post, calls = pre ++ c :: post → Apart initPgReproData hosts pre c) :
    ∀ pre post, calls = pre ++ post →
      Isolated initPgReproData hosts pre ∧ Additive initPgReproData hosts pre := by
  rintro pre post rfl
  have hpre : ∀ pre' c post', pre = pre' ++ c :: post' → Apart initPgReproData hosts pre' c :=
    fun pre' c post' hp => h pre' c (post' ++ post) (by simp [hp])
  exact ⟨fun session => (sim_reached hpre session).observed, additive_reached hpre⟩

/-- A drop on one node and its consumer on another. -/
def crossing (data app : String) : List DropSpec :=
  [{ oid := data, partition := some "n1", node := some "n1",
     relations := fun k => if k = .consumers then some [.plain app] else none },
   { oid := app, partition := some "n2", node := some "n2" }]

/-- A graph that has both ends of all its relations, given to a manager without reproducibility
data, stays apart as long as it repeats what its session has recorded. -/
theorem apart_of_closed {initPgReproData : List (Item R) → R → Except Err R} {hosts : List String}
    {pre : List (Call R)} {c : Call R} {ds : List DropSpec} {rels : List (DROPRel String)}
    (hd : c.drops initPgReproData hosts = .ok ds) (hr : interPartitionRels ds = .ok rels)
    (hdata : (ledger initPgReproData hosts pre).data = none)
    (hclosed : ∀ rel ∈ rels, rel.lhs ∈ ds.map DropSpec.uidForDrop ∧
      rel.rhs ∈ ds.map DropSpec.uidForDrop)
    (hagain : (reached initPgReproData hosts pre).recordedRels c.session ⊆ rels) :
    Apart initPgReproData hosts pre c where
  data _ _ _ _ s hs := by
    rw [hdata] at hs
    cases hs
  keys ds' rels' hd' hr' rel hrel key hkey hout := by
    obtain rfl := Except.ok.inj (hd.symm.trans hd')
    obtain rfl := Except.ok.inj (hr.symm.trans hr')
    rcases hkey with rfl | rfl
    · exact absurd (hclosed rel hrel).1 hout
    · exact absurd (hclosed rel hrel).2 hout
  again ds' rels' hacc := by
    have hdrops := hacc.drops
    rw [reached_dmHosts] at hdrops
    obtain rfl := Except.ok.inj (hd.symm.trans hdrops)
    obtain rfl := Except.ok.inj (hr.symm.trans hacc.inter)
    exact hagain

/-- Two sessions with graphs of their own, the first one given more after the second one. -/
theorem two_sessions_apart :
    let calls : List (Call Nat) :=
      [⟨"a", (crossing "x" "y").map .drop⟩, ⟨"b", (crossing "u" "v").map .drop⟩,
        ⟨"a", (crossing "x" "y" ++ crossing "p" "q").map .drop⟩]
    (∀ pre post, calls = pre ++ post → Isolated (fun _ r => .ok r) ["n1", "n2"] pre ∧
      Additive (fun _ r => .ok r) ["n1", "n2"] pre) ∧
    ((reached (fun _ r => .ok r) ["n1", "n2"] calls).recordedRels "a").dedup =
      [⟨"y", .consumer, "x"⟩, ⟨"q", .consumer, "p"⟩] ∧
    ((reached (fun _ r => .ok r) ["n1", "n2"] calls).recordedRels "b").dedup =
      [⟨"v", .consumer, "u"⟩] := by
  refine ⟨isolated_additive_of_apart _ _ _ fun pre c post h => ?_, by decide, by decide⟩
  rcases pre with _ | ⟨c₁, _ | ⟨c₂, _ | ⟨c₃, pre⟩⟩⟩
  · obtain ⟨rfl, -⟩ := List.cons.inj h
    exact apart_of_closed rfl rfl rfl (by decide) (List.nil_subset _)
  · obtain ⟨rfl, h₁⟩ := List.cons.inj h
    obtain ⟨rfl, -⟩ := List.cons.inj h₁
    exact apart_of_closed rfl rfl rfl (by decide) (List.nil_subset _)
  · obtain ⟨rfl, h₁⟩ := List.cons.inj h
    obtain ⟨rfl, h₂⟩ := List.cons.inj h₁
    obtain ⟨rfl, -⟩ := List.cons.inj h₂
    exact apart_of_closed rfl rfl rfl (by decide) (by decide)
  · simp at h

/-- The reproducibility data of one session goes out with the graph of another, and the table of
a session is lost when it gets a second graph. -/
theorem sessions_leak_and_overwrite :
    ¬ Isolated (fun _ r => .ok r) ["n1", "n2"]
      [⟨"a", (crossing "x" "y").map .drop ++ [.reprodata 1]⟩,
        ⟨"b", (crossing "u" "v").map .drop⟩] ∧
    ¬ Additive (R := Nat) (fun _ r => .ok r) ["n1", "n2"]
      [⟨"a", (crossing "x" "y").map .drop⟩, ⟨"a", (crossing "u" "v").map .drop⟩] := by
  constructor
  · intro h
    have hseen := congrArg (fun o => o.1.map (·.reprodata)) (h "b")
    have hleak : ([some 1, some 1] : List (Option Nat)) = [none, none] := hseen
    simp at hleak
  · intro h
    have hacc : Accepted (R := Nat) (fun _ r => .ok r) (reached (fun _ r => .ok r) ["n1", "n2"] [])
        ⟨"a", (crossing "x" "y").map .drop⟩ (crossing "x" "y") [⟨"y", .consumer, "x"⟩] :=
      ⟨rfl, rfl, by simp [Located, registered, crossing, DropSpec.uidForDrop]⟩
    have hlost := (h "a" ⟨"y", .consumer, "x"⟩).mpr
      ⟨[], _, _, _, _, rfl, rfl, hacc, by simp⟩
    have hkept : (reached (R := Nat) (fun _ r => .ok r) ["n1", "n2"]
        [⟨"a", (crossing "x" "y").map .drop⟩, ⟨"a", (crossing "u" "v").map .drop⟩]).recordedRels
        "a" = [⟨"v", .consumer, "u"⟩, ⟨"v", .consumer, "u"⟩] := rfl
    rw [hkept] at hlost
    simp at hlost

end Isolation

end Composite

end Daliuge.Manager
