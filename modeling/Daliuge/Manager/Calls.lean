import Daliuge.Lib.Run
import Daliuge.Manager.Composite

/-!
# Calls on a composite manager

What one `addGraphSpec` does to the manager, in whichever way it ends, and what any sequence of
them keeps.
-/
namespace Daliuge.Manager

open Collect

/-- One call of `addGraphSpec`. -/
structure Call (R : Type) where
  session : String
  items : List (Item R)

namespace Composite

variable {R : Type}

/-- The drops a manager knows once it has taken in those of a graph. -/
def registered (graph : String → Option DropSpec) (ds : List DropSpec) :
    String → Option DropSpec :=
  ds.foldl (fun g d => Function.update g d.uidForDrop (some d)) graph

/-- Something is known under this key, and on which node it is. -/
def Located (graph : String → Option DropSpec) (key : String) : Prop :=
  ∃ d, graph key = some d ∧ ∃ n, d.node = some n

/-- Drops are known under their uid. -/
def Keyed (graph : String → Option DropSpec) : Prop :=
  ∀ key d, graph key = some d → d.uidForDrop = key

/-! What a call says by itself. -/

/-- The drops that are registered before the first that is not placed. -/
def admitted (hosts : List String) : List (Item R) → List DropSpec
  | .drop d :: items =>
    match d.partition with
    | none => []
    | some p => if hosts.contains p then d :: admitted hosts items else []
  | _ => []

/-- The loop over the drops gets to its end. -/
def allAdmitted (hosts : List String) : List (Item R) → Except Err Unit
  | [] => .ok ()
  | .drop d :: items =>
    match d.partition with
    | none => .error (.invalidGraph (some d.oid))
    | some p =>
      if hosts.contains p then allAdmitted hosts items
      else .error (.invalidGraph (some d.oid))
  | .reprodata _ :: _ | .empty :: _ => .error (.invalidGraph none)

end Composite

namespace Call

variable {R : Type} (initPgReproData : List (Item R) → R → Except Err R) (hosts : List String)
  (c : Call R)

/-- The reproducibility data it brings. -/
def data : Option R :=
  match c.items.getLast? with
  | some (.reprodata r) => (initPgReproData c.items.dropLast r).toOption
  | _ => none

/-- The list without the reproducibility data. -/
def undated : Except Err (List (Item R)) :=
  match c.items.getLast? with
  | none => .error .indexError
  | some (.reprodata r) => (initPgReproData c.items.dropLast r).map fun _ => c.items.dropLast
  | some _ => .ok c.items

/-- A list without the empty element it may end in. -/
def unpadded (items : List (Item R)) : Except Err (List (Item R)) :=
  match items.getLast? with
  | none => .error .indexError
  | some .empty => .ok items.dropLast
  | some _ => .ok items

/-- What is left of the list for the drops. -/
def body : Except Err (List (Item R)) := c.undated initPgReproData >>= unpadded

/-- The drops the manager gets to know. -/
def admitted : List DropSpec :=
  match c.body initPgReproData with
  | .ok items => Composite.admitted hosts items
  | .error _ => []

/-- The drops of a graph that is well formed. -/
def drops : Except Err (List DropSpec) := do
  let items ← c.body initPgReproData
  Composite.allAdmitted hosts items
  return Composite.admitted hosts items

end Call

namespace Composite

/-! Looking drops up. -/

section Table

variable {R : Type} {m : Composite R} {ds : List DropSpec} {rel rel' : DROPRel String}
  {rels : List (DROPRel String)} {table : List TableEntry} {graph : String → Option DropSpec}

theorem keyed_registered (h : Keyed graph) : Keyed (registered graph ds) := by
  induction ds generalizing graph with
  | nil => exact h
  | cons d ds ih =>
    refine ih fun key e he => ?_
    by_cases hk : key = d.uidForDrop
    · subst hk
      obtain rfl : d = e := by simpa using he
      rfl
    · exact h key e (by simpa [hk] using he)

theorem look_ok {key : String} {d : DropSpec} : m.look key = .ok d ↔ m.graph key = some d := by
  rw [look]
  cases m.graph key <;> simp

theorem sanitize_ok (hk : Keyed m.graph) : m.sanitize rel = .ok rel' ↔
    rel' = rel ∧ (∃ d, m.graph rel.lhs = some d) ∧ ∃ d, m.graph rel.rhs = some d := by
  simp only [sanitize, bind_ok, pure_ok, look_ok]
  constructor
  · rintro ⟨l, hl, r, hr, rfl⟩
    rw [hk _ _ hl, hk _ _ hr]
    exact ⟨rfl, ⟨l, hl⟩, r, hr⟩
  · rintro ⟨rfl, ⟨l, hl⟩, r, hr⟩
    exact ⟨l, hl, r, hr, by rw [hk _ _ hl, hk _ _ hr]⟩

theorem nodeOf_ok {key n : String} :
    m.nodeOf key = .ok n ↔ ∃ d, m.graph key = some d ∧ d.node = some n := by
  simp only [nodeOf, bind_ok, look_ok]
  refine exists_congr fun d => and_congr_right fun _ => ?_
  cases d.node <;> simp [pure_ok]

theorem tabulate_ok {t : List TableEntry} (h : m.tabulate rel = .ok t) :
    t.map (·.rel) = [rel, rel] ∧ Located m.graph rel.lhs ∧ Located m.graph rel.rhs := by
  simp only [tabulate, bind_ok, pure_ok, nodeOf_ok] at h
  obtain ⟨r, ⟨d, hd, hr⟩, l, ⟨e, he, hl⟩, rfl⟩ := h
  exact ⟨rfl, ⟨e, he, l, hl⟩, d, hd, r, hr⟩

theorem exists_tabulate (hl : Located m.graph rel.lhs) (hr : Located m.graph rel.rhs) :
    ∃ t, m.tabulate rel = .ok t := by
  obtain ⟨d, hd, n, hn⟩ := hl
  obtain ⟨e, he, n', hn'⟩ := hr
  simp only [tabulate, bind_ok, pure_ok, nodeOf_ok]
  exact ⟨_, n', ⟨e, he, hn'⟩, n, ⟨d, hd, hn⟩, rfl⟩

/-- Sanitising finds every drop under its own key, or fails. -/
theorem mapM_sanitize (hk : Keyed m.graph) {rels' : List (DROPRel String)}
    (h : rels.mapM m.sanitize = .ok rels') : rels' = rels := by
  have hself : ∀ rel ∈ rels, m.sanitize rel = .ok (id rel) := by
    intro rel hrel
    obtain ⟨rel', h'⟩ := ok_of_mapM h hrel
    obtain ⟨rfl, -⟩ := (sanitize_ok hk).mp h'
    exact h'
  rw [mapM_eq_map hself, List.map_id] at h
  exact (Except.ok.inj h).symm

theorem dropRelsOf_ok (hk : Keyed m.graph) (h : m.dropRelsOf ds = .ok table) :
    ∃ rels, interPartitionRels ds = .ok rels ∧
      (∀ rel ∈ rels, Located m.graph rel.lhs ∧ Located m.graph rel.rhs) ∧
      ∀ rel, rel ∈ table.map (·.rel) ↔ rel ∈ rels := by
  simp only [dropRelsOf, bind_ok] at h
  obtain ⟨rels, hrels, rels', hsan, htab⟩ := h
  obtain rfl := mapM_sanitize hk hsan
  have hall := exists_collect_iff.mp ⟨table, htab⟩
  refine ⟨rels', hrels, fun rel hrel => ?_, fun rel => ?_⟩
  · obtain ⟨t, ht⟩ := hall rel hrel
    exact (tabulate_ok ht).2
  · simp only [List.mem_map, mem_collect htab]
    constructor
    · rintro ⟨e, ⟨rel', hrel', t, ht, he⟩, rfl⟩
      have hin : e.rel ∈ t.map (·.rel) := List.mem_map_of_mem he
      rw [(tabulate_ok ht).1] at hin
      have hsame : e.rel = rel' := by simpa using hin
      exact hsame ▸ hrel'
    · intro hrel
      obtain ⟨t, ht⟩ := hall rel hrel
      have hin : rel ∈ t.map (·.rel) := by simp [(tabulate_ok ht).1]
      obtain ⟨e, he, rfl⟩ := List.mem_map.mp hin
      exact ⟨e, ⟨_, hrel, t, ht, he⟩, rfl⟩

theorem exists_dropRelsOf (hk : Keyed m.graph) (h : interPartitionRels ds = .ok rels)
    (hloc : ∀ rel ∈ rels, Located m.graph rel.lhs ∧ Located m.graph rel.rhs) :
    ∃ table, m.dropRelsOf ds = .ok table := by
  have hsan : rels.mapM m.sanitize = .ok (rels.map id) := mapM_eq_map fun rel hrel => by
    obtain ⟨⟨d, hd, -⟩, e, he, -⟩ := hloc rel hrel
    exact (sanitize_ok hk).mpr ⟨rfl, ⟨d, hd⟩, e, he⟩
  rw [List.map_id] at hsan
  obtain ⟨table, htab⟩ := exists_collect_iff.mpr fun rel hrel =>
    exists_tabulate (hloc rel hrel).1 (hloc rel hrel).2
  exact ⟨table, bind_ok.mpr ⟨rels, h, bind_ok.mpr ⟨rels, hsan, htab⟩⟩⟩

end Table

/-! One call. -/

section Step

variable {R : Type} (initPgReproData : List (Item R) → R → Except Err R) (m : Composite R)
  (c : Call R)

/-- What a call leaves in the manager before it records anything. -/
def noted : Composite R :=
  { m with
    graph := registered m.graph (c.admitted initPgReproData m.dmHosts)
    reprodata := (c.data initPgReproData).or m.reprodata }

/-- The state in which a graph is sent, with this table recorded. -/
def recorded (table : List TableEntry) : Composite R :=
  let m := m.noted initPgReproData c
  { m with dropRels := Function.update m.dropRels c.session (some table) }

/-- The table of a call that gets to recording one. -/
def tableOf : Except Err (List DropSpec × List TableEntry) := do
  let ds ← c.drops initPgReproData m.dmHosts
  let table ← (m.noted initPgReproData c).dropRelsOf ds
  return (ds, table)

theorem registerAll_eq (m : Composite R) (items : List (Item R)) :
    m.registerAll items = ({ m with graph := registered m.graph (admitted m.dmHosts items) },
      do allAdmitted m.dmHosts items; return admitted m.dmHosts items) := by
  induction items generalizing m with
  | nil => rfl
  | cons item items ih =>
    cases item with
    | reprodata r => rfl
    | empty => rfl
    | drop d =>
      have hrest := ih (m.register d)
      simp only [registerAll, admitted, allAdmitted]
      cases d.partition with
      | none => rfl
      | some p =>
        have hhosts : (m.register d).dmHosts = m.dmHosts := rfl
        by_cases hp : m.dmHosts.contains p = true
        · simp only [hp, if_true, hrest, hhosts]
          cases allAdmitted m.dmHosts items with
          | error e => rfl
          | ok u => rfl
        · simp only [hp, Bool.false_eq_true, if_false]
          rfl

theorem addGraphSpec_eq : m.addGraphSpec initPgReproData c.session c.items =
    match c.body initPgReproData with
    | .error e => ({ m with reprodata := (c.data initPgReproData).or m.reprodata }, .error e)
    | .ok items =>
      split { m with reprodata := (c.data initPgReproData).or m.reprodata } c.session items := by
  have hlast : ∀ (m : Composite R) (items : List (Item R)),
      (match items.getLast? with
        | none => (m, .error .indexError)
        | some .empty => m.split c.session items.dropLast
        | some _ => m.split c.session items : Composite R × Except Err Unit) =
      match Call.unpadded items with
      | .error e => (m, .error e)
      | .ok items => m.split c.session items := by
    intro m items
    rw [Call.unpadded]
    cases items.getLast? with
    | none => rfl
    | some item => cases item <;> rfl
  rw [addGraphSpec, takeReprodata, Call.body, Call.undated, Call.data]
  cases c.items.getLast? with
  | none => rfl
  | some item =>
    cases item with
    | drop d => exact hlast m c.items
    | empty => exact hlast m c.items
    | reprodata r =>
      cases hr : initPgReproData c.items.dropLast r with
      | error e =>
        simp only [hr]
        rfl
      | ok r' =>
        simp only [hr]
        exact hlast { m with reprodata := some r' } c.items.dropLast

theorem split_eq (session : String) (items : List (Item R)) : m.split session items =
    match (do
      allAdmitted m.dmHosts items
      dropRelsOf { m with graph := registered m.graph (admitted m.dmHosts items) }
        (admitted m.dmHosts items) : Except Err (List TableEntry)) with
    | .error e => ({ m with graph := registered m.graph (admitted m.dmHosts items) }, .error e)
    | .ok table =>
      deliver { m with
          graph := registered m.graph (admitted m.dmHosts items)
          dropRels := Function.update m.dropRels session (some table) } session
        (sentOf m (admitted m.dmHosts items)) := by
  rw [split, registerAll_eq]
  cases allAdmitted m.dmHosts items with
  | error e => rfl
  | ok u => rfl

/-- Everything a call can do: it is broken off, or it records a table and sends the graph. -/
theorem addGraphSpec_cases :
    (∃ e, m.tableOf initPgReproData c = .error e ∧
      m.addGraphSpec initPgReproData c.session c.items =
        (m.noted initPgReproData c, .error e)) ∨
    ∃ ds table, m.tableOf initPgReproData c = .ok (ds, table) ∧
      m.addGraphSpec initPgReproData c.session c.items =
        (m.recorded initPgReproData c table).deliver c.session
          ((m.recorded initPgReproData c table).sentOf ds) := by
  rw [addGraphSpec_eq]
  simp only [tableOf, Call.drops, recorded, noted, Call.admitted]
  cases c.body initPgReproData with
  | error e => exact Or.inl ⟨e, rfl, rfl⟩
  | ok items =>
    simp only [split_eq, ok_bind]
    cases allAdmitted m.dmHosts items with
    | error e => exact Or.inl ⟨e, rfl, rfl⟩
    | ok u =>
      simp only [ok_bind, pure, Except.pure]
      cases dropRelsOf { m with
          graph := registered m.graph (admitted m.dmHosts items)
          reprodata := (c.data initPgReproData).or m.reprodata } (admitted m.dmHosts items) with
      | error e => exact Or.inl ⟨e, rfl, rfl⟩
      | ok table => exact Or.inr ⟨_, table, rfl, rfl⟩

/-- What it takes for a call to come to a good end. -/
theorem addGraphSpec_ok {m' : Composite R} :
    m.addGraphSpec initPgReproData c.session c.items = (m', .ok ()) ↔ ∃ ds table,
      m.tableOf initPgReproData c = .ok (ds, table) ∧
        (m.recorded initPgReproData c table).deliver c.session
          ((m.recorded initPgReproData c table).sentOf ds) = (m', .ok ()) := by
  rcases m.addGraphSpec_cases initPgReproData c with ⟨e, he, h⟩ | ⟨ds, table, ht, h⟩
  · simp [h, he]
  · rw [h, ht]
    constructor
    · exact fun hm => ⟨ds, table, rfl, hm⟩
    · rintro ⟨ds', table', he, hm⟩
      obtain ⟨rfl, rfl⟩ := Prod.mk.inj (Except.ok.inj he)
      exact hm

/-- The manager after a call. -/
def step : Composite R := (m.addGraphSpec initPgReproData c.session c.items).1

/-- A manager that got these calls. -/
def reached (hosts : List String) (calls : List (Call R)) : Composite R :=
  Run.run (step initPgReproData) { dmHosts := hosts } calls

theorem step_dmHosts : (m.step initPgReproData c).dmHosts = m.dmHosts := by
  rw [step]
  rcases m.addGraphSpec_cases initPgReproData c with ⟨e, -, h⟩ | ⟨ds, table, -, h⟩
  · rw [h]
    rfl
  · rw [h]
    rfl

theorem step_graph : (m.step initPgReproData c).graph =
    registered m.graph (c.admitted initPgReproData m.dmHosts) := by
  rw [step]
  rcases m.addGraphSpec_cases initPgReproData c with ⟨e, -, h⟩ | ⟨ds, table, -, h⟩
  · rw [h]
    rfl
  · rw [h]
    rfl

theorem step_reprodata : (m.step initPgReproData c).reprodata =
    (c.data initPgReproData).or m.reprodata := by
  rw [step]
  rcases m.addGraphSpec_cases initPgReproData c with ⟨e, -, h⟩ | ⟨ds, table, -, h⟩
  · rw [h]
    rfl
  · rw [h]
    rfl

/-- A call changes nothing of other sessions on the nodes and in the tables. -/
theorem step_other {session : String} (hs : session ≠ c.session) :
    (m.step initPgReproData c).nodes session = m.nodes session ∧
      (m.step initPgReproData c).dropRels session = m.dropRels session := by
  rw [step]
  rcases m.addGraphSpec_cases initPgReproData c with ⟨e, -, h⟩ | ⟨ds, table, -, h⟩
  · rw [h]
    exact ⟨rfl, rfl⟩
  · rw [h]
    exact ⟨funext fun p => if_neg hs, Function.update_of_ne hs _ _⟩

variable (hosts : List String) {calls : List (Call R)}

theorem reached_dmHosts (calls : List (Call R)) :
    (reached initPgReproData hosts calls).dmHosts = hosts :=
  Run.invariant_run_all (I := fun m : Composite R => m.dmHosts = hosts)
    (fun m c h => (m.step_dmHosts initPgReproData c).trans h) rfl

theorem reached_keyed (calls : List (Call R)) : Keyed (reached initPgReproData hosts calls).graph :=
  Run.invariant_run_all (I := fun m : Composite R => Keyed m.graph)
    (fun m c h => (m.step_graph initPgReproData c) ▸ keyed_registered h) (by simp [Keyed])

/-- The nodes know nothing of a session no call was for. -/
theorem reached_nodes {session : String} (h : ∀ c ∈ calls, c.session ≠ session) (p : String) :
    (reached initPgReproData hosts calls).nodes session p = [] := by
  rw [reached]
  generalize hm : ({ dmHosts := hosts } : Composite R) = m
  have hnil : m.nodes session = fun _ => [] := by rw [← hm]
  clear hm
  induction calls generalizing m with
  | nil => simp [hnil]
  | cons c calls ih =>
    have hc := (m.step_other initPgReproData c (h c (by simp)).symm).1
    exact ih (fun c hc => h c (by simp [hc])) _ (hc.trans hnil)

end Step

end Composite

end Daliuge.Manager
