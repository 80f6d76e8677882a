import Mathlib.Data.String.Basic
import Daliuge.Lib.FirstSeen
import Daliuge.Lib.Traversal
import Daliuge.Engine.Symmetry
import Daliuge.Manager.Building

/-!
# Loading

`createGraphFromDropSpecList`: the drops of a list of specifications are created, related to each
other, and those without anything upstream are returned. A session goes through the drops from
there when it is deployed.
-/
namespace Daliuge.Engine.Linking

open Relation Traversal
open Manager (Ref)

/-- A drop specification: the class its `dropclass` names, if it is an application, and its
relations in the order of the dictionary, each by the method that its key stands for. -/
structure Spec where
  oid : String
  categoryType : String
  appClass : AppClass := .inputFired
  executionMode : ExecutionMode := .drop
  relations : List (Method × List Ref) := []

/-- What the loader raises. -/
inductive LoadError
  | indexError
  | keyError (category : String)
  | raised (e : Raised)
  deriving DecidableEq, Repr

/-- The class `__CREATION_FUNCTIONS` creates. -/
def Spec.created (s : Spec) : Option DropClass :=
  let category := Manager.lower s.categoryType
  if category = "data" ∨ category = "container" then some .data
  else if category = "application" ∨ category = "app" then some (.app s.appClass)
  else if category = "socket" then some (.app .socketListener)
  else none

/-- The drops before they are related; of two with one oid the later one. -/
def newDrops (specs : List Spec) : String → Links String := fun oid =>
  match specs.reverse.find? fun s => s.oid = oid with
  | some s => { dropClass := s.created.getD .data, executionMode := s.executionMode }
  | none => {}

/-- The calls one specification asks for; relations to drops that are not there are left out. -/
def Spec.calls (oids : List String) (s : Spec) : List (Call String) :=
  s.relations.flatMap fun r =>
    (r.2.filter fun ref => ref.oid ∈ oids).map fun ref => ⟨r.1, s.oid, ref.oid, true⟩

def allCalls (specs : List Spec) : List (Call String) :=
  specs.flatMap (Spec.calls (specs.map (·.oid)))

/-- `getUpstreamObjects`. -/
def getUpstreamObjects {U : Type} (l : Links U) : List U :=
  if l.dropClass.isApp then l.inputs ++ l.streamingInputs else l.producers

/-- `getDownstreamObjects`. -/
def getDownstreamObjects {U : Type} (l : Links U) : List U :=
  if l.dropClass.isApp then l.outputs else l.consumers ++ l.streamingConsumers

/-- The drops that were created, and the roots. -/
structure Created where
  drops : String → Links String
  roots : List String

/-- `createGraphFromDropSpecList`. -/
def createGraphFromDropSpecList (specs : List Spec) : Except LoadError Created :=
  if specs = [] then .error .indexError
  else match specs.find? fun s => s.created.isNone with
    | some s => .error (.keyError s.categoryType)
    | none =>
      match calls (newDrops specs) (allCalls specs) with
      | (_, some e) => .error (.raised e)
      | (w, none) =>
        .ok ⟨w, (specs.map (·.oid)).eraseDups.filter fun o => (getUpstreamObjects (w o)).isEmpty⟩

/-- `breadFirstTraverse`, within so many steps. -/
def breadFirstTraverse {U : Type} [DecidableEq U] (w : U → Links U) (fuel : Nat)
    (toVisit : List U) :
    Option (List U) :=
  breadthFirst (fun x => getDownstreamObjects (w x)) fuel toVisit toVisit

/-- What `Session.deploy` does to the drops it comes by: it registers them by their uid, and lets
its listener subscribe to each. -/
structure Deployment where
  drops : List String := []
  subscribed : List String := []

def Deployment.visit (d : Deployment) (uid : String) : Deployment :=
  ⟨if uid ∈ d.drops then d.drops else d.drops ++ [uid], d.subscribed ++ [uid]⟩

/-- The loop of `Session.deploy`. -/
def deploy (g : Created) (fuel : Nat) : Option Deployment :=
  (breadFirstTraverse g.drops fuel g.roots).map fun visits =>
    visits.foldl Deployment.visit {}

/-- The drop that comes first, and the one that waits for it. -/
def Call.feeds {U : Type} (c : Call U) : U × U :=
  if c.link.1 = .producer then (c.link.2.2, c.link.2.1) else c.link.2

/-- One drop feeds another, by the specification of either. -/
def Feeds (specs : List Spec) (x y : String) : Prop := ∃ c ∈ allCalls specs, c.feeds = (x, y)

/-- The methods of applications; the others are those of data drops. -/
def Method.ofApp : Method → Bool
  | .addInput | .addOutput | .addStreamingInput => true
  | _ => false

/-- Every relation joins a data drop and an application, as each of them would give it. -/
def JoinsDataAndApps (specs : List Spec) : Prop :=
  ∀ c ∈ allCalls specs,
    (newDrops specs c.receiver).dropClass.isApp = c.method.ofApp ∧
    (newDrops specs c.argument).dropClass.isApp = !c.method.ofApp

variable {specs : List Spec} {g : Created} {x y z : String} {c : Call String}

/-! What the calls mean for what is upstream and downstream. -/

theorem unlinked_newDrops (specs : List Spec) : Unlinked (newDrops specs) := by
  intro z k
  unfold newDrops
  cases k <;> split <;> exact ⟨rfl, rfl⟩

theorem back_of_mem_allCalls (h : c ∈ allCalls specs) : c.back = true := by
  simp only [allCalls, Spec.calls, List.mem_flatMap, List.mem_map] at h
  obtain ⟨s, _, r, _, ref, _, rfl⟩ := h
  rfl

theorem oid_of_mem_allCalls (h : c ∈ allCalls specs) :
    c.receiver ∈ specs.map (·.oid) ∧ c.argument ∈ specs.map (·.oid) := by
  simp only [allCalls, Spec.calls, List.mem_flatMap, List.mem_map, List.mem_filter] at h
  obtain ⟨s, hs, r, _, ref, ⟨_, ho⟩, rfl⟩ := h
  exact ⟨List.mem_map_of_mem hs, List.mem_map.mpr (of_decide_eq_true ho)⟩

theorem oid_of_feeds (h : Feeds specs x y) : x ∈ specs.map (·.oid) ∧ y ∈ specs.map (·.oid) := by
  obtain ⟨⟨method, r, a, b⟩, hc, hf⟩ := h
  obtain ⟨hr, ha⟩ := oid_of_mem_allCalls hc
  cases method <;> cases hf
  · exact ⟨hr, ha⟩
  · exact ⟨ha, hr⟩
  · exact ⟨ha, hr⟩
  · exact ⟨hr, ha⟩
  · exact ⟨hr, ha⟩
  · exact ⟨ha, hr⟩

/-- A relationship of either kind, by its two ends. -/
theorem feeds_iff : Feeds specs x y ↔
    (∃ c ∈ allCalls specs, c.link = (.consumer, x, y)) ∨
    (∃ c ∈ allCalls specs, c.link = (.streaming, x, y)) ∨
    ∃ c ∈ allCalls specs, c.link = (.producer, y, x) := by
  have hc : ∀ c : Call String, c.feeds = (x, y) ↔
      c.link = (.consumer, x, y) ∨ c.link = (.streaming, x, y) ∨ c.link = (.producer, y, x) := by
    rintro ⟨method, r, a, b⟩
    cases method <;> simp [Call.feeds, Call.link, and_comm]
  simp only [Feeds, hc]
  constructor
  · rintro ⟨c, hm, h | h | h⟩
    · exact Or.inl ⟨c, hm, h⟩
    · exact Or.inr (Or.inl ⟨c, hm, h⟩)
    · exact Or.inr (Or.inr ⟨c, hm, h⟩)
  · rintro (⟨c, hm, h⟩ | ⟨c, hm, h⟩ | ⟨c, hm, h⟩)
    · exact ⟨c, hm, Or.inl h⟩
    · exact ⟨c, hm, Or.inr (Or.inl h)⟩
    · exact ⟨c, hm, Or.inr (Or.inr h)⟩

/-- Of the two ends of a relationship the second is the application. -/
theorem JoinsDataAndApps.link (h : JoinsDataAndApps specs) {k : Kind} (hc : c ∈ allCalls specs)
    (hl : c.link = (k, x, y)) : (newDrops specs x).dropClass.isApp = false ∧
      (newDrops specs y).dropClass.isApp = true := by
  obtain ⟨hr, ha⟩ := h c hc
  obtain ⟨method, r, a, b⟩ := c
  cases method <;> cases hl <;> exact ⟨by simpa [Method.ofApp] using ‹_›, by assumption⟩

/-! The drops that were created. -/

/-- A data drop does not have the methods of applications. -/
theorem isApp_of_succeeds {U : Type} [DecidableEq U] {w : U → Links U} {c : Call U}
    (h : (call w c).2 = none) (hm : c.method.ofApp = true) :
    (w c.receiver).dropClass.isApp = true := by
  obtain ⟨method, x, y, b⟩ := c
  cases hx : (w x).dropClass with
  | app a => simp [DropClass.isApp]
  | data =>
    cases method with
    | addInput => simp [call, addInput, hx] at h
    | addOutput => simp [call, addOutput, hx] at h
    | addStreamingInput => simp [call, addStreamingInput, hx] at h
    | addConsumer | addProducer | addStreamingConsumer => cases hm

theorem isApp_of_calls_succeed {U : Type} [DecidableEq U] {w : U → Links U} {cs : List (Call U)}
    (hs : Symmetric w) (hb : ∀ c ∈ cs, c.back = true) (h : (calls w cs).2 = none) :
    ∀ c ∈ cs, c.method.ofApp = true → (w c.receiver).dropClass.isApp = true := by
  induction cs generalizing w with
  | nil => simp
  | cons c cs ih =>
    obtain ⟨hc, he⟩ := andThen_eq (g := (calls · cs)) h
    have heff := effect_call hs (hb c List.mem_cons_self) hc
    have hcs : calls w (c :: cs) = calls (call w c).1 cs := he
    rw [hcs] at h
    intro c' hc' hm
    rcases List.mem_cons.mp hc' with rfl | hc'
    · exact isApp_of_succeeds hc hm
    · rw [← heff.dropClass]
      exact ih (heff.symmetric hs) (fun d hd => hb d (List.mem_cons_of_mem _ hd)) h c' hc' hm

/-- What a successful load went through. -/
structure Loaded (specs : List Spec) (g : Created) : Prop where
  created : ∀ s ∈ specs, s.created.isSome = true
  ofApp : ∀ c ∈ allCalls specs, c.method.ofApp = true →
    (newDrops specs c.receiver).dropClass.isApp = true
  symmetric : Symmetric g.drops
  dropClass : ∀ z, (g.drops z).dropClass = (newDrops specs z).dropClass
  mem_left : ∀ k x y, y ∈ (g.drops x).left k ↔ ∃ c ∈ allCalls specs, c.link = (k, x, y)
  roots : g.roots =
    (specs.map (·.oid)).eraseDups.filter fun o => (getUpstreamObjects (g.drops o)).isEmpty

theorem loaded (h : createGraphFromDropSpecList specs = .ok g) : Loaded specs g := by
  unfold createGraphFromDropSpecList at h
  split at h
  · cases h
  · split at h
    · cases h
    · rename_i hnone
      rw [List.find?_eq_none] at hnone
      cases hc : calls (newDrops specs) (allCalls specs) with
      | mk w e =>
        rw [hc] at h
        cases e with
        | some e => cases h
        | none =>
          cases h
          have hunl := symmetric_unlinked (unlinked_newDrops specs)
          have hok : (calls (newDrops specs) (allCalls specs)).2 = none := by rw [hc]
          obtain ⟨hs, hcls, hmem⟩ := symmetric_calls hunl (fun c => back_of_mem_allCalls) hok
          rw [hc] at hs hcls hmem
          refine ⟨fun s hs => by simpa [Option.isSome_iff_ne_none] using hnone s hs,
            isApp_of_calls_succeed hunl (fun c => back_of_mem_allCalls) hok,
            hs, hcls, fun k x y => ?_, rfl⟩
          rw [hmem, (unlinked_newDrops specs x k).1]
          simp

/-- Between data drops and applications, downstream is what a drop feeds. -/
theorem Loaded.mem_downstream (h : Loaded specs g) (hj : JoinsDataAndApps specs) :
    y ∈ getDownstreamObjects (g.drops x) ↔ Feeds specs x y := by
  rw [feeds_iff, getDownstreamObjects, h.dropClass]
  cases hx : (newDrops specs x).dropClass.isApp with
  | false =>
    have hno : ¬ ∃ c ∈ allCalls specs, c.link = (.producer, y, x) := by
      rintro ⟨c, hc, hl⟩
      simp [(hj.link hc hl).2] at hx
    simp only [Bool.false_eq_true, if_false, List.mem_append, hno, or_false]
    rw [← h.mem_left, ← h.mem_left]
    rfl
  | true =>
    have hno : ∀ k, ¬ ∃ c ∈ allCalls specs, c.link = (k, x, y) := by
      rintro k ⟨c, hc, hl⟩
      simp [(hj.link hc hl).1] at hx
    have hout : y ∈ (g.drops x).outputs ↔ x ∈ (g.drops y).left .producer ∧
        (g.drops x).dropClass.isApp = true := h.symmetric.mem_right .producer y x
    simp only [if_true, hno, false_or]
    rw [hout, h.mem_left, h.dropClass]
    simp [hx]

/-- Upstream is what a drop is fed by. -/
theorem Loaded.mem_upstream (h : Loaded specs g) (hj : JoinsDataAndApps specs) :
    x ∈ getUpstreamObjects (g.drops y) ↔ Feeds specs x y := by
  rw [feeds_iff, getUpstreamObjects, h.dropClass]
  cases hy : (newDrops specs y).dropClass.isApp with
  | false =>
    have hno : ∀ k, ¬ ∃ c ∈ allCalls specs, c.link = (k, x, y) := by
      rintro k ⟨c, hc, hl⟩
      simp [(hj.link hc hl).2] at hy
    simp only [Bool.false_eq_true, if_false, hno, false_or]
    rw [← h.mem_left]
    rfl
  | true =>
    have hno : ¬ ∃ c ∈ allCalls specs, c.link = (.producer, y, x) := by
      rintro ⟨c, hc, hl⟩
      simp [(hj.link hc hl).1] at hy
    have hin : x ∈ (g.drops y).inputs ↔ y ∈ (g.drops x).left .consumer ∧
        (g.drops y).dropClass.isApp = true := h.symmetric.mem_right .consumer x y
    have hstr : x ∈ (g.drops y).streamingInputs ↔ y ∈ (g.drops x).left .streaming ∧
        (g.drops y).dropClass.isApp = true := h.symmetric.mem_right .streaming x y
    simp only [if_true, List.mem_append, hno, or_false]
    rw [hin, hstr, h.mem_left, h.mem_left, h.dropClass]
    simp [hy]

theorem Symmetric.downstream_nodup {U : Type} {w : U → Links U} (h : Symmetric w) (x : U) :
    (getDownstreamObjects (w x)).Nodup := by
  unfold getDownstreamObjects
  split
  · exact h.right_nodup .producer x
  · exact List.nodup_append'.mpr ⟨h.left_nodup .consumer x, h.left_nodup .streaming x, h.disjoint x⟩

/-- Every drop is reached from a root. -/
theorem Loaded.reached (h : Loaded specs g) (hj : JoinsDataAndApps specs)
    (hac : ∀ x, ¬ TransGen (Feeds specs) x x) (hx : x ∈ specs.map (·.oid)) :
    x ∈ reached (fun x => getDownstreamObjects (g.drops x)) g.roots := by
  have hstep : ∀ x y, Step (fun x => getDownstreamObjects (g.drops x)) x y ↔ Feeds specs x y :=
    fun x y => h.mem_downstream hj
  have hrel : Step (fun x => getDownstreamObjects (g.drops x)) = Feeds specs := by
    funext x y
    exact propext (hstep x y)
  have hwf : WellFounded (Step fun x => getDownstreamObjects (g.drops x)) :=
    wellFounded_of_acyclic (l := specs.map (·.oid))
      (fun x y hxy => (oid_of_feeds ((hstep x y).mp hxy)).1) (by rw [hrel]; exact hac)
  obtain ⟨r, hr, hno⟩ := exists_start hwf x
  have hroid : r ∈ specs.map (·.oid) := by
    rcases hr.cases_head with rfl | ⟨z, hz, _⟩
    · exact hx
    · exact (oid_of_feeds ((hstep r z).mp hz)).1
  refine ⟨r, ?_, hr⟩
  rw [h.roots, List.mem_filter, List.mem_eraseDups]
  refine ⟨hroid, List.isEmpty_iff.mpr (List.eq_nil_iff_forall_not_mem.mpr fun z hz => ?_)⟩
  exact hno z ((hstep z r).mpr ((h.mem_upstream hj).mp hz))

/-! Deployment. -/

/-- Drops that are come by once are registered and subscribed to in turn. -/
theorem foldl_visit {visits : List String} {d : Deployment} (h : (d.drops ++ visits).Nodup) :
    visits.foldl Deployment.visit d = ⟨d.drops ++ visits, d.subscribed ++ visits⟩ := by
  induction visits generalizing d with
  | nil => simp
  | cons uid visits ih =>
    have hsplit : d.drops ++ uid :: visits = d.drops ++ [uid] ++ visits := by simp
    rw [hsplit] at h
    have hnew : uid ∉ d.drops := fun hm =>
      (List.nodup_append'.mp (List.nodup_append'.mp h).1).2.2 hm (by simp)
    have hv : d.visit uid = ⟨d.drops ++ [uid], d.subscribed ++ [uid]⟩ := by
      simp [Deployment.visit, hnew]
    rw [List.foldl_cons, hv, ih h]
    simp

/-- Breadth first from the roots every drop is come by, once. -/
theorem Loaded.covered (h : Loaded specs g) (hd : (specs.map (·.oid)).Nodup)
    (hj : JoinsDataAndApps specs) (hac : ∀ x, ¬ TransGen (Feeds specs) x x) {fuel : Nat}
    (hf : specs.length ≤ fuel) : ∃ visits,
      breadFirstTraverse g.drops fuel g.roots = some visits ∧
        visits.Perm (specs.map (·.oid)) := by
  have hsub : ∀ x ∈ g.roots, x ∈ specs.map (·.oid) := by
    intro x hx
    rw [h.roots, List.mem_filter, List.mem_eraseDups] at hx
    exact hx.1
  have hclosed : ∀ x ∈ specs.map (·.oid), ∀ y ∈ getDownstreamObjects (g.drops x),
      y ∈ specs.map (·.oid) :=
    fun x _ y hy => (oid_of_feeds ((h.mem_downstream hj).mp hy)).2
  have hroots : g.roots.Nodup := by
    rw [h.roots]
    exact List.Nodup.filter _ FirstSeen.nodup_eraseDups
  obtain ⟨visits, hv, hcov⟩ := breadthFirst_covers (specs.map (·.oid))
    (fun x _ => h.symmetric.downstream_nodup x) hclosed hroots hsub (by simpa using hf)
  refine ⟨visits, hv, (List.perm_ext_iff_of_nodup hcov.nodup hd).mpr fun x => ?_⟩
  rw [hcov.mem_iff]
  constructor
  · rintro ⟨r, hr, hx⟩
    exact mem_of_reach (S := {x | x ∈ specs.map (·.oid)}) hclosed (hsub r hr) hx
  · exact h.reached hj hac

/-- A session that loads an acyclic graph of data drops and applications comes by every drop once,
registers each and subscribes to each. -/
theorem deploy_reaches (hd : (specs.map (·.oid)).Nodup) (hj : JoinsDataAndApps specs)
    (hac : ∀ x, ¬ TransGen (Feeds specs) x x) (h : createGraphFromDropSpecList specs = .ok g)
    {fuel : Nat} (hf : specs.length ≤ fuel) :
    ∃ visits d, breadFirstTraverse g.drops fuel g.roots = some visits ∧
      visits.Perm (specs.map (·.oid)) ∧ deploy g fuel = some d ∧
      d.drops.Perm (specs.map (·.oid)) ∧ d.subscribed.Perm (specs.map (·.oid)) := by
  obtain ⟨visits, hv, hp⟩ := (loaded h).covered hd hj hac hf
  have hnd : visits.Nodup := hp.nodup_iff.mpr hd
  refine ⟨visits, ⟨visits, visits⟩, hv, hp, ?_, hp, hp⟩
  rw [deploy, hv, Option.map_some, foldl_visit (by simpa using hnd)]
  rfl

/-- A data drop, an application that reads it, and the data drop that both this and the
application itself name as its output. -/
def pipeline : List Spec :=
  [{ oid := "A", categoryType := "Data", relations := [(.addConsumer, [.plain "B"])] },
   { oid := "B", categoryType := "Application", relations := [(.addOutput, [.named "C" "out"])] },
   { oid := "C", categoryType := "data", relations := [(.addProducer, [.plain "B"])] }]

theorem deploy_reaches_pipeline : ∃ g, createGraphFromDropSpecList pipeline = .ok g ∧
    ∃ visits d, breadFirstTraverse g.drops 3 g.roots = some visits ∧
      visits.Perm (pipeline.map (·.oid)) ∧ deploy g 3 = some d ∧
      d.drops.Perm (pipeline.map (·.oid)) ∧ d.subscribed.Perm (pipeline.map (·.oid)) := by
  have hok : (createGraphFromDropSpecList pipeline).isOk = true := by decide +kernel
  cases h : createGraphFromDropSpecList pipeline with
  | error e =>
    rw [h] at hok
    cases hok
  | ok g =>
    -- What is fed comes later in the alphabet.
    have hac : ∀ x, ¬ TransGen (Feeds pipeline) x x := by
      refine acyclic_of_lt id ?_
      rintro x y ⟨c, hc, hf⟩
      have hlt : ∀ c ∈ allCalls pipeline, c.feeds.1 < c.feeds.2 := by decide +kernel
      have hxy := hlt c hc
      rwa [hf] at hxy
    have hj : JoinsDataAndApps pipeline := by
      unfold JoinsDataAndApps
      decide +kernel
    exact ⟨g, rfl, deploy_reaches (by decide) hj hac h (by decide)⟩

end Daliuge.Engine.Linking
