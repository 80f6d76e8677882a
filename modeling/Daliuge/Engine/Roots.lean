import Daliuge.Lib.Association
import Daliuge.Engine.Loading

/-!
# Roots

The roots of a physical graph are found twice: `get_roots` reads them off the specifications, and
the loader looks at the drops it has created.
-/
namespace Daliuge.Engine.Linking

open Manager (Ref)

section Definitions

/-- The entries of a relation; none if the specification lacks its key. -/
def Spec.refs (s : Spec) (m : Method) : List Ref := (s.relations.lookup m).getD []

/-- `_sanitize_links`. -/
def sanitizeLinks (refs : List Ref) : List String := refs.map Ref.oid

/-- The spellings of an application that `get_roots` knows. -/
def Spec.knownApp (s : Spec) : Bool :=
  ["Application", "Socket", "app"].contains s.categoryType

def Spec.knownData (s : Spec) : Bool := s.categoryType == "Data"

/-- What one specification adds to the `nonroots`. -/
def Spec.nonroots (s : Spec) : List String :=
  if s.knownApp then
    (if s.refs .addInput ≠ [] ∨ s.refs .addStreamingInput ≠ [] then [s.oid] else []) ++
      sanitizeLinks (s.refs .addOutput)
  else if s.knownData then
    (if s.refs .addProducer ≠ [] then [s.oid] else []) ++ sanitizeLinks (s.refs .addConsumer) ++
      sanitizeLinks (s.refs .addStreamingConsumer)
  else []

/-- `get_roots`. -/
def getRoots (specs : List Spec) : List String :=
  (specs.map (·.oid)).eraseDups.filter (· ∉ specs.flatMap Spec.nonroots)

/-- The method that notes a relationship on the side any drop can be on. -/
def Kind.leftMethod : Kind → Method
  | .consumer => .addConsumer
  | .producer => .addProducer
  | .streaming => .addStreamingConsumer

/-- The method of applications. -/
def Kind.rightMethod : Kind → Method
  | .consumer => .addInput
  | .producer => .addOutput
  | .streaming => .addStreamingInput

def Spec.isApp (s : Spec) : Bool := (s.created.getD .data).isApp

/-- A physical graph as the unroller writes it: every relationship is noted on both sides, between
drops of the graph, and only what data drops hold is consumed; what an application passes to
another one is an output. -/
structure Unrolled (specs : List Spec) : Prop where
  oids : (specs.map (·.oid)).Nodup
  keys : ∀ s ∈ specs, (s.relations.map Prod.fst).Nodup
  closed : ∀ s ∈ specs, ∀ r ∈ s.relations, ∀ ref ∈ r.2, ref.oid ∈ specs.map (·.oid)
  bothSides : ∀ s ∈ specs, ∀ t ∈ specs, ∀ k,
    t.oid ∈ sanitizeLinks (s.refs (Kind.leftMethod k)) ↔
      s.oid ∈ sanitizeLinks (t.refs (Kind.rightMethod k))
  consumed : ∀ s ∈ specs, s.isApp = true →
    s.refs .addConsumer = [] ∧ s.refs .addStreamingConsumer = []

/-- Something is upstream of a drop, as the engine sees it. -/
def Spec.awaits (s : Spec) : Prop :=
  if s.isApp then s.refs .addInput ≠ [] ∨ s.refs .addStreamingInput ≠ []
  else s.refs .addProducer ≠ []

def Spec.known (s : Spec) : Bool := s.knownApp || s.knownData

/-- Where both find the same roots: each drop with something upstream, or one that feeds it, is
spelled as `get_roots` knows it, and what is an output of an application spelled so has inputs if
it is an application itself. -/
structure RootsKnown (specs : List Spec) : Prop where
  spelled : ∀ s ∈ specs, s.awaits → s.known = true ∨
    ∃ t ∈ specs, t.known = true ∧ Feeds specs t.oid s.oid
  outputs : ∀ s ∈ specs, s.isApp = true → ∀ t ∈ specs, t.known = true →
    s.oid ∈ sanitizeLinks (t.refs .addOutput) → s.awaits

end Definitions

variable {specs : List Spec} {g : Created} {s t : Spec} {k : Kind} {m : Method} {x y : String}

/-! What the specifications relate. -/

/-- Some specification relates one drop to another. -/
def Related (specs : List Spec) (k : Kind) (x y : String) : Prop :=
  ∃ c ∈ allCalls specs, c.link = (k, x, y)

theorem link_eq_iff {c : Call String} : c.link = (k, x, y) ↔
    c.method = Kind.leftMethod k ∧ c.receiver = x ∧ c.argument = y ∨
    c.method = Kind.rightMethod k ∧ c.receiver = y ∧ c.argument = x := by
  obtain ⟨method, r, a, b⟩ := c
  cases method <;> cases k <;> simp [Call.link, Kind.leftMethod, Kind.rightMethod, and_comm]

theorem Unrolled.mem_calls_iff (hu : Unrolled specs) (hs : s ∈ specs) :
    ⟨m, s.oid, x, true⟩ ∈ allCalls specs ↔ x ∈ sanitizeLinks (s.refs m) := by
  simp only [allCalls, Spec.calls, List.mem_flatMap, List.mem_map, List.mem_filter,
    sanitizeLinks, Spec.refs]
  constructor
  · rintro ⟨s', hs', ⟨m', refs⟩, hr, ref, ⟨href, _⟩, he⟩
    obtain ⟨rfl, ho, rfl, _⟩ := Call.mk.inj he
    obtain rfl : s' = s := List.inj_on_of_nodup_map hu.oids hs' hs ho
    rw [(Association.mem_iff_lookup (hu.keys _ hs)).mp hr]
    exact ⟨ref, href, rfl⟩
  · rintro ⟨ref, href, rfl⟩
    cases hl : s.relations.lookup m with
    | none => simp [hl] at href
    | some refs =>
      rw [hl] at href
      have hr := Association.mem_of_lookup hl
      refine ⟨s, hs, (m, refs), hr, ref, ⟨href, decide_eq_true ?_⟩, rfl⟩
      exact List.mem_map.mp (hu.closed s hs _ hr ref href)

/-- A relationship can be read off its left side, -/
theorem Unrolled.related_left (hu : Unrolled specs) (hs : s ∈ specs) (ht : t ∈ specs) :
    Related specs k s.oid t.oid ↔ t.oid ∈ sanitizeLinks (s.refs (Kind.leftMethod k)) := by
  constructor
  · rintro ⟨⟨method, r, a, b⟩, hc, hl⟩
    obtain rfl : b = true := back_of_mem_allCalls hc
    rcases link_eq_iff.mp hl with ⟨rfl, rfl, rfl⟩ | ⟨rfl, rfl, rfl⟩
    · exact (hu.mem_calls_iff hs).mp hc
    · exact (hu.bothSides s hs t ht k).mpr ((hu.mem_calls_iff ht).mp hc)
  · intro h
    exact ⟨_, (hu.mem_calls_iff hs).mpr h, link_eq_iff.mpr (Or.inl ⟨rfl, rfl, rfl⟩)⟩

/-- and off its right side. -/
theorem Unrolled.related_right (hu : Unrolled specs) (hs : s ∈ specs) (ht : t ∈ specs) :
    Related specs k s.oid t.oid ↔ s.oid ∈ sanitizeLinks (t.refs (Kind.rightMethod k)) :=
  (hu.related_left hs ht).trans (hu.bothSides s hs t ht k)

theorem Unrolled.refs_ne_nil_iff (hu : Unrolled specs) (hs : s ∈ specs) :
    s.refs m ≠ [] ↔ ∃ t ∈ specs, t.oid ∈ sanitizeLinks (s.refs m) := by
  constructor
  · intro h
    obtain ⟨ref, href⟩ := List.exists_mem_of_ne_nil _ h
    have hx : ref.oid ∈ sanitizeLinks (s.refs m) := List.mem_map_of_mem href
    obtain ⟨t, ht, he⟩ := List.mem_map.mp
      (oid_of_mem_allCalls ((hu.mem_calls_iff hs).mpr hx)).2
    exact ⟨t, ht, by rwa [he]⟩
  · rintro ⟨t, _, h⟩ hnil
    simp [hnil, sanitizeLinks] at h

theorem Unrolled.dropClass (hu : Unrolled specs) (hs : s ∈ specs) :
    (newDrops specs s.oid).dropClass.isApp = s.isApp := by
  have hfind : specs.reverse.find? (fun t => t.oid = s.oid) = some s :=
    Association.find?_key (by simpa using List.nodup_reverse.mpr hu.oids) (List.mem_reverse.mpr hs)
  simp only [newDrops, hfind]
  rfl

/-- What a relationship leads to is an application. -/
theorem Unrolled.isApp_right (hu : Unrolled specs) (h : Loaded specs g) (hs : s ∈ specs)
    (ht : t ∈ specs) (hr : Related specs k s.oid t.oid) : t.isApp = true := by
  rw [← hu.dropClass ht]
  have hc := (hu.mem_calls_iff ht).mpr ((hu.related_right hs ht).mp hr)
  exact h.ofApp _ hc (by cases k <;> rfl)

/-! What each of the two finds. -/

theorem Unrolled.awaits_iff (hu : Unrolled specs) (hs : s ∈ specs) : s.awaits ↔
    if s.isApp then ∃ t ∈ specs, Related specs .consumer t.oid s.oid ∨
      Related specs .streaming t.oid s.oid
    else ∃ t ∈ specs, Related specs .producer s.oid t.oid := by
  unfold Spec.awaits
  split
  · rw [hu.refs_ne_nil_iff hs, hu.refs_ne_nil_iff hs]
    constructor
    · rintro (⟨t, ht, h⟩ | ⟨t, ht, h⟩)
      · exact ⟨t, ht, Or.inl ((hu.related_right ht hs).mpr h)⟩
      · exact ⟨t, ht, Or.inr ((hu.related_right ht hs).mpr h)⟩
    · rintro ⟨t, ht, h | h⟩
      · exact Or.inl ⟨t, ht, (hu.related_right ht hs).mp h⟩
      · exact Or.inr ⟨t, ht, (hu.related_right ht hs).mp h⟩
  · rw [hu.refs_ne_nil_iff hs]
    constructor
    · rintro ⟨t, ht, h⟩
      exact ⟨t, ht, (hu.related_left hs ht).mpr h⟩
    · rintro ⟨t, ht, h⟩
      exact ⟨t, ht, (hu.related_left hs ht).mp h⟩

/-- The loader finds the drops with nothing upstream. -/
theorem Unrolled.mem_roots_iff (hu : Unrolled specs) (h : Loaded specs g) (hs : s ∈ specs) :
    s.oid ∈ g.roots ↔ ¬ s.awaits := by
  have hlist : ∀ l : List String, (∀ x ∈ l, x ∈ specs.map (·.oid)) →
      (l = [] ↔ ¬ ∃ t ∈ specs, t.oid ∈ l) := by
    intro l hl
    rw [List.eq_nil_iff_forall_not_mem]
    constructor
    · rintro h ⟨t, _, ht⟩
      exact h _ ht
    · intro h x hx
      obtain ⟨t, ht, rfl⟩ := List.mem_map.mp (hl x hx)
      exact h ⟨t, ht, hx⟩
  have hleft : ∀ k x y, y ∈ (g.drops x).left k ↔ Related specs k x y := h.mem_left
  have hright : ∀ k x, x ∈ (g.drops s.oid).right k ↔
      Related specs k x s.oid ∧ s.isApp = true := by
    intro k x
    rw [h.symmetric.mem_right, hleft, h.dropClass, hu.dropClass hs]
  have hoid : ∀ k x y, Related specs k x y → x ∈ specs.map (·.oid) ∧ y ∈ specs.map (·.oid) := by
    rintro k x y ⟨c, hc, hl⟩
    obtain ⟨hr, ha⟩ := oid_of_mem_allCalls hc
    rcases link_eq_iff.mp hl with ⟨_, rfl, rfl⟩ | ⟨_, rfl, rfl⟩
    · exact ⟨hr, ha⟩
    · exact ⟨ha, hr⟩
  have hup : ∀ x, x ∈ getUpstreamObjects (g.drops s.oid) ↔
      if s.isApp then Related specs .consumer x s.oid ∨ Related specs .streaming x s.oid
      else Related specs .producer s.oid x := by
    intro x
    rw [getUpstreamObjects, h.dropClass, hu.dropClass hs]
    split
    · rename_i happ
      have hin : x ∈ (g.drops s.oid).inputs ↔ _ := hright .consumer x
      have hstr : x ∈ (g.drops s.oid).streamingInputs ↔ _ := hright .streaming x
      rw [List.mem_append, hin, hstr]
      simp [happ]
    · exact hleft .producer s.oid x
  rw [h.roots, List.mem_filter, List.mem_eraseDups, List.isEmpty_iff, hlist,
    hu.awaits_iff hs]
  · simp only [hup, List.mem_map_of_mem (f := (·.oid)) hs, true_and]
    split <;> rfl
  · intro x hx
    have hx := (hup x).mp hx
    split at hx
    · rcases hx with hx | hx
      · exact (hoid _ _ _ hx).1
      · exact (hoid _ _ _ hx).1
    · exact (hoid _ _ _ hx).2

theorem Spec.isApp_of_knownApp (h : s.knownApp = true) : s.isApp = true := by
  have hl : ∀ c ∈ ["Application", "Socket", "app"], Manager.lower c = "application" ∨
      Manager.lower c = "app" ∨ Manager.lower c = "socket" := by decide +kernel
  have hc := hl s.categoryType (by simpa [Spec.knownApp] using h)
  unfold Spec.isApp Spec.created
  rcases hc with hc | hc | hc <;> simp [hc, DropClass.isApp]

theorem Spec.isApp_of_knownData (h : s.knownData = true) : s.isApp = false := by
  have hl : Manager.lower "Data" = "data" := by decide +kernel
  have hc : s.categoryType = "Data" := by simpa [Spec.knownData] using h
  unfold Spec.isApp Spec.created
  simp [hc, hl, DropClass.isApp]

/-- A specification rules itself out and what it feeds, if its spelling is known. -/
theorem Unrolled.mem_nonroots_iff (hu : Unrolled specs) (h : Loaded specs g) (ht : t ∈ specs)
    (hs : s ∈ specs) : s.oid ∈ t.nonroots ↔
      t.known = true ∧ (s.oid = t.oid ∧ t.awaits ∨ Feeds specs t.oid s.oid) := by
  have hfeeds : Feeds specs t.oid s.oid ↔ Related specs .consumer t.oid s.oid ∨
      Related specs .streaming t.oid s.oid ∨ Related specs .producer s.oid t.oid := feeds_iff
  have hout : Related specs .producer s.oid t.oid ↔ s.oid ∈ sanitizeLinks (t.refs .addOutput) :=
    hu.related_right hs ht
  have hcon : Related specs .consumer t.oid s.oid ↔ s.oid ∈ sanitizeLinks (t.refs .addConsumer) :=
    hu.related_left ht hs
  have hstr : Related specs .streaming t.oid s.oid ↔
      s.oid ∈ sanitizeLinks (t.refs .addStreamingConsumer) := hu.related_left ht hs
  unfold Spec.nonroots
  cases ha : t.knownApp with
  | true =>
    have happ := Spec.isApp_of_knownApp ha
    obtain ⟨hc, hsc⟩ := hu.consumed t ht happ
    have hno : s.oid ∉ sanitizeLinks [] := by simp [sanitizeLinks]
    rw [hc] at hcon
    rw [hsc] at hstr
    rw [hfeeds, hcon, hstr, hout]
    simp only [hno, false_or, if_true, List.mem_append, Spec.known, ha, Bool.true_or, true_and,
      Spec.awaits, happ]
    split <;> simp_all
  | false =>
    cases hd : t.knownData with
    | false => simp [Spec.known, ha, hd]
    | true =>
      have happ := Spec.isApp_of_knownData hd
      have hno : ¬ Related specs .producer s.oid t.oid := by
        intro hr
        have := hu.isApp_right h hs ht hr
        rw [happ] at this
        cases this
      rw [hfeeds, hcon, hstr]
      simp only [hno, or_false, if_true, List.mem_append, Spec.known, ha, hd, Bool.or_true,
        true_and, Spec.awaits, happ, Bool.false_eq_true, if_false, or_assoc]
      split <;> simp_all

/-- `get_roots` finds the drops that are neither ruled out by themselves nor by what feeds them. -/
theorem Unrolled.mem_getRoots_iff (hu : Unrolled specs) (h : Loaded specs g) (hs : s ∈ specs) :
    s.oid ∈ getRoots specs ↔ ¬ (s.known = true ∧ s.awaits) ∧
      ¬ ∃ t ∈ specs, t.known = true ∧ Feeds specs t.oid s.oid := by
  have hoid : s.oid ∈ specs.map (·.oid) := List.mem_map_of_mem hs
  rw [getRoots, List.mem_filter, List.mem_eraseDups, decide_eq_true_eq, List.mem_flatMap,
    ← not_or, and_iff_right hoid, not_iff_not]
  constructor
  · rintro ⟨t, ht, hm⟩
    obtain ⟨hk, ⟨he, ha⟩ | hf⟩ := (hu.mem_nonroots_iff h ht hs).mp hm
    · obtain rfl : s = t := List.inj_on_of_nodup_map hu.oids hs ht he
      exact Or.inl ⟨hk, ha⟩
    · exact Or.inr ⟨t, ht, hk, hf⟩
  · rintro (⟨hk, ha⟩ | ⟨t, ht, hk, hf⟩)
    · exact ⟨s, hs, (hu.mem_nonroots_iff h hs hs).mpr ⟨hk, Or.inl ⟨rfl, ha⟩⟩⟩
    · exact ⟨t, ht, (hu.mem_nonroots_iff h ht hs).mpr ⟨hk, Or.inr hf⟩⟩

/-- What is fed awaits something, unless it is an application that is only an output. -/
theorem Unrolled.awaits_of_feeds (hu : Unrolled specs) (h : Loaded specs g)
    (hr : RootsKnown specs) (hs : s ∈ specs) (ht : t ∈ specs) (hk : t.known = true)
    (hf : Feeds specs t.oid s.oid) : s.awaits := by
  have hright : ∀ k, Related specs k t.oid s.oid → s.isApp = true :=
    fun k hrel => hu.isApp_right h ht hs hrel
  rcases feeds_iff.mp hf with hf | hf | hf
  · have happ := hright _ hf
    rw [hu.awaits_iff hs, if_pos happ]
    exact ⟨t, ht, Or.inl hf⟩
  · have happ := hright _ hf
    rw [hu.awaits_iff hs, if_pos happ]
    exact ⟨t, ht, Or.inr hf⟩
  · cases happ : s.isApp with
    | true => exact hr.outputs s hs happ t ht hk ((hu.related_right hs ht).mp hf)
    | false =>
      rw [hu.awaits_iff hs, happ]
      exact ⟨t, ht, hf⟩

/-- For a physical graph that loads, `get_roots` and the loader find the same roots exactly when
the spellings that matter are known to `get_roots` and no application is only an output. -/
theorem getRoots_eq_iff (hu : Unrolled specs) (h : createGraphFromDropSpecList specs = .ok g) :
    (∀ oid, oid ∈ getRoots specs ↔ oid ∈ g.roots) ↔ RootsKnown specs := by
  have hl := loaded h
  constructor
  · intro heq
    have hs : ∀ s ∈ specs, (¬ (s.known = true ∧ s.awaits) ∧
        ¬ ∃ t ∈ specs, t.known = true ∧ Feeds specs t.oid s.oid) ↔ ¬ s.awaits := fun s hs => by
      rw [← hu.mem_getRoots_iff hl hs, heq, hu.mem_roots_iff hl hs]
    refine ⟨fun s hm ha => ?_, fun s hm _ t ht hk hout => ?_⟩
    · by_contra hno
      push Not at hno
      refine (hs s hm).mp ⟨fun hk => hno.1 hk.1, ?_⟩ ha
      rintro ⟨t, ht, hk, hf⟩
      exact hno.2 t ht hk hf
    · by_contra ha
      refine ((hs s hm).mpr ha).2 ⟨t, ht, hk, ?_⟩
      exact feeds_iff.mpr (Or.inr (Or.inr ((hu.related_right hm ht).mpr hout)))
  · intro hr oid
    by_cases hoid : oid ∈ specs.map (·.oid)
    · obtain ⟨s, hs, rfl⟩ := List.mem_map.mp hoid
      rw [hu.mem_getRoots_iff hl hs, hu.mem_roots_iff hl hs]
      constructor
      · rintro ⟨hk, hf⟩ ha
        rcases hr.spelled s hs ha with hknown | hfed
        · exact hk ⟨hknown, ha⟩
        · exact hf hfed
      · intro ha
        refine ⟨fun hk => ha hk.2, ?_⟩
        rintro ⟨t, ht, hk, hf⟩
        exact ha (hu.awaits_of_feeds hl hr hs ht hk hf)
    · refine iff_of_false (fun hm => ?_) fun hm => ?_
      · rw [getRoots, List.mem_filter, List.mem_eraseDups] at hm
        exact hoid hm.1
      · rw [hl.roots, List.mem_filter, List.mem_eraseDups] at hm
        exact hoid hm.1

/-- A data drop, its reader and what this writes, in the given spellings. -/
def readAndWrite (source app target : String) : List Spec :=
  [{ oid := "A", categoryType := source, relations := [(.addConsumer, [.plain "B"])] },
   { oid := "B", categoryType := app,
     relations := [(.addInput, [.named "A" "in"]), (.addOutput, [.plain "C"])] },
   { oid := "C", categoryType := target, relations := [(.addProducer, [.plain "B"])] }]

/-- An application that passes something to another one, which has no inputs. -/
def passedOn : List Spec :=
  [{ oid := "A", categoryType := "Application", relations := [(.addOutput, [.plain "B"])] },
   { oid := "B", categoryType := "Application", relations := [(.addProducer, [.plain "A"])] }]

/-- Both sides of all three kinds of relationships, to be computed. -/
theorem bothSides_of_list
    (h : ∀ k ∈ [Kind.consumer, .producer, .streaming], ∀ s ∈ specs, ∀ t ∈ specs,
      t.oid ∈ sanitizeLinks (s.refs (Kind.leftMethod k)) ↔
        s.oid ∈ sanitizeLinks (t.refs (Kind.rightMethod k))) :
    ∀ s ∈ specs, ∀ t ∈ specs, ∀ k, t.oid ∈ sanitizeLinks (s.refs (Kind.leftMethod k)) ↔
      s.oid ∈ sanitizeLinks (t.refs (Kind.rightMethod k)) :=
  fun s hs t ht k => h k (by cases k <;> decide) s hs t ht

/-- What is read with a spelling that `get_roots` does not know may still be fed by something it
knows. -/
theorem getRoots_eq_readAndWrite : ∃ g,
    createGraphFromDropSpecList (readAndWrite "Data" "app" "container") = .ok g ∧
    ∀ oid, oid ∈ getRoots (readAndWrite "Data" "app" "container") ↔ oid ∈ g.roots := by
  have hu : Unrolled (readAndWrite "Data" "app" "container") :=
    ⟨by decide, by decide, by decide, bothSides_of_list (by decide), by decide +kernel⟩
  have hok : (createGraphFromDropSpecList (readAndWrite "Data" "app" "container")).isOk = true := by
    decide +kernel
  cases h : createGraphFromDropSpecList (readAndWrite "Data" "app" "container") with
  | error e =>
    rw [h] at hok
    cases hok
  | ok g =>
    refine ⟨g, rfl, (getRoots_eq_iff hu h).mpr ⟨fun s hs _ => ?_, ?_⟩⟩
    · have hb : ⟨.addOutput, "B", "C", true⟩ ∈
          allCalls (readAndWrite "Data" "app" "container") := by
        decide
      simp only [readAndWrite, List.mem_cons, List.not_mem_nil, or_false] at hs
      rcases hs with rfl | rfl | rfl
      · exact Or.inl (by decide)
      · exact Or.inl (by decide)
      · exact Or.inr ⟨_, List.mem_cons_of_mem _ List.mem_cons_self, by decide, _, hb, rfl⟩
    · have hout : ∀ s ∈ readAndWrite "Data" "app" "container", s.isApp = true →
          ∀ t ∈ readAndWrite "Data" "app" "container",
            s.oid ∉ sanitizeLinks (t.refs .addOutput) := by decide +kernel
      exact fun s hs happ t ht _ hm => absurd hm (hout s hs happ t ht)

/-- In lower case the reader is taken for a root that is none; an application that is only an
output is none although nothing comes before it in the engine. -/
theorem getRoots_disagree :
    (∃ g, Unrolled (readAndWrite "data" "application" "data") ∧
      createGraphFromDropSpecList (readAndWrite "data" "application" "data") = .ok g ∧
      "B" ∈ getRoots (readAndWrite "data" "application" "data") ∧ "B" ∉ g.roots) ∧
    ∃ g, Unrolled passedOn ∧ createGraphFromDropSpecList passedOn = .ok g ∧
      "B" ∉ getRoots passedOn ∧ "B" ∈ g.roots := by
  have hlower : Unrolled (readAndWrite "data" "application" "data") :=
    ⟨by decide, by decide, by decide, bothSides_of_list (by decide), by decide +kernel⟩
  have hpassed : Unrolled passedOn :=
    ⟨by decide, by decide, by decide, bothSides_of_list (by decide), by decide +kernel⟩
  have hroots : (createGraphFromDropSpecList
      (readAndWrite "data" "application" "data")).toOption.map
      Created.roots = some ["A"] := by decide +kernel
  have hroots' : (createGraphFromDropSpecList passedOn).toOption.map Created.roots =
      some ["A", "B"] := by decide +kernel
  constructor
  · cases h : createGraphFromDropSpecList (readAndWrite "data" "application" "data") with
    | error e => rw [h] at hroots; cases hroots
    | ok g =>
      rw [h] at hroots
      have hg : g.roots = ["A"] := Option.some.inj hroots
      exact ⟨g, hlower, rfl, by decide, by rw [hg]; decide⟩
  · cases h : createGraphFromDropSpecList passedOn with
    | error e => rw [h] at hroots'; cases hroots'
    | ok g =>
      rw [h] at hroots'
      have hg : g.roots = ["A", "B"] := Option.some.inj hroots'
      exact ⟨g, hpassed, rfl, by decide, by rw [hg]; decide⟩

end Daliuge.Engine.Linking
