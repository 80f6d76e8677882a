import Daliuge.Lib.Association
import Daliuge.Manager.Specs

/-!
# Building a session

`Session.addGraphSpec`: the status changes, the specifications are loaded and checked one by one,
the reproducibility data are cut off, and oids that are there already are refused, in this order.
What an exception leaves behind depends on where it is raised.
-/
namespace Daliuge.Manager

open Collect

/-- A key of a dictionary: not there, with something the code cannot work with, or with a value. -/
inductive Entry (α : Type)
  | absent
  | unusable
  | value (a : α)
  deriving DecidableEq, Repr

def Entry.isAbsent {α : Type} : Entry α → Bool
  | .absent => true
  | _ => false

/-- A dictionary of a graph specification, as far as it is read: the oid is unusable when it
cannot be hashed, a text when it is none, and a relation when it cannot be gone through; an
entry of a relation that is an empty dictionary is `none`. -/
structure SpecDict (O D : Type) where
  oid : Entry O := .absent
  categoryType : Entry String := .absent
  dropclass : Entry String := .absent
  storage : Entry String := .absent
  applicationArgs : Entry (List (String × Entry D)) := .absent
  relations : ToMany → Entry (List (Option Ref)) := fun _ => .absent
  rmode : Option D := none
  others : List (String × D) := []

/-- An element of a graph specification. -/
inductive SpecItem (O D : Type)
  | dict (d : SpecDict O D)
  | notDict

/-- What is submitted: a list, something else that has a length, or something without. -/
inductive Submitted (O D : Type)
  | items (l : List (SpecItem O D))
  | sized
  | unsized

/-- What `addGraphSpec` raises. -/
inductive AddErr
  | invalidSessionState
  | invalidGraph
  | indexError
  | keyError (key : String)
  | typeError
  | attributeError
  | importError
  deriving DecidableEq, Repr

/-- What the loader asks of Python: whether a value counts as true, whether a module can be
imported and has an attribute, and whether there is the class for S3. -/
structure Surroundings (D : Type) where
  truthy : D → Bool
  resolves : String → String → Bool
  hasS3 : Bool

variable {O D : Type} (env : Surroundings D)

namespace SpecDict

variable (d : SpecDict O D)

/-- `not d`. -/
def isEmpty : Bool :=
  d.oid.isAbsent && d.categoryType.isAbsent && d.dropclass.isAbsent && d.storage.isAbsent &&
  d.applicationArgs.isAbsent && ToMany.all.all (fun k => (d.relations k).isAbsent) &&
  d.rmode.isNone && d.others.isEmpty

/-- `check_dropspec`. -/
def check : Except AddErr Unit :=
  if d.oid.isAbsent || d.categoryType.isAbsent then .error .invalidGraph else .ok ()

/-- `_getKwargs`, which reads the value of every application argument. -/
def getKwargs : Except AddErr Unit :=
  match d.applicationArgs with
  | .absent => .ok ()
  | .unusable => .error .attributeError
  | .value args => args.forM fun arg =>
    match arg.2 with
    | .absent => .error (.keyError "value")
    | .unusable => .error .typeError
    | .value _ => .ok ()

end SpecDict

/-- `importlib.import_module` of all parts but the last, and `getattr` of that. -/
def importClass (parts : List String) : Except AddErr Unit :=
  if env.resolves (".".intercalate parts.dropLast) (parts.getLastD "") then .ok ()
  else .error .importError

/-- Support for old package names. -/
def undfms : List String → List String
  | "dfms" :: parts => "dlg" :: parts
  | parts => parts

def storageTypes : List String :=
  ["Memory", "SharedMemory", "File", "NGAS", "null", "json", "ParameterSet"] ++
    if env.hasS3 then ["S3"] else []

namespace SpecDict

variable (d : SpecDict O D)

/-! The creation functions in a dry run. -/

def createData : Except AddErr Unit := do
  d.getKwargs
  if d.categoryType = .value "Data" then
    match d.dropclass with
    | .absent => .error (.keyError "dropclass")
    | .unusable => .error .attributeError
    | .value name => importClass env (name.splitOn ".")
  else
    match d.storage with
    | .absent => .ok ()
    | .unusable => .error .typeError
    | .value name => if name ∈ storageTypes env then .ok () else .error (.keyError name)

def createContainer : Except AddErr Unit := do
  d.getKwargs
  match d.dropclass with
  | .absent => .ok ()
  | .unusable => .error .attributeError
  | .value name => importClass env (undfms (name.splitOn "."))

def createSocket : Except AddErr Unit := d.getKwargs

/-- What is raised for an application that cannot be imported. -/
def orInvalid : Except AddErr Unit → Except AddErr Unit
  | .ok () => .ok ()
  | .error _ => .error .invalidGraph

def createApp : Except AddErr Unit := do
  d.getKwargs
  match d.dropclass with
  | .absent => orInvalid (importClass env (undfms ("".splitOn ".")))
  | .unusable => .error .attributeError
  | .value name => orInvalid (importClass env (undfms (name.splitOn ".")))

/-- `__CREATION_FUNCTIONS`, under the category in lower case. -/
def create (category : String) : Except AddErr Unit :=
  match category with
  | "socket" => d.createSocket
  | "data" => d.createData env
  | "application" => d.createApp env
  | "app" => d.createApp env
  | "container" => d.createContainer env
  | other => .error (.keyError other)

/-- The check that every relation can be read; an oid that is not there is only logged. -/
def checkRelations : Except AddErr Unit :=
  ToMany.all.forM fun k =>
    match d.relations k with
    | .absent => .ok ()
    | .unusable => .error .typeError
    | .value refs => if refs.all Option.isSome then .ok () else .error .indexError

end SpecDict

/-- `lower`, for the categories: the only letter beyond ASCII that becomes one of ASCII is the
sign for Kelvin. -/
def lower (s : String) : String := s.map fun c => if c = '\u212a' then 'k' else c.toLower

section Loader

variable [DecidableEq O]

/-- The specifications by their oid. -/
abbrev SpecGraph (O D : Type) := List (O × SpecDict O D)

/-- The body of the first loop in `loadDropSpecs`. -/
def loadDropSpec (dropSpecs : SpecGraph O D) (item : SpecItem O D) :
    Except AddErr (SpecGraph O D) :=
  match item with
  | .notDict => .error .typeError
  | .dict d => do
    d.check
    match d.categoryType with
    | .value category => d.create env (lower category)
    | _ => .error .attributeError
    match d.oid with
    | .value o => return Association.set dropSpecs o d
    | _ => .error .typeError

/-- The body of the second loop. -/
def checkItem (item : SpecItem O D) : Except AddErr Unit :=
  match item with
  | .notDict => .error .typeError
  | .dict d => d.checkRelations

/-- `loadDropSpecs`: the specifications, and the reproducibility data cut off the end. -/
def Submitted.loadDropSpecs : Submitted O D →
    Except AddErr (SpecGraph O D × Option (SpecDict O D))
  | .unsized => .error .invalidGraph
  | .sized => .error .typeError
  | .items l =>
    match l.getLast? with
    | none => .error .indexError
    | some .notDict => .error .attributeError
    | some (.dict last) => do
      let (rest, reprodata) :=
        if (last.rmode.any env.truthy || last.isEmpty) = true then (l.dropLast, some last)
        else (l, none)
      let dropSpecs ← rest.foldlM (loadDropSpec env) []
      rest.forM checkItem
      return (dropSpecs, reprodata)

end Loader

/-! The session. -/

inductive SessionStates
  | pristine | building | deploying | running | finished | cancelled | failed
  deriving DecidableEq, Repr

/-- What a session holds while it is built. -/
structure Session (O D : Type) where
  status : SessionStates := .pristine
  graph : SpecGraph O D := []
  graphreprodata : Option (SpecDict O D) := none

namespace Session

variable [DecidableEq O] (s : Session O D) (graphSpec : Submitted O D)

/-- What follows a successful `loadDropSpecs`. -/
def accept (specs : SpecGraph O D) (reprodata : Option (SpecDict O D)) :
    Session O D × Except AddErr Unit :=
  let s := { s with graphreprodata := reprodata }
  if specs.any fun p => p.1 ∈ s.graph.map Prod.fst then (s, .error .invalidGraph)
  else ({ s with graph := Association.merge s.graph specs }, .ok ())

/-- `addGraphSpec`, with the session it leaves. The length is asked for only to be logged. -/
def addGraphSpec : Session O D × Except AddErr Unit :=
  if s.status ≠ .pristine ∧ s.status ≠ .building then (s, .error .invalidSessionState)
  else
    let s := { s with status := .building }
    match graphSpec with
    | .unsized => (s, .error .typeError)
    | _ =>
      match graphSpec.loadDropSpecs env with
      | .error e => (s, .error e)
      | .ok (specs, reprodata) => s.accept specs reprodata

/-- A session after some calls, those that were rejected included. -/
def reached (graphSpecs : List (Submitted O D)) : Session O D :=
  graphSpecs.foldl (fun s graphSpec => (s.addGraphSpec env graphSpec).1) {}

/-- The check at the head of `deploy`. -/
def deployable : Bool :=
  if s.graph.isEmpty then s.status = .pristine else s.status = .building

end Session

/-! What a rejected specification leaves. -/

section Rejected

variable {env} [DecidableEq O] {s s' : Session O D} {graphSpec : Submitted O D}
  {graphSpecs : List (Submitted O D)} {e : AddErr}

variable (env graphSpec) in
/-- Everything a call can do to a session that is not deployed. -/
theorem addGraphSpec_cases (hs : s.status = .pristine ∨ s.status = .building) :
    (s.addGraphSpec env graphSpec).1.status = .building ∧
    ((∃ e, graphSpec.loadDropSpecs env = .error e ∧
      s.addGraphSpec env graphSpec = ({ s with status := .building },
        .error (if graphSpec matches .unsized then .typeError else e))) ∨
    ∃ specs reprodata, graphSpec.loadDropSpecs env = .ok (specs, reprodata) ∧
      s.addGraphSpec env graphSpec =
        ({ s with status := .building } : Session O D).accept specs reprodata) := by
  have hopen : ¬ (s.status ≠ .pristine ∧ s.status ≠ .building) := by tauto
  cases graphSpec with
  | unsized =>
    refine ⟨?_, Or.inl ⟨.invalidGraph, rfl, ?_⟩⟩ <;> simp [Session.addGraphSpec, hopen]
  | _ =>
    simp only [Session.addGraphSpec, hopen, if_false]
    split
    · rename_i err herr
      exact ⟨rfl, Or.inl ⟨err, herr, rfl⟩⟩
    · rename_i specs reprodata hok
      refine ⟨?_, Or.inr ⟨specs, reprodata, hok, rfl⟩⟩
      unfold Session.accept
      dsimp only
      split
      · rfl
      · rfl

/-- A session that has not been deployed is pristine or being built. -/
theorem reached_status : (Session.reached env graphSpecs).status = .pristine ∨
    (Session.reached env graphSpecs).status = .building := by
  unfold Session.reached
  generalize hs : ({} : Session O D) = s
  have hstart : s.status = .pristine ∨ s.status = .building := by
    subst hs
    exact Or.inl rfl
  clear hs
  induction graphSpecs generalizing s with
  | nil => exact hstart
  | cons g gs ih => exact ih _ (Or.inr (addGraphSpec_cases _ _ hstart).1)

/-- A rejected specification leaves the session as it was exactly when the session was being
built already and the reproducibility data of the specification, should it be well formed, are
those of the session. -/
theorem rejected_unchanged_iff
    (h : (Session.reached env graphSpecs).addGraphSpec env graphSpec = (s', .error e)) :
    s' = Session.reached env graphSpecs ↔
      (Session.reached env graphSpecs).status = .building ∧
      ∀ specs reprodata, graphSpec.loadDropSpecs env = .ok (specs, reprodata) →
        reprodata = (Session.reached env graphSpecs).graphreprodata := by
  obtain ⟨s, hs⟩ : ∃ s, Session.reached env graphSpecs = s := ⟨_, rfl⟩
  have hstatus : s.status = .pristine ∨ s.status = .building := hs ▸ reached_status
  rw [hs] at h ⊢
  obtain ⟨hb, ⟨err, hload, hcall⟩ | ⟨specs, reprodata, hload, hcall⟩⟩ :=
    addGraphSpec_cases env graphSpec hstatus
  · rw [hcall] at h
    obtain ⟨rfl, -⟩ := Prod.mk.inj h
    rw [hload]
    constructor
    · intro he
      rw [← he]
      exact ⟨rfl, fun specs reprodata hl => absurd hl (by simp)⟩
    · rintro ⟨hst, -⟩
      rw [← hst]
  · rw [hcall] at h
    unfold Session.accept at h
    dsimp only at h
    split at h
    · obtain ⟨rfl, -⟩ := Prod.mk.inj h
      constructor
      · intro he
        refine ⟨by rw [← he], fun specs' reprodata' hl => ?_⟩
        obtain ⟨-, rfl⟩ := Prod.mk.inj (Except.ok.inj (hload.symm.trans hl))
        rw [← he]
      · rintro ⟨hst, hrepro⟩
        rw [← hst, hrepro specs reprodata hload]
    · exact absurd (Prod.mk.inj h).2 (by simp)

/-- Nothing is imported. -/
def bare : Surroundings Nat where
  truthy n := n != 0
  resolves _ _ := false
  hasS3 := false

/-- One container under an oid. -/
def container (oid : String) : Submitted String Nat :=
  .items [.dict { oid := .value oid, categoryType := .value "container" }]

/-- A second container of one oid leaves the session as it was. -/
theorem duplicate_unchanged :
    ((Session.reached bare [container "A"]).addGraphSpec bare (container "A")).2 =
      .error .invalidGraph ∧
    ((Session.reached bare [container "A"]).addGraphSpec bare (container "A")).1 =
      Session.reached bare [container "A"] := by
  have hrej : ((Session.reached bare [container "A"]).addGraphSpec bare (container "A")).2 =
      .error .invalidGraph := by decide +kernel
  have hload : ((container "A").loadDropSpecs bare).map (fun r => r.2.isNone) = .ok true := by
    decide +kernel
  have hdata : (Session.reached bare [container "A"]).graphreprodata.isNone = true := by
    decide +kernel
  have hstatus : (Session.reached bare [container "A"]).status = .building := by decide +kernel
  refine ⟨hrej, (rejected_unchanged_iff (Prod.ext rfl hrej)).mpr ⟨hstatus, ?_⟩⟩
  intro specs reprodata hl
  rw [hl] at hload
  rw [Option.isNone_iff_eq_none.mp hdata]
  exact Option.isNone_iff_eq_none.mp (Except.ok.inj hload)

/-- A specification without a category, in a new session. -/
theorem rejected_first_changes : ¬ ∀ (env : Surroundings Nat)
    (graphSpecs : List (Submitted String Nat)) (graphSpec : Submitted String Nat)
    (s' : Session String Nat) (e : AddErr),
    (Session.reached env graphSpecs).addGraphSpec env graphSpec = (s', .error e) →
      s' = Session.reached env graphSpecs := by
  intro h
  have hsame := h bare [] (.items [.dict { oid := .value "A" }]) _ .invalidGraph
    (Prod.ext rfl (by decide +kernel))
  have hstatus := congrArg Session.status hsame
  revert hstatus
  decide +kernel

/-- A new session that has been given a specification it rejects cannot be deployed, though
nothing is in it. -/
theorem rejected_first_not_deployable
    (h : ({} : Session O D).addGraphSpec env graphSpec = (s', .error e)) :
    ({} : Session O D).deployable = true ∧ s'.graph = [] ∧ s'.deployable = false := by
  have hpristine : ({} : Session O D).status = .pristine ∨
      ({} : Session O D).status = .building := Or.inl rfl
  have hgraph : s'.graph = [] := by
    obtain ⟨-, ⟨err, -, hcall⟩ | ⟨specs, reprodata, -, hcall⟩⟩ :=
      addGraphSpec_cases env graphSpec hpristine
    · rw [hcall] at h
      rw [← (Prod.mk.inj h).1]
    · rw [hcall, Session.accept] at h
      simp at h
  have hstatus : s'.status = .building := by
    have hb := (addGraphSpec_cases env graphSpec hpristine).1
    rw [h] at hb
    exact hb
  exact ⟨by simp [Session.deployable], hgraph, by simp [Session.deployable, hgraph, hstatus]⟩

end Rejected

end Daliuge.Manager
