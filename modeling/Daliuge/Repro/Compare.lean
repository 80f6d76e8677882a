import Daliuge.Repro.Modes

/-!
# Comparing signatures

The passes that write reproducibility data keep the signature of a graph under the name of each
mode. The comparison looks there only in files for all modes, and elsewhere under a key no pass
writes.
-/
namespace Daliuge.Repro

variable {S : Type} [DecidableEq S]

def Mode.every : List Mode :=
  [.all, .nothing, .rerun, .repeat_, .recompute, .reproduce, .replicateSci, .replicateComp,
    .replicateTotal, .experimental]

/-- `rflag_caster`: a number, or one of the names. -/
def rflagCaster : Option String → Mode
  | none => reproDefault
  | some val =>
    match (val.toInt?).bind fun n => Mode.every.find? (·.value = n) with
    | some m => m
    | none => (allRmodes.find? fun m => val = m.name || val = "Reproducibility." ++ m.name).getD
        reproDefault

/-- A dictionary as the comparison looks at it: its `rmode`, its `signature`, and the
signatures under the names of the modes. -/
structure Reprodata (S : Type) where
  rmode : Option String := none
  signature : Option S := none
  modes : Mode → Option S := fun _ => none

/-- What is in a file: a logical graph with its reproducibility data inside, or a list with them
at its end. -/
inductive File (S : Type)
  | graph (reprodata : Reprodata S)
  | list (reprodata : Reprodata S)

/-! The writers. -/

/-- `str(rmode.value)`. -/
def Mode.text (m : Mode) : String := toString m.value

/-- `init_lgt_repro_data`. -/
def initLgt (level : Mode) : Reprodata S := { rmode := some level.text }

/-- The signatures of one pass, mode by mode. -/
def Reprodata.sign (r : Reprodata S) (level : Mode) (sig : Mode → S) : Reprodata S :=
  (candidateRmodes level).foldl
    (fun r m => { r with modes := Function.update r.modes m (some (sig m)) }) r

/-- The passes over a physical graph: nothing is signed in the default mode. -/
def Reprodata.signPhysical (r : Reprodata S) (level : Mode) (sig : Mode → S) : Reprodata S :=
  if level = .nothing then r else r.sign level sig

/-- The reproducibility data of a graph after some passes over its physical graph, each with
the signatures it comes to; without a mode no pass does anything. -/
def reprodataAfter (level : Option Mode) (lg : Mode → S) (passes : List (Mode → S)) :
    Reprodata S :=
  match level with
  | none => {}
  | some level => passes.foldl (fun r sig => r.signPhysical level sig)
      ((initLgt level).sign level lg)

/-- A logical graph after `init_lg_repro_data`. -/
def writtenLg (level : Option Mode) (lg : Mode → S) : File S :=
  .graph (reprodataAfter level lg [])

/-- A physical graph, template or report after its passes. -/
def writtenPg (level : Option Mode) (lg : Mode → S) (passes : List (Mode → S)) : File S :=
  .list (reprodataAfter level lg passes)

/-- The files the passes write. -/
inductive Written : File S → Prop
  | lg (level : Option Mode) (lg : Mode → S) : Written (writtenLg level lg)
  | pg (level : Option Mode) (lg : Mode → S) (passes : List (Mode → S)) :
    Written (writtenPg level lg passes)

/-! The comparison. -/

/-- `open_file`: the last of a list, but of a logical graph the graph itself, which has none of
these keys. -/
def openFile : File S → Reprodata S
  | .graph _ => {}
  | .list r => r

def isSingle (data : Reprodata S) : Bool := data.rmode != some Mode.all.text

/-- A dictionary from mode values to signatures, which may be None. -/
abbrev Summary (S : Type) := Int → Option (Option S)

def processSingle (data : Reprodata S) : Summary S := fun v =>
  if v = (rflagCaster data.rmode).value then some data.signature else none

def processMulti (data : Reprodata S) : Summary S := fun v =>
  (allRmodes.find? (·.value = v)).map data.modes

/-- `process_file`. -/
def processFile (f : File S) : Summary S := fun v =>
  let data := openFile f
  let update := if isSingle data then processSingle data else processMulti data
  match update v with
  | some s => some s
  | none => if v ∈ allRmodes.map Mode.value then some none else none

/-- `compare_signatures`. -/
def compareSignatures (data1 data2 : Summary S) (m : Mode) : Bool :=
  match data1 m.value, data2 m.value with
  | some s1, some s2 => s1 == s2
  | _, _ => false

/-! What a file carries. -/

/-- The signature in a file for a mode. -/
def File.signature : File S → Mode → Option S
  | .graph r, m | .list r, m => r.modes m

/-- A mode is reported as matching when both files carry the same signature for it, and not
otherwise. -/
def ReportsRight (f g : File S) : Prop :=
  ∀ m ∈ allRmodes, compareSignatures (processFile f) (processFile g) m = true ↔
    ∃ s, f.signature m = some s ∧ g.signature m = some s

/-- A list in all modes: the files whose signatures are looked at. -/
def File.isMulti (f : File S) : Bool := !isSingle (openFile f)

/-- What the comparison says when it looks at both files, at one, at none. -/
def Comparable (f g : File S) : Prop :=
  if f.isMulti && g.isMulti then True
  else if f.isMulti || g.isMulti then
    ∀ m ∈ allRmodes, ¬ ∃ s, f.signature m = some s ∧ g.signature m = some s
  else ∀ m ∈ allRmodes, ∃ s, f.signature m = some s ∧ g.signature m = some s

section

variable {f g : File S} {level m : Mode}

omit [DecidableEq S] in
theorem sign_spec (r : Reprodata S) (level : Mode) (sig : Mode → S) :
    (r.sign level sig).rmode = r.rmode ∧
    (r.sign level sig).signature = r.signature ∧
    ∀ m, (r.sign level sig).modes m =
      if m ∈ candidateRmodes level then some (sig m) else r.modes m := by
  unfold Reprodata.sign
  induction candidateRmodes level generalizing r with
  | nil => simp
  | cons k ks ih =>
    obtain ⟨h1, h2, h3⟩ := ih { r with modes := Function.update r.modes k (some (sig k)) }
    refine ⟨h1, h2, fun m => ?_⟩
    rw [List.foldl_cons, h3]
    by_cases hk : m = k
    · subst hk
      simp
    · simp [hk]

/-- What all passes leave alone: the mode and the key that is not written. What they sign stays
signed. -/
structure Kept (level : Mode) (r : Reprodata S) : Prop where
  rmode : r.rmode = some level.text
  signature : r.signature = none
  signed : ∀ m ∈ candidateRmodes level, r.modes m ≠ none

omit [DecidableEq S] in
theorem kept_after (level : Mode) (lg : Mode → S) (passes : List (Mode → S)) :
    Kept level (reprodataAfter (some level) lg passes) := by
  have hstep : ∀ (r : Reprodata S) sig, Kept level r → Kept level (r.signPhysical level sig) := by
    intro r sig h
    unfold Reprodata.signPhysical
    split
    · exact h
    · obtain ⟨h1, h2, h3⟩ := sign_spec r level sig
      exact ⟨h1.trans h.rmode, h2.trans h.signature, fun m hm => by simp [h3, hm]⟩
  have hall : ∀ (passes : List (Mode → S)) (r : Reprodata S), Kept level r →
      Kept level (passes.foldl (fun r sig => r.signPhysical level sig) r) := by
    intro passes
    induction passes with
    | nil => exact fun r h => h
    | cons sig passes ih => exact fun r h => ih _ (hstep r sig h)
  obtain ⟨h1, h2, h3⟩ := sign_spec (initLgt level : Reprodata S) level lg
  exact hall passes _ ⟨h1, h2, fun m hm => by simp [h3, hm]⟩

omit [DecidableEq S] in
/-- No file has the key that single modes are looked up under. -/
theorem Written.signature (h : Written f) : (openFile f).signature = none := by
  cases h with
  | lg level lg => rfl
  | pg level lg passes =>
    cases level with
    | none => rfl
    | some level => exact (kept_after level lg passes).signature

theorem text_injective {m n : Mode} (h : m.text = n.text) : m = n := by
  revert h
  cases m <;> cases n <;> decide

omit [DecidableEq S] in
/-- The files that are looked at carry a signature for every mode. -/
theorem Written.multi (h : Written f) (hf : f.isMulti = true) (hm : m ∈ allRmodes) :
    (openFile f).modes m = f.signature m ∧ f.signature m ≠ none := by
  cases h with
  | lg level lg => simp [File.isMulti, openFile, writtenLg, isSingle] at hf
  | pg level lg passes =>
    cases level with
    | none => simp [File.isMulti, openFile, writtenPg, isSingle, reprodataAfter] at hf
    | some level =>
      have hk := kept_after level lg passes
      have htext : level.text = Mode.all.text := by
        simpa [File.isMulti, openFile, writtenPg, isSingle, hk.rmode] using hf
      refine ⟨rfl, hk.signed m ?_⟩
      simpa [text_injective htext, candidateRmodes] using hm

omit [DecidableEq S] in
/-- What is found of a file for a mode. -/
theorem Written.processFile_eq (h : Written f) (hm : m ∈ allRmodes) :
    processFile f m.value = some (if f.isMulti then f.signature m else none) := by
  have hmem : m.value ∈ allRmodes.map Mode.value := List.mem_map_of_mem hm
  unfold processFile
  cases hs : isSingle (openFile f) with
  | true =>
    simp only [File.isMulti, hs, if_true, Bool.not_true, processSingle, h.signature]
    split
    · rename_i s heq
      split at heq
      · simpa using heq.symm
      · simp at heq
    · simp [hmem]
  | false =>
    have hf : f.isMulti = true := by simp [File.isMulti, hs]
    have hfind : allRmodes.find? (·.value = m.value) = some m := by
      revert hm
      cases m <;> decide
    simp [hs, hf, processMulti, hfind, (h.multi hf hm).1]

end

/-- The comparison of two written files is right exactly when both are lists in all modes, or
one of them is and shares no signature with the other, or none is and yet they share all. -/
theorem reportsRight_iff_comparable {f g : File S} (hf : Written f) (hg : Written g) :
    ReportsRight f g ↔ Comparable f g := by
  have hcmp : ∀ m ∈ allRmodes, compareSignatures (processFile f) (processFile g) m = true ↔
      (if f.isMulti then f.signature m else none) =
        (if g.isMulti then g.signature m else none) := by
    intro m hm
    simp [compareSignatures, hf.processFile_eq hm, hg.processFile_eq hm]
  unfold ReportsRight Comparable
  cases hfm : f.isMulti with
  | true =>
    cases hgm : g.isMulti with
    | true =>
      simp only [Bool.and_self, if_true, iff_true]
      intro m hm
      obtain ⟨s, hs⟩ := Option.ne_none_iff_exists'.mp (hf.multi hfm hm).2
      rw [hcmp m hm, hfm, hgm, if_pos rfl, if_pos rfl, hs]
      simp [eq_comm]
    | false =>
      simp only [Bool.and_false, Bool.or_false, Bool.false_eq_true, if_false, if_true]
      refine forall₂_congr fun m hm => ?_
      rw [hcmp m hm, hfm, hgm]
      simp [(hf.multi hfm hm).2]
  | false =>
    cases hgm : g.isMulti with
    | true =>
      simp only [Bool.and_true, Bool.or_true, Bool.false_eq_true, if_false, if_true]
      refine forall₂_congr fun m hm => ?_
      rw [hcmp m hm, hfm, hgm]
      simp [Ne.symm (hg.multi hgm hm).2]
    | false =>
      simp only [Bool.and_self, Bool.or_self, Bool.false_eq_true, if_false]
      refine forall₂_congr fun m hm => ?_
      rw [hcmp m hm, hfm, hgm]
      simp

/-- Reports of two runs in all modes, with other signatures in one mode only. -/
theorem reportsRight_iff_comparable_runs :
    Comparable (writtenPg (some .all) Mode.value [Mode.value])
      (writtenPg (some .all) Mode.value [fun m => if m = .rerun then 7 else m.value]) ∧
    ReportsRight (writtenPg (some .all) Mode.value [Mode.value])
      (writtenPg (some .all) Mode.value [fun m => if m = .rerun then 7 else m.value]) := by
  have hc : Comparable (writtenPg (some .all) Mode.value [Mode.value])
      (writtenPg (some .all) Mode.value [fun m => if m = .rerun then 7 else m.value]) := by
    simp [Comparable, File.isMulti, openFile, writtenPg, isSingle, (kept_after _ _ _).rmode]
  exact ⟨hc, (reportsRight_iff_comparable (.pg _ _ _) (.pg _ _ _)).mpr hc⟩

/-- Reports of two runs in RERUN mode whose signatures differ: every mode is said to match. -/
theorem single_mode_always_matches :
    ¬ ReportsRight (writtenPg (some .rerun) (fun _ => "a") [fun _ => "b"])
      (writtenPg (some .rerun) (fun _ => "a") [fun _ => "c"]) := by
  intro h
  have hsingle : ∀ passes, (writtenPg (some .rerun) (fun _ => "a") passes).isMulti = false := by
    intro passes
    simp only [File.isMulti, openFile, writtenPg, isSingle, (kept_after _ _ _).rmode]
    decide
  have hmatch : compareSignatures (processFile (writtenPg (some .rerun) (fun _ => "a")
      [fun _ => "b"])) (processFile (writtenPg (some .rerun) (fun _ => "a") [fun _ => "c"]))
      .rerun = true := by
    simp [compareSignatures, (Written.pg _ _ _).processFile_eq (show .rerun ∈ allRmodes by decide),
      hsingle]
  obtain ⟨s, hs, hs'⟩ := (h .rerun (by decide)).mp hmatch
  have hb : some "b" = some s := hs
  have hc : some "c" = some s := hs'
  exact absurd (hb.trans hc.symm) (by decide)

end Daliuge.Repro
