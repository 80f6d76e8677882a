import Mathlib.Data.List.Sublists
import Daliuge.Lib.Association
import Daliuge.Lib.Collect
import Daliuge.Lib.Numeral
import Daliuge.Lib.Template
import Daliuge.Prepare.Graph

/-!
# Global variables

The fields of the global nodes are variables: their values replace the placeholders in the fields
of the other nodes, one variable after the other, and each time the field takes the variable's
type.
-/
namespace Daliuge.Prepare.Globals

open Collect Template Numeral

/-- A node as `extract_globals` sees it. -/
structure Node (F : Type) where
  category : String
  fields : List (Field F)
  deriving DecidableEq, Repr

/-- What `float` and `str` give for the values that nothing here computes with. -/
structure Python (F : Type) where
  alphabet : Alphabet
  float : List Char → F
  repr : F → String
  reprNested : String → String

inductive Err
  | valueError
  | unknownType (type : String)
  deriving DecidableEq, Repr

variable {F : Type} (py : Python F)

/-- `str`. -/
def str : Value F → String
  | .null => "None"
  | .bool true => "True"
  | .bool false => "False"
  | .int i => toString i
  | .float x => py.repr x
  | .text s => s
  | .nested json => py.reprNested json

/-- The converter for a Boolean. -/
def isTrue (text : List Char) : Bool :=
  decide (text.map Char.toLower ∈ ["true".toList, "1".toList])

/-- `type_converter`. -/
def convert (type : String) (text : List Char) : Except Err (Value F) :=
  if type = "Integer" then
    match integer py.alphabet text with
    | some i => .ok (.int i)
    | none => .error .valueError
  else if type = "Float" then
    if isFloating py.alphabet text then .ok (.float (py.float text)) else .error .valueError
  else if type = "String" then .ok (.text (String.ofList text))
  else if type = "Boolean" then .ok (.bool (isTrue text))
  else .error (.unknownType type)

/-- An entry of `global_map`. -/
structure Global (F : Type) where
  value : Value F
  type : String

/-- `global_map`. -/
def globalMap (gs : List (Field F)) : List (String × Global F) :=
  gs.foldl (fun m v => Association.set m v.name ⟨v.value, v.type⟩) []

/-- The text of a field; a value of another kind has none. -/
def text (field : Field F) : List Char :=
  match field.value with
  | .text s => s.toList
  | _ => []

/-- One variable in one field. -/
def substitute (field : Field F) (g : String × Global F) : Except Err (Field F) :=
  if placeholder g.1 <:+: text field then do
    let value ← convert py g.2.type
      (replace (placeholder g.1) (str py g.2.value).toList (text field))
    return { field with type := g.2.type, value := value }
  else .ok field

def isGlobal (node : Node F) : Bool := node.category == "GlobalVariable"

def globalFields (nodes : List (Node F)) : List (Field F) :=
  (nodes.filter isGlobal).flatMap (·.fields)

def others (nodes : List (Node F)) : List (Node F) := nodes.filter (!isGlobal ·)

/-- `extract_globals`: removing every global node leaves the others. -/
def extractGlobals (nodes : List (Node F)) : Except Err (List (Node F)) :=
  (others nodes).mapM fun node => do
    let fields ← node.fields.mapM fun field =>
      (globalMap (globalFields nodes)).foldlM (substitute py) field
    return { node with fields := fields }

/-! What the result should be. -/

/-- The placeholder of a variable stands in the text of a field. -/
def Holds (g field : Field F) : Prop := placeholder g.name <:+: text field

instance (g field : Field F) : Decidable (Holds g field) :=
  inferInstanceAs (Decidable (placeholder g.name <:+: text field))

/-- The values of some variables, by their names. -/
def valuesOf (gs : List (Field F)) (name : String) : Option (List Char) :=
  (gs.find? fun g => g.name == name).map fun g => (str py g.value).toList

def names (gs : List (Field F)) : List String := gs.map (·.name)

/-- All placeholders of a field replaced at once. -/
def simultaneous (gs : List (Field F)) (field : Field F) : List Char :=
  render (valuesOf py gs) (pieces (names gs) (text field))

/-- The type a field ends with is that of the last variable it holds. -/
def resultingType (gs : List (Field F)) (field : Field F) : Option String :=
  (gs.reverse.find? fun g => decide (Holds g field)).map (·.type)

/-- The simultaneous replacement can be converted to the resulting type. -/
def Converts (gs : List (Field F)) (field : Field F) : Prop :=
  ∀ type, resultingType gs field = some type →
    (convert py type (simultaneous py gs field)).isOk = true

def fieldValues (result : Except Err (List (Node F))) : Option (List (List (Value F))) :=
  result.toOption.map fun nodes => nodes.map fun node => node.fields.map (·.value)

/-- The substitution is that of all variables at once, in whatever order they are listed. -/
def OrderFree (nodes : List (Node F)) : Prop :=
  ∀ nodes', others nodes' = others nodes → (globalFields nodes').Perm (globalFields nodes) →
    ((extractGlobals py nodes').isOk = true ↔
      ∀ node ∈ others nodes', ∀ field ∈ node.fields, Converts py (globalFields nodes') field) ∧
    fieldValues (extractGlobals py nodes') = fieldValues (extractGlobals py nodes)

/-! When it is. -/

def IsNumber (g : Field F) : Prop := g.type = "Integer" ∨ g.type = "Float"

instance (g : Field F) : Decidable (IsNumber g) :=
  inferInstanceAs (Decidable (g.type = "Integer" ∨ g.type = "Float"))

/-- A field that holds numbers only and converts to none of their types. -/
def Hopeless (gs : List (Field F)) (field : Field F) : Prop :=
  (∃ g ∈ gs, Holds g field) ∧ ∀ g ∈ gs, Holds g field →
    IsNumber g ∧ (convert py g.type (simultaneous py gs field)).isOk = false

/-- A number stands alone, and one Boolean beside texts does not make a true text. -/
def Apart (gs : List (Field F)) (field : Field F) : Prop :=
  (∀ g ∈ gs, Holds g field → IsNumber g → ∀ h ∈ gs, Holds h field → h.name = g.name) ∧
  ∀ b ∈ gs, Holds b field → b.type = "Boolean" →
    (∀ h ∈ gs, Holds h field → h.type = "Boolean" → h.name = b.name) →
    (∃ a ∈ gs, Holds a field ∧ a.type = "String") → isTrue (simultaneous py gs field) = false

/-- The names that a text is still searched for when some variables have been replaced. -/
def unread (gs p : List (Field F)) : List String :=
  (names gs).filter fun n => (valuesOf py p n).isNone

/-- No values of String variables bring a placeholder into the text of a field that it is still
searched for. Their own placeholders they may bring in. -/
def Closed (gs : List (Field F)) (field : Field F) : Prop :=
  ∀ p : List (Field F), (∀ g ∈ p, g ∈ gs ∧ g.type = "String") →
    pieces (unread py gs p) (render (valuesOf py p) (pieces (names gs) (text field))) =
      settle (valuesOf py p) (pieces (names gs) (text field))

/-- Variables as they should be: distinct names without braces, and known types. -/
structure Listed (gs : List (Field F)) : Prop where
  nodup : (names gs).Nodup
  plain : ∀ g ∈ gs, Plain g.name
  known : ∀ g ∈ gs, g.type = "Integer" ∨ g.type = "Float" ∨ g.type = "String" ∨ g.type = "Boolean"

/-! The loop over the variables of one field. -/

variable {py} {gs p q : List (Field F)} {field f : Field F} {g b z : Field F}
    {nodes : List (Node F)}

def entry (g : Field F) : String × Global F := (g.name, ⟨g.value, g.type⟩)

theorem globalMap_eq (h : (names gs).Nodup) : globalMap gs = gs.map entry := by
  have hfold : globalMap gs = Association.merge [] (gs.map entry) := by
    rw [Association.merge, List.foldl_map]
    rfl
  rw [hfold, Association.merge_of_nodup]
  · rfl
  · simpa [entry, names, Function.comp_def] using h

/-- All variables in one field, in the order they are listed. -/
def substituteAll (py : Python F) (gs : List (Field F)) (field : Field F) : Except Err (Field F) :=
  gs.foldlM (fun field g => substitute py field (entry g)) field

theorem extractGlobals_eq (h : (names (globalFields nodes)).Nodup) :
    extractGlobals py nodes = (others nodes).mapM fun node => do
      let fields ← node.fields.mapM (substituteAll py (globalFields nodes))
      return { node with fields := fields } := by
  rw [extractGlobals, globalMap_eq h]
  simp only [List.foldlM_map]
  rfl

theorem mem_names (h : g ∈ gs) : g.name ∈ names gs := List.mem_map_of_mem h

theorem Listed.plain_names (h : Listed gs) : ∀ n ∈ names gs, Plain n := by
  intro n hn
  obtain ⟨g, hg, rfl⟩ := List.mem_map.mp hn
  exact h.plain g hg

theorem Listed.eq_of_name (h : Listed gs) (hg : g ∈ gs) (hb : b ∈ gs) (he : g.name = b.name) :
    g = b := List.inj_on_of_nodup_map h.nodup hg hb he

/-- The holes of a field. -/
abbrev holes (gs : List (Field F)) (field : Field F) : List Piece :=
  pieces (names gs) (text field)

theorem hole_mem (h : Listed gs) (hg : g ∈ gs) : .hole g.name ∈ holes gs field ↔ Holds g field :=
  hole_mem_pieces h.plain_names (mem_names hg) _

/-- Variables that do not end the loop: texts, and those that are not in the field. -/
def Passed (gs : List (Field F)) (field : Field F) (p : List (Field F)) : Prop :=
  ∀ g ∈ p, g ∈ gs ∧ (g.type = "String" ∨ ¬ Holds g field)

theorem valuesOf_append (p q : List (Field F)) (n : String) :
    valuesOf py (p ++ q) n = (valuesOf py p n).or (valuesOf py q n) := by
  rw [valuesOf, List.find?_append, valuesOf, valuesOf]
  cases p.find? fun g => g.name == n <;> rfl

theorem valuesOf_eq_none {n : String} : valuesOf py p n = none ↔ n ∉ names p := by
  rw [valuesOf, Option.map_eq_none_iff, List.find?_eq_none, names, List.mem_map]
  simp

theorem valuesOf_cons (n : String) : valuesOf py (g :: p) n =
    if g.name = n then some (str py g.value).toList else valuesOf py p n := by
  rw [valuesOf, List.find?_cons]
  by_cases h : g.name = n
  · simp [h]
  · have hb : (g.name == n) = false := by simpa using h
    rw [hb, if_neg h]
    rfl

theorem mem_unread {n : String} : n ∈ unread py gs p ↔ n ∈ names gs ∧ n ∉ names p := by
  rw [unread, List.mem_filter, Option.isNone_iff_eq_none, valuesOf_eq_none]

theorem valuesOf_filter {n : String} (h : ∀ g ∈ p, g.name = n → g.type = "String") :
    valuesOf py (p.filter fun g => g.type == "String") n = valuesOf py p n := by
  induction p with
  | nil => rfl
  | cons g p ih =>
    have hp := ih fun b hb => h b (List.mem_cons_of_mem g hb)
    rw [valuesOf_cons]
    by_cases ht : g.type = "String"
    · rw [List.filter_cons_of_pos (by simpa using ht), valuesOf_cons, hp]
    · have hn : g.name ≠ n := fun hn => ht (h g (by simp) hn)
      rw [List.filter_cons_of_neg (by simpa using ht), hp, if_neg hn]

theorem Listed.plain_unread (h : Listed gs) : ∀ n ∈ unread py gs p, Plain n :=
  fun n hn => h.plain_names n (mem_unread.mp hn).1

/-- After texts and variables that are not in the field, the holes left are those of the rest. -/
theorem Closed.passed (hc : Closed py gs field) (hl : Listed gs) (hp : Passed gs field p) :
    pieces (unread py gs (p.filter fun g => g.type == "String"))
        (render (valuesOf py p) (holes gs field)) =
      settle (valuesOf py p) (holes gs field) := by
  have hsame : ∀ n, .hole n ∈ holes gs field →
      valuesOf py (p.filter fun g => g.type == "String") n = valuesOf py p n := by
    intro n hn
    refine valuesOf_filter fun g hg he => ?_
    obtain ⟨hmem, htype⟩ := hp g hg
    subst he
    exact htype.resolve_right fun h => h ((hole_mem hl hmem).mp hn)
  have hfilter : ∀ g ∈ p.filter fun g => g.type == "String", g ∈ gs ∧ g.type = "String" := by
    intro g hg
    obtain ⟨hg, ht⟩ := List.mem_filter.mp hg
    exact ⟨(hp g hg).1, by simpa using ht⟩
  have h := hc _ hfilter
  rwa [render_congr hsame, settle_congr hsame] at h

/-- What one variable does to a field in which some have been replaced. -/
theorem substitute_eq (hc : Closed py gs field) (hl : Listed gs) (hp : Passed gs field p)
    (hg : g ∈ gs) (hnew : g.name ∉ names p)
    (hf : text f = render (valuesOf py p) (holes gs field)) :
    substitute py f (entry g) =
      if Holds g field then
        (convert py g.type (render (valuesOf py (p ++ [g])) (holes gs field))).map
        fun value => { f with type := g.type, value := value }
      else .ok f := by
  have hpieces := hc.passed hl hp
  have hunread : g.name ∈ unread py gs (p.filter fun g => g.type == "String") :=
    mem_unread.mpr ⟨mem_names hg, fun hm => hnew ((List.filter_sublist.map _).subset hm)⟩
  have hholds : placeholder g.name <:+: text f ↔ Holds g field := by
    rw [hf, ← hole_mem_pieces hl.plain_unread hunread, hpieces, hole_mem_settle,
      hole_mem hl hg, valuesOf_eq_none]
    exact and_iff_left hnew
  have hreplace : replace (placeholder g.name) (str py g.value).toList (text f) =
      render (valuesOf py (p ++ [g])) (holes gs field) := by
    rw [replace_eq_render hl.plain_unread hunread, hf, hpieces, render_settle]
    refine render_congr fun n _ => ?_
    rw [valuesOf_append]
    congr 1
    by_cases hn : n = g.name
    · simp [valuesOf, hn]
    · simp [valuesOf, hn, Ne.symm hn]
  by_cases hh : Holds g field
  · rw [substitute, entry, if_pos (hholds.mpr hh), if_pos hh, hreplace]
    cases convert py g.type (render (valuesOf py (p ++ [g])) (holes gs field)) <;> rfl
  · rw [substitute, entry, if_neg (fun h => hh (hholds.mp h)), if_neg hh]

theorem text_of_text {t : List Char} (h : f.value = .text (String.ofList t)) : text f = t := by
  rw [text, h]
  exact String.toList_ofList

theorem convert_string (t : List Char) :
    convert py "String" t = .ok (.text (String.ofList t)) := by
  simp [convert]

theorem render_unheld (hl : Listed gs) (hg : g ∈ gs) (hh : ¬ Holds g field) :
    render (valuesOf py (p ++ [g])) (holes gs field) =
      render (valuesOf py p) (holes gs field) := by
  refine render_congr fun n hn => ?_
  have hne : n ≠ g.name := fun he => hh ((hole_mem hl hg).mp (he ▸ hn))
  have hnone : valuesOf py [g] n = none := valuesOf_eq_none.mpr (by simpa [names] using hne)
  rw [valuesOf_append, hnone, Option.or_none]

/-- The value of a field with another text in the place of its own. -/
def withText (field : Field F) (t : List Char) : Value F :=
  match field.value with
  | .text _ => .text (String.ofList t)
  | v => v

theorem withText_text (field : Field F) : withText field (text field) = field.value := by
  rw [withText, text]
  cases field.value <;> simp

theorem withText_of_holds (h : Holds g field) (t : List Char) :
    withText field t = .text (String.ofList t) := by
  rw [Holds, text] at h
  rw [withText]
  cases hv : field.value with
  | text s => rfl
  | _ => simp [hv, placeholder] at h

/-- The loop as long as it meets texts and variables that are not in the field. -/
theorem substituteAll_passed (hc : Closed py gs field) (hl : Listed gs) (hp : Passed gs field p)
    (hn : (names p).Nodup) : ∃ f, substituteAll py p field = .ok f ∧
      text f = render (valuesOf py p) (holes gs field) ∧ f.value = withText field (text f) := by
  refine foldlM_prefix (I := fun pre f => text f = render (valuesOf py pre) (holes gs field) ∧
    f.value = withText field (text f)) ?_ ?_
  · rintro pre g post f rfl ⟨htext, hvalue⟩
    have hg := hp g (by simp)
    have hpre : Passed gs field pre := fun b hb => hp b (by simp [hb])
    have hnew : g.name ∉ names pre := by
      rw [names, List.map_append, List.nodup_append] at hn
      exact fun hm => hn.2.2 _ hm _ (by simp) rfl
    have hstep := substitute_eq hc hl hpre hg.1 hnew htext
    by_cases hh : Holds g field
    · have ht : g.type = "String" := hg.2.resolve_right fun h => h hh
      rw [if_pos hh, ht, convert_string] at hstep
      exact ⟨_, hstep, text_of_text rfl, by rw [text_of_text rfl, withText_of_holds hh]⟩
    · rw [if_neg hh] at hstep
      exact ⟨f, hstep, htext.trans (render_unheld hl hg.1 hh).symm, hvalue⟩
  · refine ⟨?_, (withText_text field).symm⟩
    have hnone : valuesOf py [] = fun _ => none := rfl
    rw [hnone, render_pieces hl.plain_names]

/-- A value that is not a text is left alone. -/
theorem substituteAll_of_notText (hf : text f = []) : substituteAll py q f = .ok f := by
  induction q with
  | nil => rfl
  | cons g q ih =>
    have hstep : substitute py f (entry g) = .ok f := by
      rw [substitute, if_neg]
      rw [hf]
      simp [placeholder]
    rw [substituteAll, List.foldlM_cons, hstep]
    exact ih

theorem text_of_convert {t : List Char} {v : Value F} (ht : z.type ≠ "String")
    (h : convert py z.type t = .ok v) : text { f with type := z.type, value := v } = [] := by
  rw [convert] at h
  split at h
  · split at h
    · obtain rfl := Except.ok.inj h
      rfl
    · cases h
  · split at h
    · split at h
      · obtain rfl := Except.ok.inj h
        rfl
      · cases h
    · split at h
      · obtain rfl := Except.ok.inj h
        rfl
      · cases h

/-- The value the loop leaves in a field. -/
def outcome (py : Python F) (gs : List (Field F)) (field : Field F) : Option (Value F) :=
  (substituteAll py gs field).toOption.map (·.value)

/-- The first variable in the field that is not a text ends the loop. -/
theorem outcome_stop (hc : Closed py gs field) (hl : Listed gs) (hp : Passed gs field p)
    (hn : (names (p ++ z :: q)).Nodup) (hz : z ∈ gs) (hh : Holds z field)
    (ht : z.type ≠ "String") : outcome py (p ++ z :: q) field =
      (convert py z.type (render (valuesOf py (p ++ [z])) (holes gs field))).toOption := by
  rw [names, List.map_append, List.nodup_append] at hn
  obtain ⟨f, hf, htext, -⟩ := substituteAll_passed hc hl hp hn.1
  have hnew : z.name ∉ names p := fun hm => hn.2.2 _ hm _ (by simp) rfl
  have hstep := substitute_eq hc hl hp hz hnew htext
  rw [if_pos hh] at hstep
  rw [outcome, substituteAll, List.foldlM_append, ← substituteAll, hf, ok_bind, List.foldlM_cons,
    hstep]
  cases hv : convert py z.type (render (valuesOf py (p ++ [z])) (holes gs field)) with
  | error e => rfl
  | ok v =>
    have hrest : substituteAll py q { f with type := z.type, value := v } = _ :=
      substituteAll_of_notText (text_of_convert ht hv)
    rw [substituteAll] at hrest
    rw [Except.map, ok_bind, hrest]
    rfl

theorem outcome_passed (hc : Closed py gs field) (hl : Listed gs) (hp : Passed gs field p)
    (hn : (names p).Nodup) :
    outcome py p field = some (withText field (render (valuesOf py p) (holes gs field))) := by
  obtain ⟨f, hf, htext, hvalue⟩ := substituteAll_passed hc hl hp hn
  rw [outcome, hf, ← htext, ← hvalue]
  rfl

/-! The graph as a whole. -/

theorem outcome_ne_none : (outcome py gs field).isSome = true ↔
    ∃ f, substituteAll py gs field = .ok f := by
  rw [outcome]
  cases substituteAll py gs field <;> simp [Except.toOption]

theorem fieldValues_of_isSome (py : Python F) (nodes : List (Node F))
    (hn : (names (globalFields nodes)).Nodup)
    (h : ∀ node ∈ others nodes, ∀ field ∈ node.fields,
      (outcome py (globalFields nodes) field).isSome = true) :
    (extractGlobals py nodes).isOk = true ∧ fieldValues (extractGlobals py nodes) =
      some ((others nodes).map fun node => node.fields.map fun field =>
        (outcome py (globalFields nodes) field).getD field.value) := by
  have hfield : ∀ field, (outcome py (globalFields nodes) field).isSome = true →
      ∃ f, substituteAll py (globalFields nodes) field = .ok f ∧
        (outcome py (globalFields nodes) field).getD field.value = f.value := by
    intro field ho
    obtain ⟨f, hf⟩ := outcome_ne_none.mp ho
    exact ⟨f, hf, by rw [outcome, hf]; rfl⟩
  choose! result hresult hvalue using hfield
  have hnode : ∀ node ∈ others nodes, (do
      let fields ← node.fields.mapM (substituteAll py (globalFields nodes))
      return ({ node with fields := fields } : Node F)) =
      .ok { node with fields := node.fields.map result } := by
    intro node hm
    rw [mapM_eq_map fun field hf => hresult field (h node hm field hf), ok_bind]
    rfl
  rw [extractGlobals_eq hn, mapM_eq_map hnode]
  refine ⟨rfl, congrArg some ?_⟩
  simp only [List.map_map]
  refine List.map_congr_left fun node hm => ?_
  rw [Function.comp_apply, List.map_map]
  exact List.map_congr_left fun field hf => (hvalue field (h node hm field hf)).symm

theorem isSome_of_isOk (hn : (names (globalFields nodes)).Nodup)
    (h : (extractGlobals py nodes).isOk = true) :
    ∀ node ∈ others nodes, ∀ field ∈ node.fields,
      (outcome py (globalFields nodes) field).isSome = true := by
  intro node hm field hf
  rw [extractGlobals_eq hn] at h
  cases hr : (others nodes).mapM (fun node => do
      let fields ← node.fields.mapM (substituteAll py (globalFields nodes))
      return ({ node with fields := fields } : Node F)) with
  | error e => rw [hr] at h; cases h
  | ok r =>
    obtain ⟨b, hb⟩ := ok_of_mapM hr hm
    obtain ⟨fields, hfields, -⟩ := bind_ok.mp hb
    exact outcome_ne_none.mpr (ok_of_mapM hfields hf)

theorem isOk_iff (hn : (names (globalFields nodes)).Nodup) :
    (extractGlobals py nodes).isOk = true ↔ ∀ node ∈ others nodes, ∀ field ∈ node.fields,
      (outcome py (globalFields nodes) field).isSome = true :=
  ⟨isSome_of_isOk hn, fun h => (fieldValues_of_isSome py nodes hn h).1⟩

theorem fieldValues_of_not_isOk (h : ¬ (extractGlobals py nodes).isOk = true) :
    fieldValues (extractGlobals py nodes) = none := by
  rw [fieldValues]
  cases hr : extractGlobals py nodes with
  | error e => rfl
  | ok r => rw [hr] at h; exact absurd rfl h

/-! The variables in another order. -/

variable {gs' : List (Field F)} {nodes' : List (Node F)}

theorem valuesOf_of_mem (hn : (names p).Nodup) (hg : g ∈ p) :
    valuesOf py p g.name = some (str py g.value).toList := by
  have hfind : p.find? (fun b => b.name == g.name) = some g := by
    have h := Association.find?_key hn hg
    simpa only [beq_eq_decide] using h
  rw [valuesOf, hfind]
  rfl

theorem Listed.perm (hl : Listed gs) (h : gs'.Perm gs) : Listed gs' where
  nodup := (h.map _).nodup_iff.mpr hl.nodup
  plain := fun g hg => hl.plain g (h.subset hg)
  known := fun g hg => hl.known g (h.subset hg)

theorem holes_perm (hl : Listed gs) (h : gs'.Perm gs) : holes gs' field = holes gs field :=
  (pieces_congr hl.plain_names (fun _ => ((h.map _).mem_iff).symm) _).symm

/-- With all variables of the field replaced, every placeholder is. -/
theorem render_eq_simultaneous (hl : Listed gs) (hp : ∀ g ∈ p, g ∈ gs) (hn : (names p).Nodup)
    (h : ∀ g ∈ gs, Holds g field → g ∈ p) :
    render (valuesOf py p) (holes gs field) = simultaneous py gs field := by
  refine render_congr fun n hm => ?_
  by_cases hg : n ∈ names gs
  · obtain ⟨g, hmem, rfl⟩ := List.mem_map.mp hg
    rw [valuesOf_of_mem hn (h g hmem ((hole_mem hl hmem).mp hm)), valuesOf_of_mem hl.nodup hmem]
  · have hnp : n ∉ names p := by
      intro hnp
      obtain ⟨g, hg', rfl⟩ := List.mem_map.mp hnp
      exact hg (mem_names (hp g hg'))
    rw [valuesOf_eq_none.mpr hg, valuesOf_eq_none.mpr hnp]

theorem simultaneous_perm (hl : Listed gs) (h : gs'.Perm gs) :
    simultaneous py gs' field = simultaneous py gs field := by
  have hr : render (valuesOf py gs') (holes gs field) = _ :=
    render_eq_simultaneous hl (fun g hg => h.subset hg) (hl.perm h).nodup
      fun g hg _ => h.symm.subset hg
  rw [← hr, ← holes_perm hl h]
  rfl

/-- A variable of the field that has not been replaced leaves a brace. -/
theorem brace_mem_render (hl : Listed gs) (hg : g ∈ gs) (hh : Holds g field)
    (hp : g.name ∉ names p) : '{' ∈ render (valuesOf py p) (holes gs field) :=
  mem_render ((hole_mem hl hg).mpr hh) (valuesOf_eq_none.mpr hp)

/-! What the converters accept. -/

theorem convert_boolean (t : List Char) : convert py "Boolean" t = .ok (.bool (isTrue t)) := by
  simp [convert]

theorem isTrue_of_brace {t : List Char} (h : '{' ∈ t) : isTrue t = false := by
  refine decide_eq_false fun hm => ?_
  have hlower : '{' ∈ t.map Char.toLower := List.mem_map.mpr ⟨'{', h, by decide⟩
  simp only [List.mem_cons, List.not_mem_nil, or_false] at hm
  rcases hm with hm | hm <;> rw [hm] at hlower <;> exact absurd hlower (by decide)

theorem convert_of_brace {t : List Char} (h : '{' ∈ t) (hz : IsNumber z) :
    (convert py z.type t).toOption = none := by
  rcases hz with hz | hz
  · have hint : integer py.alphabet t = none := by
      by_contra hne
      exact brace_notMem_of_integer (Option.isSome_iff_ne_none.mpr hne) h
    simp [convert, hz, hint, Except.toOption]
  · have hfloat : isFloating py.alphabet t = false := by
      by_contra hne
      exact brace_notMem_of_isFloating (by simpa using hne) h
    simp [convert, hz, hfloat, Except.toOption]

theorem convert_float_of_integer {t : List Char} (h : (convert py "Integer" t).isOk = true) :
    (convert py "Float" t).isOk = true := by
  have hint : (integer py.alphabet t).isSome = true := by
    cases hi : integer py.alphabet t with
    | none => simp [convert, hi, Except.isOk, Except.toBool] at h
    | some i => rfl
  simp [convert, isFloating_of_integer hint, Except.isOk, Except.toBool]

theorem isSome_toOption {r : Except Err (Value F)} : r.toOption.isSome = r.isOk := by
  cases r <;> rfl

theorem not_string_of_isNumber (h : IsNumber z) : z.type ≠ "String" := by
  rcases h with h | h <;> rw [h] <;> decide

theorem not_boolean_of_isNumber (h : IsNumber z) : z.type ≠ "Boolean" := by
  rcases h with h | h <;> rw [h] <;> decide

theorem Listed.number_or_boolean (hl : Listed gs) (hz : z ∈ gs) (ht : z.type ≠ "String") :
    IsNumber z ∨ z.type = "Boolean" := by
  rcases hl.known z hz with h | h | h | h
  · exact Or.inl (Or.inl h)
  · exact Or.inl (Or.inr h)
  · exact absurd h ht
  · exact Or.inr h

theorem convert_isOk_of_not_isNumber (hl : Listed gs) (hz : z ∈ gs) (h : ¬ IsNumber z)
    (t : List Char) : (convert py z.type t).isOk = true := by
  by_cases ht : z.type = "String"
  · rw [ht, convert_string]
    rfl
  · rw [(hl.number_or_boolean hz ht).resolve_left h, convert_boolean]
    rfl

/-! One field, with its variables in any order. -/

/-- The loop goes through, or stops at the first variable of the field that is not a text. -/
theorem passed_or_stop (field : Field F) (h : ∀ g ∈ q, g ∈ gs) : Passed gs field q ∨
    ∃ a z b, q = a ++ z :: b ∧ Passed gs field a ∧ z ∈ gs ∧ Holds z field ∧
      z.type ≠ "String" := by
  induction q with
  | nil => exact Or.inl (by simp [Passed])
  | cons g q ih =>
    have hg := h g (by simp)
    by_cases hstop : Holds g field ∧ g.type ≠ "String"
    · exact Or.inr ⟨[], g, q, rfl, by simp [Passed], hg, hstop.1, hstop.2⟩
    · have hpass : g.type = "String" ∨ ¬ Holds g field := by tauto
      rcases ih fun b hb => h b (by simp [hb]) with hq | ⟨a, z, b, rfl, ha, hz⟩
      · refine Or.inl fun b hb => ?_
        rcases List.mem_cons.mp hb with rfl | hb
        · exact ⟨hg, hpass⟩
        · exact hq b hb
      · refine Or.inr ⟨g :: a, z, b, rfl, fun c hc => ?_, hz⟩
        rcases List.mem_cons.mp hc with rfl | hc
        · exact ⟨hg, hpass⟩
        · exact ha c hc

/-- The first variables of an order, and the one the loop stops at. -/
structure Stop (py : Python F) (gs gs' : List (Field F)) (field : Field F) (p : List (Field F))
    (z : Field F) : Prop where
  passed : Passed gs field p
  mem : z ∈ gs
  holds : Holds z field
  type : z.type ≠ "String"
  nodup : (names (p ++ [z])).Nodup
  outcome : outcome py gs' field =
    (convert py z.type (render (valuesOf py (p ++ [z])) (holes gs field))).toOption

theorem outcome_cases (py : Python F) (hc : Closed py gs field) (hl : Listed gs)
    (hg : gs'.Perm gs) :
    ((∀ z ∈ gs, Holds z field → z.type = "String") ∧
      outcome py gs' field = some (withText field (simultaneous py gs field))) ∨
    ∃ p z, Stop py gs gs' field p z := by
  have hn := (hl.perm hg).nodup
  rcases passed_or_stop field fun g h => hg.subset h with
    hp | ⟨a, z, b, rfl, ha, hz, hh, ht⟩
  · refine Or.inl ⟨fun z hz hh => ((hp z (hg.symm.subset hz)).2).resolve_right fun h => h hh, ?_⟩
    rw [outcome_passed hc hl hp hn, render_eq_simultaneous hl (fun g h => hg.subset h) hn
      fun g h _ => hg.symm.subset h]
  · refine Or.inr ⟨a, z, ha, hz, hh, ht, ?_, outcome_stop hc hl ha hn hz hh ht⟩
    rw [names, List.map_append] at hn ⊢
    exact (List.Sublist.append_left (by simp) _).nodup hn

theorem Stop.mem_of_mem {p : List (Field F)} (h : Stop py gs gs' field p z) (hg : g ∈ p ++ [z]) :
    g ∈ gs := by
  rcases List.mem_append.mp hg with hg | hg
  · exact (h.passed g hg).1
  · rw [List.mem_singleton.mp hg]
    exact h.mem

theorem Stop.outcome_all (h : Stop py gs gs' field p z) (hl : Listed gs)
    (hall : ∀ g ∈ gs, Holds g field → g ∈ p ++ [z]) :
    Globals.outcome py gs' field = (convert py z.type (simultaneous py gs field)).toOption := by
  rw [h.outcome, render_eq_simultaneous hl (fun g => h.mem_of_mem) h.nodup hall]

theorem Stop.brace (h : Stop py gs gs' field p z) (hl : Listed gs) (hg : g ∈ gs)
    (hh : Holds g field) (hp : g ∉ p ++ [z]) :
    '{' ∈ render (valuesOf py (p ++ [z])) (holes gs field) := by
  refine brace_mem_render hl hg hh fun hn => ?_
  obtain ⟨b, hb, he⟩ := List.mem_map.mp hn
  exact hp (hl.eq_of_name hg (h.mem_of_mem hb) he.symm ▸ hb)

/-- With no other variable in the field. -/
theorem Stop.outcome_alone (h : Stop py gs gs' field p z) (hl : Listed gs)
    (halone : ∀ g ∈ gs, Holds g field → g.name = z.name) :
    Globals.outcome py gs' field = (convert py z.type (simultaneous py gs field)).toOption := by
  refine h.outcome_all hl fun g hg hh => ?_
  rw [hl.eq_of_name hg h.mem (halone g hg hh)]
  simp

theorem resultingType_eq {t : String} (h : resultingType gs field = some t) :
    ∃ g ∈ gs, Holds g field ∧ g.type = t := by
  obtain ⟨g, hg, ht⟩ := Option.map_eq_some_iff.mp h
  exact ⟨g, List.mem_reverse.mp (List.mem_of_find?_eq_some hg),
    by simpa using List.find?_some hg, ht⟩

theorem resultingType_isSome (hg : g ∈ gs) (hh : Holds g field) :
    ∃ t, resultingType gs field = some t := by
  cases hr : resultingType gs field with
  | some t => exact ⟨t, rfl⟩
  | none =>
    rw [resultingType, Option.map_eq_none_iff, List.find?_eq_none] at hr
    exact absurd hh (by simpa using hr g (List.mem_reverse.mpr hg))

/-- Fields without numbers can always be converted. -/
theorem converts_of_no_number (hl : Listed gs) (hg : gs'.Perm gs)
    (h : ∀ g ∈ gs, Holds g field → ¬ IsNumber g) : Converts py gs' field := by
  intro t ht
  obtain ⟨g, hmem, hh, rfl⟩ := resultingType_eq ht
  exact convert_isOk_of_not_isNumber hl (hg.subset hmem) (h g (hg.subset hmem) hh) _

/-- No text is put into a field that holds numbers only. -/
theorem Hopeless.closed (hf : Hopeless py gs field) (hl : Listed gs) : Closed py gs field := by
  intro p hp
  have hnone : ∀ n, .hole n ∈ holes gs field → valuesOf py p n = none := by
    intro n hn
    refine valuesOf_eq_none.mpr fun hm => ?_
    obtain ⟨g, hg, rfl⟩ := List.mem_map.mp hm
    obtain ⟨hmem, ht⟩ := hp g hg
    exact not_string_of_isNumber (hf.2 g hmem ((hole_mem hl hmem).mp hn)).1 ht
  rw [render_congr hnone, settle_congr hnone, render_pieces hl.plain_names, settle_none]
  exact pieces_of_subset hl.plain_names (fun n hn => (mem_unread.mp hn).1)
    fun n hn hm => mem_unread.mpr ⟨hn, valuesOf_eq_none.mp (hnone n hm)⟩

/-- A hopeless field fails in every order, as it should. -/
theorem Hopeless.fails (hf : Hopeless py gs field) (hl : Listed gs) (hg : gs'.Perm gs) :
    outcome py gs' field = none ∧ ¬ Converts py gs' field := by
  have hc := hf.closed hl
  obtain ⟨⟨g, hmem, hh⟩, hall⟩ := hf
  constructor
  · rcases outcome_cases py hc hl hg with ⟨htexts, -⟩ | ⟨p, z, hs⟩
    · exact absurd (htexts g hmem hh) (not_string_of_isNumber (hall g hmem hh).1)
    · obtain ⟨hz, hbad⟩ := hall z hs.mem hs.holds
      by_cases hother : ∃ y ∈ gs, Holds y field ∧ y ∉ p ++ [z]
      · obtain ⟨y, hy, hyh, hyp⟩ := hother
        rw [hs.outcome, convert_of_brace (hs.brace hl hy hyh hyp) hz]
      · rw [hs.outcome_all hl fun y hy hyh => by_contra fun hyp => hother ⟨y, hy, hyh, hyp⟩]
        rw [← isSome_toOption] at hbad
        simpa using hbad
  · intro hconv
    obtain ⟨t, ht⟩ := resultingType_isSome (hg.symm.subset hmem) hh
    obtain ⟨y, hy, hyh, rfl⟩ := resultingType_eq ht
    have hok := hconv _ ht
    rw [simultaneous_perm hl hg, (hall y (hg.subset hy) hyh).2] at hok
    cases hok

theorem Apart.no_number (hA : Apart py gs field) (hl : Listed gs) (hb : b ∈ gs)
    (hh : Holds b field) (ht : b.type = "Boolean") :
    ∀ g ∈ gs, Holds g field → ¬ IsNumber g := by
  intro g hmem hgh hn
  have he := hl.eq_of_name hb hmem (hA.1 g hmem hgh hn b hb hh)
  exact not_boolean_of_isNumber hn (he ▸ ht)

section Apart

variable (hA : Apart py gs field) (hc : Closed py gs field) (hl : Listed gs) (hg : gs'.Perm gs)

include hA hc hl hg

theorem Apart.outcome_number (hz : z ∈ gs) (hh : Holds z field) (hn : IsNumber z) :
    outcome py gs' field = (convert py z.type (simultaneous py gs field)).toOption := by
  rcases outcome_cases py hc hl hg with ⟨htexts, -⟩ | ⟨p, y, hs⟩
  · exact absurd (htexts z hz hh) (not_string_of_isNumber hn)
  · obtain rfl := hl.eq_of_name hs.mem hz (hA.1 z hz hh hn y hs.mem hs.holds)
    exact hs.outcome_alone hl (hA.1 y hz hh hn)

/-- A Boolean beside other variables is false. -/
theorem Apart.outcome_boolean (hb : b ∈ gs) (hh : Holds b field) (ht : b.type = "Boolean") :
    outcome py gs' field = some (.bool (isTrue (simultaneous py gs field) &&
      decide (∀ g ∈ gs, Holds g field → g.name = b.name))) := by
  have hno := hA.no_number hl hb hh ht
  rcases outcome_cases py hc hl hg with ⟨htexts, -⟩ | ⟨p, z, hs⟩
  · have := htexts b hb hh
    rw [ht] at this
    exact absurd this (by decide)
  · have hz : z.type = "Boolean" :=
      (hl.number_or_boolean hs.mem hs.type).resolve_left (hno z hs.mem hs.holds)
    by_cases halone : ∀ g ∈ gs, Holds g field → g.name = b.name
    · obtain rfl := hl.eq_of_name hs.mem hb (halone z hs.mem hs.holds)
      rw [hs.outcome_alone hl halone, ht, convert_boolean, decide_eq_true halone, Bool.and_true]
      rfl
    · rw [decide_eq_false halone, Bool.and_false]
      by_cases hother : ∃ y ∈ gs, Holds y field ∧ y ∉ p ++ [z]
      · obtain ⟨y, hy, hyh, hyp⟩ := hother
        rw [hs.outcome, hz, convert_boolean, isTrue_of_brace (hs.brace hl hy hyh hyp)]
        rfl
      · -- every other variable is a text before the Boolean
        have hall : ∀ y ∈ gs, Holds y field → y ∈ p ++ [z] := fun y hy hyh =>
          by_contra fun hyp => hother ⟨y, hy, hyh, hyp⟩
        have hbefore : ∀ y ∈ gs, Holds y field → y.name ≠ z.name → y.type = "String" := by
          intro y hy hyh hne
          rcases List.mem_append.mp (hall y hy hyh) with hm | hm
          · exact ((hs.passed y hm).2).resolve_right fun h => h hyh
          · exact absurd (by rw [List.mem_singleton.mp hm]) hne
        have hsingle : ∀ y ∈ gs, Holds y field → y.type = "Boolean" → y.name = z.name := by
          intro y hy hyh hty
          by_contra hne
          rw [hbefore y hy hyh hne] at hty
          exact absurd hty (by decide)
        have hzb := hsingle b hb hh ht
        obtain ⟨a, ha, hah, hne⟩ : ∃ a ∈ gs, Holds a field ∧ a.name ≠ b.name := by
          by_contra hnone
          exact halone fun g hmem hgh => by_contra fun hne => hnone ⟨g, hmem, hgh, hne⟩
        have hfalse := hA.2 z hs.mem hs.holds hz hsingle
          ⟨a, ha, hah, hbefore a ha hah (hzb ▸ hne)⟩
        rw [hs.outcome_all hl hall, hz, convert_boolean, hfalse]
        rfl

/-- The value does not depend on the order, and there is one when the replacement converts. -/
theorem Apart.agrees : outcome py gs' field = outcome py gs field ∧
    ((outcome py gs' field).isSome = true ↔ Converts py gs' field) := by
  by_cases htexts : ∀ z ∈ gs, Holds z field → z.type = "String"
  · have hval : ∀ l : List (Field F), l.Perm gs →
        outcome py l field = some (withText field (simultaneous py gs field)) := by
      intro l hp
      rcases outcome_cases py hc hl hp with ⟨-, h⟩ | ⟨p, z, hs⟩
      · exact h
      · exact absurd (htexts z hs.mem hs.holds) hs.type
    rw [hval gs' hg, hval gs (List.Perm.refl _)]
    refine ⟨rfl, fun _ => ?_, fun _ => rfl⟩
    refine converts_of_no_number hl hg fun g hmem hh hn => ?_
    exact not_string_of_isNumber hn (htexts g hmem hh)
  · push Not at htexts
    obtain ⟨z, hz, hh, ht⟩ := htexts
    rcases hl.number_or_boolean hz ht with hn | hb
    · rw [hA.outcome_number hc hl hg hz hh hn,
        hA.outcome_number hc hl (List.Perm.refl _) hz hh hn, isSome_toOption]
      refine ⟨rfl, fun hok t htype => ?_, fun hconv => ?_⟩
      · obtain ⟨g, hmem, hgh, rfl⟩ := resultingType_eq htype
        obtain rfl := hl.eq_of_name (hg.subset hmem) hz (hA.1 z hz hh hn g (hg.subset hmem) hgh)
        rw [simultaneous_perm hl hg]
        exact hok
      · obtain ⟨t, htype⟩ := resultingType_isSome (hg.symm.subset hz) hh
        have hok := hconv t htype
        obtain ⟨g, hmem, hgh, rfl⟩ := resultingType_eq htype
        obtain rfl := hl.eq_of_name (hg.subset hmem) hz (hA.1 z hz hh hn g (hg.subset hmem) hgh)
        rwa [simultaneous_perm hl hg] at hok
    · rw [hA.outcome_boolean hc hl hg hz hh hb,
        hA.outcome_boolean hc hl (List.Perm.refl _) hz hh hb]
      refine ⟨rfl, fun _ => ?_, fun _ => rfl⟩
      exact converts_of_no_number hl hg (hA.no_number hl hz hh hb)

end Apart

/-! Orders that tell the difference. -/

/-- A graph with the same other nodes and a given list of variables. -/
def relisted (nodes : List (Node F)) (gs : List (Field F)) : List (Node F) :=
  ⟨"GlobalVariable", gs⟩ :: others nodes

theorem others_relisted (nodes : List (Node F)) (gs : List (Field F)) :
    others (relisted nodes gs) = others nodes := by
  simp [others, relisted, isGlobal]

theorem globalFields_relisted (nodes : List (Node F)) (gs : List (Field F)) :
    globalFields (relisted nodes gs) = gs := by
  have hnone : (others nodes).filter isGlobal = [] := by
    simp [others, List.filter_filter]
  have hfirst : isGlobal (⟨"GlobalVariable", gs⟩ : Node F) = true := rfl
  rw [globalFields, relisted, List.filter_cons_of_pos hfirst, hnone]
  simp

/-- Numbers first, the integers before the others. -/
def numbersFirst (gs : List (Field F)) : List (Field F) :=
  gs.filter (·.type == "Integer") ++
    (gs.filter (!·.type == "Integer")).filter (·.type == "Float") ++
    (gs.filter (!·.type == "Integer")).filter (!·.type == "Float")

theorem numbersFirst_perm (gs : List (Field F)) : (numbersFirst gs).Perm gs := by
  rw [numbersFirst, List.append_assoc]
  exact ((List.filter_append_perm _ _).append_left _).trans (List.filter_append_perm _ gs)

theorem resultingType_append : resultingType (p ++ q) field =
    (resultingType q field).or (resultingType p field) := by
  rw [resultingType, List.reverse_append, List.find?_append, resultingType, resultingType]
  cases q.reverse.find? fun g => decide (Holds g field) <;> rfl

theorem not_holds_of_none (h : resultingType q field = none) : ∀ g ∈ q, ¬ Holds g field := by
  intro g hg hh
  obtain ⟨t, ht⟩ := resultingType_isSome hg hh
  rw [h] at ht
  cases ht

/-- With the numbers first, a field that is not hopeless can be converted. -/
theorem converts_numbersFirst (hl : Listed gs) (hf : ¬ Hopeless py gs field) :
    Converts py (numbersFirst gs) field := by
  have hperm := numbersFirst_perm gs
  intro t ht
  rw [simultaneous_perm hl hperm]
  -- a number that the field holds converts, when it holds nothing else
  have hgood : ∀ g ∈ gs, Holds g field → (∀ y ∈ gs, Holds y field → IsNumber y) →
      ∃ y ∈ gs, Holds y field ∧ IsNumber y ∧
        (convert py y.type (simultaneous py gs field)).isOk = true := by
    intro g hg hh hall
    by_contra hnone
    refine hf ⟨⟨g, hg, hh⟩, fun y hy hyh => ⟨hall y hy hyh, ?_⟩⟩
    by_contra hok
    exact hnone ⟨y, hy, hyh, hall y hy hyh, by simpa using hok⟩
  rw [numbersFirst, resultingType_append, resultingType_append] at ht
  cases hC : resultingType
    ((gs.filter (!·.type == "Integer")).filter (!·.type == "Float")) field with
  | some t' =>
    rw [hC] at ht
    obtain ⟨g, hg, -, htype⟩ := resultingType_eq hC
    obtain rfl : t' = t := Option.some.inj ht
    simp only [List.mem_filter, Bool.not_eq_eq_eq_not, Bool.not_true, beq_eq_false_iff_ne] at hg
    subst htype
    refine convert_isOk_of_not_isNumber hl hg.1.1 ?_ _
    rintro (h | h)
    · exact hg.1.2 h
    · exact hg.2 h
  | none =>
    rw [hC, Option.none_or] at ht
    have hnumbers : ∀ y ∈ gs, Holds y field → IsNumber y := by
      intro y hy hyh
      by_contra hn
      rw [IsNumber, not_or] at hn
      exact not_holds_of_none hC y (by simp [hy, hn.1, hn.2]) hyh
    cases hB : resultingType
      ((gs.filter (!·.type == "Integer")).filter (·.type == "Float")) field with
    | some t' =>
      rw [hB] at ht
      obtain ⟨g, hg, hh, htype⟩ := resultingType_eq hB
      obtain rfl : t' = t := Option.some.inj ht
      simp only [List.mem_filter, beq_iff_eq] at hg
      obtain ⟨y, -, -, hy | hy, hok⟩ := hgood g hg.1.1 hh hnumbers
      · rw [← htype, hg.2]
        exact convert_float_of_integer (hy ▸ hok)
      · rw [← htype, hg.2]
        exact hy ▸ hok
    | none =>
      rw [hB, Option.none_or] at ht
      obtain ⟨g, hg, hh, htype⟩ := resultingType_eq ht
      simp only [List.mem_filter, beq_iff_eq] at hg
      obtain ⟨y, hy, hyh, ht' | ht', hok⟩ := hgood g hg.1 hh hnumbers
      · rw [← htype, hg.2]
        exact ht' ▸ hok
      · refine absurd hyh (not_holds_of_none hB y ?_)
        simp [hy, ht']

/-- Where numbers stand alone, fields that are not hopeless have a value in every order. -/
theorem isSome_outcome (hc : Closed py gs field) (hl : Listed gs) (hg : gs'.Perm gs)
    (hf : ¬ Hopeless py gs field)
    (h : ∀ g ∈ gs, Holds g field → IsNumber g → ∀ y ∈ gs, Holds y field → y.name = g.name) :
    (outcome py gs' field).isSome = true := by
  rcases outcome_cases py hc hl hg with ⟨-, hv⟩ | ⟨p, z, hs⟩
  · rw [hv]
    rfl
  · rcases hl.number_or_boolean hs.mem hs.type with hn | hb
    · have halone := h z hs.mem hs.holds hn
      rw [hs.outcome_alone hl halone, isSome_toOption]
      by_contra hbad
      refine hf ⟨⟨z, hs.mem, hs.holds⟩, fun y hy hyh => ?_⟩
      obtain rfl := hl.eq_of_name hy hs.mem (halone y hy hyh)
      exact ⟨hn, by simpa using hbad⟩
    · rw [hs.outcome, hb, convert_boolean]
      rfl

/-- A variable put first. -/
theorem exists_first (hl : Listed gs) (hz : z ∈ gs) : ∃ r, (z :: r).Perm gs ∧
    ∀ field, Closed py gs field → Holds z field → z.type ≠ "String" →
      outcome py (z :: r) field =
        (convert py z.type (render (valuesOf py [z]) (holes gs field))).toOption := by
  obtain ⟨a, b, hab⟩ := List.append_of_mem hz
  have hperm : (z :: (a ++ b)).Perm gs := by
    rw [hab]
    exact List.perm_middle.symm
  refine ⟨a ++ b, hperm, fun field hc hh ht => ?_⟩
  exact outcome_stop (p := []) hc hl (by simp [Passed]) (hl.perm hperm).nodup hz hh ht

/-- A variable put last. -/
theorem exists_last (hl : Listed gs) (hz : z ∈ gs) : ∃ r, (r ++ [z]).Perm gs ∧
    ∀ y ∈ r, y ∈ gs ∧ y.name ≠ z.name := by
  obtain ⟨a, b, hab⟩ := List.append_of_mem hz
  have hfirst : ([z] ++ (a ++ b)).Perm gs := by
    rw [hab, List.singleton_append]
    exact List.perm_middle.symm
  have hperm : ((a ++ b) ++ [z]).Perm gs := List.perm_append_comm.trans hfirst
  refine ⟨a ++ b, hperm, fun y hy => ⟨hperm.subset (List.mem_append_left _ hy), fun he => ?_⟩⟩
  have hn := (hl.perm hperm).nodup
  rw [names, List.map_append, List.nodup_append] at hn
  exact hn.2.2 _ (List.mem_map_of_mem hy) _ (by simp) he

theorem isOk_relisted (hn : (names gs).Nodup) :
    (extractGlobals py (relisted nodes gs)).isOk = true ↔ ∀ node ∈ others nodes,
      ∀ field ∈ node.fields, (outcome py gs field).isSome = true := by
  rw [isOk_iff (by rwa [globalFields_relisted]), others_relisted, globalFields_relisted]

theorem fieldValues_relisted (hn : (names gs).Nodup) (h : ∀ node ∈ others nodes,
      ∀ field ∈ node.fields, (outcome py gs field).isSome = true) :
    fieldValues (extractGlobals py (relisted nodes gs)) =
      some ((others nodes).map fun node => node.fields.map fun field =>
        (outcome py gs field).getD field.value) := by
  have hv := fieldValues_of_isSome py (relisted nodes gs)
    (by rwa [globalFields_relisted]) (by rwa [globalFields_relisted, others_relisted])
  rw [hv.2, globalFields_relisted, others_relisted]

section OrderFree

variable (h : OrderFree py nodes)

include h

theorem OrderFree.relisted (hg : gs.Perm (globalFields nodes)) :
    ((extractGlobals py (Globals.relisted nodes gs)).isOk = true ↔
      ∀ node ∈ others nodes, ∀ field ∈ node.fields, Converts py gs field) ∧
    fieldValues (extractGlobals py (Globals.relisted nodes gs)) =
      fieldValues (extractGlobals py nodes) := by
  have hr := h (Globals.relisted nodes gs) (others_relisted nodes gs)
    (by rw [globalFields_relisted]; exact hg)
  rwa [others_relisted, globalFields_relisted] at hr

variable (hl : Listed (globalFields nodes))
  (hc : ∀ node ∈ others nodes, ∀ field ∈ node.fields, Closed py (globalFields nodes) field)
  (hnot : ∀ node ∈ others nodes, ∀ field ∈ node.fields,
    ¬ Hopeless py (globalFields nodes) field)

include hl hc hnot

/-- A number beside another variable fails when it comes first, and not when numbers come first. -/
theorem OrderFree.number_alone : ∀ node ∈ others nodes, ∀ field ∈ node.fields,
    ∀ g ∈ globalFields nodes, Holds g field → IsNumber g →
      ∀ y ∈ globalFields nodes, Holds y field → y.name = g.name := by
  intro node hm field hf g hg hh hn y hy hyh
  by_contra hne
  obtain ⟨r, hperm, hfirst⟩ := exists_first hl hg
  have hout := hfirst field (hc node hm field hf) hh (not_string_of_isNumber hn)
  rw [convert_of_brace (brace_mem_render hl hy hyh (by simpa [names] using hne)) hn] at hout
  have hbad : ¬ (extractGlobals py (Globals.relisted nodes (g :: r))).isOk = true := by
    rw [isOk_relisted (hl.perm hperm).nodup]
    intro hall
    have := hall node hm field hf
    rw [hout] at this
    cases this
  have hgood := (h.relisted (numbersFirst_perm _)).1.mpr fun node hm field hf =>
    converts_numbersFirst hl (hnot node hm field hf)
  have hnone := (h.relisted hperm).2.symm.trans (fieldValues_of_not_isOk hbad)
  have hsome := (h.relisted (numbersFirst_perm _)).2.trans hnone
  rw [fieldValues_relisted (hl.perm (numbersFirst_perm _)).nodup
    ((isOk_relisted (hl.perm (numbersFirst_perm _)).nodup).mp hgood)] at hsome
  cases hsome

/-- A single Boolean beside texts is false when it comes first. -/
theorem OrderFree.apart : ∀ node ∈ others nodes, ∀ field ∈ node.fields,
    Apart py (globalFields nodes) field := by
  intro node hm field hf
  have halone := h.number_alone hl hc hnot
  refine ⟨halone node hm field hf, fun b hb hbh hbt hsingle ⟨a, ha, hah, hat⟩ => ?_⟩
  have hne : a.name ≠ b.name := by
    intro he
    rw [hl.eq_of_name ha hb he, hbt] at hat
    exact absurd hat (by decide)
  have hstring : b.type ≠ "String" := by
    rw [hbt]
    decide
  have hvalues : ∀ gs : List (Field F), gs.Perm (globalFields nodes) →
      (outcome py gs field).getD field.value =
        (outcome py (numbersFirst (globalFields nodes)) field).getD field.value := by
    intro gs hg
    have hsome : ∀ gs : List (Field F), gs.Perm (globalFields nodes) → ∀ node ∈ others nodes,
        ∀ field ∈ node.fields, (outcome py gs field).isSome = true := fun gs hg node hm field hf =>
      isSome_outcome (hc node hm field hf) hl hg (hnot node hm field hf) (halone node hm field hf)
    have hp := numbersFirst_perm (globalFields nodes)
    have heq := (h.relisted hg).2.trans (h.relisted hp).2.symm
    rw [fieldValues_relisted (hl.perm hg).nodup (hsome gs hg),
      fieldValues_relisted (hl.perm hp).nodup (hsome _ hp)] at heq
    exact List.map_inj_left.mp (List.map_inj_left.mp (Option.some.inj heq) node hm) field hf
  -- the Boolean first
  obtain ⟨r, hperm, hfirst⟩ := exists_first hl hb
  have hout := hfirst field (hc node hm field hf) hbh hstring
  rw [hbt, convert_boolean,
    isTrue_of_brace (brace_mem_render hl ha hah (by simpa [names] using hne))] at hout
  -- the Boolean last
  obtain ⟨r', hperm', hbefore⟩ := exists_last hl hb
  have hn := (hl.perm hperm').nodup
  have hpassed : Passed (globalFields nodes) field r' := by
    intro y hy
    obtain ⟨hmem, hny⟩ := hbefore y hy
    refine ⟨hmem, by_contra fun hno => ?_⟩
    rw [not_or, not_not] at hno
    rcases hl.number_or_boolean hmem hno.1 with hnum | hbool
    · exact hny (halone node hm field hf y hmem hno.2 hnum b hb hbh).symm
    · exact hny (hsingle y hmem hno.2 hbool)
  have hout' := outcome_stop (hc node hm field hf) hl hpassed hn hb hbh hstring
  rw [render_eq_simultaneous hl (fun y hy => hperm'.subset hy) hn
    fun y hy _ => hperm'.symm.subset hy, hbt, convert_boolean] at hout'
  have heq := (hvalues _ hperm).trans (hvalues _ hperm').symm
  rw [hout, hout'] at heq
  simpa [Except.toOption] using heq.symm

end OrderFree

/-- A hopeless field fails in every order, and the graph with it. -/
theorem orderFree_of_hopeless (hl : Listed (globalFields nodes))
    (h : ∃ node ∈ others nodes, ∃ field ∈ node.fields, Hopeless py (globalFields nodes) field) :
    OrderFree py nodes := by
  obtain ⟨node, hn, field, hf, hh⟩ := h
  have hfails : ∀ nodes' : List (Node F), others nodes' = others nodes →
      (globalFields nodes').Perm (globalFields nodes) →
      ¬ (extractGlobals py nodes').isOk = true := by
    intro nodes' hothers hg
    rw [isOk_iff (hl.perm hg).nodup, hothers]
    intro hall
    have := hall node hn field hf
    rw [(hh.fails hl hg).1] at this
    cases this
  intro nodes' hothers hg
  have hbad := hfails nodes' hothers hg
  rw [fieldValues_of_not_isOk hbad,
    fieldValues_of_not_isOk (hfails nodes rfl (List.Perm.refl _)), hothers]
  refine ⟨⟨fun hok => absurd hok hbad, fun hconv => ?_⟩, rfl⟩
  exact absurd (hconv node hn field hf) (hh.fails hl hg).2

/-- Where the variables of every field stand apart, each field comes to the same in every order. -/
theorem orderFree_of_apart (hl : Listed (globalFields nodes))
    (hc : ∀ node ∈ others nodes, ∀ field ∈ node.fields, Closed py (globalFields nodes) field)
    (h : ∀ node ∈ others nodes, ∀ field ∈ node.fields, Apart py (globalFields nodes) field) :
    OrderFree py nodes := by
  intro nodes' hothers hg
  have hagree := fun node hn field hf => (h node hn field hf).agrees (hc node hn field hf) hl hg
  rw [isOk_iff (hl.perm hg).nodup, hothers]
  refine ⟨⟨fun hall node hn field hf => ?_, fun hall node hn field hf => ?_⟩, ?_⟩
  · exact (hagree node hn field hf).2.mp (hall node hn field hf)
  · exact (hagree node hn field hf).2.mpr (hall node hn field hf)
  by_cases hall : ∀ node ∈ others nodes, ∀ field ∈ node.fields,
      (outcome py (globalFields nodes') field).isSome = true
  · have hall' : ∀ node ∈ others nodes, ∀ field ∈ node.fields,
        (outcome py (globalFields nodes) field).isSome = true := fun node hn field hf => by
      rw [← (hagree node hn field hf).1]
      exact hall node hn field hf
    rw [(fieldValues_of_isSome py _ (hl.perm hg).nodup (by rwa [hothers])).2,
      (fieldValues_of_isSome py _ hl.nodup hall').2, hothers]
    refine congrArg some (List.map_congr_left fun node hn => ?_)
    exact List.map_congr_left fun field hf => by rw [(hagree node hn field hf).1]
  · have hbad : ¬ (extractGlobals py nodes').isOk = true := by
      rwa [isOk_iff (hl.perm hg).nodup, hothers]
    have hbad' : ¬ (extractGlobals py nodes).isOk = true := by
      rw [isOk_iff hl.nodup]
      intro hall'
      refine hall fun node hn field hf => ?_
      rw [(hagree node hn field hf).1]
      exact hall' node hn field hf
    rw [fieldValues_of_not_isOk hbad, fieldValues_of_not_isOk hbad']

/-- Substituting one variable after the other is substituting all at once, in whatever order they
are listed, exactly when some field fails in every order, or numbers stand alone and a Boolean
beside texts does not come out true. -/
theorem orderFree_iff (hl : Listed (globalFields nodes))
    (hc : (∃ node ∈ others nodes, ∃ field ∈ node.fields, Hopeless py (globalFields nodes) field) ∨
      ∀ node ∈ others nodes, ∀ field ∈ node.fields, Closed py (globalFields nodes) field) :
    OrderFree py nodes ↔
      (∃ node ∈ others nodes, ∃ field ∈ node.fields, Hopeless py (globalFields nodes) field) ∨
      ∀ node ∈ others nodes, ∀ field ∈ node.fields, Apart py (globalFields nodes) field := by
  by_cases hhope : ∃ node ∈ others nodes, ∃ field ∈ node.fields,
      Hopeless py (globalFields nodes) field
  · exact iff_of_true (orderFree_of_hopeless hl hhope) (Or.inl hhope)
  · have hc := hc.resolve_left hhope
    constructor
    · intro h
      exact Or.inr (h.apart hl hc fun node hn field hf hh => hhope ⟨node, hn, field, hf, hh⟩)
    · intro h
      exact orderFree_of_apart hl hc (h.resolve_left hhope)

/-! Whether a text is closed can be computed. -/

theorem valuesOf_filter_mem (hl : Listed gs) (hp : ∀ g ∈ p, g ∈ gs ∧ g.type = "String") :
    valuesOf py ((gs.filter (·.type == "String")).filter fun g => decide (g.name ∈ names p)) =
      valuesOf py p := by
  funext n
  by_cases hn : n ∈ names p
  · obtain ⟨g, hg, rfl⟩ := List.mem_map.mp hn
    obtain ⟨hmem, ht⟩ := hp g hg
    have hnodup : (names ((gs.filter (·.type == "String")).filter
        fun g => decide (g.name ∈ names p))).Nodup :=
      ((List.filter_sublist.trans List.filter_sublist).map _).nodup hl.nodup
    rw [valuesOf_of_mem hnodup (by simp [hmem, ht, mem_names hg])]
    cases hf : p.find? fun b => b.name == g.name with
    | none => simpa using List.find?_eq_none.mp hf g hg
    | some b =>
      have hb := List.mem_of_find?_eq_some hf
      obtain rfl := hl.eq_of_name (hp b hb).1 hmem (by simpa using List.find?_some hf)
      rw [valuesOf, hf]
      rfl
  · rw [valuesOf_eq_none.mpr hn, valuesOf_eq_none]
    intro hm
    obtain ⟨g, hg, rfl⟩ := List.mem_map.mp hm
    exact hn (of_decide_eq_true (List.mem_filter.mp hg).2)

theorem closed_iff (hl : Listed gs) : Closed py gs field ↔
    ∀ p ∈ (gs.filter (·.type == "String")).sublists,
      pieces (unread py gs p) (render (valuesOf py p) (holes gs field)) =
        settle (valuesOf py p) (holes gs field) := by
  constructor
  · intro h p hp
    refine h p fun g hg => ?_
    simpa using (List.mem_sublists.mp hp).subset hg
  · intro h p hp
    have hsame : valuesOf py _ = valuesOf py p := valuesOf_filter_mem hl hp
    rw [unread, ← hsame]
    exact h _ (List.mem_sublists.mpr List.filter_sublist)

instance : Decidable (Apart py gs field) :=
  @instDecidableAnd _ _ inferInstance inferInstance

instance : Decidable (Converts py gs field) :=
  decidable_of_iff ((resultingType gs field).all fun type =>
    (convert py type (simultaneous py gs field)).isOk) (by
      rw [Converts]
      cases resultingType gs field <;> simp)

/-! Graphs. -/

def asciiAlphabet : Alphabet := .ascii

/-- Floating point numbers that are kept as they are written. -/
def written : Python (List Char) := ⟨asciiAlphabet, id, String.ofList, id⟩

/-- A field with a name, a type and a value. -/
def namedField (name type : String) (value : Value (List Char)) : Field (List Char) :=
  ⟨.str name, name, type, value⟩

/-- Values that bring in placeholders, which both orders happen to replace alike. -/
example : let gs := [namedField "g" "String" (.text "{g}{x}{g}"),
      namedField "x" "String" (.text "{x}{g}{x}")]
    let field := namedField "f" "String" (.text "{g}{x}")
    outcome written gs field = outcome written gs.reverse field := by
  decide +kernel

/-- Two digits that are to make one number. -/
def twoDigits : List (Node (List Char)) :=
  [⟨"GlobalVariable", [namedField "a" "Integer" (.int 1), namedField "b" "Integer" (.int 2)]⟩,
    ⟨"PythonApp", [namedField "number" "Integer" (.text "{a}{b}")]⟩]

theorem twoDigits_fail : ¬ OrderFree written twoDigits := by
  intro h
  have hok := (h twoDigits rfl (List.Perm.refl _)).1.mpr (by decide +kernel)
  have hfail : (extractGlobals written twoDigits).isOk = false := by decide +kernel
  rw [hok] at hfail
  cases hfail

/-- A name that is written twice and has its own placeholder in it, and a number. -/
def nameAndNumber : List (Node (List Char)) :=
  [⟨"GlobalVariable", [namedField "who" "String" (.text "[{who}]"),
      namedField "copies" "Integer" (.int 10)]⟩,
    ⟨"PythonApp", [namedField "greet" "String" (.text "{who} and {who}"),
      namedField "num" "Integer" (.text "{copies}")]⟩]

theorem nameAndNumber_orderFree : OrderFree written nameAndNumber := by
  have hl : Listed (globalFields nameAndNumber) := by
    constructor <;> decide +kernel
  have hc : ∀ node ∈ others nameAndNumber, ∀ field ∈ node.fields,
      Closed written (globalFields nameAndNumber) field := by
    intro node hn field hf
    rw [closed_iff hl]
    revert node field
    decide +kernel
  refine (orderFree_iff hl (Or.inr hc)).mpr (Or.inr ?_)
  decide +kernel

end Daliuge.Prepare.Globals
