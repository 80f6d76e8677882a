import Daliuge.Repro.Modes

/-!
# Which fields of a drop are recorded

The tables of fields for every level of a graph and every mode, and what is taken from a drop by
them.
-/
namespace Daliuge.Repro

/-- The values of fields. -/
inductive Value
  | text (s : String)
  | number (n : Int)
  | items (vs : List Value)
  deriving Repr

/-- `FieldOps`, those that store something. -/
inductive FieldOp
  | store | count | removeFirst
  deriving DecidableEq, Repr

/-- What an operation makes of a value that has a length. -/
def FieldOp.apply : FieldOp → Value → Value
  | .store, v => v
  | .count, .text s => .number s.length
  | .count, .items vs => .number vs.length
  | .count, .number n => .number n
  | .removeFirst, .text s => .text (String.ofList (s.toList.drop 1))
  | .removeFirst, .items vs => .items (vs.drop 1)
  | .removeFirst, .number n => .number n

abbrev Fields := List (String × FieldOp)

/-- `extract_fields`: a field that is not there is left out. -/
def extractFields (get : String → Option Value) (fields : Fields) : List (String × Value) :=
  fields.filterMap fun f => (get f.1).map fun v => (f.1, f.2.apply v)

def stored (names : List String) : Fields := names.map fun n => (n, .store)

/-- `lgt_block_fields`. -/
def lgtBlockFields (rmode : Mode) : Fields :=
  if rmode = .nothing then []
  else stored ["categoryType", "category"] ++
    if rmode = .reproduce then []
    else ["inputPorts", "outputPorts", "inputLocalPorts", "outputLocalPorts"].map
      fun n => (n, .count)

/-- The fields of a category in `lg_block_fields`. -/
def categoryFields (rmode : Mode) : String → List String
  | "File" => "check_filepath_exists" ::
    if rmode = .recompute ∨ rmode = .replicateComp then ["filepath", "dirname"] else []
  | "Plasma" => ["plasma_path", "object_id"]
  | "PlasmaFlight" => ["plasma_path", "object_id", "flight_path"]
  | "MKN" => ["m", "k", "n"]
  | "Scatter" => ["num_of_copies", "scatter_axis"]
  | "Gather" => ["num_of_inputs", "gather_axis"]
  | "Loop" => ["num_of_iter"]
  | "GroupBy" => ["group_key", "group_axis"]
  | "Branch" | "PythonApp" | "DALiuGEApp" | "Component" => ["dropclass"]
  | "BashShellApp" => ["Arg01"]
  | "Mpi" => ["num_of_procs"]
  | "Docker" => ["image", "command", "user", "ensureUserAndSwitch", "removeContainer",
      "additionalBindings"]
  | "DynlibApp" | "DynlibProcApp" => ["libpath"]
  | _ => []

/-- `lg_block_fields`; a name that is there already keeps its place. -/
def lgBlockFields (category : String) (rmode : Mode) (customFields : List String) : Fields :=
  if rmode = .nothing ∨ rmode = .rerun ∨ rmode = .reproduce ∨ rmode = .replicateSci then []
  else
    let names := ["execution_time", "num_cpus", "inputApplicationName", "inputApplicationType",
      "data_volume"] ++ categoryFields rmode category
    let custom := if rmode = .recompute ∨ rmode = .replicateComp then customFields else []
    stored (custom.foldl (fun ns n => if n ∈ ns then ns else ns ++ [n]) names)

/-- `ctype.lower() == "data"`. -/
def isData (ctype : String) : Bool := ctype.toList.map Char.toLower == ['d', 'a', 't', 'a']

/-- `pgt_unroll_block_fields`. -/
def pgtUnrollBlockFields (categoryType : String) (rmode : Mode) : Fields :=
  if rmode = .nothing then []
  else stored (["categoryType"] ++
    (if rmode ≠ .reproduce ∧ isData categoryType = false then ["dt"] else []) ++
    (if isData categoryType then ["storage"] else []) ++
    (if rmode = .recompute ∨ rmode = .replicateComp then ["rank"] else []))

/-- `pgt_partition_block_fields`. -/
def pgtPartitionBlockFields (rmode : Mode) : Fields :=
  if rmode = .recompute ∨ rmode = .replicateComp then
    ["node", "island"].map fun n => (n, .removeFirst)
  else []

/-- `pg_block_fields`. -/
def pgBlockFields (rmode : Mode) : Fields :=
  if rmode = .recompute ∨ rmode = .replicateComp then stored ["node", "island"] else []

end Daliuge.Repro
