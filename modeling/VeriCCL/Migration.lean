import VeriCCL.RequestSchema

/-! # Legacy spellings and overrides

`input/migration.py`, `migrate_disabled_live` and `_apply_overrides`: what is done to the
four documents of a request before they are checked against the schemas. -/
namespace VeriCCL

/-- The documents of a request. -/
structure Documents where
  topology : Json
  sketch : Json
  atom : Json
  runtime : Json

/-- The documents as one object. -/
def Documents.toJson (documents : Documents) : Json :=
  .obj [("topology", documents.topology), ("sketch", documents.sketch), ("atom", documents.atom),
    ("runtime", documents.runtime)]

/-- `REMOVED`. -/
def removedFields : List String := ["input_chunkup", "N", "force_resolve", "force_recalibrate"]

mutual

/-- `reject_removed`. -/
def rejectRemoved : Json → String → Except InputFault Unit
  | .obj fields, path => rejectRemovedFields fields path
  | .arr items, path => rejectRemovedItems items path
  | .null, _ | .bool _, _ | .num _, _ | .str _, _ => .ok ()

def rejectRemovedItems : List Json → String → Except InputFault Unit
  | [], _ => .ok ()
  | item :: items, path => do
    rejectRemoved item path
    rejectRemovedItems items path

def rejectRemovedFields : List (String × Json) → String → Except InputFault Unit
  | [], _ => .ok ()
  | (key, item) :: fields, path => do
    Checked.ensure (key ∉ removedFields) (.invalid (path ++ "." ++ key ++
      " is removed; slice count is derived and reuse is explicitly configured"))
    rejectRemoved item (path ++ "." ++ key)
    rejectRemovedFields fields path

end

/-- `OPERATOR_ALIASES`. -/
def operatorAliases : Dict String String :=
  [("all_gather", "allgather"), ("all_reduce", "allreduce"), ("all_to_all", "alltoall"),
    ("reducescatter", "reduce_scatter")]

/-- `normalize_operator`.  No operator has a letter that is the lower case of a letter
outside ASCII, so lowering ASCII letters decides the same names. -/
def normalizeOperator : Json → Json
  | .str value => .str ((operatorAliases.get? value.toLower).getD value.toLower)
  | value => value

/-- A section that settings move to: an unspecified one is created. -/
def openSection (parent : Json) (name message : String) : Except InputFault Json :=
  match parent.get? name with
  | none | some .null => .ok (.obj [])
  | some (.obj fields) => .ok (.obj fields)
  | some _ => .error (.invalid message)

/-- The operator of the sketch in its current spelling. -/
def migrateOperator (sketch : Json) : Json :=
  match sketch.get? "collective" with
  | some (.obj collective) =>
    match Dict.get? collective "operator" with
    | some (.str operator) => sketch.set "collective"
        ((Json.obj collective).set "operator" (normalizeOperator (.str operator)))
    | _ => sketch
  | _ => sketch

/-- Take the old name of the synthesis budget out of a section. -/
def popTotal (sketch : Json) (name : String) : Json × List Json :=
  match sketch.get? name with
  | some (.obj fields) =>
    match Dict.get? fields "total_solve_timeout_s" with
    | some value => (sketch.set name ((Json.obj fields).pop "total_solve_timeout_s"), [value])
    | none => (sketch, [])
  | _ => (sketch, [])

/-- The synthesis budget moves to `budgets.max_initial_synthesis_s`. -/
def migrateTotal (sketch : Json) : Except InputFault Json :=
  let (sketch, first) := popTotal sketch "hyperparameters"
  let (sketch, second) := popTotal sketch "solver"
  match first ++ second with
  | [] => .ok sketch
  | value :: others => do
    let budgets ← openSection sketch "budgets" "sketch.budgets must be an object"
    Checked.ensure (others = [] ∧ budgets.get? "max_initial_synthesis_s" = none)
      (.invalid "duplicate initial synthesis budget")
    return sketch.set "budgets" (budgets.set "max_initial_synthesis_s" value)

/-- `SOLVER_LEGACY_KEYS`. -/
def solverLegacyKeys : List String :=
  ["per_model_timeout_s", "mip_gap", "require_proven_optimal", "solver_seed", "max_channels",
    "max_threads_per_model", "max_parallel_models"]

/-- A solver setting among the hyperparameters moves to the solver section. -/
def migrateSolverKey (sketch : Json) (key : String) : Except InputFault Json :=
  match sketch.get? "hyperparameters" with
  | some (.obj hyper) =>
    match Dict.get? hyper key with
    | some value => do
      let solver ← openSection sketch "solver" "sketch.solver must be an object"
      Checked.ensure (solver.get? key = none) (.invalid ("duplicate sketch setting: " ++ key))
      return (sketch.set "solver" (solver.set key value)).set "hyperparameters"
        ((Json.obj hyper).pop key)
    | none => .ok sketch
  | _ => .ok sketch

/-- `STRATEGY_LEGACY_KEYS`. -/
def strategyLegacyKeys : List String := ["symmetry", "shortest_paths", "batching", "objective_mode"]

/-- The booleans that selected an algorithm are no longer accepted. -/
def rejectAlgorithmBoolean (atom : Json) (key : String) : Except InputFault Unit :=
  Checked.ensure (atom.get? key = none ∧ ∀ strategies ∈ atom.get? "strategies",
      strategies.get? key = none)
    (.invalid ("removed algorithm boolean " ++ key ++ "; use atom.synthesis_method"))

/-- A strategy of the atom file moves to its `strategies` section. -/
def migrateStrategyKey (atom : Json) (key : String) : Except InputFault Json :=
  match atom.get? key with
  | some value => do
    let strategies ← openSection atom "strategies" "atom.strategies must be an object"
    Checked.ensure (strategies.get? key = none) (.invalid ("duplicate atom strategy: " ++ key))
    return (atom.set "strategies" (strategies.set key value)).pop key
  | none => .ok atom

/-- `migrate`, without the record of where settings stood. -/
def migrate (documents : Documents) : Except InputFault Documents := do
  rejectRemoved documents.sketch "sketch"
  rejectRemoved documents.atom "atom"
  let sketch ← migrateTotal (migrateOperator documents.sketch)
  let sketch ← solverLegacyKeys.foldlM migrateSolverKey sketch
  ["hierarchy", "constructive_trees", "milp"].forM (rejectAlgorithmBoolean documents.atom)
  let atom ← strategyLegacyKeys.foldlM migrateStrategyKey documents.atom
  return { documents with sketch := sketch, atom := atom }

/-- `LIVE_MIGRATION_ERROR`. -/
def liveMigrationError : String :=
  "sketch.live has been removed; use solve or verify --tune for offline tuning, " ++
    "calibrate for calibration, and trace_and_measure for fixed-schedule execution"

/-- Legacy live settings that are switched off. -/
def liveDisabled : Json → Bool
  | .null => true
  | .obj live =>
    match Dict.get? live "enabled" with
    | none | some .null | some (.bool false) => true
    | _ => false
  | _ => false

/-- `migrate_disabled_live`. -/
def migrateDisabledLive (documents : Documents) : Except InputFault Documents :=
  match documents.sketch.get? "live" with
  | none => .ok documents
  | some live => do
    Checked.ensure (liveDisabled live = true) (.invalid liveMigrationError)
    let runtime := match documents.runtime.get? "control" with
      | some (.obj control) =>
        documents.runtime.set "control" ((Json.obj control).pop "unix_socket")
      | _ => documents.runtime
    return { documents with sketch := documents.sketch.pop "live", runtime := runtime }

/-- The schema of a property. -/
def Spec.property (spec : Spec) (key path : String) : Except InputFault Spec :=
  Checked.required (Dict.get? spec.properties key) (.invalid ("unknown CLI field " ++ path))

/-- Assign an override below a node of a document. -/
def assignField (enabled : Bool) (path : String) (value : Json) :
    Spec → Json → List String → Except InputFault Json
  | _, _, [] => .error (.invalid ("unknown CLI field " ++ path))
  | spec, node, [key] => do
    let _ ← spec.property key path
    let previous := (node.get? key).getD .null
    Checked.ensure (previous.isNull = true ∨ previous.equal value = true ∨ enabled = true)
      (.invalid (path ++ " conflicts with input; use --override-input"))
    return node.set key value
  | spec, node, key :: rest => do
    let child ← spec.property key path
    let inner ← openSection node key ("CLI field parent is not an object: " ++ path)
    let inner ← assignField enabled path value child inner rest
    return node.set key inner

/-- `path.split(".")`. -/
def splitPath (path : String) : List String := (path.toList.splitOn '.').map String.ofList

/-- One override. -/
def applyOverride (enabled : Bool) (documents : Documents) (override : String × Json) :
    Except InputFault Documents := do
  let (path, value) := override
  Checked.ensure (path ≠ "") (.invalid "CLI override paths must be strings")
  Checked.ensure (path ≠ "sketch.live" ∧ ¬ path.startsWith "sketch.live.")
    (.invalid liveMigrationError)
  let value := if path = "sketch.collective.operator" then normalizeOperator value else value
  match splitPath path with
  | "topology" :: rest =>
    let node ← assignField enabled path value RequestSchema.topology documents.topology rest
    return { documents with topology := node }
  | "sketch" :: rest =>
    let node ← assignField enabled path value RequestSchema.sketch documents.sketch rest
    return { documents with sketch := node }
  | "atom" :: rest =>
    let node ← assignField enabled path value RequestSchema.atom documents.atom rest
    return { documents with atom := node }
  | "runtime" :: rest =>
    let node ← assignField enabled path value RequestSchema.runtime documents.runtime rest
    return { documents with runtime := node }
  | _ => .error (.invalid ("unknown CLI field " ++ path))

/-- `_apply_overrides`. -/
def applyOverrides (enabled : Bool) (documents : Documents) (overrides : List (String × Json)) :
    Except InputFault Documents :=
  overrides.foldlM (applyOverride enabled) documents

end VeriCCL
