import VeriCCL.Migration

/-! # Resolving a request

`resolve_request` of `input/schema.py`: migrate the documents, apply the overrides,
normalize against the schemas, check across fields, and fold the derived values back into
the documents.  The hash of the resulting documents identifies the request. -/
namespace VeriCCL

namespace Json

/-- The value at a key that must be there. -/
def field (json : Json) (key : String) : Except InputFault Json :=
  Checked.required (json.get? key) (.missing key)

def natural : Json → Except InputFault ℕ
  | .num (.int (.ofNat value)) => .ok value
  | _ => .error (.type "nonnegative integer")

def number : Json → Except InputFault Number
  | .num value => .ok value
  | _ => .error (.type "number")

def text : Json → Except InputFault String
  | .str value => .ok value
  | _ => .error (.type "string")

def boolean : Json → Except InputFault Bool
  | .bool value => .ok value
  | _ => .error (.type "boolean")

def items : Json → Except InputFault (List Json)
  | .arr items => .ok items
  | _ => .error (.type "array")

/-- A value that may be `null`. -/
def optional {α : Type} (read : Json → Except InputFault α) :
    Json → Except InputFault (Option α)
  | .null => .ok none
  | json => some <$> read json

def naturals (json : Json) : Except InputFault (List ℕ) := do
  (← json.items).mapM natural

def texts (json : Json) : Except InputFault (List String) := do
  (← json.items).mapM text

end Json

/-- Why the request is resolved. -/
inductive Purpose where
  | solve
  | verify
  | calibrate
  deriving DecidableEq

/-- Check that the list, sorted, is `0, 1, …, n - 1`. -/
def coversRanks (ranks : List ℕ) (n : ℕ) : Prop := ranks.insertionSort (· ≤ ·) = List.range n

instance (ranks : List ℕ) (n : ℕ) : Decidable (coversRanks ranks n) :=
  inferInstanceAs (Decidable (_ = _))

/-- The nodes: distinct ids, gateways among their ranks, and every rank once. -/
def validateNodes (topology : Json) (ranks : ℕ) : Except InputFault Unit := do
  let nodes ← (← topology.field "nodes").items
  let (_, membership) ← nodes.foldlM (fun (seen : List ℕ × List ℕ) node => do
    let id ← (← node.field "id").natural
    let gateways ← (← node.field "gateways").naturals
    let members ← (← node.field "ranks").naturals
    Checked.ensure (id ∉ seen.1 ∧ ∀ gateway ∈ gateways, gateway ∈ members)
      (.invalid "invalid or duplicate topology node")
    return (id :: seen.1, seen.2 ++ members)) ([], [])
  Checked.ensure (coversRanks membership ranks)
    (.invalid "topology nodes must cover each rank exactly once")

/-- The local costs: one entry a rank, for copies or reductions or both. -/
def validateLocalCosts (topology : Json) (ranks : ℕ) : Except InputFault Unit := do
  let _ ← (← (← topology.field "local_costs").items).foldlM (fun (seen : List ℕ) entry => do
    let rank ← (← entry.field "rank").natural
    Checked.ensure (rank < ranks ∧ rank ∉ seen ∧
        ((entry.get? "copy").isSome = true ∨ (entry.get? "reduce").isSome = true))
      (.invalid "local_costs requires a unique valid rank and at least one local component")
    return rank :: seen) []

/-- The ids of the shared resources. -/
def resourceIds (topology : Json) : Except InputFault (List String) := do
  (← (← topology.field "shared_resources").items).mapM fun resource => do
    (← resource.field "id").text

/-- The directed links: distinct, between two ranks, over known resources. -/
def validateLinks (topology : Json) (ranks : ℕ) (resources : List String) :
    Except InputFault (List (List ℕ)) := do
  (← (← topology.field "directed_links").items).foldlM (fun (seen : List (List ℕ)) edge => do
    let src ← (← edge.field "src").natural
    let dst ← (← edge.field "dst").natural
    Checked.ensure (src < ranks ∧ dst < ranks ∧ src ≠ dst ∧ [src, dst] ∉ seen)
      (.invalid "invalid or duplicate directed link")
    let used ← (← edge.field "resources").texts
    Checked.ensure (∀ resource ∈ used, resource ∈ resources)
      (.invalid "directed link references an unknown shared resource")
    return [src, dst] :: seen) []

/-- The rank map: every rank once, each on its own device. -/
def validateRankMap (runtime : Json) (ranks : ℕ) : Except InputFault Unit := do
  let mapping ← (← runtime.field "rank_map").items
  let mapped ← mapping.mapM fun item => do (← item.field "rank").natural
  Checked.ensure (coversRanks mapped ranks)
    (.invalid "runtime.rank_map must contain every rank exactly once")
  let devices ← mapping.mapM fun item => do
    return (← (← item.field "host").text, ← (← item.field "device").natural)
  Checked.ensure devices.Nodup
    (.invalid "runtime.rank_map must use a distinct device for each rank on a host")

/-- `int(raw)` of a text of ASCII digits. -/
def decimal (raw : String) : ℕ := raw.toList.foldl (fun n digit => 10 * n + (digit.toNat - 48)) 0

/-- The connection buffer, which the environment gives as a text of ASCII digits. -/
def validateBuffer (runtime : Json) : Except InputFault Unit := do
  let raw ← (← (← runtime.field "environment").field "NCCL_BUFFSIZE").text
  Checked.ensure (raw ≠ "" ∧ raw.toList.all Char.isDigit = true ∧
      8 ≤ decimal raw ∧ decimal raw ≤ 2 ^ 31 - 1)
    (.invalid "NCCL_BUFFSIZE must be an integer byte count from 8 to 2147483647")

/-- `_validate_topology` for the number of ranks the topology gives. -/
def checkTopology (topology runtime : Json) (ranks : ℕ) : Except InputFault Unit := do
  validateNodes topology ranks
  validateLocalCosts topology ranks
  let resources ← resourceIds topology
  Checked.ensure resources.Nodup (.invalid "duplicate shared resource")
  let links ← validateLinks topology ranks resources
  (← (← topology.field "shared_resources").items).forM fun resource => do
    let edges ← (← (← resource.field "links").items).mapM Json.naturals
    Checked.ensure (∀ edge ∈ edges, edge ∈ links)
      (.invalid "shared resource references an unknown directed link")
  (← (← topology.field "groups").items).forM fun group => do
    let group ← group.naturals
    Checked.ensure (group.Nodup ∧ ∀ rank ∈ group, rank < ranks)
      (.invalid "invalid topology group")
  validateRankMap runtime ranks
  validateBuffer runtime

/-- `_validate_topology`, with the number of ranks. -/
def validateTopology (topology runtime : Json) : Except InputFault ℕ := do
  let ranks ← (← topology.field "ranks").natural
  checkTopology topology runtime ranks
  return ranks

/-- `_required`. -/
def requiredFor (mapping : Json) (pre key : String) : Except InputFault Json :=
  match mapping.get? key with
  | none | some .null =>
    .error (.invalid (pre ++ "." ++ key ++ " is required for the enabled operation"))
  | some value => .ok value

def requireAll (mapping : Json) (pre : String) (keys : List String) : Except InputFault Unit :=
  keys.forM fun key => do
    let _ ← requiredFor mapping pre key

/-- The sections of the sketch that cross-field checks read. -/
structure Sections where
  solver : Json
  budgets : Json
  tolerances : Json
  calibration : Json
  measured : Json
  history : Json

def Sections.read (sketch : Json) : Except InputFault Sections := do
  let solver ← sketch.field "solver"
  let budgets ← sketch.field "budgets"
  let tolerances ← sketch.field "tolerances"
  let calibration ← sketch.field "calibration"
  let measured ← sketch.field "trace_and_measure"
  let history ← sketch.field "history"
  return { solver, budgets, tolerances, calibration, measured, history }

/-- The value of a number that the schema has found finite. -/
def Number.rational (number : Number) : Except InputFault ℚ :=
  Checked.required number.value? (.type "finite number")

/-- `_validate_enabled`. -/
def validateEnabled (sections : Sections) (purpose : Purpose) : Except InputFault Unit := do
  let ⟨solver, budgets, _, calibration, measured, history⟩ := sections
  requireAll solver "sketch.solver" ["per_model_timeout_s", "cpu_budget"]
  requireAll budgets "sketch.budgets"
    ["cleanup_reserve_s", "max_offline_validation_per_round_s", "max_offline_validation_total_s"]
  if purpose = .solve then
    requireAll budgets "sketch.budgets" ["max_initial_synthesis_s", "max_tuning_rounds"]
    if (← (← budgets.field "max_tuning_rounds").natural) ≠ 0 then
      requireAll budgets "sketch.budgets" ["max_repair_per_round_s", "max_repair_total_s"]
  let calibrating ← (← calibration.field "enabled").boolean
  let measuring ← (← measured.field "enabled").boolean
  if calibrating = true ∨ measuring = true ∨ purpose = .calibrate then
    requireAll budgets "sketch.budgets"
      ["max_online_validation_per_round_s", "max_online_validation_total_s"]
  if calibrating = true ∨ purpose = .calibrate then
    requireAll calibration "sketch.calibration" ["max_relative_fit_error", "job_timeout_s"]
  let pairs ← (← measured.field "pairs").natural
  Checked.ensure (pairs % 2 = 0 ∧ 2 ≤ pairs)
    (.invalid "sketch.trace_and_measure.pairs must be even and at least two")
  let rounds ← (← measured.field "max_rounds").natural
  let cv ← (← (← measured.field "max_cv").number).rational
  let gain ← (← (← measured.field "min_relative_gain").number).rational
  Checked.ensure (rounds ≤ 3 ∧ cv ≤ RequestSchema.fiveHundredths ∧ gain < 1)
    (.invalid "trace_and_measure requires max_rounds <= 3, max_cv <= .05 and min_relative_gain < 1")
  if measuring = true then
    requireAll measured "sketch.trace_and_measure" ["job_timeout_s", "trace_capacity_bytes"]
  if (← (← history.field "schedule_reuse").boolean) = true then
    requireAll history "sketch.history"
      ["relative_bandwidth_tolerance", "max_schedule_candidates", "schedule_index"]
  if (← (← history.field "calibration_reuse").boolean) = true then
    requireAll history "sketch.history" ["calibration_max_age_s", "calibration_index"]

/-- `CollectiveKind(value)`. -/
def CollectiveKind.ofValue? (value : String) : Option CollectiveKind :=
  [CollectiveKind.broadcast, .reduce, .scatter, .gather, .allGather, .allReduce, .allToAll,
    .reduceScatter].find? (fun kind => kind.value = value)

/-- The collectives for which a request may give a root. -/
def CollectiveKind.takesRoot : CollectiveKind → Bool
  | .broadcast | .reduce => true
  | _ => false

/-- The collectives that reduce. -/
def CollectiveKind.reduction : CollectiveKind → Bool
  | .reduce | .allReduce | .reduceScatter => true
  | _ => false

/-- Give an operator-dependent field its default, or `null` where it does not apply. -/
def completeKey (kind : CollectiveKind) (key : String) (applies : Bool) (default collective : Json) :
    Except InputFault Json :=
  match applies, collective.get? key with
  | true, none => .ok (collective.set key default)
  | true, some _ => .ok collective
  | false, some _ =>
    .error (.invalid ("collective." ++ key ++ " is not applicable to " ++ kind.value))
  | false, none => .ok (collective.set key .null)

/-- The collective section with its operator-dependent fields. -/
def completeCollective (collective : Json) : Except InputFault Json := do
  let operator ← (← collective.field "operator").text
  let kind ← Checked.required (CollectiveKind.ofValue? operator) (.type "CollectiveKind")
  let collective ← completeKey kind "root" kind.takesRoot (.int 0) collective
  completeKey kind "reduction_op" kind.reduction (.str "sum") collective

/-- The `CollectiveSpec` of a completed section. -/
def readCollective (collective : Json) : Except InputFault CollectiveSpec := do
  let operator ← (← collective.field "operator").text
  let kind ← Checked.required (CollectiveKind.ofValue? operator) (.type "CollectiveKind")
  let datatype ← (← collective.field "datatype").text
  let reductionOp ← (← collective.field "reduction_op").optional Json.text
  let root ← (← collective.field "root").optional Json.natural
  let inplace ← (← collective.field "inplace").boolean
  return { kind, datatype, reductionOp, root, inplace }

/-- `validate_collective`. -/
def validateCollective (spec : CollectiveSpec) (rankCount sliceCount : ℕ) :
    Except InputFault Unit := do
  Checked.ensure (0 < rankCount) (.invalid "rank count must be positive")
  Checked.ensure (0 < sliceCount) (.invalid "slice count must be positive")
  Checked.ensure (spec.datatype ≠ "") (.invalid "datatype must be a non-empty string")
  match spec.kind.rooted, spec.root with
  | true, none => .error (.invalid (spec.kind.value ++ " requires an integer root"))
  | true, some root =>
    Checked.ensure (root < rankCount)
      (.invalid ("root must be in the range [0, " ++ toString rankCount ++ ")"))
  | false, some _ => .error (.invalid (spec.kind.value ++ " must not define root"))
  | false, none => .ok ()
  match spec.kind.reduction, spec.reductionOp with
  | true, none => .error (.invalid (spec.kind.value ++ " requires reduction_op"))
  | true, some op => do
    Checked.ensure (op ≠ "") (.invalid (spec.kind.value ++ " requires reduction_op"))
    Checked.ensure (op ∈ ["avg", "max", "min", "prod", "sum"])
      (.invalid ("unsupported reduction_op: " ++ op))
  | false, some _ => .error (.invalid (spec.kind.value ++ " must not define reduction_op"))
  | false, none => .ok ()
  Checked.ensure (spec.kind.partitioning = true → sliceCount % rankCount = 0)
    (.invalid ("slice count must be divisible by rank count for " ++ spec.kind.value))

/-- The sizes a request gives, in bytes. -/
structure Sizes where
  total : ℕ
  slice : Option ℕ
  reference : Option ℕ
  deriving DecidableEq

def Sizes.read (hyper : Json) : Except InputFault Sizes := do
  let total ← (← hyper.field "total_size_bytes").natural
  let slice ← (← hyper.field "slice_size_bytes").optional Json.natural
  let reference ← (← hyper.field "reference_slice_size_bytes").optional Json.natural
  return { total, slice, reference }

/-- `slice_count`. -/
def Sizes.sliceCount (sizes : Sizes) : Option ℕ := sizes.slice.map (sizes.total / ·)

/-- A slice size divides the total and holds whole elements. -/
def checkSlice (total element : ℕ) (size : Option ℕ) : Except InputFault Unit :=
  Checked.ensure (∀ value ∈ size, value % element = 0 ∧ total % value = 0)
    (.invalid "slice size must divide total_size_bytes and contain whole datatype elements")

/-- The checks of the sizes against the collective. -/
def checkSizes (spec : CollectiveSpec) (ranks : ℕ) (sizes : Sizes) : Except InputFault ℕ := do
  let element ← Checked.required (datatypeBytes.get? spec.datatype) (.missing spec.datatype)
  Checked.ensure (sizes.total % element = 0)
    (.invalid "total_size_bytes must contain whole datatype elements")
  checkSlice sizes.total element sizes.slice
  checkSlice sizes.total element sizes.reference
  validateCollective spec ranks (sizes.sliceCount.getD (sizes.total / element))
  return element

/-- A reduction of floating-point values needs tolerances. -/
def checkTolerances (spec : CollectiveSpec) (tolerances : Json) : Except InputFault Unit :=
  if spec.kind.reduction = true ∧ spec.datatype ∈ ["float16", "float32", "float64", "bfloat16"] then
    requireAll tolerances "sketch.tolerances" ["absolute", "relative"]
  else .ok ()

/-- The choice of the synthesis method. -/
def selectMethod (atom history : Json) (size : ℕ) : Except InputFault String := do
  let given ← (← atom.field "synthesis_method").text
  let manual ← (← (← atom.field "manual").field "enabled").boolean
  let selected ←
    if manual = true then do
      Checked.ensure (given ≠ "constructive_trees")
        (.invalid "manual stage plans require synthesis_method=hierarchy or auto")
      let reuse ← (← history.field "schedule_reuse").boolean
      Checked.ensure (reuse = false) (.invalid ("manual stage plans require " ++
        "history.schedule_reuse=false; subproblem reuse remains active"))
      pure "hierarchy"
    else if given = "auto" then do
      let threshold ← (← requiredFor atom "atom" "M_switch").natural
      pure (if size < threshold then "hierarchy" else "constructive_trees")
    else pure given
  let shortest ← (← (← atom.field "strategies").field "shortest_paths").boolean
  Checked.ensure (¬ (selected = "constructive_trees" ∧ shortest = true))
    (.invalid "shortest_paths is only an initial hierarchy option")
  return selected

/-- `tuple(item)` of a transfer given as four numbers. -/
def readTransfer (item : Json) : Except InputFault ForbiddenTransfer := do
  match ← item.naturals with
  | [sliceId, srcRank, dstRank, stageId] => return { sliceId, srcRank, dstRank, stageId }
  | _ => .error (.type "four numbers")

/-- The transfers one group of variables of a manual stage bans. -/
def manualTransfers (group : List ℕ) (stageId : ℕ) (atom : Json) :
    Except InputFault (List ForbiddenTransfer) := do
  let sources ← (← atom.field "src_ranks").naturals
  let targets ← (← atom.field "dst_ranks").naturals
  let slices ← (← atom.field "slice_ids").naturals
  Checked.ensure (∀ rank ∈ sources ++ targets, rank ∈ group)
    (.invalid "manual atom ranks must stay inside the stage group")
  return slices.flatMap fun sliceId => sources.flatMap fun srcRank => targets.map fun dstRank =>
    { sliceId, srcRank, dstRank, stageId }

/-- The transfers a manual stage bans. -/
def nodeTransfers (node : Json) : Except InputFault (List ForbiddenTransfer) := do
  let group ← (← node.field "group").naturals
  let stageId ← (← node.field "stage_id").natural
  let transfers ← (← (← node.field "atoms").items).mapM (manualTransfers group stageId)
  return transfers.flatten

/-- Keep the first of equal transfers, as the keys of a dictionary do. -/
def uniqueTransfers (transfers : List ForbiddenTransfer) : List ForbiddenTransfer :=
  Dict.keys (Dict.ofList (transfers.map fun transfer => (transfer, ())))

/-- `expanded_forbidden_transfers`. -/
def expandedForbiddenTransfers (atom : Json) : Except InputFault (List ForbiddenTransfer) := do
  let direct ← (← (← atom.field "forbidden_transfers").items).mapM readTransfer
  let manual ← atom.field "manual"
  if (← (← manual.field "enabled").boolean) = true then
    let stages ← (← (← manual.field "nodes").items).mapM nodeTransfers
    return uniqueTransfers (direct ++ stages.flatten)
  else return uniqueTransfers direct

/-- The partition that slice numbers of banned transfers refer to. -/
def bindReference (forbidden : List ForbiddenTransfer) (sizes : Sizes) :
    Except InputFault (Option ℕ) :=
  if forbidden = [] then .ok sizes.reference
  else some <$> Checked.required (sizes.reference <|> sizes.slice)
    (.invalid "reference_slice_size_bytes is required to bind slice_id constraints")

/-- A banned transfer lies in its reference partition, among the ranks and the stages. -/
def checkForbidden (ranks total : ℕ) (reference stageNum : Option ℕ)
    (item : ForbiddenTransfer) : Except InputFault Unit :=
  Checked.ensure (item.sliceId < ranks * (total / reference.getD 0) ∧ item.srcRank < ranks ∧
      item.dstRank < ranks ∧ item.srcRank ≠ item.dstRank ∧
      ∀ count ∈ stageNum, item.stageId < count)
    (.invalid "forbidden transfer is outside its reference partition/rank/stage domain")

/-- `ObjectiveMode`. -/
inductive ObjectiveMode where
  | latency
  | throughput
  | auto
  deriving DecidableEq

def ObjectiveMode.ofValue? : String → Option ObjectiveMode
  | "latency" => some .latency
  | "throughput" => some .throughput
  | "auto" => some .auto
  | _ => none

/-- `Hyperparameters`. -/
structure Hyperparameters where
  totalSizeBytes : ℕ
  sliceSizeBytes : Option ℕ
  objectiveMode : ObjectiveMode
  maxCalibrationChannels : ℕ
  maxTuningIterations : ℕ
  totalVerificationTimeout : Number
  referenceSliceSizeBytes : Option ℕ
  deriving DecidableEq

/-- `SolverConfig`. -/
structure SolverConfig where
  totalSolveTimeout : Number
  perModelTimeout : Number
  mipGap : Number
  requireProvenOptimal : Bool
  solverSeed : ℕ
  maxChannels : ℕ
  maxThreadsPerModel : ℕ
  maxParallelModels : ℕ
  deriving DecidableEq

/-- `StrategyConfig`; the stages of a manual plan stay documents. -/
structure StrategyConfig where
  hierarchy : Bool
  symmetry : Bool
  shortestPaths : Bool
  batching : Bool
  constructiveTrees : Bool
  manualHierarchy : List Json

/-- `AtomConstraints`. -/
structure AtomConstraints where
  stageNum : Option ℕ
  forbiddenTransfers : List ForbiddenTransfer
  deriving DecidableEq

/-- `size_accounting`. -/
structure SizeAccounting where
  inputBytesPerRank : ℕ
  sliceSizeBytes : Option ℕ
  slicesPerRank : Option ℕ
  validOutputBytes : ℕ
  outputRanks : List (Option ℕ)
  ncclTestsSizeBytes : ℕ
  elementBytes : ℕ
  deriving DecidableEq

/-- `ResolvedInput` as the resolver returns it: a slice size need not be chosen yet. -/
structure ResolvedRequest where
  collective : CollectiveSpec
  hyperparameters : Hyperparameters
  solver : SolverConfig
  strategies : StrategyConfig
  atomConstraints : AtomConstraints
  rankCount : ℕ
  inputSha256 : String
  requestConfig : Documents
  sizeAccounting : SizeAccounting
  requiredCapabilities : Json
  selectedSynthesisMethod : String

/-- `Hyperparameters(...)` from the sections it is read from. -/
def readHyperparameters (sections : Sections) (atom : Json) (sizes : Sizes)
    (reference : Option ℕ) : Except InputFault Hyperparameters := do
  let mode ← (← (← atom.field "strategies").field "objective_mode").optional Json.text
  let mode ← Checked.required (ObjectiveMode.ofValue? (mode.getD "auto")) (.type "ObjectiveMode")
  let channels ← (← sections.solver.field "max_channels").natural
  let rounds ← ((sections.budgets.get? "max_tuning_rounds").getD (.int 0)).natural
  let timeout ← (← sections.budgets.field "max_offline_validation_total_s").number
  return {
    totalSizeBytes := sizes.total
    sliceSizeBytes := sizes.slice
    objectiveMode := mode
    maxCalibrationChannels := channels
    maxTuningIterations := rounds
    totalVerificationTimeout := timeout
    referenceSliceSizeBytes := reference }

/-- `SolverConfig(...)`. -/
def readSolver (sections : Sections) : Except InputFault SolverConfig := do
  let perModel ← (← sections.solver.field "per_model_timeout_s").number
  let total ← match sections.budgets.get? "max_initial_synthesis_s" with
    | some value => value.number
    | none => pure perModel
  let mipGap ← (← sections.solver.field "mip_gap").number
  let optimal ← (← sections.solver.field "require_proven_optimal").boolean
  let seed ← (← sections.solver.field "solver_seed").natural
  let channels ← (← sections.solver.field "max_channels").natural
  let threads ← (← sections.solver.field "max_threads_per_model").natural
  let cpus ← (← sections.solver.field "cpu_budget").natural
  let parallel ← match sections.solver.get? "max_parallel_models" with
    | some value => value.natural
    | none => pure cpus
  return {
    totalSolveTimeout := total
    perModelTimeout := perModel
    mipGap := mipGap
    requireProvenOptimal := optimal
    solverSeed := seed
    maxChannels := channels
    maxThreadsPerModel := threads
    maxParallelModels := parallel }

/-- `StrategyConfig(...)`. -/
def readStrategies (atom : Json) (selected : String) : Except InputFault StrategyConfig := do
  let strategies ← atom.field "strategies"
  let symmetry ← (← strategies.field "symmetry").boolean
  let shortest ← (← strategies.field "shortest_paths").boolean
  let batching ← (← strategies.field "batching").boolean
  let manual ← atom.field "manual"
  let nodes ← if (← (← manual.field "enabled").boolean) = true then
    (← manual.field "nodes").items else pure []
  return {
    hierarchy := selected = "hierarchy"
    symmetry := symmetry
    shortestPaths := shortest
    batching := batching
    constructiveTrees := selected = "constructive_trees"
    manualHierarchy := nodes }

/-- `accounting`. -/
def accountSizes (spec : CollectiveSpec) (ranks element : ℕ) (sizes : Sizes) : SizeAccounting where
  inputBytesPerRank := sizes.total
  sliceSizeBytes := sizes.slice
  slicesPerRank := sizes.sliceCount
  validOutputBytes := match spec.kind with
    | .allGather => sizes.total * ranks
    | .reduceScatter => sizes.total / ranks
    | _ => sizes.total
  outputRanks := match spec.kind with
    | .reduce => [spec.root]
    | _ => (List.range ranks).map some
  ncclTestsSizeBytes := match spec.kind with
    | .allGather => sizes.total * ranks
    | _ => sizes.total
  elementBytes := element

/-- `hyper["reference_slice_size_bytes"] = reference`, which is done when there are banned
transfers. -/
def recordReference (forbidden : List ForbiddenTransfer) (reference : Option ℕ) (hyper : Json) :
    Json :=
  match forbidden, reference with
  | _ :: _, some size => hyper.set "reference_slice_size_bytes" (.int size)
  | _, _ => hyper

/-- The part of `resolve_request` after the documents are normalized.  `digest` is the hash
of a canonical document. -/
def resolveConfig (digest : Json → String) (purpose : Purpose) (config : Documents) :
    Except InputFault ResolvedRequest := do
  let ranks ← validateTopology config.topology config.runtime
  let collective ← completeCollective (← config.sketch.field "collective")
  let spec ← readCollective collective
  let hyper ← config.sketch.field "hyperparameters"
  let sizes ← Sizes.read hyper
  let element ← checkSizes spec ranks sizes
  let sections ← Sections.read config.sketch
  checkTolerances spec sections.tolerances
  let selected ← selectMethod config.atom sections.history sizes.total
  let forbidden ← expandedForbiddenTransfers config.atom
  let reference ← bindReference forbidden sizes
  let stageNum ← (← config.atom.field "stage_num").optional Json.natural
  forbidden.forM (checkForbidden ranks sizes.total reference stageNum)
  validateEnabled sections purpose
  let hyperparameters ← readHyperparameters sections config.atom sizes reference
  let solver ← readSolver sections
  let strategies ← readStrategies config.atom selected
  let protocol ← config.runtime.field "protocol"
  let sketch := (config.sketch.set "collective" collective).set "hyperparameters"
    (recordReference forbidden reference hyper)
  let result := { config with sketch := sketch }
  return {
    collective := spec
    hyperparameters := hyperparameters
    solver := solver
    strategies := strategies
    atomConstraints := { stageNum := stageNum, forbiddenTransfers := forbidden }
    rankCount := ranks
    inputSha256 := digest result.toJson.canonical
    requestConfig := result
    sizeAccounting := accountSizes spec ranks element sizes
    requiredCapabilities := collective.set "protocol" protocol
    selectedSynthesisMethod := selected }

/-- `_normalize` of the four documents. -/
def normalizeDocuments (documents : Documents) : Except InputFault Documents := do
  let topology ← normalize RequestSchema.topology "topology" documents.topology
  let sketch ← normalize RequestSchema.sketch "sketch" documents.sketch
  let atom ← normalize RequestSchema.atom "atom" documents.atom
  let runtime ← normalize RequestSchema.runtime "runtime" documents.runtime
  return { topology, sketch, atom, runtime }

/-- `_load_json_object`: every file holds an object. -/
def loadDocuments (documents : Documents) : Except InputFault Documents := do
  let load (label : String) (json : Json) : Except InputFault Unit :=
    Checked.ensure (json.isObject = true) (.invalid (label ++ " input must be a JSON object"))
  load "topology" documents.topology
  load "sketch" documents.sketch
  load "atom" documents.atom
  load "runtime" documents.runtime
  return documents

/-- `resolve_request`. -/
def resolveRequest (digest : Json → String) (purpose : Purpose) (overrideInput : Bool)
    (overrides : List (String × Json)) (files : Documents) : Except InputFault ResolvedRequest := do
  let documents ← loadDocuments files
  let documents ← migrate documents
  let documents ← migrateDisabledLive documents
  let documents ← applyOverrides overrideInput documents overrides
  let config ← normalizeDocuments documents
  resolveConfig digest purpose config

end VeriCCL
