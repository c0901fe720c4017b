import VeriCCL.Collective
import VeriCCL.Request
import VeriCCL.Schema

/-! # The schemas of a request

The tables of `input/schema.py`: the topology, the sketch, the atom file and the runtime
file. -/
namespace VeriCCL.RequestSchema

/-- `scalar`: an integer without a bound of its own stays below `2 ^ 63`. -/
def scalar (constraints : Scalar) : Spec :=
  if constraints.kind = .integer ∧ constraints.maximum = none then
    .scalar { constraints with maximum := some (2 ^ 63 - 1) }
  else .scalar constraints

def obj (properties : List (String × Spec)) (required : List String) : Spec :=
  .object properties required none

/-- `section`: an object that may be left out. -/
def optionalSection (properties : List (String × Spec)) : Spec :=
  .object properties [] (some (.obj []))

/-- `array` without a default. -/
def array (items : Spec) (minItems : ℕ) (maxItems : Option ℕ) : Spec :=
  .array items minItems maxItems none

/-- `array(..., default=[])`. -/
def optionalArray (items : Spec) (minItems : ℕ) (maxItems : Option ℕ) : Spec :=
  .array items minItems maxItems (some (.arr []))

def text : Spec := scalar { kind := .string }

def choice (values : List String) (default : Option Json) : Spec :=
  scalar { kind := .string, enum := some values, default := default }

def positive (default : Option Json) : Spec :=
  scalar { kind := .number, exclusiveMinimum := some 0, default := default }

/-- A number that is not negative. -/
def nonnegative : Spec := scalar { kind := .number, minimum := some 0 }

/-- A number from zero to one, by default zero. -/
def share : Spec :=
  scalar { kind := .number, minimum := some 0, maximum := some 1, default := some (.int 0) }

def integer (default : Option Json) (maximum : Option ℚ) : Spec :=
  scalar { kind := .integer, minimum := some 0, maximum := maximum, default := default }

/-- An integer from one on. -/
def count (default : Option Json) (maximum : Option ℚ) : Spec :=
  scalar { kind := .integer, minimum := some 1, maximum := maximum, default := default }

def flag (default : Bool) : Spec := scalar { kind := .boolean, default := some (.bool default) }

/-- The double nearest to 0.05. -/
def fiveHundredths : ℚ := 3602879701896397 / 72057594037927936

/-- A rank, an offset or another index that must be given. -/
def index : Spec := integer none none

def localCost : Spec :=
  obj [("alpha_us", nonnegative), ("beta_us_per_byte", positive none)]
    ["alpha_us", "beta_us_per_byte"]

/-- `TOPOLOGY`. -/
def topology : Spec :=
  obj [
    ("name", text),
    ("ranks", count none none),
    ("nodes", array (obj [
      ("id", index),
      ("ranks", array index 1 none),
      ("gateways", optionalArray index 0 none)] ["id", "ranks"]) 1 none),
    ("directed_links", array (obj [
      ("src", index),
      ("dst", index),
      ("alpha_us", nonnegative),
      ("beta_us_per_byte", positive none),
      ("max_channels", count (some (.int 16)) (some 16)),
      ("resources", optionalArray text 0 none),
      ("physical_path", optionalArray text 0 none)]
      ["src", "dst", "alpha_us", "beta_us_per_byte"]) 0 none),
    ("shared_resources", optionalArray (obj [
      ("id", text),
      ("capacity_bytes_per_us", positive none),
      ("links", optionalArray (array index 2 (some 2)) 0 none),
      ("kind", choice ["nic", "pcie", "switch_port", "link", "other"] (some (.str "other")))]
      ["id", "capacity_bytes_per_us"]) 0 none),
    ("groups", optionalArray (array index 1 none) 0 none),
    ("local_costs", optionalArray (obj [
      ("rank", index),
      ("copy", localCost),
      ("reduce", localCost)] ["rank"]) 0 none)]
    ["ranks", "nodes", "directed_links"]

def collective : Spec :=
  obj [
    ("operator", choice ["broadcast", "reduce", "allgather", "allreduce", "alltoall",
      "reduce_scatter"] none),
    ("datatype", choice datatypeBytes.keys (some (.str "float32"))),
    ("root", index),
    ("reduction_op", choice ["sum", "prod", "min", "max", "avg"] none),
    ("inplace", flag false)] ["operator"]

def hyperparameters : Spec :=
  obj [
    ("total_size_bytes", count none none),
    ("slice_size_bytes", count (some .null) none),
    ("reference_slice_size_bytes", count (some .null) none)] ["total_size_bytes"]

/-- `SOLVER`. -/
def solver : Spec :=
  optionalSection [
    ("backend", choice ["scip"] (some (.str "scip"))),
    ("per_model_timeout_s", positive none),
    ("cpu_budget", count none none),
    ("max_threads_per_model", count (some (.int 12)) none),
    ("max_parallel_models", count none none),
    ("max_channels", count (some (.int 7)) (some 16)),
    ("solver_seed", integer (some (.int 0)) none),
    ("mip_gap", share),
    ("require_proven_optimal", flag false),
    ("bdd_backend", choice ["cudd", "autoref"] (some (.str "cudd")))]

/-- `BUDGET_SECONDS` and the number of rounds. -/
def budgets : Spec :=
  optionalSection [
    ("max_initial_synthesis_s", positive none),
    ("max_online_validation_per_round_s", positive none),
    ("max_online_validation_total_s", positive none),
    ("max_offline_validation_per_round_s", positive none),
    ("max_offline_validation_total_s", positive none),
    ("max_repair_per_round_s", positive none),
    ("max_repair_total_s", positive none),
    ("max_run_wall_s", positive none),
    ("cleanup_reserve_s", positive none),
    ("max_tuning_rounds", index)]

def calibration : Spec :=
  optionalSection [
    ("enabled", flag true),
    ("launches", count (some (.int 20)) none),
    ("warmup_iterations", integer (some (.int 5)) none),
    ("timed_iterations", count (some (.int 20)) none),
    ("max_rounds", count (some (.int 3)) none),
    ("max_cv", positive (some (.num (.float fiveHundredths)))),
    ("max_relative_fit_error", nonnegative),
    ("job_timeout_s", positive none),
    ("payload_sizes", optionalArray (count none none) 0 none)]

/-- A probability of at most 0.05. -/
def alpha : Spec :=
  scalar {
    kind := .number
    exclusiveMinimum := some 0
    maximum := some fiveHundredths
    default := some (.num (.float fiveHundredths)) }

def traceAndMeasure : Spec :=
  optionalSection [
    ("enabled", flag false),
    ("pairs", count (some (.int 20)) none),
    ("warmup_iterations", integer (some (.int 5)) none),
    ("timed_iterations", count (some (.int 20)) none),
    ("max_rounds", count (some (.int 3)) none),
    ("max_cv", positive (some (.num (.float fiveHundredths)))),
    ("min_relative_gain", share),
    ("task_alpha", alpha),
    ("single_attempt_alpha_cap", alpha),
    ("seed", integer (some (.int 0)) none),
    ("job_timeout_s", positive none),
    ("trace_capacity_bytes", count none none)]

/-- `SKETCH`. -/
def sketch : Spec :=
  obj [
    ("collective", collective),
    ("hyperparameters", hyperparameters),
    ("solver", solver),
    ("budgets", budgets),
    ("tolerances", optionalSection [("absolute", nonnegative), ("relative", nonnegative)]),
    ("calibration", calibration),
    ("trace_and_measure", traceAndMeasure),
    ("repair", optionalSection [
      ("mode", choice ["strategy_first", "joint"] (some (.str "strategy_first"))),
      ("candidate_batch_size", count (some (.int 4)) none),
      ("analysis_batch_size", count (some (.int 16)) none)]),
    ("runtime_compatibility", optionalSection [("enabled", flag true)]),
    ("history", optionalSection [
      ("schedule_reuse", flag false),
      ("calibration_reuse", flag false),
      ("relative_bandwidth_tolerance", nonnegative),
      ("max_schedule_candidates", count none none),
      ("calibration_max_age_s", positive none),
      ("schedule_index", text),
      ("calibration_index", text)])]
    ["collective", "hyperparameters"]

/-- `MANUAL_STATE`. -/
def manualState : Spec :=
  obj [("rank", index), ("offset", index), ("contributors", array index 1 none)]
    ["rank", "offset", "contributors"]

/-- `MANUAL_ATOM`. -/
def manualAtom : Spec :=
  obj [("slice_ids", array index 1 none), ("src_ranks", array index 1 none),
    ("dst_ranks", array index 1 none)] ["slice_ids", "src_ranks", "dst_ranks"]

/-- `MANUAL_NODE`. -/
def manualNode : Spec :=
  obj [
    ("id", text),
    ("stage_id", index),
    ("operator", choice ["broadcast", "reduce", "scatter", "gather", "allgather", "allreduce",
      "alltoall", "reduce_scatter"] none),
    ("group", array index 1 none),
    ("root", index),
    ("relay_ranks", optionalArray index 0 none),
    ("atoms", optionalArray manualAtom 0 none),
    ("depends_on", optionalArray text 0 none),
    ("input_states", array manualState 1 none),
    ("output_states", array manualState 1 none)] ["id", "stage_id", "operator", "group"]

def strategies : Spec :=
  optionalSection [
    ("symmetry", flag false),
    ("shortest_paths", flag false),
    ("batching", flag false),
    ("objective_mode", choice ["latency", "throughput", "auto"] (some .null))]

def manual : Spec :=
  optionalSection [
    ("enabled", flag false),
    ("nodes", optionalArray manualNode 0 none)]

/-- `ATOM`. -/
def atom : Spec :=
  obj [
    ("synthesis_method", choice ["auto", "hierarchy", "constructive_trees"] (some (.str "auto"))),
    ("M_switch", count none none),
    ("stage_num", count (some .null) none),
    ("forbidden_transfers", optionalArray (array index 4 (some 4)) 0 none),
    ("strategies", strategies),
    ("manual", manual)]
    []

/-- `ENVIRONMENT_ALLOWLIST`, sorted. -/
def environmentAllowlist : List String :=
  ["CUDA_HOME", "CUDA_PATH", "CUDA_VISIBLE_DEVICES", "LD_LIBRARY_PATH", "MSCCL_ROOT",
    "MSCCL_XML_FILES", "NCCL_ALGO", "NCCL_BUFFSIZE", "NCCL_DEBUG", "NCCL_DEBUG_SUBSYS",
    "NCCL_IB_GID_INDEX", "NCCL_IB_HCA", "NCCL_P2P_DISABLE", "NCCL_PROTO", "NCCL_SHM_DISABLE",
    "NCCL_SOCKET_IFNAME", "NCCL_TESTS_ROOT", "OMPI_MCA_btl", "OMPI_MCA_btl_tcp_if_include",
    "OMPI_MCA_oob_tcp_if_include", "OMPI_MCA_pml", "OMP_NUM_THREADS", "PATH", "PYTHONPATH",
    "UCX_NET_DEVICES", "UCX_TLS"]

/-- `RUNTIME`. -/
def runtime : Spec :=
  obj [
    ("rank_map", array (obj [
      ("rank", index),
      ("host", text),
      ("device", index)] ["rank", "host", "device"]) 1 none),
    ("environment", obj (environmentAllowlist.map fun key => (key, text)) ["NCCL_BUFFSIZE"]),
    ("paths", optionalSection (["cuda_home", "mpi_bin", "msccl_root", "nccl_tests_root",
      "vericcl_driver", "vericcl_native"].map fun key => (key, text))),
    ("device_memory_budget_bytes", integer (some (.int 0)) none),
    ("protocol", choice ["Simple"] (some (.str "Simple"))),
    ("scratch_bytes_per_rank", index),
    ("limits", optionalSection [
      ("steps_per_tb", count (some (.int 256)) (some 256)),
      ("tbs_per_rank", count (some (.int 216)) (some 216)),
      ("send_tbs_per_channel", count (some (.int 32)) (some 32)),
      ("recv_tbs_per_channel", count (some (.int 32)) (some 32)),
      ("dependency_id", integer (some (.int 127)) (some 127)),
      ("buffer_offset", integer (some (.int 32767)) (some 32767))]),
    ("tb_layout", choice ["separate", "fused"] (some (.str "separate"))),
    ("control", optionalSection [
      ("bind_address", text),
      ("port", count none (some 65535))])]
    ["rank_map", "environment", "scratch_bytes_per_rank"]

end VeriCCL.RequestSchema
