import VeriCCL.BinomialTest
import VeriCCL.Checked

/-! # The ledger of measured attempts

`verification/online/statistical_ledger.py`: one append-only file per task, from which every
comparison of two schedules takes its share of the task's error level before it measures
anything.  Each call takes an exclusive lock on the file, reads and checks the whole chain of
records, and appends at most one record; so what any number of processes do to the file is a
sequence of such calls.  A process may die between two of them, or in the middle of a write,
which leaves an incomplete last line (`LedgerFile.torn`).

Numbers are rationals.  The digest, the logarithm and the random generator are parameters
(`LedgerLibrary`); a shuffle permutes. -/
namespace VeriCCL

/-- `SemanticError`, and the `StorageFailure` of a file that cannot be trusted. -/
inductive LedgerFault where
  | semantic (message : String)
  | storage (message : String)
  deriving DecidableEq

/-- Which schedule of a pair runs first. -/
inductive PairOrder where
  | ab
  | ba
  deriving DecidableEq

/-- `AttemptPlan`. -/
structure AttemptPlan where
  attemptIndex : ℕ
  alpha : ℚ
  pairCount : ℕ
  seed : ℕ
  orders : List (List PairOrder)
  incumbent : String
  candidate : String
  minimumGain : ℚ
  warmup : ℕ := 5
  timed : ℕ := 20
  maxCv : ℚ := 1 / 20
  deriving DecidableEq

/-- The identity of a ledger and its allocation policy. -/
structure LedgerHeader where
  taskId : String
  taskAlpha : ℚ := 1 / 20
  singleAttemptCap : ℚ := 1 / 20
  deriving DecidableEq

/-- The events of an attempt. -/
inductive AttemptEvent where
  | sample
  | roundFinished
  | attemptFinished
  deriving DecidableEq

/-- What a record says. -/
inductive LedgerEntry where
  | created (header : LedgerHeader)
  | reserved (plan : AttemptPlan)
  | recorded (event : AttemptEvent) (attemptIndex : ℕ) (payload : String)
  deriving DecidableEq

/-- A line of the file. -/
structure LedgerRecord where
  entry : LedgerEntry
  sequence : ℕ
  previous : String
  recordedAt : String
  sha256 : String
  deriving DecidableEq

/-- The library functions the ledger calls: the digest of a record, `ceil(-log2(alpha))`,
the seed derived from the caller's, and the shuffles of one generator in turn. -/
structure LedgerLibrary where
  sha256 : LedgerEntry → ℕ → String → String → String
  ceilLog : ℚ → ℤ
  actualSeed : ℤ → ℕ → String → ℕ
  shuffle : ℕ → ℕ → List PairOrder → List PairOrder
  shuffle_perm : ∀ seed round order, (shuffle seed round order).Perm order

/-- The file: its complete lines, and whether an incomplete one follows. -/
structure LedgerFile where
  records : List LedgerRecord := []
  torn : Bool := false
  deriving DecidableEq

/-- The arguments of `reserve`. -/
structure ReserveArgs where
  incumbent : String
  candidate : String
  seed : ℤ
  pairCount : ℤ := 20
  minimumGain : ℚ := 0
  warmup : ℤ := 5
  timed : ℤ := 20
  maxRounds : ℤ := 3
  maxCv : ℚ := 1 / 20
  deriving DecidableEq

/-- Half of the pairs in each order. -/
def balanced (pairs : ℕ) : List PairOrder :=
  List.replicate (pairs / 2) .ab ++ List.replicate (pairs / 2) .ba

/-- The loop that adds pairs until all wins would be enough. -/
def growPairs (alpha : ℚ) : ℕ → ℕ → ℕ
  | 0, pairs => pairs
  | turns + 1, pairs => if 1 / 2 ^ pairs > alpha then growPairs alpha turns (pairs + 2) else pairs

/-- More turns than the loop can take. -/
def pairTurns (alpha : ℚ) : ℕ := ⌈1 / alpha⌉₊

namespace LedgerRecord

/-- The plan a record reserves. -/
def plan? (record : LedgerRecord) : Option AttemptPlan :=
  match record.entry with
  | .reserved plan => some plan
  | _ => none

/-- The record closes the attempt `index`. -/
def closes (record : LedgerRecord) (index : ℕ) : Bool :=
  match record.entry with
  | .recorded .attemptFinished i _ => i = index
  | _ => false

end LedgerRecord

/-- The plans reserved so far, in order. -/
def plansOf (records : List LedgerRecord) : List AttemptPlan := records.filterMap (·.plan?)

namespace LedgerFile
variable (lib : LedgerLibrary)

/-- The checks of `_locked`, line by line. -/
def chained : ℕ → String → List LedgerRecord → Prop
  | _, _, [] => True
  | n, previous, record :: rest =>
    record.previous = previous ∧ record.sequence = n ∧
      lib.sha256 record.entry record.sequence record.previous record.recordedAt = record.sha256 ∧
      chained (n + 1) record.sha256 rest

instance decidableChained : ∀ (n : ℕ) (previous : String) (records : List LedgerRecord),
    Decidable (chained lib n previous records)
  | _, _, [] => isTrue trivial
  | n, _, record :: rest =>
    have := decidableChained (n + 1) record.sha256 rest
    inferInstanceAs (Decidable (_ ∧ _ ∧ _ ∧ _))

/-- `_locked`: the records, once the whole chain has been checked. -/
def locked (file : LedgerFile) : Except LedgerFault (List LedgerRecord) := do
  Checked.ensure (file.torn = false) (.storage "incomplete statistical ledger record")
  Checked.ensure (chained lib 0 "" file.records) (.storage "statistical ledger chain is corrupt")
  return file.records

/-- The digest of the last record. -/
def lastDigest (records : List LedgerRecord) : String := (records.getLast?.map (·.sha256)).getD ""

/-- The record `_append` writes. -/
def nextRecord (records : List LedgerRecord) (entry : LedgerEntry) (time : String) : LedgerRecord where
  entry := entry
  sequence := records.length
  previous := lastDigest records
  recordedAt := time
  sha256 := lib.sha256 entry records.length (lastDigest records) time

/-- `_append`. -/
def write (file : LedgerFile) (entry : LedgerEntry) (time : String) : LedgerFile :=
  { file with records := file.records ++ [nextRecord lib file.records entry time] }

/-- A share of the error level. -/
def validLevel (value : ℚ) : Prop := 0 < value ∧ value ≤ 1 / 20

instance (value : ℚ) : Decidable (validLevel value) := inferInstanceAs (Decidable (_ ∧ _))

/-- `StatisticalLedger.__init__`. -/
def create (file : LedgerFile) (header : LedgerHeader) (time : String) :
    Except LedgerFault LedgerFile := do
  Checked.ensure (validLevel header.taskAlpha) (.semantic "task_alpha must be finite and in (0, .05]")
  Checked.ensure (validLevel header.singleAttemptCap)
    (.semantic "single_attempt_cap must be finite and in (0, .05]")
  Checked.ensure (header.taskId ≠ "") (.semantic "statistical ledger needs a task identity")
  let records ← locked lib file
  match records with
  | [] => return write lib file (.created header) time
  | first :: _ =>
    Checked.ensure (first.entry = .created header)
      (.semantic "statistical ledger identity or allocation policy changed")
    return file

/-- The checks of `reserve` before it locks the file. -/
def checkArgs (args : ReserveArgs) : Except LedgerFault Unit := do
  Checked.ensure (args.incumbent ≠ "" ∧ args.candidate ≠ "" ∧ args.incumbent ≠ args.candidate)
    (.semantic "measured comparison needs two distinct candidate identities")
  Checked.ensure (0 ≤ args.seed) (.semantic "measurement seed must be a nonnegative integer")
  Checked.ensure (2 ≤ args.pairCount ∧ args.pairCount % 2 = 0)
    (.semantic "pair count must be even and at least two")
  Checked.ensure (0 ≤ args.minimumGain ∧ args.minimumGain < 1)
    (.semantic "minimum gain must be finite and in [0, 1)")
  Checked.ensure (0 ≤ args.warmup ∧ 1 ≤ args.timed ∧ 1 ≤ args.maxRounds ∧ args.maxRounds ≤ 3)
    (.semantic "invalid warmup, timed iterations or stability-round limit")
  Checked.ensure (0 < args.maxCv ∧ args.maxCv ≤ 1 / 20)
    (.semantic "stability CV threshold must be in (0, .05]")

/-- The level of an attempt. -/
def attemptAlpha (header : LedgerHeader) (index : ℕ) : ℚ :=
  min header.singleAttemptCap (header.taskAlpha / (index * (index + 1)))

/-- The number of pairs of an attempt. -/
def attemptPairs (pairCount : ℤ) (alpha : ℚ) : ℕ :=
  let required := lib.ceilLog alpha
  growPairs alpha (pairTurns alpha) (max pairCount (required + required % 2)).toNat

/-- The plan of an attempt. -/
def attemptPlan (header : LedgerHeader) (args : ReserveArgs) (index : ℕ) : AttemptPlan :=
  let alpha := attemptAlpha header index
  let pairs := attemptPairs lib args.pairCount alpha
  let seed := lib.actualSeed args.seed index header.taskId
  { attemptIndex := index
    alpha := alpha
    pairCount := pairs
    seed := seed
    orders := (List.range args.maxRounds.toNat).map fun round => lib.shuffle seed round (balanced pairs)
    incumbent := args.incumbent
    candidate := args.candidate
    minimumGain := args.minimumGain
    warmup := args.warmup.toNat
    timed := args.timed.toNat
    maxCv := args.maxCv }

/-- `reserve`. -/
def reserve (file : LedgerFile) (header : LedgerHeader) (args : ReserveArgs) (time : String) :
    Except LedgerFault (AttemptPlan × LedgerFile) := do
  checkArgs args
  let records ← locked lib file
  let index := 1 + (plansOf records).length
  Checked.ensure (¬ attemptAlpha header index ≤ 0)
    (.semantic "attempt significance level is below representable range")
  let plan := attemptPlan lib header args index
  return (plan, write lib file (.reserved plan) time)

/-- `append`. -/
def append (file : LedgerFile) (plan : AttemptPlan) (event : AttemptEvent) (payload time : String) :
    Except LedgerFault LedgerFile := do
  let records ← locked lib file
  Checked.ensure ((plansOf records).filter (fun other => other.attemptIndex = plan.attemptIndex) = [plan])
    (.semantic "attempt plan differs from the reserved plan")
  Checked.ensure (¬ ∃ record ∈ records, record.closes plan.attemptIndex = true)
    (.semantic "statistical attempt is already closed")
  return write lib file (.recorded event plan.attemptIndex payload) time

end LedgerFile

/-- The file and the ledgers that processes have opened on it. -/
structure LedgerTask where
  file : LedgerFile := {}
  handles : List LedgerHeader := []

/-- What a process does to the file. -/
inductive LedgerCall where
  | create (header : LedgerHeader) (time : String)
  | reserve (handle : ℕ) (args : ReserveArgs) (time : String)
  | append (plan : AttemptPlan) (event : AttemptEvent) (payload time : String)
  /-- It dies while it writes a line. -/
  | tear

namespace LedgerTask
variable (lib : LedgerLibrary)

/-- One call; one that raises leaves the file as it was. -/
def step (s : LedgerTask) : LedgerCall → LedgerTask
  | .create header time =>
    match s.file.create lib header time with
    | .ok file => ⟨file, s.handles ++ [header]⟩
    | .error _ => s
  | .reserve handle args time =>
    match s.handles[handle]? with
    | some header =>
      match s.file.reserve lib header args time with
      | .ok result => { s with file := result.2 }
      | .error _ => s
    | none => s
  | .append plan event payload time =>
    match s.file.append lib plan event payload time with
    | .ok file => { s with file := file }
    | .error _ => s
  | .tear => { s with file := { s.file with torn := true } }

/-- A whole run. -/
def run (calls : List LedgerCall) : LedgerTask := calls.foldl (step lib) {}

end LedgerTask
end VeriCCL
