import VeriCCL.VersionLedger

/-! # Version schedules and their replay

`semantics/version_schedule.py`.  A schedule says which state versions exist at the
start, which timed operations make new ones, and which versions are the outputs.
`replayVersionSchedule` runs the operations on a ledger in the order of their start
times and then checks that the outputs cover what the collective asks for. -/
namespace VeriCCL

/-- `OutputBinding`. -/
structure OutputBinding where
  rank : ℕ
  offsetBytes : ℕ
  stateId : String
  deriving DecidableEq

/-- The kinds of version operations. -/
inductive VersionKind where
  | copy
  | reduce
  | release
  deriving DecidableEq

/-- `VersionOperation`.  What its constructor checks are fields. -/
structure VersionOperation where
  operationId : String
  kind : VersionKind
  inputStates : List String
  outputState : Option String
  destination : Option BufferRegion
  startUs : ℚ
  endUs : ℚ
  stageId : ℕ
  dependencies : List String := []
  participants : List ℕ := []
  inputs_length : inputStates.length = if kind = .reduce then 2 else 1
  inputs_nodup : inputStates.Nodup
  start_nonneg : 0 ≤ startUs
  interval : startUs ≤ endUs
  release_shape : kind = .release → outputState = none ∧ destination = none
  write_shape : kind ≠ .release → outputState.isSome = true ∧ destination.isSome = true
  deriving DecidableEq

/-- `VersionSchedule`. -/
structure VersionSchedule where
  rankCount : ℕ
  inputBytes : ℕ
  sliceSizeBytes : ℕ
  stageCount : ℕ
  initialStates : List StateVersion
  operations : List VersionOperation
  outputs : List OutputBinding
  ids_nodup : (operations.map (·.operationId)).Nodup
  stages : ∀ op ∈ operations, op.stageId < stageCount

/-- Intervals by their ends. -/
def sortIntervals (intervals : List (ℕ × ℕ)) : List (ℕ × ℕ) :=
  intervals.insertionSort (fun a b => a.1 < b.1 ∨ (a.1 = b.1 ∧ a.2 ≤ b.2))

/-- `_check_interval_cover`. -/
def checkIntervalCover (intervals : List (ℕ × ℕ)) (start stop : ℕ) (label : String) :
    Except Fault Unit := do
  let cursor ← (sortIntervals intervals).foldlM (fun cursor e => do
    Checked.ensure (e.1 = cursor ∧ e.1 < e.2 ∧ e.2 ≤ stop)
      (Fault.semantic (label ++ " has a gap, duplicate or out-of-range interval"))
    return e.2) start
  Checked.ensure (cursor = stop) (.semantic (label ++ " is incomplete"))

/-- The ranks whose inputs the collective reads. -/
def sourceRanks (spec : CollectiveSpec) (rankCount : ℕ) : List ℕ :=
  if spec.kind = .broadcast then spec.root.toList else List.range rankCount

/-- An initial state must be a slice of its own rank's input. -/
def addInitialState (schedule : VersionSchedule) (inputs : ResolvedInput) (ledger : VersionLedger)
    (state : StateVersion) : Except Fault VersionLedger := do
  Checked.ensure (state.rank ∈ sourceRanks inputs.collective schedule.rankCount ∧ state.readyUs = 0 ∧
      state.sources = [state.rank])
    (.semantic "initial state must contain only its rank's original input")
  Checked.ensure (state.logicalEnd - state.logicalStart = schedule.sliceSizeBytes ∧
      state.logicalStart % schedule.sliceSizeBytes = 0)
    (.semantic "initial state does not match the resolved slice partition")
  ledger.addInitial state

/-- `_initial_states`. -/
def initialLedger (schedule : VersionSchedule) (inputs : ResolvedInput) (ledger : VersionLedger) :
    Except Fault VersionLedger := do
  let filled ← schedule.initialStates.foldlM (addInitialState schedule inputs) ledger
  forM (sourceRanks inputs.collective schedule.rankCount) fun rank =>
    checkIntervalCover ((schedule.initialStates.filter fun state => state.rank = rank).map
      fun state => (state.logicalStart, state.logicalEnd)) 0 schedule.inputBytes
      ("initial input for rank " ++ toString rank)
  return filled

/-- A part of a rank's output: where it is, and which original bytes it sums. -/
structure Segment where
  rank : ℕ
  start : ℕ
  stop : ℕ
  logicalStart : ℕ
  sources : Finset ℕ
  deriving DecidableEq

/-- `_expected_segments`. -/
def expectedSegments (spec : CollectiveSpec) (ranks size : ℕ) : Except Fault (List Segment) :=
  let all := Finset.range ranks
  match spec.kind with
  | .broadcast => .ok ((List.range ranks).map fun rank => ⟨rank, 0, size, 0, spec.root.toFinset⟩)
  | .reduce => .ok (spec.root.toList.map fun rank => ⟨rank, 0, size, 0, all⟩)
  | .allReduce => .ok ((List.range ranks).map fun rank => ⟨rank, 0, size, 0, all⟩)
  | .allGather => .ok ((List.range ranks).flatMap fun rank => (List.range ranks).map fun source =>
      ⟨rank, source * size, (source + 1) * size, 0, {source}⟩)
  | .reduceScatter => do
    Checked.ensure (size % ranks = 0)
      (.semantic "partitioned collective input must divide by rank count")
    return (List.range ranks).map fun rank =>
      ⟨rank, 0, size / ranks, rank * (size / ranks), all⟩
  | .allToAll => do
    Checked.ensure (size % ranks = 0)
      (.semantic "partitioned collective input must divide by rank count")
    return (List.range ranks).flatMap fun rank => (List.range ranks).map fun source =>
      ⟨rank, source * (size / ranks), (source + 1) * (size / ranks), rank * (size / ranks), {source}⟩
  | .scatter | .gather => .error (.semantic "unsupported external output semantics")

/-- The segment of a rank that a byte may be in: the last one that starts at or before it. -/
def segmentAt (expected : List Segment) (rank offset : ℕ) : Option ℕ :=
  let mine := (expected.zipIdx.filter fun e => e.1.rank = rank).map fun e => (e.1.start, e.2)
  let count := (mine.takeWhile fun e =>
    e.1 < offset ∨ (e.1 = offset ∧ e.2 ≤ expected.length)).length
  (mine[count - 1]?).filter (fun _ => 0 < count) |>.map (·.2)

/-- The intervals found so far in each segment, and the states used. -/
structure Coverage where
  intervals : ℕ → List (ℕ × ℕ)
  used : List String

/-- One output must lie in its segment and hold the right contributions. -/
def checkOutput (expected : List Segment) (ledger : VersionLedger) (atUs : ℚ) (coverage : Coverage)
    (output : OutputBinding) : Except Fault Coverage := do
  let state ← ledger.readable output.stateId atUs
  Checked.ensure (output.stateId ∉ coverage.used ∧ state.rank = output.rank)
    (.semantic "duplicate output state or wrong output rank")
  let outEnd := output.offsetBytes + state.logicalEnd - state.logicalStart
  let index ← Checked.required (segmentAt expected output.rank output.offsetBytes)
    (.semantic "output range does not belong to an expected result segment")
  let segment ← Checked.required expected[index]? (.index "expected")
  Checked.ensure (outEnd ≤ segment.stop)
    (.semantic "output range does not belong to an expected result segment")
  Checked.ensure ((state.logicalStart : ℤ) =
      segment.logicalStart + output.offsetBytes - segment.start ∧
      state.sources.toFinset = segment.sources)
    (.semantic "output has missing, repeated or wrong original contributions")
  return {
    intervals := Function.update coverage.intervals index
      (coverage.intervals index ++ [(output.offsetBytes, outEnd)])
    used := output.stateId :: coverage.used }

/-- `check_version_outputs`. -/
def checkVersionOutputs (spec : CollectiveSpec) (ranks inputBytes : ℕ)
    (outputs : List OutputBinding) (ledger : VersionLedger) (atUs : ℚ) : Except Fault (Dict ℕ ℕ) := do
  let expected ← expectedSegments spec ranks inputBytes
  let coverage ← outputs.foldlM (checkOutput expected ledger atUs) ⟨fun _ => [], []⟩
  forM expected.zipIdx fun e =>
    checkIntervalCover (coverage.intervals e.2) e.1.start e.1.stop
      ("output for rank " ++ toString e.1.rank)
  return (List.range ranks).map fun rank =>
    (rank, ((expected.filter fun segment => segment.rank = rank).map fun segment =>
      segment.stop - segment.start).sum)

/-- By start, then end, then identity. -/
def replayLe (a b : VersionOperation) : Prop :=
  a.startUs < b.startUs ∨ (a.startUs = b.startUs ∧
    (a.endUs < b.endUs ∨ (a.endUs = b.endUs ∧ a.operationId ≤ b.operationId)))

instance (a b : VersionOperation) : Decidable (replayLe a b) := inferInstanceAs (Decidable (_ ∨ _))

/-- Operations in the order of the replay. -/
def replayOrder (operations : List VersionOperation) : List VersionOperation :=
  operations.insertionSort replayLe

/-- The ledger and the end times of the operations that were replayed. -/
structure Replay where
  ledger : VersionLedger
  finished : Dict String ℚ

/-- One input of an operation must be reachable from its destination. -/
def checkInput (inputs : ResolvedInput) (constraints : ConstraintSet) (op : VersionOperation)
    (destination : BufferRegion) (state : StateVersion) : Except Fault Unit := do
  Checked.ensure (op.participants = [] ∨
      (state.rank ∈ op.participants ∧ destination.rank ∈ op.participants))
    (.semantic "operation uses a GPU outside its explicit participant group")
  if state.rank = destination.rank then .ok ()
  else do
    Checked.ensure ((state.rank, destination.rank) ∈ inputs.directedLinks)
      (.semantic "operation uses an absent directed link")
    let allowed ← constraints.allows state.contributors state.rank destination.rank op.stageId
    Checked.ensure (allowed = true)
      (.semantic "operation violates a source-range directed-edge constraint")

/-- The ledger after a write operation. -/
def writeVersion (ledger : VersionLedger) (op : VersionOperation) (destination : BufferRegion) :
    Except Fault VersionLedger :=
  match op.kind, op.inputStates, op.outputState with
  | .reduce, [left, right], some output =>
    ledger.reduce left right output destination op.startUs op.endUs
  | _, [source], some output => ledger.copy source output destination op.startUs op.endUs
  | _, _, _ => .error (.semantic "write operation needs output state and storage")

/-- One operation on the ledger. -/
def runOperation (schedule : VersionSchedule) (inputs : ResolvedInput) (constraints : ConstraintSet)
    (ledger : VersionLedger) (op : VersionOperation) (states : List StateVersion) :
    Except Fault VersionLedger :=
  if op.kind = .release then do
    let state ← Checked.required states.head? (.index "states")
    ledger.release state.stateId op.startUs
  else do
    let destination ← Checked.required op.destination (.missing "destination")
    Checked.ensure (destination.rank < schedule.rankCount)
      (.semantic "destination rank is outside the group")
    forM states (checkInput inputs constraints op destination)
    writeVersion ledger op destination

/-- The checks and the effect of one operation. -/
def replayBody (schedule : VersionSchedule) (inputs : ResolvedInput) (constraints : ConstraintSet)
    (replay : Replay) (op : VersionOperation) : Except Fault VersionLedger := do
  forM op.dependencies fun dependency =>
    Checked.ensure (∃ endUs ∈ replay.finished.get? dependency, endUs ≤ op.startUs)
      (Fault.semantic "explicit dependency is not complete")
  let states ← op.inputStates.mapM fun key => replay.ledger.readable key op.startUs
  runOperation schedule inputs constraints replay.ledger op states

/-- Faults of an operation name it. -/
def nameFault (operationId : String) : Fault → Fault
  | .semantic message => .semantic ("operation " ++ operationId ++ ": " ++ message)
  | fault => fault

/-- One turn of the replay. -/
def replayOperation (schedule : VersionSchedule) (inputs : ResolvedInput)
    (constraints : ConstraintSet) (replay : Replay) (op : VersionOperation) :
    Except Fault Replay :=
  match replayBody schedule inputs constraints replay op with
  | .error fault => .error (nameFault op.operationId fault)
  | .ok ledger => .ok ⟨ledger, replay.finished.set op.operationId op.endUs⟩

/-- What a replay reports. -/
structure ReplayEvidence where
  outputBytes : Dict ℕ ℕ
  stateVersions : ℕ
  operations : ℕ
  deriving DecidableEq

/-- `replay_version_schedule`. -/
def replayVersionSchedule (schedule : VersionSchedule) (inputs : ResolvedInput) :
    Except Fault (VersionLedger × ReplayEvidence) := do
  Checked.ensure (schedule.rankCount = inputs.rankCount ∧
      schedule.inputBytes = inputs.totalSizeBytes ∧
      schedule.sliceSizeBytes = inputs.sliceSizeBytes)
    (.semantic "schedule dimensions differ from the resolved partition")
  Checked.ensure (∀ count ∈ inputs.stageNum, schedule.stageCount = count)
    (.semantic "schedule does not preserve fixed stage count")
  let empty : VersionLedger := {
    scratchBudgets := (List.range schedule.rankCount).map fun rank =>
      (rank, inputs.scratchBytesPerRank) }
  let ledger ← initialLedger schedule inputs empty
  let constraints ← bindConstraints inputs
  let replay ← (replayOrder schedule.operations).foldlM
    (replayOperation schedule inputs constraints) ⟨ledger, []⟩
  let atUs := replay.finished.values.foldl max 0
  let outputBytes ← checkVersionOutputs inputs.collective schedule.rankCount schedule.inputBytes
    schedule.outputs replay.ledger atUs
  return (replay.ledger, ⟨outputBytes, replay.ledger.states.length, schedule.operations.length⟩)

end VeriCCL
