import VeriCCL.BuildStorage

/-! # Schedules from the history

`_network` of `tuning/strategies.py` reads the transfers of a storage plan, and `adapt_schedule`
of `solver/history_index.py` maps the transfers of a stored schedule to another number of slices
and to other ranks.  Only what the adaptation reads of a stored schedule is kept here. -/
namespace VeriCCL

/-! ## The transfers of a plan -/

namespace StoragePlan
variable (plan : StoragePlan)

/-- `ops`. -/
def operations : Dict String Instruction := indexBy (·.operationId) plan.instructions

/-- `network_ids`. -/
def networkIds : List String :=
  (plan.operations.filter fun e => e.2.kind = .send ∨ e.2.kind = .rrc).map (·.1)

/-- `storage.values[state_id]`. -/
def value (stateId : String) : Except Fault Value :=
  Checked.required (plan.values.get? stateId) (.missing stateId)

/-- `upstream`: the transfers that made a state, through copies. -/
def upstream : ℕ → String → Except Fault (Finset String)
  | 0, _ => .error (.semantic "out of fuel")
  | fuel + 1, stateId => do
    let value ← plan.value stateId
    match value.producer with
    | none => return ∅
    | some producer =>
      if producer ∈ plan.networkIds then return {producer}
      else do
        let op ← Checked.required (plan.operations.get? producer) (.missing producer)
        let sets ← op.inputs.mapM (upstream fuel)
        return sets.foldl (· ∪ ·) ∅

/-- A transfer as an operation of a candidate; `startTimes` are those of the prediction. -/
def networkOperation (startTimes : String → Option ℚ) (op : Instruction) : Except Fault NetworkOperation := do
  let first ← Checked.required op.inputs.head? (.index "inputs")
  let source ← plan.value first
  let target ← plan.value op.output
  let sets ← op.inputs.mapM (plan.upstream (plan.instructions.length + 1))
  return {
    operationId := op.operationId
    kind := op.kind
    srcRank := source.rank
    dstRank := op.rank
    channel := op.channel
    stageId := op.stageId
    contributors := source.contributors
    targetContributors := target.contributors
    participants := op.participants
    dependencies := sets.foldl (· ∪ ·) ∅
    referenceDependencies := ∅
    priorityTime := (startTimes op.operationId).getD op.priorityTime }

/-- `_network`. -/
def network (startTimes : String → Option ℚ) : Except Fault (List NetworkOperation) :=
  (plan.operations.values.filter fun op => op.kind = .send ∨ op.kind = .rrc).mapM
    (plan.networkOperation startTimes)

end StoragePlan

/-! ## Adaptation -/

/-- `NetworkCandidate`. -/
structure NetworkCandidate where
  rankCount : ℕ
  sliceCount : ℕ
  sliceSizeBytes : ℕ
  operations : List NetworkOperation
  origin : String
  deriving DecidableEq

/-- `ScheduleHit`: a stored schedule and the ranks that its ranks are mapped to. -/
structure ScheduleHit where
  sliceCount : ℕ
  operations : List NetworkOperation
  rankMapping : Dict ℕ ℕ

namespace ScheduleHit
variable (hit : ScheduleHit) (inputs : ResolvedInput)

/-- `old_position`: the old slice whose transfers carry a new slice. -/
def oldPosition (position : ℕ) : Except Fault ℕ :=
  let oldN := hit.sliceCount
  let newN := inputs.sliceCount
  if inputs.collective.kind = .allToAll ∨ inputs.collective.kind = .reduceScatter then do
    -- Destination blocks remain owned by their mapped rank.
    let perNew := newN / inputs.rankCount
    let perOld := oldN / inputs.rankCount
    let entry ← Checked.required (hit.rankMapping.find? fun e => e.2 = position / perNew)
      (.semantic "StopIteration")
    return entry.1 * perOld + position % perNew * perOld / perNew
  else return position * oldN / newN

/-- `targets`: the new slices of every old slice that has some. -/
def targets : Except Fault (Dict ℕ (List ℕ)) :=
  (List.range inputs.sliceCount).foldlM (fun targets position => do
    let old ← hit.oldPosition inputs position
    return targets.set old ((targets.get? old).getD [] ++ [position])) []

/-- The new slices that an operation is copied for. -/
def copies (targets : Dict ℕ (List ℕ)) (op : NetworkOperation) : Except Fault (String × List ℕ) := do
  Checked.ensure ((op.contributors.image (· % hit.sliceCount)).card = 1)
    (.semantic "history operation mixes logical slice positions")
  return (op.operationId,
    (targets.get? (logicalPosition op.contributors hit.sliceCount)).getD [])

/-- `hit.rank_mapping[rank]`. -/
def rank (r : ℕ) : Except Fault ℕ := Checked.required (hit.rankMapping.get? r) (.missing (toString r))

/-- `contributors`: the same ranks' contributions at a new slice. -/
def contributors (position : ℕ) (values : Finset ℕ) : Except Fault (Finset ℕ) := do
  let mapped ← (values.sort (· ≤ ·)).mapM fun value => do
    let rank ← hit.rank (value / hit.sliceCount)
    return rank * inputs.sliceCount + position
  return mapped.toFinset

/-- `identifier`. -/
def identifier (key : String) (position : ℕ) : String := "history-" ++ key ++ "-p" ++ toString position

/-- The copies of a dependency that a copy waits for. -/
def copiedDependencies (cloned : Dict String (List ℕ)) (position : ℕ) (dependency : String) :
    List String :=
  let choices := (cloned.get? dependency).getD []
  (if position ∈ choices then [position] else choices).map (identifier dependency)

/-- An operation at a new slice. -/
def copy (cloned : Dict String (List ℕ)) (op : NetworkOperation) (position : ℕ) :
    Except Fault NetworkOperation := do
  let src ← hit.rank op.srcRank
  let dst ← hit.rank op.dstRank
  let contributors ← hit.contributors inputs position op.contributors
  let target ← hit.contributors inputs position op.targetContributors
  let participants ← op.participants.mapM hit.rank
  return {
    operationId := identifier op.operationId position
    kind := op.kind
    srcRank := src
    dstRank := dst
    channel := op.channel
    stageId := op.stageId
    contributors := contributors
    targetContributors := target
    participants := participants
    dependencies :=
      ((op.dependencies.sort (· ≤ ·)).flatMap (copiedDependencies cloned position)).toFinset
    referenceDependencies := ∅
    priorityTime := 0 }

/-- `adapt_schedule`. -/
def adapt : Except Fault NetworkCandidate := do
  let targets ← hit.targets inputs
  let copies ← hit.operations.mapM (hit.copies targets)
  let cloned := Dict.ofList copies
  let operations ← hit.operations.mapM fun op => do
    let positions ← Checked.required (cloned.get? op.operationId) (.missing op.operationId)
    positions.mapM (hit.copy inputs cloned op)
  return {
    rankCount := inputs.rankCount
    sliceCount := inputs.sliceCount
    sliceSizeBytes := inputs.sliceSizeBytes
    operations := operations.flatten
    origin := "history" }

end ScheduleHit

end VeriCCL
