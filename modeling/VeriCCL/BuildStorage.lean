import VeriCCL.RouteColumns
import VeriCCL.StorageOrder
import VeriCCL.VersionSchedule

/-! # Building the storage plan

`build_storage_plan` of `xml/v5_buffers.py`.  Every transfer makes a new state version at its
destination (`placeOperation`), every output slot is bound to a version (`bindOutput`), copies
wait for the readers of what they overwrite (`protect`), and versions that are neither inputs
nor outputs get scratch slots (`allocate`).  A frozen set is iterated as a sorted list. -/
namespace VeriCCL

/-! ## Addresses in bytes -/

/-- `base` of `canonical_region`, for buffers that share their storage. -/
def inplaceBase (inputs : ResolvedInput) (address : Address) : ℕ :=
  match inputs.collective.kind, address.buffer with
  | .allGather, .i => address.rank * inputs.sliceCount
  | .reduceScatter, .o => address.rank * (inputs.sliceCount / inputs.rankCount)
  | _, _ => 0

/-- A slice of a buffer, as a region. -/
def sliceRegion (inputs : ResolvedInput) (rank : ℕ) (bufferId : String) (offset : ℕ)
    (kind : StorageKind) : BufferRegion where
  rank := rank
  bufferId := bufferId
  offset := offset * inputs.sliceSizeBytes
  size := inputs.sliceSizeBytes
  kind := kind
  size_pos := inputs.slice_pos

/-- `canonical_region`. -/
def canonicalRegion (inputs : ResolvedInput) (address : Address) : BufferRegion :=
  let region := sliceRegion inputs address.rank
  match address.buffer, inputs.collective.inplace with
  | .s, _ => region "scratch" address.offset .scratch
  | .i, false => region "input" address.offset .input
  | .o, false => region "output" address.offset .output
  | _, true => region "inplace" (inplaceBase inputs address + address.offset) .data

/-! ## States and the operations that make them -/

/-- `'input-r%d-s%d'`. -/
def inputId (rank logical : ℕ) : String := "input-r" ++ toString rank ++ "-s" ++ toString logical

/-- The states that are there at the start. -/
def initialValues (inputs : ResolvedInput) : List Value :=
  (sourceRanks inputs.collective inputs.rankCount).flatMap fun rank =>
    (List.range inputs.sliceCount).map fun logical =>
      { stateId := inputId rank logical
        rank := rank
        logicalPosition := logical
        contributors := {rank * inputs.sliceCount + logical}
        producer := none }

/-- `min(contributors) % n`. -/
def logicalPosition (contributors : Finset ℕ) (n : ℕ) : ℕ := contributors.min.untopD 0 % n

/-- `max(enumerate(items), key=lambda pair: (size(pair[1]), pair[0]))[1]`. -/
def largest {α : Type} (size : α → ℕ) (items : List α) : Option α :=
  (items.zipIdx.argmax fun e => toLex (size e.1, e.2)).map (·.1)

/-- The locals of the loop over the operations: `states`, the values of `by_position` in the
order of their making, `instructions` and `omitted`. -/
structure StatePlacement where
  states : Dict String Value
  made : List Value
  instructions : List Instruction
  omitted : List (String × String)

/-- `by_position[rank, logical]`. -/
def StatePlacement.byPosition (p : StatePlacement) (rank logical : ℕ) : List Value :=
  p.made.filter fun value => value.rank = rank ∧ value.logicalPosition = logical

/-- `matches[-1]` of the states with given contributors. -/
def StatePlacement.latest (p : StatePlacement) (rank logical : ℕ) (contributors : Finset ℕ) : Option Value :=
  ((p.byPosition rank logical).filter (·.contributors = contributors)).getLast?

/-- What the loop starts with. -/
def StatePlacement.start (inputs : ResolvedInput) : StatePlacement where
  states := Dict.ofList ((initialValues inputs).map fun value => (value.stateId, value))
  made := initialValues inputs
  instructions := []
  omitted := []

/-- The state that a reduction adds to, if the operation is one. -/
def StatePlacement.accumulator (p : StatePlacement) (op : NetworkOperation) (logical : ℕ) :
    Except Fault (List Value) :=
  match op.kind with
  | .rrc => do
    let possible := (p.byPosition op.dstRank logical).filter fun value =>
      Disjoint value.contributors op.contributors ∧ value.contributors ⊆ op.targetContributors
    let value ← Checked.required (largest (·.contributors.card) possible)
      (.semantic "network reduction has no disjoint destination state")
    return [value]
  | .send => return []
  | _ => .error (.semantic "network operation must be send or rrc")

section Place
variable (context : LoweringContext) (constraints : ConstraintSet) (byId : Dict String NetworkOperation)

/-- The checks of an operation before its state is looked for. -/
def admitOperation (op : NetworkOperation) : Except Fault Unit := do
  let inputs := context.inputs
  Checked.ensure (op.contributors ≠ ∅ ∧ (op.contributors.image (· % inputs.sliceCount)).card = 1)
    (.semantic "a physical transfer must carry one logical slice position")
  let edge ← context.topology.link op.srcRank op.dstRank
  Checked.ensure (0 ≤ op.channel ∧ op.channel < min inputs.maxChannels edge.maxChannels)
    (.semantic "candidate channel is outside the selected topology limit")
  Checked.ensure (op.srcRank ∈ op.participants ∧ op.dstRank ∈ op.participants)
    (.semantic "candidate uses a GPU outside its declared role group")
  let allowed ← constraints.allows (sourceRanges inputs op.contributors) op.srcRank op.dstRank op.stageId
  Checked.ensure (allowed = true)
    (.semantic "candidate violates a source-byte directed-edge constraint")

/-- The reference dependencies that are not dependencies already. -/
def openReferences (op : NetworkOperation) (dependencies : Finset String) : Finset String :=
  op.referenceDependencies \ dependencies

/-- Those of them that are on a rank of the operation. -/
def sharedReferences (op : NetworkOperation) (dependencies : Finset String) : Finset String :=
  (openReferences op dependencies).filter fun key => ∃ prior ∈ byId.get? key, op.sharesRank prior

/-- The producers of the states that are read. -/
def producers (read : List Value) : Finset String := (read.filterMap (·.producer)).toFinset

/-- The state that an operation makes. -/
def NetworkOperation.makes (op : NetworkOperation) (logical : ℕ) (accumulator : List Value) : Value where
  stateId := "state-" ++ op.operationId
  rank := op.dstRank
  logicalPosition := logical
  contributors := accumulator.foldl (fun combined value => combined ∪ value.contributors) op.contributors
  producer := some op.operationId

/-- One turn of the loop over the operations. -/
def placeOperation (p : StatePlacement) (op : NetworkOperation) : Except Fault StatePlacement := do
  admitOperation context constraints op
  let logical := logicalPosition op.contributors context.inputs.sliceCount
  let source ← Checked.required (p.latest op.srcRank logical op.contributors)
    (.semantic ("network source state is unavailable: " ++ op.operationId))
  let accumulator ← p.accumulator op logical
  let read := source :: accumulator
  let dependencies := op.dependencies ∪ producers read
  Checked.ensure (∀ key ∈ openReferences op dependencies, key ∈ byId.keys)
    (.semantic "candidate has an unknown reference dependency")
  let shared := sharedReferences byId op dependencies
  let value := op.makes logical accumulator
  return {
    states := p.states.set value.stateId value
    made := p.made ++ [value]
    instructions := p.instructions ++ [{
      operationId := op.operationId
      kind := op.kind
      inputs := read.map (·.stateId)
      output := value.stateId
      rank := op.dstRank
      peer := op.srcRank
      channel := op.channel
      stageId := op.stageId
      participants := op.participants
      dependencies := dependencies ∪ shared
      priorityTime := op.priorityTime }]
    omitted := p.omitted ++
      ((openReferences op dependencies \ shared).sort (· ≤ ·)).map fun key => (key, op.operationId) }

end Place

/-! ## Outputs -/

/-- The locals of the loop over the output slots. -/
structure Binding where
  states : Dict String Value
  addresses : Dict String Address
  outputs : Dict OutputSlot String
  directOutputs : Dict String Address
  instructions : List Instruction

/-- `'output-copy-r%d-o%d'`. -/
def outputCopyId (slot : OutputSlot) : String :=
  "output-copy-r" ++ toString slot.rank ++ "-o" ++ toString slot.offset

/-- `sorted(expected.items())`: no two slots are equal. -/
def sortSlots (expected : Dict OutputSlot (Finset ℕ)) : List (OutputSlot × Finset ℕ) :=
  expected.insertionSort fun a b => toLex (a.1.rank, a.1.offset) ≤ toLex (b.1.rank, b.1.offset)

/-- The copy of a state to its output slot. -/
def copyToOutput (slot : OutputSlot) (value : Value) (stage : ℕ) (priority : ℚ) : Instruction where
  operationId := outputCopyId slot
  kind := .copy
  inputs := [value.stateId]
  output := "state-" ++ outputCopyId slot
  rank := slot.rank
  peer := -1
  channel := -1
  stageId := stage
  participants := [slot.rank]
  dependencies := value.producer.toFinset
  priorityTime := priority

section Outputs
variable (inputs : ResolvedInput) (placed : StatePlacement) (stage : ℕ) (priority : ℚ)

/-- One turn of the loop over the output slots. -/
def bindOutput (b : Binding) (entry : OutputSlot × Finset ℕ) : Except Fault Binding := do
  let slot := entry.1
  let value ← Checked.required
    (placed.latest slot.rank (logicalPosition entry.2 inputs.sliceCount) entry.2)
    (.semantic "candidate leaves a required collective output unavailable")
  let target : Address := ⟨slot.rank, .o, slot.offset⟩
  if ∃ address ∈ b.addresses.get? value.stateId,
      canonicalRegion inputs address = canonicalRegion inputs target then
    return { b with outputs := b.outputs.set slot value.stateId }
  else if value.producer.isSome ∧ inputs.collective.inplace = false then
    return { b with
      directOutputs := b.directOutputs.set value.stateId target
      outputs := b.outputs.set slot value.stateId }
  else
    let copy := copyToOutput slot value stage priority
    return { b with
      states := b.states.set copy.output { value with stateId := copy.output, producer := some copy.operationId }
      addresses := b.addresses.set copy.output target
      instructions := b.instructions ++ [copy]
      outputs := b.outputs.set slot copy.output }

/-- What the loop over the output slots starts with. -/
def Binding.start : Binding where
  states := placed.states
  addresses := (initialValues inputs).map fun value => (value.stateId, ⟨value.rank, .i, value.logicalPosition⟩)
  outputs := []
  directOutputs := []
  instructions := placed.instructions

end Outputs

/-- `readers[state_id]`. -/
def readersOf (instructions : List Instruction) (stateId : String) : Finset String :=
  ((instructions.filter fun op => stateId ∈ op.inputs).map (·.operationId)).toFinset

/-- A copy waits for all who read an initial state in the storage that it overwrites. -/
def protect (inputs : ResolvedInput) (b : Binding) (op : Instruction) : Except Fault Instruction :=
  if op.kind = .copy then do
    let address ← Checked.required (b.addresses.get? op.output) (.missing op.output)
    let target := canonicalRegion inputs address
    let overwritten := (initialValues inputs).filter fun value =>
      let region := canonicalRegion inputs ⟨value.rank, .i, value.logicalPosition⟩
      (region.rank = target.rank ∧ region.bufferId = target.bufferId ∧ region.offset = target.offset) ∧
        target.overlaps region
    let readers := (overwritten.map fun value => readersOf b.instructions value.stateId).foldl (· ∪ ·) ∅
    return { op with dependencies := op.dependencies ∪ (readers \ {op.operationId}) }
  else return op

/-! ## The order of instructions -/

/-- The states that need a scratch slot. -/
def scratchStates (b : Binding) : List String :=
  b.states.keys.filter fun key => (∃ value ∈ b.states.get? key, value.producer.isSome) ∧
    key ∉ b.directOutputs.keys ∧ key ∉ b.addresses.keys

section Tight
variable (scratch : List String)

/-- The least operation of those that are ready, where scratch storage is tight: the one that
frees most slots first. -/
def tightChoice (remaining : String → ℕ) (ready : List Instruction) : Option Instruction :=
  ready.argmin fun op =>
    toLex (OrderDual.toDual (op.inputs.countP fun key => key ∈ scratch ∧ remaining key = 1), op.priority)

/-- The loop that orders the operations where scratch storage is tight. -/
def tightOrder : ℕ → List Instruction → (String → ℕ) → List Instruction → Except Fault (List Instruction)
  | _, [], _, ordered => .ok ordered
  | 0, _ :: _, _, _ => .error (.semantic "storage and reference orders contain a dependency cycle")
  | fuel + 1, pending, remaining, ordered => do
    let ready := pending.filter fun op => ∀ key ∈ op.dependencies, key ∈ ordered.map (·.operationId)
    let op ← Checked.required (tightChoice scratch remaining ready)
      (.semantic "storage and reference orders contain a dependency cycle")
    tightOrder fuel (pending.erase op)
      (op.inputs.foldl (fun left key => Function.update left key (left key - 1)) remaining) (ordered ++ [op])

end Tight

/-- The order of the instructions. -/
def orderInstructions (capacity : ℕ) (b : Binding) (instructions : List Instruction) :
    Except Fault (List Instruction) :=
  let scratch := scratchStates b
  if capacity < max 1 scratch.length then
    let pending := (instructionById instructions).values
    tightOrder scratch pending.length pending
      (fun key => (readersOf b.instructions key).card) []
  else storageOrder instructions

/-! ## Scratch slots -/

/-- The locals of the loop that allocates scratch slots. -/
structure Allocation where
  addresses : Dict String Address
  ancestors : Dict String (Finset String)
  slots : ℕ → Dict ℕ String
  reuse : List Reuse
  instructions : List Instruction

/-- A slot that an operation may take: whether its readers are not yet known to be done, its
index, the state in it and the readers of that state. -/
structure SlotChoice where
  late : Bool
  index : ℕ
  prior : String
  previousReaders : Finset String

section Allocate
variable (b : Binding) (capacity : ℕ) (position : String → ℕ)

/-- `available`. -/
def availableSlots (pool : Dict ℕ String) (op : Instruction) (upstream : Finset String) : List SlotChoice :=
  pool.filterMap fun e =>
    let consumers := readersOf b.instructions e.2
    let previous := if e.2 ∈ op.inputs ∧ op.kind = .rrc then consumers \ {op.operationId} else consumers
    if ∀ reader ∈ previous, position reader < position op.operationId then
      some ⟨decide (¬ previous ⊆ upstream), e.1, e.2, previous⟩
    else none

/-- `min(choices, key=lambda choice: (choice[0], choice[1]))`. -/
def leastChoice (choices : List SlotChoice) : Option SlotChoice :=
  choices.argmin fun choice => toLex (choice.late.toNat, choice.index)

/-- The slot of a state, and the operations that must be done before. -/
def takeSlot (pool : Dict ℕ String) (op : Instruction) (upstream : Finset String) :
    Except Fault (ℕ × Option SlotChoice) :=
  let available := availableSlots b position pool op upstream
  let causal := available.filter fun choice => !choice.late
  if causal ≠ [] ∨ (capacity ≤ pool.length ∧ available ≠ []) then do
    let choice ← Checked.required (leastChoice (if causal = [] then available else causal))
      (.index "available")
    return (choice.index, some choice)
  else if pool.length < capacity then .ok (pool.length, none)
  else .error (.semantic "scratch storage budget cannot fit this execution order")

/-- The ancestors of direct predecessors, and these. -/
def withAncestors (ancestors : Dict String (Finset String)) (dependencies : Finset String) :
    Except Fault (Finset String) := do
  let sets ← (dependencies.sort (· ≤ ·)).mapM fun key => Checked.required (ancestors.get? key) (.missing key)
  return sets.foldl (· ∪ ·) dependencies

/-- One turn of the loop that allocates scratch slots. -/
def allocate (a : Allocation) (op : Instruction) : Except Fault Allocation := do
  let upstream ← withAncestors a.ancestors op.dependencies
  let finish (addresses : Dict String Address) (slots : ℕ → Dict ℕ String) (reuse : List Reuse)
      (dependencies : Finset String) : Except Fault Allocation := do
    let all ← withAncestors a.ancestors dependencies
    return {
      addresses := addresses
      ancestors := a.ancestors.set op.operationId all
      slots := slots
      reuse := reuse
      instructions := a.instructions ++ [{ op with dependencies := dependencies }] }
  match b.directOutputs.get? op.output with
  | some target => finish (a.addresses.set op.output target) a.slots a.reuse op.dependencies
  | none =>
    if op.output ∈ a.addresses.keys then finish a.addresses a.slots a.reuse op.dependencies
    else do
      let (index, taken) ← takeSlot b capacity position (a.slots op.rank) op upstream
      finish (a.addresses.set op.output ⟨op.rank, .s, index⟩)
        (Function.update a.slots op.rank ((a.slots op.rank).set index op.output))
        (a.reuse ++ taken.toList.map fun choice =>
          ⟨op.operationId, choice.prior, op.output, choice.previousReaders, op.rank, index⟩)
        (op.dependencies ∪ taken.elim ∅ (·.previousReaders))

end Allocate

/-! ## The plan -/

/-- `max((op.stage_id for op in operations), default=0)`. -/
def lastStage (operations : List NetworkOperation) : ℕ := maxDefault 0 (operations.map (·.stageId))

/-- `build_storage_plan` of the operations that `normalize_network` gives. -/
def buildStoragePlan (context : LoweringContext) (candidate : List NetworkOperation) :
    Except Fault StoragePlan := do
  let inputs := context.inputs
  let operations ← networkOrder candidate
  let expected ← requiredOutputs inputs.collective inputs.rankCount inputs.sliceCount
  let constraints ← bindConstraints inputs
  let placed ← operations.foldlM (placeOperation context constraints (networkById operations))
    (StatePlacement.start inputs)
  let priority := maxDefault 0 (operations.map (·.priorityTime)) + 1
  let bound ← (sortSlots expected).foldlM (bindOutput inputs placed (lastStage operations) priority)
    (Binding.start inputs placed)
  let guarded ← bound.instructions.mapM (protect inputs bound)
  let capacity := inputs.scratchBytesPerRank / inputs.sliceSizeBytes
  let ordered ← orderInstructions capacity bound guarded
  let allocated ← ordered.foldlM
    (allocate bound capacity fun key => (ordered.map (·.operationId)).idxOf key)
    ⟨bound.addresses, [], fun _ => [], [], []⟩
  let ranks := List.range inputs.rankCount
  return {
    values := bound.states
    initialIds := (initialValues inputs).map (·.stateId)
    instructions := allocated.instructions
    addresses := allocated.addresses
    outputs := bound.outputs
    inputSlots := ranks.map fun rank => (rank, inputs.sliceCount)
    outputSlots := ranks.map fun rank => (rank, maxDefault 0
      ((expected.keys.filter fun slot => slot.rank = rank).map fun slot => slot.offset + 1))
    scratchSlots := ranks.map fun rank => (rank, (allocated.slots rank).length)
    reuse := allocated.reuse
    stageCount := (inputs.stageNum.filter (· ≠ 0)).getD (lastStage operations + 1)
    referenceOrdersOmitted := placed.omitted }

end VeriCCL
