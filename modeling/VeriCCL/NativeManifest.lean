import VeriCCL.BuildStorage

/-! # The geometry that the native runtime gets

`export_manifest` of `execution/manifest.py` writes the byte geometry of a checked program,
`WorkSpec::parse` of `runtime/execution/schedule_store.cc` reads it for one rank, and
`validate_buffers` of `runtime/execution/contract.h` looks at the pointers of a call.  The
native side computes with 64-bit words.  The identities of a manifest (schema, hashes, XML
path, tolerances) only make `parse` refuse more manifests and are left out. -/
namespace VeriCCL

/-- Descriptive record of a native step. -/
structure ManifestStep where
  tbId : ℕ
  stepIndex : ℕ
  kind : StepKind
  channel : ℤ
  sendPeer : ℤ
  recvPeer : ℤ
  operationId : String
  payloadBytes : ℕ
  deriving DecidableEq

/-- The geometry of one rank. -/
structure ManifestRank where
  rank : ℕ
  inputBytes : ℕ
  outputBytes : ℕ
  scratchBytes : ℕ
  inputOffsetBytes : ℕ
  outputOffsetBytes : ℕ
  inputReadOnly : Bool
  threadblocks : ℕ
  expectedSteps : ℕ
  traceRecords : ℕ
  steps : List ManifestStep
  deriving DecidableEq

/-- The exported document. -/
structure Manifest where
  collective : String
  datatype : String
  reductionOp : Option String
  root : Option ℕ
  inplace : Bool
  rankCount : ℕ
  inputSizeBytes : ℕ
  sliceBytes : ℕ
  runtimeBytes : ℕ
  channels : ℕ
  ranks : List ManifestRank
  tracePrefix : String
  deriving DecidableEq

/-! ## Export -/

/-- `native_steps` of one block: steps that only wait are folded into the next one. -/
def manifestSteps (sliceBytes : ℕ) (block : NativeBlock) : List ManifestStep :=
  (block.steps.filter fun step => step.kind ≠ .nop).zipIdx.map fun entry =>
    { tbId := block.tbId
      stepIndex := entry.2
      kind := entry.1.kind
      channel := block.channel
      sendPeer := block.sendPeer
      recvPeer := block.recvPeer
      operationId := entry.1.operationId
      payloadBytes := sliceBytes }

section Export

variable (program : NativeProgram) (inputs : ResolvedInput)
  (traceRecords : Option (Dict ℕ ℕ)) (tracePrefix : Option String)

/-- `capacity` of a rank whose blocks have `steps` native steps. -/
def traceCapacity (rank steps : ℕ) : Except Fault ℕ :=
  let refused := Fault.semantic "trace capacity must cover one complete invocation per rank"
  match traceRecords with
  | none => .ok 0
  | some records => do
    let capacity ← Checked.required (records.get? rank) refused
    Checked.ensure (max 1 steps ≤ capacity ∧ tracePrefix.isSome = true) refused
    return capacity

/-- One turn of the loop of `export_manifest`. -/
def manifestRank (rank : ℕ) : Except Fault ManifestRank := do
  let blocks := program.blocks.filter fun block => block.rank = rank
  let steps := blocks.flatMap (manifestSteps inputs.sliceSizeBytes)
  let capacity ← traceCapacity traceRecords tracePrefix rank steps.length
  let collective := inputs.collective
  let inputSlots ← Checked.required (program.inputSlots.get? rank) (.missing (toString rank))
  let outputSlots ← Checked.required (program.outputSlots.get? rank) (.missing (toString rank))
  let scratchSlots ← Checked.required (program.scratchSlots.get? rank) (.missing (toString rank))
  return {
    rank := rank
    inputBytes := inputSlots * inputs.sliceSizeBytes
    outputBytes := outputSlots * inputs.sliceSizeBytes
    scratchBytes := scratchSlots * inputs.sliceSizeBytes
    inputOffsetBytes :=
      if collective.inplace = true ∧ collective.kind.value = "allgather" then
        rank * inputs.totalSizeBytes
      else 0
    outputOffsetBytes :=
      if collective.inplace = true ∧ collective.kind.value = "reduce_scatter" then
        rank * (inputs.totalSizeBytes / inputs.rankCount)
      else 0
    inputReadOnly := !blocks.any fun block => block.steps.any fun step =>
      step.dst.any fun address => address.buffer = .i
    threadblocks := blocks.length
    expectedSteps := steps.length
    traceRecords := capacity
    steps := steps }

/-- `export_manifest`, for a bundle that can execute. -/
def exportManifest : Except Fault Manifest := do
  let ranks ← (List.range inputs.rankCount).mapM
    (manifestRank program inputs traceRecords tracePrefix)
  return {
    collective := inputs.collective.kind.value
    datatype := inputs.collective.datatype
    reductionOp := inputs.collective.reductionOp
    root := inputs.collective.root
    inplace := inputs.collective.inplace
    rankCount := inputs.rankCount
    inputSizeBytes := inputs.totalSizeBytes
    sliceBytes := inputs.sliceSizeBytes
    runtimeBytes := program.chunksPerLoop * inputs.sliceSizeBytes
    channels := program.channels
    ranks := ranks
    tracePrefix := tracePrefix.getD "" }

end Export

/-! ## The native reader -/

/-- `INT64_MAX`. -/
def int64Max : ℕ := 2 ^ 63 - 1

/-- `UINTPTR_MAX`. -/
def uintptrMax : UInt64 := 18446744073709551615

/-- `integer`. -/
def nativeInteger (value : ℤ) (name : String) (maximum : ℕ) : Except Fault UInt64 :=
  if value < 0 ∨ 2 ^ 64 ≤ value then
    .error (.semantic (name ++ " must be a nonnegative integer"))
  else if (maximum : ℤ) < value then .error (.semantic (name ++ " exceeds limit"))
  else .ok (UInt64.ofNat value.toNat)

/-- `multiply`. -/
def nativeMultiply (a b : UInt64) : Except Fault UInt64 :=
  if b ≠ 0 ∧ UInt64.ofNat int64Max / b < a then .error (.semantic "byte size overflow")
  else .ok (a * b)

/-- `BufferGeometry`. -/
structure BufferGeometry where
  inputBytes : UInt64
  outputBytes : UInt64
  outputOffset : UInt64
  inputOffset : UInt64
  inplace : Bool
  deriving DecidableEq

/-- `WorkSpec`, as read for one rank. -/
structure WorkSpec where
  ranks : Int32
  rank : Int32
  root : ℤ
  collective : String
  datatype : String
  reduction : String
  elementBytes : ℕ
  messageBytes : UInt64
  sliceBytes : UInt64
  runtimeBytes : UInt64
  channels : UInt64
  inplace : Bool
  buffers : BufferGeometry
  inputReadOnly : Bool
  scratchBytes : UInt64
  threadblocks : UInt64
  expectedSteps : UInt64
  traceRecords : UInt64
  deriving DecidableEq

/-- The collectives the runtime knows. -/
def nativeCollectives : List String :=
  ["broadcast", "reduce", "allgather", "allreduce", "alltoall", "reduce_scatter"]

/-- One step of a rank's list; `seen` are the positions before it. -/
def parseStep (threadblocks : UInt64) (seen : List (UInt64 × UInt64)) (step : ManifestStep) :
    Except Fault (List (UInt64 × UInt64)) := do
  let t ← nativeInteger step.tbId "tb_id"
    (if threadblocks ≠ 0 then threadblocks.toNat - 1 else 0)
  let i ← nativeInteger step.stepIndex "step_index" 255
  Checked.ensure ((t, i) ∉ seen) (.semantic "duplicate native step position")
  let _ ← nativeInteger step.channel "channel" 15
  let _ ← nativeInteger step.payloadBytes "payload_bytes" int64Max
  return (t, i) :: seen

/-- The bytes a rank's output buffer has by the collective. -/
def nativeOutputBytes (collective : String) (root : ℤ) (message ranks : UInt64) (r : ℕ) :
    Except Fault UInt64 := do
  let expected ← (if collective = "allgather" then nativeMultiply message ranks else .ok message)
  let expected := if collective = "reduce_scatter" then expected / ranks else expected
  return if collective = "reduce" ∧ (r : ℤ) ≠ root then 0 else expected

/-- What `parse` keeps of a rank. -/
structure LocalGeometry where
  buffers : BufferGeometry
  inputReadOnly : Bool
  scratchBytes : UInt64
  threadblocks : UInt64
  expectedSteps : UInt64
  traceRecords : UInt64
  deriving DecidableEq

/-- One turn of the loop over the ranks. -/
def parseRank (manifest : Manifest) (root : ℤ) (message ranks : UInt64) (r : ℕ) :
    Except Fault LocalGeometry := do
  let item ← Checked.required manifest.ranks[r]? (.index "ranks")
  Checked.ensure (item.rank = r) (.semantic "manifest rank identity mismatch")
  let inBytes ← nativeInteger item.inputBytes "input_bytes" int64Max
  let outBytes ← nativeInteger item.outputBytes "output_bytes" int64Max
  let expected ← nativeOutputBytes manifest.collective root message ranks r
  Checked.ensure (inBytes = message ∧ outBytes = expected)
    (.semantic "manifest external buffer sizes mismatch")
  let io ← nativeInteger item.inputOffsetBytes "input_offset_bytes" int64Max
  let oo ← nativeInteger item.outputOffsetBytes "output_offset_bytes" int64Max
  let inputOffset ← (if manifest.inplace = true ∧ manifest.collective = "allgather" then
    nativeMultiply (UInt64.ofNat r) message else .ok 0)
  let outputOffset ← (if manifest.inplace = true ∧ manifest.collective = "reduce_scatter" then
    nativeMultiply (UInt64.ofNat r) (message / ranks) else .ok 0)
  Checked.ensure (io = inputOffset ∧ oo = outputOffset) (.semantic "in-place partition mismatch")
  let tb ← nativeInteger item.threadblocks "threadblocks" 216
  let steps ← nativeInteger item.expectedSteps "expected_steps" (216 * 256)
  let records ← nativeInteger item.traceRecords "trace_records" (int64Max / 80)
  Checked.ensure (records = 0 ∨ max 1 steps ≤ records ∧
    manifest.tracePrefix.toList.head? = some '/') (.semantic "invalid trace capacity/prefix")
  Checked.ensure (item.steps.length = steps.toNat) (.semantic "step metadata incomplete")
  let _ ← item.steps.foldlM (parseStep tb) []
  let scratch ← nativeInteger item.scratchBytes "scratch_bytes" int64Max
  return {
    buffers := ⟨inBytes, outBytes, oo, io, manifest.inplace⟩
    inputReadOnly := item.inputReadOnly
    scratchBytes := scratch
    threadblocks := tb
    expectedSteps := steps
    traceRecords := records }

/-- The root, `-1` when there is none. -/
def parseRoot (root : Option ℕ) (maximum : ℕ) : Except Fault ℤ :=
  match root with
  | none => .ok (-1)
  | some root => do
    let value ← nativeInteger root "root" maximum
    return value.toNat

/-- `WorkSpec::parse`. -/
def WorkSpec.parse (manifest : Manifest) (rank ranks : Int32) : Except Fault WorkSpec := do
  Checked.ensure ((manifest.rankCount : ℤ) = ranks.toInt ∧ 1 ≤ ranks.toInt ∧ 0 ≤ rank.toInt ∧
    rank.toInt < ranks.toInt) (.semantic "manifest ABI or rank membership mismatch")
  let count := UInt64.ofNat ranks.toInt.toNat
  let root ← parseRoot manifest.root (ranks.toInt.toNat - 1)
  let element ← Checked.required (datatypeBytes.get? manifest.datatype)
    (.semantic "unsupported datatype")
  Checked.ensure (manifest.collective ∈ nativeCollectives) (.semantic "unsupported collective")
  let reducing : Bool := manifest.collective ∈ ["reduce", "allreduce", "reduce_scatter"]
  let rooted : Bool := manifest.collective ∈ ["broadcast", "reduce"]
  Checked.ensure (rooted = decide (0 ≤ root) ∧ reducing = manifest.reductionOp.isSome)
    (.semantic "root/reduction fields do not match collective")
  let reduction := manifest.reductionOp.getD "sum"
  Checked.ensure (reduction ∈ ["sum", "prod", "min", "max", "avg"])
    (.semantic "unsupported reduction")
  Checked.ensure (reduction = "avg" →
      manifest.datatype ∈ ["float16", "float32", "float64", "bfloat16"])
    (.semantic "this native runtime supports avg only for floating point datatypes")
  let message ← nativeInteger manifest.inputSizeBytes "input_size_bytes" int64Max
  let slice ← nativeInteger manifest.sliceBytes "slice_bytes" int64Max
  let runtime ← nativeInteger manifest.runtimeBytes "runtime_bytes" int64Max
  let channels ← nativeInteger manifest.channels "channels" 16
  Checked.ensure (message ≠ 0 ∧ slice ≠ 0 ∧ channels ≠ 0 ∧ message % slice = 0 ∧
    slice % UInt64.ofNat element = 0) (.semantic "invalid whole-slice geometry")
  Checked.ensure (manifest.collective ∈ ["alltoall", "reduce_scatter"] →
    message / slice % count = 0) (.semantic "collective slices must divide rank count")
  let converted ← (if manifest.collective = "allgather" then nativeMultiply message count
    else .ok message)
  Checked.ensure (runtime = converted) (.semantic "runtime count conversion mismatch")
  Checked.ensure (manifest.ranks.length = ranks.toInt.toNat)
    (.semantic "manifest rank geometry incomplete")
  let parsed ← (List.range ranks.toInt.toNat).mapM (parseRank manifest root message count)
  let mine ← Checked.required parsed[rank.toInt.toNat]? (.index "ranks")
  return {
    ranks := ranks
    rank := rank
    root := root
    collective := manifest.collective
    datatype := manifest.datatype
    reduction := reduction
    elementBytes := element
    messageBytes := message
    sliceBytes := slice
    runtimeBytes := runtime
    channels := channels
    inplace := manifest.inplace
    buffers := mine.buffers
    inputReadOnly := mine.inputReadOnly
    scratchBytes := mine.scratchBytes
    threadblocks := mine.threadblocks
    expectedSteps := mine.expectedSteps
    traceRecords := mine.traceRecords }

/-- `validate_buffers`, on the addresses of the pointers. -/
def validateBuffers (g : BufferGeometry) (input inputSize output outputSize : UInt64) :
    Except Fault Unit := do
  Checked.ensure (¬ ((g.inputBytes ≠ 0 ∧ input = 0) ∨ (g.outputBytes ≠ 0 ∧ output = 0) ∨
      inputSize < g.inputBytes ∨ outputSize < g.outputBytes))
    (.semantic "buffer is null or smaller than checked schedule geometry")
  Checked.ensure (¬ (uintptrMax - input < g.inputBytes ∨ uintptrMax - output < g.outputBytes))
    (.semantic "buffer address overflow")
  if g.inplace = true then
    Checked.ensure (¬ (input < g.inputOffset ∨ output < g.outputOffset ∨
        input - g.inputOffset ≠ output - g.outputOffset))
      (.semantic "in-place alias does not match collective rank partition")
  else
    Checked.ensure (¬ (g.inputBytes ≠ 0 ∧ g.outputBytes ≠ 0 ∧ input < output + g.outputBytes ∧
        output < input + g.inputBytes))
      (.semantic "out-of-place input/output overlap")

end VeriCCL
