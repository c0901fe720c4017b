import VeriCCL.Checked
import VeriCCL.Collective
import VeriCCL.PackedFormat

/-! # The binary trace of a rank

`verification/online/trace_format.py`: a header of forty bytes and a record of sixty-four
bytes for every step that ran.  Two parsers read it.  `parseTrace` refuses a trace at its
first flaw; `parsePartialTrace` keeps the records that are valid and lists the rest as
issues.  Bytes of a file are a list, and a read beyond the data is a fault of its own
(`Fault.index`). -/
namespace VeriCCL

open Packed (Field)

def traceMagic : ℕ := 0x5643434C
def traceVersion : ℕ := 1
def traceOverflowFlag : ℕ := 0x1

/-- `RAW_HEADER_STRUCT`, `<IHHIIQQII`. -/
def rawHeaderStruct : List Field :=
  [.unsigned 4, .unsigned 2, .unsigned 2, .unsigned 4, .unsigned 4, .unsigned 8, .unsigned 8,
    .unsigned 4, .unsigned 4]

/-- `RAW_RECORD_STRUCT`, `<IHHHhH2xI4xQQQQII`. -/
def rawRecordStruct : List Field :=
  [.unsigned 4, .unsigned 2, .unsigned 2, .unsigned 2, .signed 2, .unsigned 2, .pad 2, .unsigned 4,
    .pad 4, .unsigned 8, .unsigned 8, .unsigned 8, .unsigned 8, .unsigned 4, .unsigned 4]

/-- `_unsigned`. -/
def unsignedField (value : ℕ) (field : String) (maximum : ℕ) : Except Fault Unit :=
  Checked.ensure (value ≤ maximum)
    (.semantic (field ++ " must be an unsigned integer no greater than " ++ toString maximum))

/-! ## Records -/

/-- The fields of `RawStepTraceRecord`. -/
structure RawTraceFields where
  rank : ℕ
  tbId : ℕ
  stepIndex : ℕ
  endpointType : ℕ
  peer : ℤ
  channel : ℕ
  iteration : ℕ
  tbReach : ℕ
  dependencyDone : ℕ
  transferStart : ℕ
  transferEnd : ℕ
  flags : ℕ
  reserved : ℕ
  deriving DecidableEq

namespace RawTraceFields

/-- The unsigned fields, with their names and bounds. -/
def unsigneds (fields : RawTraceFields) : List (ℕ × String × ℕ) :=
  [(fields.rank, "raw_trace.rank", 0xFFFFFFFF),
    (fields.tbId, "raw_trace.tb_id", 0xFFFF),
    (fields.stepIndex, "raw_trace.step_index", 0xFFFF),
    (fields.endpointType, "raw_trace.endpoint_type", 0xFFFF),
    (fields.channel, "raw_trace.channel", 0xFFFF),
    (fields.iteration, "raw_trace.iteration", 0xFFFFFFFF),
    (fields.tbReach, "raw_trace.tb_reach", 0xFFFFFFFFFFFFFFFF),
    (fields.dependencyDone, "raw_trace.dependency_done", 0xFFFFFFFFFFFFFFFF),
    (fields.transferStart, "raw_trace.transfer_start", 0xFFFFFFFFFFFFFFFF),
    (fields.transferEnd, "raw_trace.transfer_end", 0xFFFFFFFFFFFFFFFF),
    (fields.flags, "raw_trace.flags", 0xFFFFFFFF),
    (fields.reserved, "raw_trace.reserved", 0xFFFFFFFF)]

/-- `RawStepTraceRecord.__post_init__`. -/
def check (fields : RawTraceFields) : Except Fault Unit := do
  forM fields.unsigneds fun item => unsignedField item.1 item.2.1 item.2.2
  Checked.ensure (-0x8000 ≤ fields.peer ∧ fields.peer ≤ 0x7FFF)
    (.semantic "raw_trace.peer must fit int16")
  Checked.ensure (fields.reserved = 0) (.semantic "raw trace reserved field must be zero")
  Checked.ensure (fields.tbReach ≤ fields.dependencyDone ∧ fields.dependencyDone ≤ fields.transferStart ∧
      fields.transferStart ≤ fields.transferEnd)
    (.semantic "raw trace timestamps are not monotonic")

/-- The values of a record, in the order of `RAW_RECORD_STRUCT`. -/
def values (fields : RawTraceFields) : List ℤ :=
  [fields.rank, fields.tbId, fields.stepIndex, fields.endpointType, fields.peer, fields.channel,
    fields.iteration, fields.tbReach, fields.dependencyDone, fields.transferStart, fields.transferEnd,
    fields.flags, fields.reserved]

/-- The fields of some values. -/
def ofValues : List ℤ → Option RawTraceFields
  | [rank, tbId, stepIndex, endpointType, peer, channel, iteration, tbReach, dependencyDone,
      transferStart, transferEnd, flags, reserved] =>
    some {
      rank := rank.toNat
      tbId := tbId.toNat
      stepIndex := stepIndex.toNat
      endpointType := endpointType.toNat
      peer := peer
      channel := channel.toNat
      iteration := iteration.toNat
      tbReach := tbReach.toNat
      dependencyDone := dependencyDone.toNat
      transferStart := transferStart.toNat
      transferEnd := transferEnd.toNat
      flags := flags.toNat
      reserved := reserved.toNat }
  | _ => none

/-- `(rank, tb_id, step_index)`. -/
def key (fields : RawTraceFields) : ℕ × ℕ × ℕ := (fields.rank, fields.tbId, fields.stepIndex)

end RawTraceFields

/-- `RawStepTraceRecord`: fields that passed the check. -/
structure RawStepTraceRecord extends RawTraceFields where
  checked : toRawTraceFields.check = .ok ()
  deriving DecidableEq

/-- `RawStepTraceRecord(...)`. -/
def RawTraceFields.record (fields : RawTraceFields) : Except Fault RawStepTraceRecord :=
  match h : fields.check with
  | .ok () => .ok ⟨fields, h⟩
  | .error fault => .error fault

/-! ## The sidecar -/

/-- The fields of `TraceStepMetadata` that a trace is compared with. -/
structure TraceStepMetadata where
  rank : ℕ
  tbId : ℕ
  stepIndex : ℕ
  runtimeEndpointType : ℕ
  peer : ℤ
  runtimeChannel : ℕ
  deriving DecidableEq

/-- `TraceStepMetadata.key`. -/
def TraceStepMetadata.key (metadata : TraceStepMetadata) : ℕ × ℕ × ℕ :=
  (metadata.rank, metadata.tbId, metadata.stepIndex)

/-- `TraceSidecar`: entries by their keys. -/
structure TraceSidecar where
  rankCount : ℕ
  entries : Dict (ℕ × ℕ × ℕ) TraceStepMetadata
  distinct : entries.Distinct := by decide
  nonempty : entries ≠ [] := by decide
  keyed : ∀ entry ∈ entries, entry.1 = entry.2.key := by decide
  ranked : ∀ entry ∈ entries, entry.2.rank < rankCount := by decide

namespace TraceSidecar

/-- `TraceSidecar.entry`. -/
def entry (sidecar : TraceSidecar) (key : ℕ × ℕ × ℕ) : Except Fault TraceStepMetadata :=
  Checked.required (sidecar.entries.get? key) (.semantic "trace record has no matching sidecar entry")

/-- The steps that a rank has. -/
def expectedSteps (sidecar : TraceSidecar) (rank : ℕ) : Finset (ℕ × ℕ) :=
  ((sidecar.entries.values.filter (·.rank = rank)).map fun entry => (entry.tbId, entry.stepIndex)).toFinset

end TraceSidecar

/-- A record agrees with the sidecar's entry. -/
structure RawTraceFields.Agrees (raw : RawTraceFields) (metadata : TraceStepMetadata) : Prop where
  key : raw.key = metadata.key
  endpoint : raw.endpointType = metadata.runtimeEndpointType
  peer : raw.peer = metadata.peer
  channel : raw.channel = metadata.runtimeChannel

instance (raw : RawTraceFields) (metadata : TraceStepMetadata) : Decidable (raw.Agrees metadata) :=
  decidable_of_iff (raw.key = metadata.key ∧ raw.endpointType = metadata.runtimeEndpointType ∧
    raw.peer = metadata.peer ∧ raw.channel = metadata.runtimeChannel)
    ⟨fun ⟨h1, h2, h3, h4⟩ => ⟨h1, h2, h3, h4⟩, fun ⟨h1, h2, h3, h4⟩ => ⟨h1, h2, h3, h4⟩⟩

/-- `StepTraceRecord`: a record and the sidecar's entry of its step. -/
structure StepTraceRecord where
  raw : RawStepTraceRecord
  metadata : TraceStepMetadata
  agrees : raw.Agrees metadata
  deriving DecidableEq

namespace StepTraceRecord

/-- `(tb_id, step_index)`. -/
def step (record : StepTraceRecord) : ℕ × ℕ := (record.raw.tbId, record.raw.stepIndex)

/-- `(tb_id, step_index, iteration)`. -/
def stepKey (record : StepTraceRecord) : (ℕ × ℕ) × ℕ := (record.step, record.raw.iteration)

end StepTraceRecord

/-- `StepTraceRecord(raw, metadata)`. -/
def stepTraceRecord (raw : RawStepTraceRecord) (metadata : TraceStepMetadata) :
    Except Fault StepTraceRecord :=
  if hkey : raw.key = metadata.key then
    if hendpoint : raw.endpointType = metadata.runtimeEndpointType then
      if hpeer : raw.peer = metadata.peer then
        if hchannel : raw.channel = metadata.runtimeChannel then
          .ok ⟨raw, metadata, hkey, hendpoint, hpeer, hchannel⟩
        else .error (.semantic "step trace channel differs from sidecar")
      else .error (.semantic "step trace peer differs from sidecar")
    else .error (.semantic "step trace endpoint type differs from sidecar")
  else .error (.semantic "step trace raw and sidecar keys differ")

/-! ## Writing a trace -/

/-- The header of a trace. -/
structure TraceHeader where
  magic : ℕ
  version : ℕ
  headerSize : ℕ
  recordSize : ℕ
  rank : ℕ
  count : ℕ
  capacity : ℕ
  overflow : ℕ
  reserved : ℕ
  deriving DecidableEq

namespace TraceHeader

/-- The values of a header, in the order of `RAW_HEADER_STRUCT`. -/
def values (header : TraceHeader) : List ℤ :=
  [header.magic, header.version, header.headerSize, header.recordSize, header.rank, header.count,
    header.capacity, header.overflow, header.reserved]

/-- The header of some values. -/
def ofValues : List ℤ → Option TraceHeader
  | [magic, version, headerSize, recordSize, rank, count, capacity, overflow, reserved] =>
    some {
      magic := magic.toNat
      version := version.toNat
      headerSize := headerSize.toNat
      recordSize := recordSize.toNat
      rank := rank.toNat
      count := count.toNat
      capacity := capacity.toNat
      overflow := overflow.toNat
      reserved := reserved.toNat }
  | _ => none

end TraceHeader

/-- A fault of `struct`. -/
def structFault : Fault := .index "struct"

/-- `_pack_record`. -/
def packRecord (record : RawStepTraceRecord) : Except Fault (List UInt8) :=
  Checked.required (Packed.pack rawRecordStruct record.values) structFault

/-- `encode_raw_trace`. -/
def encodeRawTrace (records : List RawStepTraceRecord) (rank : ℕ) (capacity : Option ℕ)
    (overflow : Bool) : Except Fault (List UInt8) := do
  unsignedField rank "raw_trace_header.rank" 0xFFFFFFFF
  Checked.ensure (∀ record ∈ records, record.rank = rank)
    (.semantic "raw trace record rank differs from header")
  let capacity := capacity.getD records.length
  unsignedField capacity "raw_trace_header.capacity" 0xFFFFFFFFFFFFFFFF
  Checked.ensure (records.length ≤ capacity) (.semantic "raw trace capacity is below record count")
  let header : TraceHeader := {
    magic := traceMagic
    version := traceVersion
    headerSize := Packed.size rawHeaderStruct
    recordSize := Packed.size rawRecordStruct
    rank := rank
    count := records.length
    capacity := capacity
    overflow := if overflow then traceOverflowFlag else 0
    reserved := 0 }
  let front ← Checked.required (Packed.pack rawHeaderStruct header.values) structFault
  let packed ← records.mapM packRecord
  return front ++ packed.flatten

/-! ## Reading a trace -/

/-- The header of some data. -/
def unpackHeader (data : List UInt8) : Except Fault TraceHeader := do
  let values ← Checked.required (Packed.unpackFrom rawHeaderStruct data 0) structFault
  Checked.required (TraceHeader.ofValues values) structFault

/-- `_decode_record`. -/
def decodeRecord (data : List UInt8) (offset : ℕ) : Except Fault RawStepTraceRecord := do
  let values ← Checked.required (Packed.unpackFrom rawRecordStruct data offset) structFault
  let fields ← Checked.required (RawTraceFields.ofValues values) structFault
  fields.record

section Parsers
variable (data : List UInt8) (sidecar : TraceSidecar)

/-- The checks of the header in `parse_trace`. -/
def checkHeader (header : TraceHeader) : Except Fault Unit := do
  Checked.ensure (header.magic = traceMagic) (.semantic "trace file magic is invalid")
  Checked.ensure (header.version = traceVersion) (.semantic "trace file version is unsupported")
  Checked.ensure (header.headerSize = Packed.size rawHeaderStruct)
    (.semantic "trace header size is invalid")
  Checked.ensure (header.recordSize = Packed.size rawRecordStruct)
    (.semantic "trace record size is invalid")
  Checked.ensure (header.count ≤ header.capacity) (.semantic "trace count exceeds capacity")
  Checked.ensure (header.overflow &&& traceOverflowFlag = 0)
    (.semantic "trace buffer overflow invalidates the trace")
  Checked.ensure (header.overflow = 0 ∧ header.reserved = 0)
    (.semantic "trace header flags are invalid")
  Checked.ensure (data.length = header.headerSize + header.count * header.recordSize)
    (.semantic "trace file length does not match its header")

/-- One turn of the loop of `parse_trace`.  Its `identities` are those of the result. -/
def parseRecord (header : TraceHeader) (result : List StepTraceRecord) (index : ℕ) :
    Except Fault (List StepTraceRecord) := do
  let raw ← decodeRecord data (header.headerSize + index * header.recordSize)
  Checked.ensure (raw.rank = header.rank) (.semantic "trace record rank differs from header")
  let metadata ← sidecar.entry raw.key
  Checked.ensure (raw.endpointType = metadata.runtimeEndpointType)
    (.semantic "trace endpoint type differs from sidecar")
  Checked.ensure (raw.peer = metadata.peer) (.semantic "trace peer differs from sidecar")
  Checked.ensure (raw.channel = metadata.runtimeChannel)
    (.semantic "trace channel differs from sidecar")
  Checked.ensure ((raw.key, raw.iteration) ∉ result.map fun record => (record.raw.key, record.raw.iteration))
    (.semantic "trace contains a duplicate step record")
  let record ← stepTraceRecord raw metadata
  return result ++ [record]

/-- The iterations of some records. -/
def iterationsOf (records : List StepTraceRecord) : Finset ℕ :=
  (records.map (·.raw.iteration)).toFinset

/-- The steps of an iteration. -/
def stepsOf (records : List StepTraceRecord) (iteration : ℕ) : Finset (ℕ × ℕ) :=
  ((records.filter (·.raw.iteration = iteration)).map (·.step)).toFinset

/-- `parse_trace`. -/
def parseTrace : Except Fault (List StepTraceRecord) := do
  Checked.ensure (Packed.size rawHeaderStruct ≤ data.length)
    (.semantic "trace file length is below the header size")
  let header ← unpackHeader data
  checkHeader data header
  let result ← (List.range header.count).foldlM (parseRecord data sidecar header) []
  let expected := sidecar.expectedSteps header.rank
  Checked.ensure (expected = ∅ ∨ iterationsOf result ≠ ∅)
    (.semantic "trace is incomplete for its sidecar rank")
  Checked.ensure (∀ iteration ∈ iterationsOf result, stepsOf result iteration = expected)
    (.semantic "trace iteration is incomplete for its sidecar")
  return result

/-- An entry of `issues`. -/
inductive TraceIssue where
  | overflow (rank : ℕ)
  | record (rank index : ℕ) (reason : String)
  | duplicate (rank : ℕ) (step : ℕ × ℕ) (iteration : ℕ)
  | missing (rank : ℕ) (step : ℕ × ℕ)
  deriving DecidableEq

/-- The field `reason` of an issue. -/
def TraceIssue.reason : TraceIssue → String
  | .overflow _ => "trace_overflow"
  | .record _ _ reason => reason
  | .duplicate _ _ _ => "duplicate_step"
  | .missing _ _ => "missing_step"

/-- `PartialTrace`. -/
structure PartialTrace where
  rank : ℕ
  records : List StepTraceRecord
  issues : List TraceIssue
  missingSteps : List (ℕ × ℕ)
  capacity : ℕ
  deriving DecidableEq

/-- What the loop of `parse_partial_trace` keeps. -/
structure PartialState where
  records : Dict ((ℕ × ℕ) × ℕ) StepTraceRecord := []
  duplicates : List ((ℕ × ℕ) × ℕ) := []
  issues : List TraceIssue := []

/-- The body of `try`. -/
def readRecord (header : TraceHeader) (index : ℕ) : Except Fault StepTraceRecord := do
  let raw ← decodeRecord data (header.headerSize + index * header.recordSize)
  Checked.ensure (raw.rank = header.rank) (.semantic "record rank differs from header")
  let metadata ← sidecar.entry (header.rank, raw.tbId, raw.stepIndex)
  stepTraceRecord raw metadata

/-- A record that was read. -/
def PartialState.add (s : PartialState) (record : StepTraceRecord) : PartialState where
  records := s.records.set record.stepKey record
  duplicates := if record.stepKey ∈ s.records.keys then s.duplicates.insert record.stepKey else s.duplicates
  issues := s.issues

/-- A record that was not. -/
def PartialState.report (s : PartialState) (issue : TraceIssue) : PartialState where
  records := s.records
  duplicates := s.duplicates
  issues := s.issues ++ [issue]

/-- One turn of the loop of `parse_partial_trace`: only a `SemanticError` becomes an issue. -/
def partialRecord (header : TraceHeader) (s : PartialState) (index : ℕ) : Except Fault PartialState :=
  match readRecord data sidecar header index with
  | .ok record => .ok (s.add record)
  | .error (.semantic reason) => .ok (s.report (.record header.rank index reason))
  | .error fault => .error fault

/-- `records.pop(key)` for all duplicates. -/
def PartialState.unique (s : PartialState) : Dict ((ℕ × ℕ) × ℕ) StepTraceRecord :=
  s.records.filter fun entry => entry.1 ∉ s.duplicates

/-- `sorted` steps. -/
def sortSteps (steps : Finset (ℕ × ℕ)) : List (ℕ × ℕ) :=
  ((steps.image toLex).sort (· ≤ ·)).map ofLex

/-- `parse_partial_trace`. -/
def parsePartialTrace (expectedRank : ℕ) : Except Fault PartialTrace := do
  Checked.ensure (Packed.size rawHeaderStruct ≤ data.length) (.semantic "trace header is truncated")
  let header ← unpackHeader data
  Checked.ensure (header.magic = traceMagic ∧ header.version = traceVersion ∧
      header.headerSize = Packed.size rawHeaderStruct ∧ header.recordSize = Packed.size rawRecordStruct ∧
      header.rank = expectedRank)
    (.semantic "trace header or rank identity is invalid")
  -- every bit but the lowest is `~TRACE_OVERFLOW_FLAG`
  Checked.ensure (header.count ≤ header.capacity ∧
      data.length = header.headerSize + header.count * header.recordSize ∧
      header.reserved = 0 ∧ header.overflow >>> 1 = 0)
    (.semantic "trace count, length or flags are invalid")
  let start : PartialState :=
    { issues := if header.overflow ≠ 0 then [.overflow header.rank] else [] }
  let read ← (List.range header.count).foldlM (partialRecord data sidecar header) start
  let records := read.unique
  let missing := sortSteps (sidecar.expectedSteps header.rank \ (records.values.map (·.step)).toFinset)
  return {
    rank := header.rank
    records := records.values
    issues := read.issues ++
      (read.duplicates.map fun key => .duplicate header.rank key.1 key.2) ++
      missing.map fun step => .missing header.rank step
    missingSteps := missing
    capacity := header.capacity }

end Parsers

end VeriCCL
