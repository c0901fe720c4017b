import VeriCCL.Raising
import VeriCCL.ReplayEffect

/-! # The ledger as an object

`VersionLedger` as its callers see it: an object with methods that change it step by step
and may raise.  `VersionLedger.store` and its siblings say what a method does when it
returns; here every method is the sequence of looks and assignments of the source, so that
what it leaves behind when it raises is part of the model.  The identities of the readers,
which no replay checks, are kept here too (`ReadLedger`).

A time argument is a finite number or something that is none (`TimeArg`). -/
namespace VeriCCL

open Raising (asks)

/-- A time as a caller passes it: a finite number, or something else. -/
inductive TimeArg where
  | number (value : ℚ)
  | other
  deriving DecidableEq

/-- What `_time` raises. -/
def timeFault : Fault := .semantic "time must be finite and nonnegative"

/-- `_time`. -/
def timeOf : TimeArg → Except Fault ℚ
  | .number value => do
    Checked.ensure (0 ≤ value) timeFault
    return value
  | .other => .error timeFault

/-- The constructor of `StateVersion`; the time is checked last. -/
def StateVersion.makeAt (stateId : String) (rank logicalStart logicalEnd : ℕ)
    (pieces : List DataRange) (storage : BufferRegion) (ready : TimeArg) : Except Fault StateVersion :=
  match ready with
  | .number value => make stateId rank logicalStart logicalEnd pieces storage value
  | .other => do
    let _ ← make stateId rank logicalStart logicalEnd pieces storage 0
    .error timeFault

/-- What identifies a reader. -/
inductive ReaderKey where
  | external (readerId : String)
  | operation (stateId : String) (index : ℕ)
  deriving DecidableEq

/-- The ledger and its readers: which version each reads, and until when. -/
structure ReadLedger extends VersionLedger where
  readers : Dict ReaderKey (String × ℚ) := []

namespace ReadLedger

/-- A method of the ledger. -/
abbrev Method := EStateM Fault ReadLedger

/-- `readable`. -/
def readableAt (ledger : ReadLedger) (stateId : String) (time : TimeArg) :
    Except Fault StateVersion := do
  let state ← ledger.state stateId
  Checked.ensure (stateId ∈ ledger.active)
    (.semantic ("state version is no longer valid: " ++ stateId))
  let atUs ← timeOf time
  Checked.ensure (state.readyUs ≤ atUs)
    (.semantic ("state is read before it is ready: " ++ stateId))
  return state

/-- A version is read until a time. -/
def note (key : ReaderKey) (stateId : String) (endUs : ℚ) : Method Unit := do
  modify fun s => { s with readers := s.readers.set key (stateId, endUs) }
  modify fun s => { s with readerEnd := s.readerEnd.set stateId (max (s.readUntil stateId) endUs) }

/-- `reserve_read`. -/
def reserveRead (stateId readerId : String) (start stop : TimeArg) : Method Unit := do
  let _ ← asks fun s => s.readableAt stateId start
  let endUs ← asks fun _ => timeOf stop
  let startUs ← asks fun _ => timeOf start
  asks fun _ => Checked.ensure (startUs ≤ endUs) (.semantic "reader ends before it starts")
  asks fun s => Checked.ensure (readerId ≠ "" ∧ .external readerId ∉ s.readers.keys)
    (.semantic "reader identity must be nonempty and unique")
  note (.external readerId) stateId endUs

/-- `_remove_active`. -/
def drop (stateId : String) : Method Unit := do
  let state ← asks fun s => Checked.required (s.states.get? stateId) (.missing stateId)
  let region := state.storage
  let entries ← asks fun s => Checked.required (s.regions.get? region.buffer) (.missing region.bufferId)
  let index := bisectLeft entries (region.offset, stateId)
  asks fun _ => Checked.ensure (index < entries.length) (.index "pop index out of range")
  modify fun s => { s with regions := s.regions.set region.buffer (entries.eraseIdx index) }
  asks fun s => Checked.ensure (stateId ∈ s.active) (.missing stateId)
  modify fun s => { s with active := s.active.erase stateId }
  if region.kind = .scratch then
    let live ← asks fun s => Checked.required (s.scratchLive.get? region.rank) (.missing "scratch")
    modify fun s => { s with scratchLive := s.scratchLive.set region.rank (live - region.size) }

/-- What `_store` checks before it changes anything: the versions that are read, and those
that are overwritten. -/
def admission (ledger : ReadLedger) (state : StateVersion) (startUs : ℚ) (readIds : List String)
    (isInitial : Bool) : Except Fault (List StateVersion × List String) := do
  Checked.ensure (state.stateId ∉ ledger.states.keys)
    (.semantic "state version identity already exists")
  let reads ← readIds.mapM fun key => ledger.readableAt key (.number startUs)
  let region := state.storage
  Checked.ensure (∀ kind ∈ ledger.bufferKinds.get? region.buffer, kind = region.kind)
    (.semantic "buffer alias cannot change its storage kind")
  forM reads (VersionLedger.checkPartial region)
  let overwritten ← ledger.overlapping region
  Checked.ensure (¬ (isInitial = true ∧ overwritten ≠ [])) (.semantic "initial states overlap storage")
  forM overwritten (ledger.checkOverwrite startUs)
  ledger.checkScratch region overwritten
  return (reads, overwritten)

/-- The new version is entered in the indexes, one after another. -/
def enter (state : StateVersion) : Method Unit := do
  let region := state.storage
  modify fun s => { s with states := s.states.set state.stateId state }
  modify fun s => { s with active := insert state.stateId s.active }
  modify fun s => { s with
    regions := s.regions.set region.buffer ((s.entries region.buffer).insertIdx
      (bisectLeft (s.entries region.buffer) (region.offset, state.stateId))
      (region.offset, state.stateId)) }
  modify fun s => { s with
    scratchLive := if region.kind = .scratch then
        s.scratchLive.set region.rank ((s.scratchLive.get? region.rank).getD 0 + region.size)
      else s.scratchLive }
  modify fun s => { s with bufferKinds := s.bufferKinds.set region.buffer region.kind }

/-- `_store`. -/
def storeVersion (state : StateVersion) (start stop : TimeArg) (readIds : List String)
    (isInitial : Bool) : Method Unit := do
  let startUs ← asks fun _ => timeOf start
  let endUs ← asks fun _ => timeOf stop
  asks fun _ => Checked.ensure (startUs ≤ endUs ∧ state.readyUs = endUs)
    (.semantic "write interval and output ready time must agree")
  let (reads, overwritten) ← asks fun s => s.admission state startUs readIds isInitial
  forM reads.zipIdx fun value => note (.operation state.stateId value.2) value.1.stateId endUs
  forM overwritten drop
  enter state

/-- `add_initial`. -/
def addInitial (state : StateVersion) : Method Unit :=
  storeVersion state (.number state.readyUs) (.number state.readyUs) [] true

/-- `VersionLedger.copy`. -/
def copy (sourceId stateId : String) (destination : BufferRegion) (start stop : TimeArg) :
    Method Unit := do
  let source ← asks fun s => s.readableAt sourceId start
  let result ← asks fun _ => StateVersion.makeAt stateId destination.rank source.logicalStart
    source.logicalEnd source.contributors destination stop
  storeVersion result start stop [sourceId] false

/-- The inputs of a reduction. -/
def reduceInputs (ledger : ReadLedger) (leftId rightId : String) (destination : BufferRegion)
    (start : TimeArg) : Except Fault (StateVersion × StateVersion) := do
  let left ← ledger.readableAt leftId start
  let right ← ledger.readableAt rightId start
  Checked.ensure (left.logicalStart = right.logicalStart ∧ left.logicalEnd = right.logicalEnd)
    (.semantic "reduction inputs must have the same logical range")
  Checked.ensure (∀ source ∈ left.sources, source ∉ right.sources)
    (.semantic "reduction contribution is counted more than once")
  Checked.ensure (destination.rank = left.rank ∨ destination.rank = right.rank)
    (.semantic "reduction destination must own an input")
  return (left, right)

/-- `VersionLedger.reduce`. -/
def reduce (leftId rightId stateId : String) (destination : BufferRegion) (start stop : TimeArg) :
    Method Unit := do
  let (left, right) ← asks fun s => s.reduceInputs leftId rightId destination start
  let result ← asks fun _ => StateVersion.makeAt stateId destination.rank left.logicalStart
    left.logicalEnd (left.contributors ++ right.contributors) destination stop
  storeVersion result start stop [leftId, rightId] false

/-- `VersionLedger.release`. -/
def release (stateId : String) (time : TimeArg) : Method Unit := do
  let _ ← asks fun s => s.readableAt stateId time
  let atUs ← asks fun _ => timeOf time
  asks fun s => s.noReadersAfter stateId atUs
  drop stateId

end ReadLedger

/-- A call of one of the ledger's methods, with its arguments. -/
inductive VersionCall where
  | addInitial (state : StateVersion)
  | copy (sourceId stateId : String) (destination : BufferRegion) (start stop : TimeArg)
  | reduce (leftId rightId stateId : String) (destination : BufferRegion) (start stop : TimeArg)
  | reserveRead (stateId readerId : String) (start stop : TimeArg)
  | release (stateId : String) (time : TimeArg)

/-- The method a call runs. -/
def VersionCall.method : VersionCall → ReadLedger.Method Unit
  | .addInitial state => ReadLedger.addInitial state
  | .copy sourceId stateId destination start stop =>
    ReadLedger.copy sourceId stateId destination start stop
  | .reduce leftId rightId stateId destination start stop =>
    ReadLedger.reduce leftId rightId stateId destination start stop
  | .reserveRead stateId readerId start stop => ReadLedger.reserveRead stateId readerId start stop
  | .release stateId time => ReadLedger.release stateId time

/-- The ledger after a call, whether it returned or raised. -/
def ReadLedger.after (ledger : ReadLedger) (call : VersionCall) : ReadLedger :=
  match call.method.run ledger with
  | .ok _ next => next
  | .error _ next => next

/-- The constructor of `VersionLedger`. -/
def ReadLedger.fresh (scratchBudgets : Dict ℕ ℕ) : ReadLedger :=
  { scratchBudgets := scratchBudgets }

/-- The ledger after a sequence of calls. -/
def ReadLedger.afterAll (scratchBudgets : Dict ℕ ℕ) (calls : List VersionCall) : ReadLedger :=
  calls.foldl ReadLedger.after (ReadLedger.fresh scratchBudgets)

end VeriCCL
