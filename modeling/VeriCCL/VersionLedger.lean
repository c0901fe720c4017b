import VeriCCL.Ranges
import Mathlib.Data.List.Sort

/-! # The ledger of state versions

`semantics/versions.py`.  A state version is what one region of a buffer holds once it is
ready.  The ledger keeps every version ever made; those whose storage no later write has
touched are active.  For each buffer it keeps the active regions sorted by offset and
finds the ones a write overlaps by bisection.

Times are finite floating-point numbers that are only compared, so they are rationals
here.  The identities of readers serve no check of the replay and are left out; the
time until which a version is read is kept. -/
namespace VeriCCL

/-- The kinds of storage. -/
inductive StorageKind where
  | data
  | input
  | output
  | scratch
  deriving DecidableEq

/-- `BufferRegion`. -/
structure BufferRegion where
  rank : ℕ
  bufferId : String
  offset : ℕ
  size : ℕ
  kind : StorageKind
  size_pos : 0 < size
  deriving DecidableEq

/-- `BufferRegion.overlaps`. -/
def BufferRegion.overlaps (a b : BufferRegion) : Prop :=
  (a.rank = b.rank ∧ a.bufferId = b.bufferId) ∧
    max a.offset b.offset < min (a.offset + a.size) (b.offset + b.size)

instance (a b : BufferRegion) : Decidable (a.overlaps b) :=
  inferInstanceAs (Decidable (_ ∧ _))

/-- `StateVersion`.  The contributions are those of whole ranges, so they are given by
their source ranks. -/
structure StateVersion where
  stateId : String
  rank : ℕ
  logicalStart : ℕ
  logicalEnd : ℕ
  sources : List ℕ
  storage : BufferRegion
  readyUs : ℚ
  range_nonempty : logicalStart < logicalEnd
  storage_rank : storage.rank = rank
  storage_size : storage.size = logicalEnd - logicalStart
  sources_sorted : sources.Pairwise (· < ·)

/-- The contributions of a version, one range per source. -/
def StateVersion.contributors (state : StateVersion) : List DataRange :=
  state.sources.map fun source =>
    ⟨source, state.logicalStart, state.logicalEnd, state.range_nonempty⟩

/-- The pieces of one source must tile the range. -/
def checkSource (logicalStart logicalEnd : ℕ) (pieces : List DataRange) (source : ℕ) :
    Except Fault Unit := do
  let mine := (pieces.filter fun piece => piece.sourceRank = source).insertionSort
    (fun a b => a.start < b.start ∨ (a.start = b.start ∧ a.stop ≤ b.stop))
  let cursor ← mine.foldlM (fun cursor piece => do
    Checked.ensure (piece.start = cursor ∧ piece.stop ≤ logicalEnd)
      (Fault.semantic "contribution has a duplicate, gap or different logical range")
    return piece.stop) logicalStart
  Checked.ensure (cursor = logicalEnd)
    (.semantic "contribution does not cover the full logical range")

/-- The sources of a list of pieces, in order. -/
def sourcesOf (pieces : List DataRange) : List ℕ :=
  (pieces.map (·.sourceRank)).dedup.insertionSort (· ≤ ·)

theorem sourcesOf_sorted (pieces : List DataRange) : (sourcesOf pieces).Pairwise (· < ·) := by
  have hsorted : (sourcesOf pieces).Pairwise (· ≤ ·) := List.pairwise_insertionSort _ _
  have hnodup : (sourcesOf pieces).Nodup :=
    (List.perm_insertionSort _ _).nodup_iff.mpr (List.nodup_dedup _)
  exact (hsorted.and hnodup).imp fun h => lt_of_le_of_ne h.1 h.2

/-- The checks of the constructor of `StateVersion`, and the version. -/
def StateVersion.make (stateId : String) (rank logicalStart logicalEnd : ℕ)
    (pieces : List DataRange) (storage : BufferRegion) (readyUs : ℚ) :
    Except Fault StateVersion :=
  if stateId = "" then .error (.semantic "state version needs a nonempty identity")
  else if hrange : logicalStart < logicalEnd then
    if hstorage : storage.rank = rank ∧ storage.size = logicalEnd - logicalStart then do
      Checked.ensure (pieces ≠ []) (.semantic "state needs source contribution ranges")
      forM (sourcesOf pieces) (checkSource logicalStart logicalEnd pieces)
      Checked.ensure (0 ≤ readyUs) (.semantic "time must be finite and nonnegative")
      return ⟨stateId, rank, logicalStart, logicalEnd, sourcesOf pieces, storage, readyUs, hrange,
        hstorage.1, hstorage.2, sourcesOf_sorted pieces⟩
    else .error (.semantic "state storage and logical payload sizes must agree")
  else .error (.semantic "logical range must be nonempty")

/-- What identifies a buffer. -/
abbrev BufferKey := ℕ × String

/-- The buffer of a region. -/
def BufferRegion.buffer (region : BufferRegion) : BufferKey := (region.rank, region.bufferId)

/-- `VersionLedger`. -/
structure VersionLedger where
  scratchBudgets : Dict ℕ ℕ
  states : Dict String StateVersion := []
  active : Finset String := ∅
  bufferKinds : Dict BufferKey StorageKind := []
  /-- The active regions of a buffer: offset and version, sorted. -/
  regions : Dict BufferKey (List (ℕ × String)) := []
  readerEnd : Dict String ℚ := []
  scratchLive : Dict ℕ ℤ := []

/-- The order of the entries of the index. -/
def entryLt (a b : ℕ × String) : Prop := a.1 < b.1 ∨ (a.1 = b.1 ∧ a.2 < b.2)

instance (a b : ℕ × String) : Decidable (entryLt a b) := inferInstanceAs (Decidable (_ ∨ _))

/-- `bisect_left` on a sorted list: how many entries are smaller. -/
def bisectLeft (entries : List (ℕ × String)) (x : ℕ × String) : ℕ :=
  (entries.takeWhile fun e => entryLt e x).length

namespace VersionLedger

/-- `VersionLedger.state`. -/
def state (ledger : VersionLedger) (stateId : String) : Except Fault StateVersion :=
  Checked.required (ledger.states.get? stateId) (.semantic ("unknown state version: " ++ stateId))

/-- `VersionLedger.readable`. -/
def readable (ledger : VersionLedger) (stateId : String) (atUs : ℚ) : Except Fault StateVersion := do
  let state ← ledger.state stateId
  Checked.ensure (stateId ∈ ledger.active)
    (.semantic ("state version is no longer valid: " ++ stateId))
  Checked.ensure (state.readyUs ≤ atUs)
    (.semantic ("state is read before it is ready: " ++ stateId))
  return state

/-- Until when a version is read. -/
def readUntil (ledger : VersionLedger) (stateId : String) : ℚ :=
  (ledger.readerEnd.get? stateId).getD 0

/-- `_no_readers_after`. -/
def noReadersAfter (ledger : VersionLedger) (stateId : String) (atUs : ℚ) : Except Fault Unit :=
  Checked.ensure (ledger.readUntil stateId ≤ atUs)
    (.semantic ("state has an unfinished reader: " ++ stateId))

/-- The active regions of a buffer. -/
def entries (ledger : VersionLedger) (buffer : BufferKey) : List (ℕ × String) :=
  (ledger.regions.get? buffer).getD []

/-- Where the regions that may overlap begin: the last region that starts before counts
if it reaches into the new one. -/
def overlapStart (ledger : VersionLedger) (region : BufferRegion) (first : ℕ) : Except Fault ℕ :=
  if first = 0 then .ok 0
  else do
    let entry ← Checked.required (ledger.entries region.buffer)[first - 1]? (.index "entries")
    let state ← Checked.required (ledger.states.get? entry.2) (.missing entry.2)
    return if region.offset < state.storage.offset + state.storage.size then first - 1 else first

/-- `_overlapping`. -/
def overlapping (ledger : VersionLedger) (region : BufferRegion) : Except Fault (List String) := do
  let entries := ledger.entries region.buffer
  let first ← ledger.overlapStart region (bisectLeft entries (region.offset, ""))
  let last := bisectLeft entries (region.offset + region.size, "")
  return ((entries.take last).drop first).map (·.2)

/-- `_remove_active`. -/
def removeActive (ledger : VersionLedger) (stateId : String) : Except Fault VersionLedger := do
  let state ← Checked.required (ledger.states.get? stateId) (.missing stateId)
  let region := state.storage
  let entries ← Checked.required (ledger.regions.get? region.buffer) (.missing region.bufferId)
  let index := bisectLeft entries (region.offset, stateId)
  Checked.ensure (index < entries.length) (.index "pop index out of range")
  Checked.ensure (stateId ∈ ledger.active) (.missing stateId)
  return { ledger with
    regions := ledger.regions.set region.buffer (entries.eraseIdx index)
    active := ledger.active.erase stateId
    scratchLive := if region.kind = .scratch then
        ledger.scratchLive.set region.rank ((ledger.scratchLive.get? region.rank).getD 0 - region.size)
      else ledger.scratchLive }

/-- A write must not overlap a version it reads, unless it replaces it. -/
def checkPartial (region : BufferRegion) (value : StateVersion) : Except Fault Unit :=
  Checked.ensure (¬ (region.overlaps value.storage ∧ region ≠ value.storage))
    (.semantic "partial overlap with a read input requires separate storage")

/-- A version may be overwritten once it is complete and no longer read. -/
def checkOverwrite (ledger : VersionLedger) (startUs : ℚ) (stateId : String) : Except Fault Unit := do
  let state ← Checked.required (ledger.states.get? stateId) (.missing stateId)
  Checked.ensure (state.readyUs ≤ startUs)
    (.semantic ("buffer still has an unfinished write: " ++ stateId))
  ledger.noReadersAfter stateId startUs

/-- Scratch storage is limited. -/
def checkScratch (ledger : VersionLedger) (region : BufferRegion) (overwritten : List String) :
    Except Fault Unit :=
  if region.kind = .scratch then do
    let sizes ← overwritten.mapM fun key => do
      let state ← Checked.required (ledger.states.get? key) (.missing key)
      return (state.storage.size : ℤ)
    let live := (ledger.scratchLive.get? region.rank).getD 0 - sizes.sum
    Checked.ensure (∃ budget ∈ ledger.scratchBudgets.get? region.rank, live + region.size ≤ budget)
      (.semantic "scratch storage budget exceeded")
  else .ok ()

/-- The versions that are read are read until `endUs`. -/
def noteReads (ledger : VersionLedger) (reads : List StateVersion) (endUs : ℚ) : VersionLedger :=
  { ledger with
    readerEnd := reads.foldl (fun d value =>
      d.set value.stateId (max ((d.get? value.stateId).getD 0) endUs)) ledger.readerEnd }

/-- The new version becomes active. -/
def addActive (ledger : VersionLedger) (state : StateVersion) : VersionLedger :=
  let region := state.storage
  let entries := ledger.entries region.buffer
  { ledger with
    states := ledger.states.set state.stateId state
    active := insert state.stateId ledger.active
    regions := ledger.regions.set region.buffer
      (entries.insertIdx (bisectLeft entries (region.offset, state.stateId))
        (region.offset, state.stateId))
    scratchLive := if region.kind = .scratch then
        ledger.scratchLive.set region.rank ((ledger.scratchLive.get? region.rank).getD 0 + region.size)
      else ledger.scratchLive
    bufferKinds := ledger.bufferKinds.set region.buffer region.kind }

/-- `_store`. -/
def store (ledger : VersionLedger) (state : StateVersion) (startUs endUs : ℚ)
    (readIds : List String) (isInitial : Bool) : Except Fault VersionLedger := do
  Checked.ensure (0 ≤ startUs ∧ 0 ≤ endUs) (.semantic "time must be finite and nonnegative")
  Checked.ensure (startUs ≤ endUs ∧ state.readyUs = endUs)
    (.semantic "write interval and output ready time must agree")
  Checked.ensure (state.stateId ∉ ledger.states.keys)
    (.semantic "state version identity already exists")
  let reads ← readIds.mapM fun key => ledger.readable key startUs
  let region := state.storage
  Checked.ensure (∀ kind ∈ ledger.bufferKinds.get? region.buffer, kind = region.kind)
    (.semantic "buffer alias cannot change its storage kind")
  forM reads (checkPartial region)
  let overwritten ← ledger.overlapping region
  Checked.ensure (¬ (isInitial = true ∧ overwritten ≠ [])) (.semantic "initial states overlap storage")
  forM overwritten (ledger.checkOverwrite startUs)
  ledger.checkScratch region overwritten
  let cleared ← overwritten.foldlM removeActive (ledger.noteReads reads endUs)
  return cleared.addActive state

/-- `add_initial`. -/
def addInitial (ledger : VersionLedger) (state : StateVersion) : Except Fault VersionLedger :=
  ledger.store state state.readyUs state.readyUs [] true

/-- `VersionLedger.copy`. -/
def copy (ledger : VersionLedger) (sourceId stateId : String) (destination : BufferRegion)
    (startUs endUs : ℚ) : Except Fault VersionLedger := do
  let source ← ledger.readable sourceId startUs
  let result ← StateVersion.make stateId destination.rank source.logicalStart source.logicalEnd
    source.contributors destination endUs
  ledger.store result startUs endUs [sourceId] false

/-- `VersionLedger.reduce`. -/
def reduce (ledger : VersionLedger) (leftId rightId stateId : String) (destination : BufferRegion)
    (startUs endUs : ℚ) : Except Fault VersionLedger := do
  let left ← ledger.readable leftId startUs
  let right ← ledger.readable rightId startUs
  Checked.ensure (left.logicalStart = right.logicalStart ∧ left.logicalEnd = right.logicalEnd)
    (.semantic "reduction inputs must have the same logical range")
  Checked.ensure (∀ source ∈ left.sources, source ∉ right.sources)
    (.semantic "reduction contribution is counted more than once")
  Checked.ensure (destination.rank = left.rank ∨ destination.rank = right.rank)
    (.semantic "reduction destination must own an input")
  let result ← StateVersion.make stateId destination.rank left.logicalStart left.logicalEnd
    (left.contributors ++ right.contributors) destination endUs
  ledger.store result startUs endUs [leftId, rightId] false

/-- `VersionLedger.release`. -/
def release (ledger : VersionLedger) (stateId : String) (atUs : ℚ) : Except Fault VersionLedger := do
  let _ ← ledger.readable stateId atUs
  ledger.noReadersAfter stateId atUs
  ledger.removeActive stateId

end VersionLedger

end VeriCCL
