import VeriCCL.Collective
import VeriCCL.Identifiers
import VeriCCL.Raising

/-! # The ledger of payload states

A payload state is what a rank holds of one logical address: the contributions reduced so
far, and for each of them the path it came along.  The ledger registers states and moves
them by `reduce`, `send` and `merge_local`; a state that was consumed stays registered but
is no longer active.

What a path is made of, the ledger does not look at (`Stage`). -/
namespace VeriCCL

open Raising (asks)

/-- A number as a caller passes it. -/
inductive NumberArg where
  | finite (value : ℚ)
  | infinite
  | other
  deriving DecidableEq

/-- An integer as a caller passes it. -/
inductive IntegerArg where
  | integer (value : ℤ)
  | other
  deriving DecidableEq

/-- `_integer`. -/
def integerOf (field : String) (minimum : ℕ) : IntegerArg → Except Fault ℕ
  | .integer value => do
    Checked.ensure ((minimum : ℤ) ≤ value)
      (.semantic (field ++ " must be at least " ++ toString minimum))
    return value.toNat
  | .other => .error (.semantic (field ++ " must be an integer"))

/-- `_time` of the payload states. -/
def readyTimeOf (field : String) : NumberArg → Except Fault ℚ
  | .finite value => do
    Checked.ensure (0 ≤ value) (.semantic (field ++ " must be finite and non-negative"))
    return value
  | .infinite => .error (.semantic (field ++ " must be finite and non-negative"))
  | .other => .error (.semantic (field ++ " must be a number"))

variable {Stage : Type}

/-- `PayloadState`; every contributor has one member path, and these are in the order of the
contributors. -/
structure PayloadState (Stage : Type) where
  stateId : String
  version : ℕ
  rank : ℕ
  logicalAddress : ℕ
  contributors : Finset ℕ
  readyTime : ℚ
  active : Bool
  memberPaths : List (ℕ × List Stage)
  stateId_ne : stateId ≠ ""
  contributors_ne : contributors ≠ ∅
  readyTime_nonneg : 0 ≤ readyTime
  memberPaths_sorted : memberPaths.Pairwise (fun a b => a.1 < b.1)
  memberPaths_members : (memberPaths.map (·.1)).toFinset = contributors

namespace PayloadState

/-- The rank and the address of a state. -/
def key (state : PayloadState Stage) : ℕ × ℕ := (state.rank, state.logicalAddress)

/-- The order of the member paths. -/
def sortPaths (paths : List (ℕ × List Stage)) : List (ℕ × List Stage) :=
  paths.insertionSort (fun a b => a.1 ≤ b.1)

theorem sortPaths_sorted {paths : List (ℕ × List Stage)} (h : (paths.map (·.1)).Nodup) :
    (sortPaths paths).Pairwise (fun a b => a.1 < b.1) := by
  have hperm : (sortPaths paths).Perm paths := List.perm_insertionSort _ _
  have hle : (sortPaths paths).Pairwise (fun a b => a.1 ≤ b.1) :=
    List.pairwise_insertionSort _ _
  have hne : (sortPaths paths).Pairwise (fun a b => a.1 ≠ b.1) :=
    List.pairwise_map.mp ((hperm.map _).nodup_iff.mpr h)
  exact (hle.and hne).imp fun hab => lt_of_le_of_ne hab.1 hab.2

theorem sortPaths_members (paths : List (ℕ × List Stage)) :
    ((sortPaths paths).map (·.1)).toFinset = (paths.map (·.1)).toFinset :=
  List.toFinset_eq_of_perm _ _ ((List.perm_insertionSort _ _).map _)

/-- The constructor of `PayloadState`. -/
def make (stateId : String) (version rank logicalAddress : ℕ) (contributors : Finset ℕ)
    (readyTime : ℚ) (active : Bool) (memberPaths : List (ℕ × List Stage)) :
    Except Fault (PayloadState Stage) :=
  if hid : stateId = "" then
    .error (.semantic "payload_state.state_id must be a non-empty string")
  else if hcontributors : contributors = ∅ then
    .error (.semantic "payload_state.contributors must not be empty")
  else if hready : ¬ 0 ≤ readyTime then
    .error (.semantic "payload_state.ready_time must be finite and non-negative")
  else if hunique : ¬ (memberPaths.map (·.1)).Nodup then
    .error (.semantic "payload_state.member_paths slice IDs must be unique")
  else if hmembers : (memberPaths.map (·.1)).toFinset ≠ contributors then
    .error (.semantic "payload_state.member_paths must match contributors exactly")
  else
    .ok ⟨stateId, version, rank, logicalAddress, contributors, readyTime, active,
      sortPaths memberPaths, hid, hcontributors, not_not.mp hready,
      sortPaths_sorted (not_not.mp hunique),
      (sortPaths_members memberPaths).trans (not_not.mp hmembers)⟩

end PayloadState

/-- The text of a state's identity. -/
def payloadStateId (rank logicalAddress version : ℕ) : String :=
  "state-r" ++ toString rank ++ "-a" ++ toString logicalAddress ++ "-v" ++ toString version

/-- `initial_payload_states`. -/
def initialPayloadStates (rankCount sliceCount : IntegerArg) :
    Except Fault (List (PayloadState Stage)) := do
  let ranks ← integerOf "rank_count" 1 rankCount
  let slices ← integerOf "slice_count" 1 sliceCount
  (List.range ranks ×ˢ List.range slices).mapM fun place =>
    PayloadState.make (payloadStateId place.1 place.2 0) 0 place.1
      ((place.1 * slices + place.2) % slices) {place.1 * slices + place.2} 0 true
      [(place.1 * slices + place.2, [])]

/-- `PayloadLedger`. -/
structure PayloadLedger (Stage : Type) where
  states : Dict String (PayloadState Stage) := []
  nextVersions : Dict (ℕ × ℕ) ℕ := []
  activeAggregates : Dict (ℕ × ℕ) String := []
  inactiveIds : Finset String := ∅
  incompleteOutboundCounts : Dict String ℕ := []

/-- The first version from `version` on whose identity is free; the loop takes at most `fuel`
turns. -/
def freeVersion (used : List String) (rank logicalAddress : ℕ) : ℕ → ℕ → ℕ
  | 0, version => version
  | fuel + 1, version =>
    if payloadStateId rank logicalAddress version ∈ used then
      freeVersion used rank logicalAddress fuel (version + 1)
    else version

namespace PayloadLedger

/-- A method of the ledger. -/
abbrev Method (Stage : Type) := EStateM Fault (PayloadLedger Stage)

/-- `PayloadLedger.state`. -/
def state (ledger : PayloadLedger Stage) (stateId : String) : Except Fault (PayloadState Stage) := do
  Checked.ensure (stateId ≠ "") (.semantic "state_id must be a non-empty string")
  Checked.required (ledger.states.get? stateId) (.semantic ("unknown state version: " ++ stateId))

/-- `_active_state`. -/
def activeState (ledger : PayloadLedger Stage) (stateId : String) :
    Except Fault (PayloadState Stage) := do
  let state ← ledger.state stateId
  Checked.ensure (state.active = true) (.semantic ("state version is inactive: " ++ stateId))
  return state

/-- The state is entered in the maps. -/
def enter (ledger : PayloadLedger Stage) (state : PayloadState Stage) : PayloadLedger Stage where
  states := ledger.states.set state.stateId state
  nextVersions := ledger.nextVersions.set state.key
    (max ((ledger.nextVersions.get? state.key).getD 0) (state.version + 1))
  activeAggregates :=
    if state.active = true ∧ 1 < state.contributors.card then
      ledger.activeAggregates.set state.key state.stateId
    else ledger.activeAggregates
  inactiveIds :=
    if state.active = true then ledger.inactiveIds else insert state.stateId ledger.inactiveIds
  incompleteOutboundCounts := ledger.incompleteOutboundCounts

/-- `_register`. -/
def register (state : PayloadState Stage) : Method Stage Unit := do
  asks fun s => Checked.ensure (state.stateId ∉ s.states.keys)
    (.semantic "state IDs must be unique")
  asks fun s => Checked.ensure (state.active = true ∧ 1 < state.contributors.card →
      state.key ∉ s.activeAggregates.keys)
    (.semantic "active aggregate already exists at rank and logical address")
  modify fun s => s.enter state

/-- `_deactivate`. -/
def deactivate (ledger : PayloadLedger Stage) (state : PayloadState Stage) :
    PayloadLedger Stage where
  states := ledger.states.set state.stateId { state with active := false }
  nextVersions := ledger.nextVersions
  activeAggregates :=
    if ledger.activeAggregates.get? state.key = some state.stateId then
      ledger.activeAggregates.erase state.key
    else ledger.activeAggregates
  inactiveIds := insert state.stateId ledger.inactiveIds
  incompleteOutboundCounts := ledger.incompleteOutboundCounts

/-- `_target_is_available`. -/
def targetIsAvailable (ledger : PayloadLedger Stage) (rank logicalAddress : ℕ)
    (consumedIds : List String) : Except Fault Unit :=
  Checked.ensure (∀ existing ∈ ledger.activeAggregates.get? (rank, logicalAddress),
      existing ∈ consumedIds)
    (.semantic "active aggregate already exists at rank and logical address")

/-- `_new_state`. -/
def newState (ledger : PayloadLedger Stage) (rank logicalAddress : ℕ) (contributors : Finset ℕ)
    (readyTime : ℚ) (memberPaths : List (ℕ × List Stage)) : Except Fault (PayloadState Stage) :=
  let version := freeVersion ledger.states.keys rank logicalAddress (ledger.states.length + 1)
    ((ledger.nextVersions.get? (rank, logicalAddress)).getD 0)
  PayloadState.make (payloadStateId rank logicalAddress version) version rank logicalAddress
    contributors readyTime true memberPaths

/-- The member paths of two states together. -/
def mergedPaths (left right : PayloadState Stage) : List (ℕ × List Stage) :=
  right.memberPaths.foldl (fun paths e => Dict.set paths e.1 e.2) left.memberPaths

/-- What `reduce` computes before it changes the ledger: its inputs and its output. -/
def reduction (ledger : PayloadLedger Stage) (leftId rightId : String) (dstRank : IntegerArg)
    (readyTime : NumberArg) :
    Except Fault (PayloadState Stage × PayloadState Stage × PayloadState Stage) := do
  Checked.ensure (leftId ≠ rightId) (.semantic "REDUCE requires two distinct state versions")
  let left ← ledger.activeState leftId
  let right ← ledger.activeState rightId
  let dst ← integerOf "dst_rank" 0 dstRank
  let ready ← readyTimeOf "ready_time" readyTime
  Checked.ensure (left.logicalAddress = right.logicalAddress)
    (.semantic "REDUCE inputs must have the same logical address")
  Checked.ensure (Disjoint left.contributors right.contributors)
    (.semantic "REDUCE contributors must be disjoint")
  Checked.ensure (dst = left.rank ∨ dst = right.rank)
    (.semantic "REDUCE destination must own one input state")
  Checked.ensure (max left.readyTime right.readyTime ≤ ready)
    (.semantic "REDUCE ready_time precedes an input state")
  ledger.targetIsAvailable dst left.logicalAddress [left.stateId, right.stateId]
  let output ← ledger.newState dst left.logicalAddress (left.contributors ∪ right.contributors)
    ready (mergedPaths left right)
  return (left, right, output)

/-- `PayloadLedger.reduce`. -/
def reduce (leftId rightId : String) (dstRank : IntegerArg) (readyTime : NumberArg) :
    Method Stage (PayloadState Stage) := do
  let (left, right, output) ← asks fun s => s.reduction leftId rightId dstRank readyTime
  modify fun s => s.deactivate left
  modify fun s => s.deactivate right
  register output
  return output

/-- What `send` computes before it changes the ledger: the state that is sent, and its copy. -/
def sending (ledger : PayloadLedger Stage) (stateId : String) (dstRank : IntegerArg)
    (readyTime : NumberArg) (requiredContributors : Finset ℕ) :
    Except Fault (PayloadState Stage × PayloadState Stage) := do
  let _ ← ledger.state stateId
  Checked.ensure ((ledger.incompleteOutboundCounts.get? stateId).getD 0 < 1)
    (.semantic "incomplete state already sent")
  let state ← ledger.activeState stateId
  let dst ← integerOf "dst_rank" 0 dstRank
  Checked.ensure (dst ≠ state.rank)
    (.semantic "SEND source and destination ranks must be distinct")
  let ready ← readyTimeOf "ready_time" readyTime
  Checked.ensure (state.readyTime ≤ ready) (.semantic "SEND ready_time precedes the source state")
  Checked.ensure (requiredContributors ≠ ∅) (.semantic "required_contributors must not be empty")
  Checked.ensure (state.contributors ⊆ requiredContributors)
    (.semantic "state contains contributors outside required contributors")
  (if 1 < state.contributors.card then ledger.targetIsAvailable dst state.logicalAddress []
    else .ok ())
  let output ← ledger.newState dst state.logicalAddress state.contributors ready state.memberPaths
  return (state, output)

/-- `PayloadLedger.send`. -/
def send (stateId : String) (dstRank : IntegerArg) (readyTime : NumberArg)
    (requiredContributors : Finset ℕ) : Method Stage (PayloadState Stage) := do
  let (state, output) ← asks fun s => s.sending stateId dstRank readyTime requiredContributors
  if state.contributors = requiredContributors then
    register output
  else
    modify fun s => s.deactivate state
    modify fun s => { s with
      incompleteOutboundCounts := s.incompleteOutboundCounts.set stateId 1 }
    register output
  return output

/-- What `merge_local` checks before it reduces; its result is the rank. -/
def localInputs (ledger : PayloadLedger Stage) (stateId localStateId : String) :
    Except Fault ℕ := do
  let state ← ledger.activeState stateId
  let localState ← ledger.activeState localStateId
  Checked.ensure (state.rank = localState.rank)
    (.semantic "local merge inputs must be at the same rank")
  Checked.ensure (localState.contributors.card = 1)
    (.semantic "local contribution must contain one slice")
  return state.rank

/-- `PayloadLedger.merge_local`. -/
def mergeLocal (stateId localStateId : String) (readyTime : NumberArg) :
    Method Stage (PayloadState Stage) := do
  let rank ← asks fun s => s.localInputs stateId localStateId
  reduce stateId localStateId (.integer rank) readyTime

/-- The constructor of `PayloadLedger`, on the initial states of a number of ranks and slices. -/
def start (rankCount sliceCount : IntegerArg) : Except Fault (PayloadLedger Stage) := do
  let states ← initialPayloadStates rankCount sliceCount
  match (forM states register : Method Stage Unit).run {} with
  | .ok _ ledger => return ledger
  | .error fault _ => throw fault

end PayloadLedger

/-- A call of one of the ledger's methods, with its arguments. -/
inductive PayloadCall where
  | reduce (leftId rightId : String) (dstRank : IntegerArg) (readyTime : NumberArg)
  | send (stateId : String) (dstRank : IntegerArg) (readyTime : NumberArg)
      (requiredContributors : Finset ℕ)
  | mergeLocal (stateId localStateId : String) (readyTime : NumberArg)

/-- The method a call runs. -/
def PayloadCall.method : PayloadCall → PayloadLedger.Method Stage (PayloadState Stage)
  | .reduce leftId rightId dstRank readyTime => PayloadLedger.reduce leftId rightId dstRank readyTime
  | .send stateId dstRank readyTime requiredContributors =>
    PayloadLedger.send stateId dstRank readyTime requiredContributors
  | .mergeLocal stateId localStateId readyTime =>
    PayloadLedger.mergeLocal stateId localStateId readyTime

/-- The ledger after a call, whether it returned or raised. -/
def PayloadLedger.after (ledger : PayloadLedger Stage) (call : PayloadCall) : PayloadLedger Stage :=
  match call.method.run ledger with
  | .ok _ next => next
  | .error _ next => next

end VeriCCL
