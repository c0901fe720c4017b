import VeriCCL.CostModel
import VeriCCL.Kahn

/-! # The event simulation

`performance/simulation.py`: `predict` advances the remaining bytes of the running
operations from event to event.  An operation is released when its predecessors
have ended, pays its startup, and then moves bytes at a rate that depends on what
else is active.

The loop state is `Clock`.  A turn of the loop settles the current instant
(`Clock.settle`: startups that are over, releases that are due) and, when nothing
more is due, moves on to the next event (`Clock.advance`).  What has happened is kept in
`events` and `segments`.  Python's sets and its heap of releases are lists here; where it
walks one in sorted order, so does the model.  The reports of used and unmeasured
components are left out. -/
namespace VeriCCL

/-! ## Concurrency groups -/

/-- One pass over the remaining operations: those that share a resource with the
group join it. -/
def componentPass : List WorkOperation → List String → List WorkOperation →
    List WorkOperation × List String × List WorkOperation
  | group, resources, [] => (group, resources, [])
  | group, resources, op :: rest =>
    if ∃ r ∈ op.resources, r ∈ resources then
      componentPass (group ++ [op]) (resources ++ op.resources) rest
    else
      let next := componentPass group resources rest
      (next.1, next.2.1, op :: next.2.2)

/-- Passes until one changes nothing.  Every other pass takes an operation away, so
there are at most as many as operations. -/
def growComponent : ℕ → List WorkOperation → List String → List WorkOperation →
    List WorkOperation × List WorkOperation
  | 0, group, _, remaining => (group, remaining)
  | n + 1, group, resources, remaining =>
    let next := componentPass group resources remaining
    if next.2.2.length = remaining.length then (group, remaining)
    else growComponent n next.1 next.2.1 next.2.2

/-- The groups, taken from the front of the list. -/
def componentsFrom : ℕ → List WorkOperation → List (List WorkOperation)
  | 0, _ => []
  | _, [] => []
  | n + 1, op :: rest =>
    let grown := growComponent rest.length [op] op.resources rest
    grown.1 :: componentsFrom n grown.2

/-- `_components`: operations that share resources, directly or through others. -/
def components (operations : List WorkOperation) : List (List WorkOperation) :=
  componentsFrom operations.length operations

/-- `_profile`. -/
def profileOf (group : List WorkOperation) (model : CostModel) :
    Except Fault (Option RateProfile) :=
  match model.profiles.filter (fun profile => profile.applies group) with
  | [] => .ok none
  | [profile] => .ok (some profile)
  | _ => .error (.semantic "multiple profiles apply to the same concurrency mode")

/-! ## Rates -/

/-- The capacity of a resource. -/
def resourceCapacity (model : CostModel) (resource : String) : Except Fault ℚ :=
  Checked.required (model.resources.get? resource) (.missing resource)

/-- The rate a profile measured for a flow. -/
def profileRate (profile : RateProfile) (op : WorkOperation) : ℚ :=
  (profile.rates.get? op.flow).getD 0

/-- The members of a group that use a resource. -/
def usersOf (group : List WorkOperation) (resource : String) : List WorkOperation :=
  group.filter (fun op => resource ∈ op.resources)

/-- Measured rates must fit every resource of the group. -/
def measuredRates (group : List WorkOperation) (profile : RateProfile) (model : CostModel) :
    Except Fault (List (String × ℚ)) := do
  forM (group.flatMap (·.resources)).dedup fun resource => do
    let capacity ← resourceCapacity model resource
    Checked.ensure (((usersOf group resource).map (profileRate profile)).sum ≤ capacity)
      (.semantic ("measured rate vector conflicts with resource capacity " ++ resource))
  return group.map fun op => (op.operationId, profileRate profile op)

/-- Without a measurement, an operation runs at its own rate or at its share of the
tightest resource. -/
def sharedRate (group : List WorkOperation) (costs : Dict String ServiceCost) (model : CostModel)
    (op : WorkOperation) : Except Fault (String × ℚ) := do
  let cost ← Checked.required (costs.get? op.operationId) (.missing op.operationId)
  let limits ← op.resources.mapM fun resource => do
    let capacity ← resourceCapacity model resource
    return capacity / (usersOf group resource).length
  return (op.operationId, limits.foldl min (1 / cost.beta))

/-- The rates of one group. -/
def groupRates (costs : Dict String ServiceCost) (model : CostModel) (group : List WorkOperation) :
    Except Fault (List (String × ℚ)) := do
  Checked.ensure (group.map (·.flow)).Nodup
    (.semantic "concurrent operations share a flow identity; serialize their TB work")
  match ← profileOf group model with
  | some profile => measuredRates group profile model
  | none => group.mapM (sharedRate group costs model)

/-- The rate of a local operation. -/
def localRate (costs : Dict String ServiceCost) (op : WorkOperation) :
    Except Fault (String × ℚ) := do
  let cost ← Checked.required (costs.get? op.operationId) (.missing op.operationId)
  return (op.operationId, 1 / cost.beta)

/-- `_rates`. -/
def ratesOf (active : List WorkOperation) (costs : Dict String ServiceCost) (model : CostModel) :
    Except Fault (Dict String ℚ) := do
  let own ← (active.filter (fun op => ¬ op.kind.communicates)).mapM (localRate costs)
  let shared ← (components (active.filter (fun op => op.kind.communicates))).mapM
    (groupRates costs model)
  return own ++ shared.flatten

/-! ## The loop -/

/-- What the loop reads and does not change. -/
structure Simulation where
  operations : List WorkOperation
  costs : Dict String ServiceCost
  model : CostModel

namespace Simulation
variable (sim : Simulation)

/-- The operation of a key. -/
def operation? (key : String) : Option WorkOperation :=
  sim.operations.find? (fun op => op.operationId = key)

/-- The operations that wait for a key, in order. -/
def successors (key : String) : List String :=
  (sim.operations.filter (fun op => key ∈ op.dependencies)).map (·.operationId)

/-- The hard release time of a key. -/
def releaseTime (key : String) : ℚ := ((sim.operation? key).map (·.notBefore)).getD 0

end Simulation

/-- What may happen to an operation. -/
inductive ProgressKind where
  | start
  | startupComplete
  | complete
  deriving DecidableEq

/-- `ProgressEvent`. -/
structure ProgressEvent where
  time : ℚ
  kind : ProgressKind
  operationId : String
  deriving DecidableEq

/-- `ProgressSegment`: an operation moved bytes at a rate for a while. -/
structure ProgressSegment where
  operationId : String
  start : ℚ
  stop : ℚ
  rate : ℚ
  deriving DecidableEq

/-- The state of the loop. -/
structure Clock where
  pending : List String
  degrees : String → ℕ
  releases : List (ℚ × String)
  startup : Dict String ℚ
  active : List String
  remaining : Dict String ℚ
  starts : Dict String ℚ
  ends : Dict String ℚ
  events : List ProgressEvent
  segments : List ProgressSegment
  now : ℚ

namespace Clock

/-- One predecessor of `follower` has ended. -/
def release (sim : Simulation) (s : Clock) (follower : String) : Clock :=
  if follower ∈ s.pending then
    { s with
      degrees := Function.update s.degrees follower (s.degrees follower - 1)
      releases := if s.degrees follower - 1 = 0 then
          (sim.releaseTime follower, follower) :: s.releases
        else s.releases }
  else s

/-- `complete`. -/
def complete (sim : Simulation) (s : Clock) (key : String) : Clock :=
  (sim.successors key).foldl (release sim) { s with
    ends := s.ends.set key s.now
    events := s.events ++ [⟨s.now, .complete, key⟩] }

/-- The keys whose startup is over. -/
def started (s : Clock) : List String :=
  sortStrings ((s.startup.filter (fun e => e.2 ≤ s.now)).map (·.1))

/-- Startups that are over make their operations active. -/
def finishStartup (s : Clock) : Clock :=
  { s with
    startup := s.startup.filter (fun e => ¬ e.2 ≤ s.now)
    active := s.active ++ s.started
    events := s.events ++ s.started.map fun key => ⟨s.now, .startupComplete, key⟩ }

/-- The keys whose release is due. -/
def ready (s : Clock) : List String :=
  sortStrings ((s.releases.filter (fun e => e.1 ≤ s.now)).map (·.2))

/-- The communications that are going on or about to start. -/
def present (sim : Simulation) (s : Clock) (ready : List String) : List WorkOperation :=
  sim.operations.filter fun op => op.kind.communicates ∧
    (op.operationId ∈ s.active ∨ op.operationId ∈ s.startup.keys ∨ op.operationId ∈ ready)

/-- The startup time of each operation that a measured launch mode covers. -/
def launchStartups (sim : Simulation) (s : Clock) (ready : List String) :
    Except Fault (Dict String ℚ) := do
  let groups ← (components (present sim s ready)).mapM fun group => do
    match ← profileOf group sim.model with
    | none => return []
    | some profile => return group.filterMap fun op =>
        (profile.startup.get? op.flow).map fun alpha => (op.operationId, alpha)
  return groups.flatten

/-- A released operation leaves `pending`. -/
def leave (s : Clock) (key : String) : Clock :=
  { s with
    pending := s.pending.erase key
    starts := s.starts.set key s.now
    events := s.events ++ [⟨s.now, .start, key⟩] }

/-- A launched operation pays its startup before it moves bytes. -/
def enterStartup (s : Clock) (key : String) (payload alpha : ℚ) : Clock :=
  { s with
    remaining := s.remaining.set key payload
    startup := s.startup.set key (s.now + alpha) }

/-- Launch one released operation. -/
def launch (sim : Simulation) (startups : Dict String ℚ) (s : Clock) (key : String) :
    Except Fault Clock := do
  let op ← Checked.required (sim.operation? key) (.missing key)
  let s := s.leave key
  if op.kind = .nop then
    return complete sim s key
  else
    let cost ← Checked.required (sim.costs.get? key) (.missing key)
    return s.enterStartup key op.payloadBytes ((startups.get? key).getD cost.alpha)

/-- Everything that happens at the current instant. -/
def settle (sim : Simulation) (s : Clock) : Except Fault Clock := do
  let s := finishStartup s
  let ready := s.ready
  let startups ← launchStartups sim s ready
  ready.foldlM (launch sim startups) { s with releases := s.releases.filter (fun e => ¬ e.1 ≤ s.now) }

/-- Something is still due at the current instant. -/
def due (s : Clock) : Prop := (∃ e ∈ s.startup, e.2 ≤ s.now) ∨ ∃ e ∈ s.releases, e.1 ≤ s.now

instance (s : Clock) : Decidable s.due :=
  inferInstanceAs (Decidable ((∃ e ∈ s.startup, e.2 ≤ s.now) ∨ ∃ e ∈ s.releases, e.1 ≤ s.now))

/-- When an active operation would end at its present rate. -/
def finishTime (s : Clock) (rates : Dict String ℚ) (key : String) : ℚ :=
  s.now + (s.remaining.get? key).getD 0 / (rates.get? key).getD 0

/-- The times at which something may happen next. -/
def future (s : Clock) (rates : Dict String ℚ) : List ℚ :=
  s.active.map (s.finishTime rates) ++ s.startup.values ++ s.releases.map (·.1)

/-- The bytes left of the active operations after `delta`. -/
def drain (s : Clock) (rates : Dict String ℚ) (delta : ℚ) : Dict String ℚ :=
  s.active.foldl (fun remaining key =>
    remaining.set key
      (max 0 ((s.remaining.get? key).getD 0 - (rates.get? key).getD 0 * delta))) s.remaining

/-- Time passes, and the active operations move bytes. -/
def passTo (s : Clock) (rates : Dict String ℚ) (next : ℚ) : Clock :=
  { s with
    remaining := s.drain rates (next - s.now)
    active := s.active.filter (fun key => ¬ s.finishTime rates key = next)
    segments := s.segments ++ (sortStrings s.active).map fun key =>
      ⟨key, s.now, next, (rates.get? key).getD 0⟩
    now := next }

/-- The operations that end at a time. -/
def finished (s : Clock) (rates : Dict String ℚ) (next : ℚ) : List String :=
  sortStrings (s.active.filter (fun key => s.finishTime rates key = next))

/-- Move on to the next event. -/
def advance (sim : Simulation) (s : Clock) : Except Fault Clock := do
  let rates ← ratesOf (sim.operations.filter (fun op => op.operationId ∈ s.active)) sim.costs sim.model
  match s.future rates with
  | [] =>
    Checked.ensure (s.pending = []) (.semantic "executable is stalled by unresolved work")
    return s
  | t :: rest =>
    let next := rest.foldl min t
    Checked.ensure (¬ next ≤ s.now)
      (.semantic "model time precision cannot represent positive progress")
    return (s.finished rates next).foldl (complete sim) (s.passTo rates next)

/-- Work is left. -/
def running (s : Clock) : Prop := s.pending ≠ [] ∨ s.startup ≠ [] ∨ s.active ≠ []

instance (s : Clock) : Decidable s.running :=
  inferInstanceAs (Decidable (s.pending ≠ [] ∨ s.startup ≠ [] ∨ s.active ≠ []))

/-- One turn of the loop. -/
def turn (sim : Simulation) (s : Clock) : Except Fault Clock := do
  let s ← settle sim s
  if s.due then return s else advance sim s

/-- The loop. -/
def run (sim : Simulation) : ℕ → Clock → Except Fault Clock
  | 0, s => if s.running then .error (.semantic "the simulation ran out of turns") else .ok s
  | n + 1, s => if s.running then turn sim s >>= run sim n else .ok s

end Clock

/-! ## `predict` -/

/-- `Prediction`.  `tPred` is the exact completion ratio; the times of the
operations are rounded to floating point. -/
structure Prediction where
  modelVersion : String
  tPred : Option ℚ
  outputReady : Option ℚ
  startTimes : Dict String ℚ
  endTimes : Dict String ℚ
  events : List ProgressEvent
  segments : List ProgressSegment
  missingComponents : List String
  unavailableOperations : List String
  deriving DecidableEq

/-- `_acyclic`, as far as it may fail. -/
def acyclic (operations : List WorkOperation) : Except Fault Unit :=
  let ids := operations.map (·.operationId)
  Checked.ensure ((Kahn.order ids (fun key =>
      ((operations.find? (fun op => op.operationId = key)).map (·.dependencies)).getD [] |>.toFinset)
      Kahn.fifo).length = ids.length)
    (.semantic "executable dependency cycle")

/-- The resources of an operation that the model does not know. -/
def missingResources (model : CostModel) (op : WorkOperation) : List String :=
  op.resources.filter (fun resource => resource ∉ model.resources.keys)

/-- The service cost of an operation, if the model has one. -/
def serviceCost (model : CostModel) (op : WorkOperation) : Option ServiceCost :=
  op.costKey.bind fun key => model.serviceFor key op.payloadBytes

/-- The components an operation needs and the model lacks. -/
def missingFor (model : CostModel) (op : WorkOperation) : List String :=
  (if op.kind ≠ .nop ∧ serviceCost model op = none then ["service:" ++ op.costKey.getD ""] else []) ++
  (if op.kind = .nop then [] else (missingResources model op).map ("resource:" ++ ·))

/-- One pass of the closure: what depends on an unavailable operation, or shares a
resource with one, is unavailable. -/
def unavailablePass (operations : List WorkOperation) (unavailable : List String) : List String :=
  let affected := (operations.filter (fun op => op.operationId ∈ unavailable)).flatMap (·.resources)
  operations.foldl (fun found op =>
    if op.operationId ∉ found ∧
        ((∃ p ∈ op.dependencies, p ∈ found) ∨ ∃ r ∈ op.resources, r ∈ affected) then
      found ++ [op.operationId]
    else found) unavailable

/-- Passes until nothing changes; every other pass adds an operation. -/
def unavailableFrom (operations : List WorkOperation) : ℕ → List String → List String
  | 0, unavailable => unavailable
  | n + 1, unavailable =>
    let next := unavailablePass operations unavailable
    if next.length = unavailable.length then unavailable else unavailableFrom operations n next

/-- The operations the model cannot price. -/
def unavailableOf (operations : List WorkOperation) (model : CostModel) : List String :=
  unavailableFrom operations operations.length
    ((operations.filter (fun op => missingFor model op ≠ [])).map (·.operationId))

/-- The simulation of an executable under a model. -/
def simulation (executable : Executable) (model : CostModel) : Simulation where
  operations := executable.operations
  costs := executable.operations.filterMap fun op =>
    if op.kind = .nop then none
    else (serviceCost model op).map fun cost => (op.operationId, cost)
  model := model

/-- The loop state at time zero. -/
def initialClock (sim : Simulation) (unavailable : List String) : Clock :=
  let pending := (sim.operations.map (·.operationId)).filter (· ∉ unavailable)
  let degrees := fun key => ((sim.operation? key).map (·.dependencies.length)).getD 0
  { pending := pending
    degrees := degrees
    releases := (pending.filter (fun key => degrees key = 0)).map
      fun key => (sim.releaseTime key, key)
    startup := []
    active := []
    remaining := []
    starts := []
    ends := []
    events := []
    segments := []
    now := 0 }

/-- Turns the loop may take: three stages for each operation, and a turn without
progress before each. -/
def turnLimit (sim : Simulation) : ℕ := 6 * sim.operations.length + 2

/-- `predict`, in exact mode.  `asFloat` rounds a rational to floating point. -/
def predict (asFloat : ℚ → ℚ) (executable : Executable) (model : CostModel) :
    Except Fault Prediction := do
  Checked.ensure (executable.context = model.context)
    (.semantic "cost model applicability context differs from the executable")
  acyclic executable.operations
  let sim := simulation executable model
  let unavailable := unavailableOf executable.operations model
  let last ← Clock.run sim (turnLimit sim) (initialClock sim unavailable)
  let outputs ← if ∃ x ∈ executable.outputOperations, x ∈ unavailable then pure none
    else do
      let ends ← executable.outputOperations.mapM fun x =>
        Checked.required (last.ends.get? x) (.missing x)
      pure (some (ends.foldl max 0))
  return {
    modelVersion := model.version
    tPred := if unavailable = [] then some (last.ends.values.foldl max 0) else none
    outputReady := outputs
    startTimes := last.starts.map fun e => (e.1, asFloat e.2)
    endTimes := last.ends.map fun e => (e.1, asFloat e.2)
    events := last.events.map fun event => { event with time := asFloat event.time }
    segments := last.segments.map fun segment =>
      ⟨segment.operationId, asFloat segment.start, asFloat segment.stop, asFloat segment.rate⟩
    missingComponents := sortStrings (executable.operations.flatMap (missingFor model)).dedup
    unavailableOperations := sortStrings unavailable }

end VeriCCL
