import VeriCCL.RouteColumns

/-! # What routes do

A demand's operations work on what every rank holds of its slice: a reduction adds what its
source holds to what its target holds, a send replaces it.  They may run in any order that
keeps to their dependencies (`LinearExtension`); an order is right (`Delivers`) when every
operation reads what it records, no contribution is added twice, and in the end the
destinations hold the demand's contributions.

`check_routed_semantics` of `solver/trees/operators.py` replays one order
(`checkRoutedSemantics`). -/
namespace VeriCCL

/-- `RouteBatch`. -/
structure RouteBatch where
  batchId : String
  demandIds : List String
  route : Route
  deriving DecidableEq

/-- `RouteBundle`. -/
structure RouteBundle where
  inputs : ResolvedInput
  topology : Topology
  demands : List RoutingDemand
  batches : List RouteBatch
  operations : List RouteOperation
  linkLoadBytes : Dict (ℕ × ℕ) ℕ := []
  resourceLoadBytes : Dict String ℕ := []
  bandwidthTimeRatio : ℤ × ℕ := (0, 1)
  routingScope : String := ""
  columnSpaceComplete : Bool := false
  generatedColumns : ℕ := 0

/-! ## Execution in any order -/

/-- What the ranks hold of a slice before its operations. -/
def RoutingDemand.initialStates (demand : RoutingDemand) (inputs : ResolvedInput) (rank : ℕ) :
    Option (Finset ℕ) :=
  match demand.mode with
  | .broadcast | .path => if demand.sourceRank = some rank then some demand.contributors else none
  | _ => if rank < inputs.rankCount then some (ownContribution inputs demand rank) else none

/-- An operation takes what its source holds now. -/
def RouteOperation.execute (states : ℕ → Option (Finset ℕ)) (op : RouteOperation) :
    ℕ → Option (Finset ℕ) :=
  match op.kind with
  | .rrc => Function.update states op.edge.2
      (some ((states op.edge.2).getD ∅ ∪ (states op.edge.1).getD ∅))
  | .send => Function.update states op.edge.2 (states op.edge.1)

/-- An order of operations that keeps to their dependencies. -/
structure LinearExtension (operations order : List RouteOperation) : Prop where
  perm : order.Perm operations
  sorted : ∀ l op r, order = l ++ op :: r →
    ∀ identifier ∈ op.dependencies, identifier ∈ l.map (·.operationId)

/-- An operation reads what it records, and a reduction adds nothing that is already there. -/
structure RouteOperation.ReadsRecorded (op : RouteOperation) (states : ℕ → Option (Finset ℕ)) :
    Prop where
  source : states op.edge.1 = some op.contributors
  once : op.kind = .rrc → ∃ prior, states op.edge.2 = some prior ∧ Disjoint prior op.contributors

/-- An order in which a demand's operations are right. -/
structure RoutingDemand.Delivers (demand : RoutingDemand) (inputs : ResolvedInput)
    (order : List RouteOperation) : Prop where
  reads : ∀ l op r, order = l ++ op :: r →
    op.ReadsRecorded (l.foldl RouteOperation.execute (demand.initialStates inputs))
  ends : ∀ rank ∈ demand.destinations,
    order.foldl RouteOperation.execute (demand.initialStates inputs) rank = some demand.contributors

/-! ## `check_routed_semantics` -/

/-- The demands that batches carry, each with its route. -/
def RouteBundle.items (bundle : RouteBundle) : List (String × Route) :=
  bundle.batches.flatMap fun batch => batch.demandIds.map fun identifier => (identifier, batch.route)

/-- The operations of a demand that a batch carries. -/
def RouteBundle.itemOperations (bundle : RouteBundle) (item : String × Route) :
    Except Fault (List RouteOperation) := do
  let demand ← Checked.required
    (bundle.demands.find? fun demand => demand.demandId = item.1) (.missing item.1)
  physicalOperation bundle.inputs bundle.topology demand item.2

/-- `canonical`: the operations of all routes, by identity. -/
def canonicalOperations (bundle : RouteBundle) : Except Fault (Dict String RouteOperation) := do
  let operations ← bundle.items.mapM bundle.itemOperations
  return Dict.ofList (operations.flatten.map fun op => (op.operationId, op))

/-- One operation of the replay. -/
def replayRouteOperation (inputs : ResolvedInput) (topology : Topology) (constraints : ConstraintSet)
    (states : ℕ → Option (Finset ℕ)) (op : RouteOperation) :
    Except Fault (ℕ → Option (Finset ℕ)) := do
  Checked.ensure (states op.edge.1 = some op.contributors)
    (.semantic "routed transfer reads unavailable source contributions")
  Checked.ensure (op.payloadBytes = inputs.sliceSizeBytes)
    (.semantic "route payload must be exactly one whole slice")
  let link ← topology.link op.edge.1 op.edge.2
  Checked.ensure (op.resources = link.resourceIds)
    (.semantic "route resources must match the actual directed link")
  let allowed ← constraints.allows (sourceRanges inputs op.contributors) op.edge.1 op.edge.2 op.stageId
  Checked.ensure (allowed = true) (.semantic "route violates a source-byte directed-edge constraint")
  match op.kind with
  | .rrc =>
    let prior := (states op.edge.2).getD ∅
    Checked.ensure (prior ≠ ∅ ∧ Disjoint prior op.contributors)
      (.semantic "routed reduction repeats or lacks a contribution")
    return Function.update states op.edge.2 (some (prior ∪ op.contributors))
  | .send => return Function.update states op.edge.2 (some op.contributors)

/-- The replay: all operations whose dependencies are done, in the order of their identities,
and again.  A round takes an operation at least. -/
def replayRounds (inputs : ResolvedInput) (topology : Topology) (constraints : ConstraintSet) :
    ℕ → List RouteOperation → List String → (ℕ → Option (Finset ℕ)) →
      Except Fault (ℕ → Option (Finset ℕ))
  | _, [], _, states => .ok states
  | 0, _ :: _, _, _ => .error (.semantic "out of fuel")
  | fuel + 1, pending, done, states => do
    let ready := (pending.filter fun op => op.dependencies ⊆ done.toFinset).mergeSort
      fun a b => decide (a.operationId ≤ b.operationId)
    Checked.ensure (ready ≠ []) (.semantic "route dependencies are cyclic or missing")
    let states ← ready.foldlM (replayRouteOperation inputs topology constraints) states
    replayRounds inputs topology constraints fuel (pending.filter (· ∉ ready))
      (done ++ ready.map (·.operationId)) states

/-- The replay of a demand. -/
def replayDemand (inputs : ResolvedInput) (topology : Topology) (constraints : ConstraintSet)
    (demand : RoutingDemand) (operations : List RouteOperation) : Except Fault Unit := do
  let states ← replayRounds inputs topology constraints operations.length operations []
    (demand.initialStates inputs)
  Checked.ensure (∀ rank ∈ demand.destinations, states rank = some demand.contributors)
    (.semantic "route does not produce every required output contribution")

/-- The operations of a demand. -/
def RouteBundle.operationsOf (bundle : RouteBundle) (demand : RoutingDemand) : List RouteOperation :=
  bundle.operations.filter fun op => op.demandId = demand.demandId

/-- `check_routed_semantics`. -/
def checkRoutedSemantics (bundle : RouteBundle) : Except Fault Unit := do
  let demandIds : List String := bundle.demands.map (·.demandId)
  Checked.ensure demandIds.Nodup (.semantic "route demand identities must be unique")
  let assigned : List String := bundle.batches.flatMap (·.demandIds)
  Checked.ensure (assigned.Nodup ∧ assigned.toFinset = demandIds.toFinset)
    (.semantic "route batches must assign each complete slice demand exactly once")
  let identities : List String := bundle.operations.map (·.operationId)
  Checked.ensure identities.Nodup (.semantic "route operation identities must be unique")
  let canonical ← canonicalOperations bundle
  Checked.ensure (Dict.Same (bundle.operations.map fun op => (op.operationId, op)) canonical)
    (.semantic "route operations or data dependencies disagree with the fixed routes")
  let constraints ← bindConstraints bundle.inputs
  forM bundle.demands fun demand =>
    replayDemand bundle.inputs bundle.topology constraints demand (bundle.operationsOf demand)
  let slots := bundle.demands.flatMap fun demand =>
    demand.outputSlots.map fun slot => (slot, demand.contributors)
  Checked.ensure ((Dict.ofList slots).length = (bundle.demands.map (·.outputSlots.length)).sum)
    (.semantic "routed demand output slots must be unique")
  let required ← requiredOutputs bundle.inputs.collective bundle.inputs.rankCount
    bundle.inputs.sliceCount
  Checked.ensure (Dict.Same (Dict.ofList slots) required)
    (.semantic "route demand interfaces differ from collective output semantics")

end VeriCCL
