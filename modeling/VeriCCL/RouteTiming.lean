import VeriCCL.LazyQueue
import VeriCCL.RouteOperations

/-! # Times of routed operations

`_earliest` and `_initial` of `solver/trees/timing.py`, over exact times.  `_initial` is a
list scheduler: of the operations whose dependencies are finished, one is put on a channel,
where its start is the latest finish of its dependencies and of the operations that were last
on the same link, resource and accumulator.  It chooses with a lazy queue of groups
(`_ReadyGroup`), which is `LazyQueue` for the problem of this module; `naive` scans all
choices instead. -/
namespace VeriCCL

/-- `RoutedSchedule`. -/
structure RoutedSchedule where
  operations : List RouteOperation
  channels : Dict String ℕ
  dependencies : Dict String (Finset String)
  startUs : Dict String ℚ
  finishUs : Dict String ℚ

/-- The checks of `_dependency_graph`. -/
def checkDependencies (operations : List RouteOperation) (dependencies : String → Finset String) :
    Except String Unit :=
  forM operations fun op : RouteOperation =>
    Checked.ensure (∀ p ∈ dependencies op.operationId, p ∈ operations.map (·.operationId))
      "fixed-route decisions contain a missing dependency"

/-! ## `_earliest` -/

/-- The latest of some finishes, `max((finish[p] for p in predecessors), default=0.)`. -/
def latestFinish (finish : Dict String ℚ) (predecessors : Finset String) : ℚ :=
  maxDefault 0 ((predecessors.sort (· ≤ ·)).map fun p => (finish.get? p).getD 0)

/-- One visit of the loop: an operation starts when its dependencies are finished. -/
def visitEarliest (dependencies : String → Finset String) (durations : String → ℚ)
    (times : Dict String ℚ × Dict String ℚ) (identifier : String) : Dict String ℚ × Dict String ℚ :=
  let start := latestFinish times.2 (dependencies identifier)
  (times.1.set identifier start, times.2.set identifier (start + durations identifier))

/-- `_earliest`.  The order of its visits does not depend on times. -/
def earliest (operations : List RouteOperation) (channels : Dict String ℕ)
    (dependencies : Dict String (Finset String)) (durations : String → ℚ) :
    Except String RoutedSchedule := do
  let preds := fun identifier => (dependencies.get? identifier).getD ∅
  forM operations fun op : RouteOperation => Checked.ensure (op.operationId ∈ dependencies.keys) "KeyError"
  checkDependencies operations preds
  let identifiers := operations.map (·.operationId)
  let order := Kahn.order identifiers preds Kahn.fifo
  let times := order.foldl (visitEarliest preds durations) ([], [])
  Checked.ensure (times.2.length = identifiers.length)
    "fixed-route execution decisions contain a dependency cycle"
  return {
    operations := operations
    channels := channels
    dependencies := dependencies
    startUs := times.1
    finishUs := times.2 }

/-! ## `_initial` -/

/-- `_resource_keys`: what an operation occupies on a channel. -/
inductive ResourceKey where
  | edge (edge : ℕ × ℕ) (channel : ℕ)
  | resource (resource : String) (channel : ℕ)
  | accumulator (demandId : String) (rank : ℕ)
  deriving DecidableEq

/-- `_resource_keys`. -/
def resourceKeys (op : RouteOperation) (channel : ℕ) : List ResourceKey :=
  .edge op.edge channel ::
    ((op.resources.toFinset.sort (· ≤ ·)).map fun resource => .resource resource channel) ++
    if op.kind = .rrc then [.accumulator op.demandId op.edge.2] else []

/-- What has been scheduled: `selected, dependencies, starts, finishes, tails`. -/
structure Timeline where
  selected : Dict String ℕ := []
  dependencies : Dict String (Finset String) := []
  starts : Dict String ℚ := []
  finishes : Dict String ℚ := []
  tails : Dict ResourceKey String := []

namespace Timeline

/-- The operations that were last on some keys. -/
def tailsOf (t : Timeline) (keys : List ResourceKey) : List String := keys.filterMap t.tails.get?

/-- The latest finish on some keys. -/
def frontier (t : Timeline) (keys : List ResourceKey) : ℚ :=
  maxDefault 0 ((t.tailsOf keys).map fun tail => (t.finishes.get? tail).getD 0)

/-- The timeline after an operation has been put on a channel. -/
def place (t : Timeline) (dependencies : Finset String) (keys : List ResourceKey) (channel : ℕ)
    (duration start : ℚ) (identifier : String) : Timeline where
  selected := t.selected.set identifier channel
  dependencies := t.dependencies.set identifier (dependencies ∪ (t.tailsOf keys).toFinset)
  starts := t.starts.set identifier start
  finishes := t.finishes.set identifier (start + duration)
  tails := keys.foldl (fun tails key => tails.set key identifier) t.tails

end Timeline

/-- The signature of a `_ReadyGroup`. -/
structure ReadySite where
  keys : List ResourceKey
  channel : ℕ
  duration : ℚ
  deriving DecidableEq

/-- The key of a choice: its finish, its start, its operation and its channel. -/
abbrev ReadyKey := ℚ ×ₗ (ℚ ×ₗ (String ×ₗ ℕ))

section Initial
variable (operations : List RouteOperation) (domains : String → List ℕ) (durations : String → ℚ)

/-- The operation of an identifier. -/
def operationOf (identifier : String) : Option RouteOperation :=
  operations.find? fun op => op.operationId = identifier

/-- `operations[identifier].dependencies`. -/
def dependenciesOf (identifier : String) : Finset String :=
  ((operationOf operations identifier).map (·.dependencies)).getD ∅

/-- The groups of an operation: one for each channel of its domain. -/
def sitesOf (identifier : String) : List ReadySite :=
  match operationOf operations identifier with
  | none => []
  | some op => (domains identifier).map fun channel =>
      { keys := resourceKeys op channel, channel := channel, duration := durations identifier }

/-- What `_initial` schedules. -/
def initialProblem : LazyQueue.Problem Timeline ReadySite String String ℚ ReadyKey where
  items := operations.map (·.operationId)
  preds := dependenciesOf operations
  sites := sitesOf operations domains durations
  release t identifier := latestFinish t.finishes (dependenciesOf operations identifier)
  tail _ identifier := identifier
  ident := id
  frontier t site := t.frontier site.keys
  key site start identifier :=
    toLex (start + site.duration, toLex (start, toLex (identifier, site.channel)))
  taken t identifier := decide (identifier ∈ t.finishes.keys)
  place t site start identifier :=
    t.place (dependenciesOf operations identifier) site.keys site.channel site.duration start identifier

/-- The schedule of a timeline, if it has all operations. -/
def scheduleOf (t : Timeline) : Except String RoutedSchedule := do
  Checked.ensure (t.finishes.length = operations.length)
    "fixed-route operation dependencies cannot be scheduled"
  return {
    operations := operations
    channels := t.selected
    dependencies := t.dependencies
    startUs := t.starts
    finishUs := t.finishes }

/-- `_initial`. -/
def initial (fuel : ℕ) : Except String RoutedSchedule := do
  checkDependencies operations (dependenciesOf operations)
  let problem := initialProblem operations domains durations
  let last ← Checked.required (problem.run fuel (problem.start {})) "out of fuel"
  scheduleOf operations last.env

end Initial

end VeriCCL
