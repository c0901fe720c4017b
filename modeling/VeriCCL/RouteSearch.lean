import VeriCCL.RouteSemantics
import Mathlib.Algebra.Order.Floor.Ring
import Mathlib.Data.Rat.Floor

/-! # The search for routes

`RouteSearch` of `solver/trees/operators.py`.  Demands with one group key share their columns.
`expand` takes columns from the generators of the groups, and `solve` lets a solver say how many
demands of a group take each of them; its answer is free.  What links and resources take for a byte
is a parameter. -/
namespace VeriCCL

/-- `RouteContext.column_batch_size`. -/
structure RouteContext where
  columnBatchSize : ℕ := 8
  positive : 0 < columnBatchSize := by decide

/-- A group of demands: what its generator still has, and the columns that came out of it. -/
structure RouteGroup where
  demands : List RoutingDemand
  generator : RouteColumns
  columns : List Route := []
  complete : Bool := false

/-- The exact loads of a route. -/
structure RouteLoads where
  links : Dict (ℕ × ℕ) ℕ
  resources : Dict String ℕ

/-- `RouteSearch`. -/
structure RouteSearch where
  groups : List RouteGroup
  incumbent : Option RouteBundle := none
  columnData : Dict Route RouteLoads := []

/-- The key of a group. -/
abbrev GroupKey := RouteMode × Option ℕ × List ℕ × List (ℕ × ℕ × ℕ × ℕ)

instance instDecidableEqDestinations : DecidableEq (List ℕ × List (ℕ × ℕ × ℕ × ℕ)) := inferInstance

instance instDecidableEqSource : DecidableEq (Option ℕ × List ℕ × List (ℕ × ℕ × ℕ × ℕ)) :=
  inferInstance

/-! ## `RouteSearch.__init__` -/

/-- `groups`, by their keys. -/
def groupDemands (inputs : ResolvedInput) (demands : List RoutingDemand) :
    Except Fault (Dict GroupKey (List RoutingDemand)) :=
  demands.foldlM (fun groups demand => do
    let key ← groupKey inputs demand
    return groups.set key ((groups.get? key).getD [] ++ [demand])) []

/-- A group at the start: its generator is that of its first demand. -/
def RouteGroup.start (inputs : ResolvedInput) (topology : Topology) (demands : List RoutingDemand) :
    RouteGroup where
  demands := demands
  generator := match demands with
    | [] => ⟨[], none⟩
    | first :: _ => VeriCCL.columns inputs topology first

/-- `RouteSearch.__init__`. -/
def RouteSearch.init (inputs : ResolvedInput) (topology : Topology) (demands : List RoutingDemand) :
    Except Fault RouteSearch := do
  let groups ← groupDemands inputs demands
  return { groups := groups.map fun entry => .start inputs topology entry.2 }

/-! ## `RouteSearch.expand` -/

/-- The inner loop: a batch of columns, or fewer if the generator ends. -/
def RouteGroup.takeColumns : ℕ → RouteGroup → Except Fault RouteGroup
  | 0, group => .ok group
  | count + 1, group =>
    match group.generator.routes with
    | route :: routes => takeColumns count { group with
        generator := { group.generator with routes := routes }
        columns := group.columns ++ [route] }
    | [] => match group.generator.fault with
      | some fault => .error fault
      | none => .ok { group with complete := true }

/-- One turn of the outer loop. -/
def RouteGroup.expand (context : RouteContext) (group : RouteGroup) : Except Fault RouteGroup :=
  if group.complete then .ok group
  else do
    let group ← group.takeColumns context.columnBatchSize
    Checked.ensure (group.columns ≠ [] ∨ group.complete = false)
      (.semantic "complete route-column space cannot satisfy a slice demand")
    return group

/-- `RouteSearch.expand`.  A group that is not complete gets a column, or becomes complete. -/
def RouteSearch.expand (context : RouteContext) (search : RouteSearch) :
    Except Fault (RouteSearch × Bool) := do
  let groups ← search.groups.mapM (RouteGroup.expand context)
  return ({ search with groups := groups }, search.groups.any fun group => !group.complete)

/-! ## Loads and capacities -/

/-- `Counter(items)`. -/
def counter {α : Type} [DecidableEq α] (items : List α) : Dict α ℕ :=
  items.foldl (fun counts item => counts.set item ((counts.get? item).getD 0 + 1)) []

/-- `Counter.update`, of counts that are taken several times. -/
def addCounts {α : Type} [DecidableEq α] (total counts : Dict α ℕ) (copies : ℕ) : Dict α ℕ :=
  counts.foldl (fun total entry =>
    total.set entry.1 ((total.get? entry.1).getD 0 + entry.2 * copies)) total

/-- `_loads`. -/
def routeLoads (topology : Topology) (route : Route) : Except Fault RouteLoads := do
  let links ← route.edges.mapM fun edge => topology.link edge.1 edge.2
  return { links := counter route.edges, resources := counter (links.flatMap (·.resourceIds)) }

/-- What a topology declares of its links and its shared resources. -/
structure RouteCosts where
  beta : Dict (ℕ × ℕ) (Option ℚ)
  capacity : Dict String (Option ℚ)
  beta_distinct : beta.Distinct := by decide
  capacity_distinct : capacity.Distinct := by decide

/-- What a slice takes on links and on shared resources. -/
structure SliceTimes where
  links : Dict (ℕ × ℕ) ℚ
  resources : Dict String ℚ

/-- `_capacities`. -/
def routeCapacities (costs : RouteCosts) (size : ℕ) : Except Fault SliceTimes := do
  let links ← costs.beta.mapM fun entry => do
    let beta ← Checked.required entry.2
      (.semantic "constructive routing requires a declared per-byte link cost")
    return (entry.1, beta * (size : ℚ))
  let resources ← costs.capacity.mapM fun entry => do
    let capacity ← Checked.required entry.2
      (.semantic "constructive routing requires explicit shared-resource capacity")
    return (entry.1, (size : ℚ) / capacity)
  return { links := links, resources := resources }

/-! ## `_bundle` -/

/-- Some demands, and the route that they take. -/
structure RouteAllocation where
  demandIds : List String
  route : Route

/-- The times of counts. -/
def countTimes {α : Type} [DecidableEq α] [ToString α] (times : Dict α ℚ) (counts : Dict α ℕ) :
    Except Fault (List ℚ) :=
  counts.mapM fun entry => do
    let time ← Checked.required (times.get? entry.1) (.missing (toString entry.1))
    return time * entry.2

section Bundle
variable (inputs : ResolvedInput) (topology : Topology) (costs : RouteCosts)
  (demands : List RoutingDemand)

/-- The operations of an allocation. -/
def allocatedOperations (allocation : RouteAllocation) : Except Fault (List RouteOperation) := do
  let operations ← allocation.demandIds.mapM fun identifier => do
    let demand ← Checked.required
      ((Dict.ofList (demands.map fun demand => (demand.demandId, demand))).get? identifier)
      (.missing identifier)
    physicalOperation inputs topology demand allocation.route
  return operations.flatten

/-- `_bundle`. -/
def routeBundle (allocations : List RouteAllocation) (complete : Bool) (generated : ℕ) (scope : String) :
    Except Fault RouteBundle := do
  let parts ← allocations.mapM fun allocation => do
    let loads ← routeLoads topology allocation.route
    let operations ← allocatedOperations inputs topology demands allocation
    return (loads, allocation.demandIds.length, operations)
  let linkCounts := parts.foldl (fun total part => addCounts total part.1.links part.2.1) []
  let resourceCounts := parts.foldl (fun total part => addCounts total part.1.resources part.2.1) []
  let times ← routeCapacities costs inputs.sliceSizeBytes
  let linkTimes ← countTimes times.links linkCounts
  let resourceTimes ← countTimes times.resources resourceCounts
  let bandwidth := maxDefault 0 (0 :: (linkTimes ++ resourceTimes))
  let bundle : RouteBundle := {
    inputs := inputs
    topology := topology
    demands := demands
    batches := allocations.mapIdx fun i allocation =>
      { batchId := "batch-" ++ paddedText i
        demandIds := allocation.demandIds
        route := allocation.route }
    operations := parts.flatMap fun part => part.2.2
    linkLoadBytes := linkCounts.map fun entry => (entry.1, entry.2 * inputs.sliceSizeBytes)
    resourceLoadBytes := resourceCounts.map fun entry => (entry.1, entry.2 * inputs.sliceSizeBytes)
    bandwidthTimeRatio := (bandwidth.num, bandwidth.den)
    routingScope := scope
    columnSpaceComplete := complete
    generatedColumns := generated }
  checkRoutedSemantics bundle
  return bundle

end Bundle

/-! ## `RouteSearch.solve` -/

/-- The values of a solver's solution, by the names of variables.  A value that is no number, or
is not finite, is `none`. -/
abbrev Solution := Dict String (Option ℚ)

/-- `round(value)`: halves go to even numbers. -/
def roundHalfEven (value : ℚ) : ℤ :=
  if value - ⌊value⌋ < 1 / 2 then ⌊value⌋
  else if 1 / 2 < value - ⌊value⌋ then ⌊value⌋ + 1
  else if ⌊value⌋ % 2 = 0 then ⌊value⌋ else ⌊value⌋ + 1

/-- The name of the variable of a column. -/
def copiesName (group column : ℕ) : String := "copies-" ++ toString group ++ "-" ++ toString column

/-- `_column`, with its cache. -/
def columnLoads (topology : Topology) (data : Dict Route RouteLoads) (route : Route) :
    Except Fault (RouteLoads × Dict Route RouteLoads) :=
  match data.get? route with
  | some loads => .ok (loads, data)
  | none => do
    let loads ← routeLoads topology route
    return (loads, data.set route loads)

/-- The loads of columns. -/
def columnsLoads (topology : Topology) :
    Dict Route RouteLoads → List Route → Except Fault (List RouteLoads × Dict Route RouteLoads)
  | data, [] => .ok ([], data)
  | data, route :: routes => do
    let (loads, data) ← columnLoads topology data route
    let (rest, data) ← columnsLoads topology data routes
    return (loads :: rest, data)

/-- The loads of the columns of groups, of which each has one. -/
def groupsLoads (topology : Topology) : Dict Route RouteLoads → List RouteGroup →
    Except Fault (List (List RouteLoads) × Dict Route RouteLoads)
  | data, [] => .ok ([], data)
  | data, group :: groups => do
    Checked.ensure (group.columns ≠ []) (.semantic "no feasible route column was generated")
    let (loads, data) ← columnsLoads topology data group.columns
    let (rest, data) ← groupsLoads topology data groups
    return (loads :: rest, data)

/-- What counts of columns add up to. -/
def totalCount {α : Type} [DecidableEq α] (key : α) (columns : List (Dict α ℕ × ℕ)) : ℕ :=
  (columns.map fun column => (column.1.get? key).getD 0 * column.2).sum

/-- `cost`: the time of the link or the resource that takes longest. -/
def countsCost (times : SliceTimes) (loads : List (List RouteLoads)) (counts : List (List ℕ)) : ℚ :=
  let columns := (loads.zip counts).flatMap fun row => row.1.zip row.2
  maxDefault 0 (0 :: ((times.links.map fun entry => entry.2 *
      (totalCount entry.1 (columns.map fun column => (column.1.links, column.2)) : ℚ)) ++
    times.resources.map fun entry => entry.2 *
      (totalCount entry.1 (columns.map fun column => (column.1.resources, column.2)) : ℚ)))

/-- `initial`: all demands of a group take its first column, or what they took before. -/
def initialCounts (search : RouteSearch) : Except Fault (List (List ℕ)) :=
  match search.incumbent with
  | none => .ok (search.groups.map fun group =>
      group.columns.mapIdx fun j _ => if j = 0 then group.demands.length else 0)
  | some incumbent => do
    let previous := Dict.ofList incumbent.items
    search.groups.mapM fun group => do
      let taken ← group.demands.mapM fun demand =>
        Checked.required (previous.get? demand.demandId) (.missing demand.demandId)
      return group.columns.map fun route => taken.count route

/-- `proposed`: the rounded values of the variables. -/
def proposedCounts (search : RouteSearch) (solution : Solution) : Except Fault (List (List ℤ)) :=
  search.groups.zipIdx.mapM fun group => group.1.columns.zipIdx.mapM fun column => do
    let value ← Checked.required (solution.get? (copiesName group.2 column.2))
      (.missing (copiesName group.2 column.2))
    let value ← Checked.required value (.semantic "cannot convert float to integer")
    return roundHalfEven value

/-- `valid`. -/
def validCounts (search : RouteSearch) (proposed : List (List ℤ)) : Prop :=
  ∀ row ∈ search.groups.zip proposed, (∀ value ∈ row.2, 0 ≤ value ∧ value ≤ row.1.demands.length) ∧
    row.2.sum = row.1.demands.length

instance (search : RouteSearch) (proposed : List (List ℤ)) : Decidable (validCounts search proposed) :=
  inferInstanceAs (Decidable (∀ row ∈ search.groups.zip proposed, _ ∧ _))

/-- The proposal of an answer if it is valid and costs no more, else the initial counts.  A solver
without a solution answers `none`. -/
def chosenCounts (search : RouteSearch) (times : SliceTimes) (loads : List (List RouteLoads))
    (answer : Option Solution) : Except Fault (List (List ℕ)) := do
  let initial ← initialCounts search
  match answer with
  | none => return initial
  | some solution => do
    let proposed ← proposedCounts search solution
    if validCounts search proposed ∧ countsCost times loads (proposed.map (·.map Int.toNat)) ≤
        countsCost times loads initial then
      return proposed.map (·.map Int.toNat)
    else return initial

/-- The slices of a group's demands, from the cursor on. -/
def allocateDemands : List RoutingDemand → List (Route × ℕ) → List RouteAllocation
  | _, [] => []
  | demands, (route, count) :: rest =>
    if count = 0 then allocateDemands demands rest
    else ⟨(demands.take count).map (·.demandId), route⟩ :: allocateDemands (demands.drop count) rest

/-- `RouteSearch.solve`. -/
def RouteSearch.solve (inputs : ResolvedInput) (topology : Topology) (costs : RouteCosts)
    (demands : List RoutingDemand) (answer : Option Solution) (search : RouteSearch) :
    Except Fault (RouteSearch × RouteBundle) := do
  let times ← routeCapacities costs inputs.sliceSizeBytes
  let (loads, data) ← groupsLoads topology search.columnData search.groups
  let chosen ← chosenCounts search times loads answer
  let allocations := (search.groups.zip chosen).flatMap fun row =>
    allocateDemands row.1.demands (row.1.columns.zip row.2)
  let bundle ← routeBundle inputs topology costs demands allocations
    (search.groups.all (·.complete)) (search.groups.map (·.columns.length)).sum "integer_route_columns"
  return ({ search with incumbent := some bundle, columnData := data }, bundle)

end VeriCCL
