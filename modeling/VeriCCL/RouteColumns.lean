import VeriCCL.RouteOperations
import VeriCCL.Ranges
import Mathlib.Data.Finset.Sort
import Mathlib.Data.List.Lex
import Mathlib.Logic.Function.Basic

/-! # Demands and their routes

`solver/trees/operators.py`: the demands of a request, the routes that may serve them
(`columns`, in the order of the generator `_columns`), and the operations of a route
(`physicalOperation`).  An operation's dependencies are identities. -/
namespace VeriCCL

/-! ## Demands -/

/-- `'%08d' % i`. -/
def paddedText (i : ℕ) : String :=
  String.ofList (List.replicate (8 - (toString i).length) '0') ++ toString i

/-- The order of edges. -/
def edgeLe (a b : ℕ × ℕ) : Bool := decide (a.1 < b.1 ∨ a.1 = b.1 ∧ a.2 ≤ b.2)

/-- `sorted(edges)`. -/
def sortEdges (edges : List (ℕ × ℕ)) : List (ℕ × ℕ) := edges.mergeSort edgeLe

theorem sortEdges_perm (edges : List (ℕ × ℕ)) : (sortEdges edges).Perm edges :=
  List.mergeSort_perm _ _

@[simp] theorem mem_sortEdges {edges : List (ℕ × ℕ)} {e : ℕ × ℕ} : e ∈ sortEdges edges ↔ e ∈ edges :=
  (sortEdges_perm edges).mem_iff

/-- The order of output slots. -/
def OutputSlot.le (a b : OutputSlot) : Bool :=
  decide (a.rank < b.rank ∨ a.rank = b.rank ∧ a.offset ≤ b.offset)

/-- `min(contributors)`. -/
def leastContribution (contributors : Finset ℕ) : ℕ := contributors.min.untopD 0

/-- The mode of a collective's demands. -/
def CollectiveKind.routeMode : CollectiveKind → RouteMode
  | .allReduce => .allreduce
  | .reduce | .reduceScatter => .reduce
  | .allToAll => .path
  | _ => .broadcast

/-- The slots that need the same contributions. -/
def groupedOutputs (outputs : Dict OutputSlot (Finset ℕ)) : Dict (Finset ℕ) (List OutputSlot) :=
  outputs.foldl (fun grouped entry =>
    grouped.set entry.2 ((grouped.get? entry.2).getD [] ++ [entry.1])) []

/-- The demand of a group. -/
def RoutingDemand.ofGroup (inputs : ResolvedInput) (i : ℕ) (group : Finset ℕ × List OutputSlot) :
    RoutingDemand where
  demandId := "d-" ++ paddedText i
  mode := inputs.collective.kind.routeMode
  logicalPosition := leastContribution group.1 % inputs.sliceCount
  contributors := group.1
  sourceRank :=
    if group.1.card = 1 then some (leastContribution group.1 / inputs.sliceCount) else none
  destinations := (group.2.map (·.rank)).toFinset.sort (· ≤ ·)
  outputSlots := group.2.mergeSort OutputSlot.le

/-- `routing_demands`. -/
def routingDemands (inputs : ResolvedInput) : Except Fault (List RoutingDemand) := do
  let outputs ← requiredOutputs inputs.collective inputs.rankCount inputs.sliceCount
  let groups := (groupedOutputs outputs).mergeSort fun a b =>
    decide (a.1.sort (· ≤ ·) ≤ b.1.sort (· ≤ ·))
  return groups.mapIdx (RoutingDemand.ofGroup inputs)

/-! ## Operations of a route -/

/-- The identity of a reduction. -/
def reductionId (demand : RoutingDemand) (edge : ℕ × ℕ) : String :=
  demand.demandId ++ ("-r-" ++ toString edge.1 ++ "-" ++ toString edge.2)

/-- The identity of a send. -/
def sendId (demand : RoutingDemand) (edge : ℕ × ℕ) : String :=
  demand.demandId ++ ("-s-" ++ toString edge.1 ++ "-" ++ toString edge.2)

/-- What the loop over the reduction edges keeps. -/
structure Reduction where
  operations : List RouteOperation
  incoming : ℕ → List String
  contributors : Dict ℕ (Finset ℕ)

/-- What the loop over the send edges keeps. -/
structure Distribution where
  operations : List RouteOperation
  readyRanks : Finset ℕ
  preceding : ℕ → Finset String

section Physical
variable (inputs : ResolvedInput) (topology : Topology) (demand : RoutingDemand)

/-- The stage of sends. -/
def sendStage : ℕ := if demand.mode = .allreduce ∧ inputs.stageNum ≠ some 1 then 1 else 0

/-- One reduction: its source has all that comes into it. -/
def reduceEdge (s : Reduction) (edge : ℕ × ℕ) : Except Fault Reduction := do
  let held ← Checked.required (s.contributors.get? edge.1) (.missing (toString edge.1))
  let link ← topology.link edge.1 edge.2
  let prior ← Checked.required (s.contributors.get? edge.2) (.missing (toString edge.2))
  return {
    operations := s.operations ++ [{
      operationId := reductionId demand edge
      demandId := demand.demandId
      kind := .rrc
      edge := edge
      logicalPosition := demand.logicalPosition
      contributors := held
      payloadBytes := inputs.sliceSizeBytes
      stageId := 0
      dependencies := (s.incoming edge.1).toFinset
      resources := link.resourceIds }]
    incoming := Function.update s.incoming edge.2 (s.incoming edge.2 ++ [reductionId demand edge])
    contributors := s.contributors.set edge.2 (prior ∪ held) }

/-- The loop over the reduction edges: edges whose source waits for no other edge are ready.
A round takes an edge at least, so there are no more rounds than edges. -/
def reduceRounds : ℕ → List (ℕ × ℕ) → Reduction → Except Fault Reduction
  | _, [], s => .ok s
  | 0, _ :: _, _ => .error (.semantic "out of fuel")
  | fuel + 1, pending, s => do
    let ready := sortEdges (pending.filter fun e => ∀ other ∈ pending, other.2 ≠ e.1)
    Checked.ensure (ready ≠ []) (.semantic "reduction route contains a directed cycle")
    let s ← ready.foldlM (reduceEdge inputs topology demand) s
    reduceRounds fuel (pending.filter (· ∉ ready.toFinset)) s

/-- One send: it follows what brought the whole to its source. -/
def sendEdge (s : Distribution) (edge : ℕ × ℕ) : Except Fault Distribution := do
  Checked.ensure (edge.2 ∉ s.readyRanks)
    (.semantic "distribution route has multiple parents or a cycle")
  let link ← topology.link edge.1 edge.2
  return {
    operations := s.operations ++ [{
      operationId := sendId demand edge
      demandId := demand.demandId
      kind := .send
      edge := edge
      logicalPosition := demand.logicalPosition
      contributors := demand.contributors
      payloadBytes := inputs.sliceSizeBytes
      stageId := sendStage inputs demand
      dependencies := s.preceding edge.1
      resources := link.resourceIds }]
    readyRanks := insert edge.2 s.readyRanks
    preceding := Function.update s.preceding edge.2 {sendId demand edge} }

/-- The loop over the send edges: edges out of reached ranks are ready. -/
def sendRounds : ℕ → List (ℕ × ℕ) → Distribution → Except Fault Distribution
  | _, [], s => .ok s
  | 0, _ :: _, _ => .error (.semantic "out of fuel")
  | fuel + 1, pending, s => do
    let ready := sortEdges (pending.filter fun e => e.1 ∈ s.readyRanks)
    Checked.ensure (ready ≠ []) (.semantic "distribution route is unreachable or cyclic")
    let s ← ready.foldlM (sendEdge inputs topology demand) s
    sendRounds fuel (pending.filter (· ∉ ready)) s

/-- The contribution that a rank has of its own. -/
def ownContribution (rank : ℕ) : Finset ℕ := {rank * inputs.sliceCount + demand.logicalPosition}

/-- What the loop over the reduction edges starts with. -/
def Reduction.start (route : Route) : Reduction where
  operations := []
  incoming _ := []
  contributors :=
    if route.reduceEdges = [] then []
    else (List.range inputs.rankCount).map fun rank => (rank, ownContribution inputs demand rank)

/-- What the loop over the send edges starts with. -/
def Reduction.distribute (s : Reduction) (route : Route) : Distribution where
  operations := s.operations
  readyRanks := {route.root}
  preceding := Function.update (fun _ => ∅) route.root (s.incoming route.root).toFinset

/-- `_physical_operation`. -/
def physicalOperation (route : Route) : Except Fault (List RouteOperation) := do
  let reduced ← reduceRounds inputs topology demand route.reduceEdges.dedup.length
    route.reduceEdges.dedup (Reduction.start inputs demand route)
  let sent ← sendRounds inputs topology demand route.sendEdges.dedup.length
    route.sendEdges.dedup (reduced.distribute route)
  return sent.operations

/-- The source ranges of contributions. -/
def sourceRanges (contributors : Finset ℕ) : List DataRange :=
  (contributors.sort (· ≤ ·)).map fun s =>
    { sourceRank := s / inputs.sliceCount
      start := s % inputs.sliceCount * inputs.sliceSizeBytes
      stop := (s % inputs.sliceCount + 1) * inputs.sliceSizeBytes
      nonempty := by
        have := inputs.slice_pos
        rw [Nat.add_mul]
        omega }

/-- The constraints allow all operations. -/
def allowsAll (constraints : ConstraintSet) : List RouteOperation → Except Fault Bool
  | [] => .ok true
  | op :: rest => do
    if ← constraints.allows (sourceRanges inputs op.contributors) op.edge.1 op.edge.2 op.stageId then
      allowsAll constraints rest
    else return false

/-- `_legal_route`. -/
def legalRoute (route : Route) : Except Fault Bool := do
  let constraints ← bindConstraints inputs
  let operations ← physicalOperation inputs topology demand route
  allowsAll inputs constraints operations

end Physical

/-! ## Trees and paths -/

section Trees
variable (nodes : List ℕ) (root : ℕ) (edges : List (ℕ × ℕ))

/-- One turn of `_reachable`. -/
def reachStep (reached : Finset ℕ) : Finset ℕ :=
  reached ∪ ((edges.filter fun e => e.1 ∈ reached).map (·.2)).toFinset

/-- The loop of `_reachable`.  A turn that is not the last adds the head of an edge. -/
def reachedFrom : ℕ → Finset ℕ → Finset ℕ
  | 0, reached => reached
  | fuel + 1, reached =>
    if reachStep edges reached = reached then reached else reachedFrom fuel (reachStep edges reached)

/-- `_reachable`. -/
def reachable : Bool := decide (reachedFrom edges edges.length {root} = nodes.toFinset)

/-- One turn of the loop over the edges out of a vertex. -/
def seedEdge (src : ℕ) (s : Finset ℕ × List ℕ × List (ℕ × ℕ)) (edge : ℕ × ℕ) :
    Finset ℕ × List ℕ × List (ℕ × ℕ) :=
  if edge.1 = src ∧ edge.2 ∉ s.1 then
    (insert edge.2 s.1, s.2.1 ++ [edge.2], s.2.2 ++ [(src, edge.2)])
  else s

/-- The breadth-first search: reached vertices, the queue and the tree.  A vertex is taken
out of the queue once, and all but the root are heads of edges. -/
def seedFrom : ℕ → Finset ℕ × List ℕ × List (ℕ × ℕ) → List (ℕ × ℕ)
  | 0, s => s.2.2
  | fuel + 1, (reached, queue, seed) =>
    match queue with
    | [] => seed
    | src :: queue => seedFrom fuel (edges.foldl (seedEdge src) (reached, queue, seed))

/-- The breadth-first tree. -/
def seedTree : List (ℕ × ℕ) := sortEdges (seedFrom edges (edges.length + 1) ({root}, [root], []))

/-- The parents above a vertex lead to one that has been seen. -/
def leadsBack (parents : Dict ℕ ℕ) : ℕ → ℕ → List ℕ → Bool
  | 0, cursor, seen => decide (cursor ∈ seen)
  | fuel + 1, cursor, seen =>
    if cursor ∈ seen then true
    else match parents.get? cursor with
      | none => false
      | some parent => leadsBack parents fuel parent (cursor :: seen)

/-- The edges that may still be used once some parents are chosen. -/
def remainingEdges (parents : Dict ℕ ℕ) : List (ℕ × ℕ) :=
  edges.filter fun e => parents.get? e.2 = none ∨ parents.get? e.2 = some e.1

/-- `visit`: parents for the remaining targets. -/
def visitTargets : List ℕ → Dict ℕ ℕ → List (List (ℕ × ℕ))
  | [], parents => [sortEdges (parents.map fun entry => (entry.2, entry.1))]
  | target :: targets, parents =>
    ((edges.filter fun e => e.2 = target).map (·.1)).flatMap fun src =>
      if leadsBack parents parents.length src [target] then []
      else
        let updated := parents.set target src
        if reachable nodes root (remainingEdges edges updated) then visitTargets targets updated
        else []

/-- `tree_columns`. -/
def treeColumns : List (List (ℕ × ℕ)) :=
  let edges := sortEdges edges.dedup
  if reachable nodes root edges then
    let seed := seedTree root edges
    seed :: (visitTargets nodes root edges (nodes.filter (· ≠ root)) []).filter (· ≠ seed)
  else []

/-- `visit` of `_paths`.  A path grows by the head of an edge that is not on it. -/
def pathsFrom (target : ℕ) : ℕ → List ℕ → List (List (ℕ × ℕ))
  | fuel, path =>
    if path.getLast? = some target then [path.zip path.tail]
    else match fuel with
      | 0 => []
      | fuel + 1 => edges.flatMap fun e =>
          if path.getLast? = some e.1 ∧ e.2 ∉ path then pathsFrom target fuel (path ++ [e.2]) else []

/-- `_paths`. -/
def paths (source target : ℕ) : List (List (ℕ × ℕ)) := pathsFrom edges target edges.length [source]

end Trees

/-! ## Columns -/

/-- What generators yield in turn. -/
def roundRobin {α : Type} : ℕ → List (List α) → List α
  | 0, _ => []
  | _, [] => []
  | fuel + 1, [] :: rest => roundRobin fuel rest
  | fuel + 1, (x :: xs) :: rest => x :: roundRobin fuel (rest ++ [xs])

/-- What a generator of routes yields, and the error that ends it. -/
structure RouteColumns where
  routes : List Route
  fault : Option Fault

section Columns
variable (inputs : ResolvedInput) (topology : Topology) (demand : RoutingDemand)

/-- The routes that a constraint does not forbid. -/
def keepLegal : List Route → RouteColumns
  | [] => ⟨[], none⟩
  | route :: rest =>
    match legalRoute inputs topology demand route with
    | .error fault => ⟨[], some fault⟩
    | .ok true =>
      let kept := keepLegal rest
      { kept with routes := route :: kept.routes }
    | .ok false => keepLegal rest

/-- Reversed edges. -/
def reversed (edges : List (ℕ × ℕ)) : List (ℕ × ℕ) := edges.map Prod.swap

/-- `at_root`. -/
def routesAt (root : ℕ) : List Route :=
  let nodes := List.range inputs.rankCount
  let edges := topology.links.keys
  match demand.mode with
  | .broadcast => (treeColumns nodes root edges).map fun tree => { root := root, sendEdges := tree }
  | .reduce => (treeColumns nodes root (reversed edges)).map fun tree =>
      { root := root, reduceEdges := sortEdges (reversed tree) }
  | _ => (treeColumns nodes root (reversed edges)).flatMap fun reduceTree =>
      (treeColumns nodes root edges).map fun sendTree =>
        { root := root, reduceEdges := sortEdges (reversed reduceTree), sendEdges := sendTree }

/-- The roots of trees. -/
def columnRoots : Except Fault (List ℕ) :=
  match demand.mode with
  | .allreduce => .ok (List.range inputs.rankCount)
  | .reduce => (fun root => [root]) <$>
      Checked.required demand.destinations.head? (.index "demand.destinations")
  | _ => .ok demand.sourceRank.toList

/-- The routes that `_columns` looks at. -/
def candidateRoutes : Except Fault (List Route) := do
  if demand.mode = .path then
    let destination ← Checked.required demand.destinations.head? (.index "demand.destinations")
    return demand.sourceRank.toList.flatMap fun source =>
      (paths topology.links.keys source destination).map fun path =>
        { root := source, sendEdges := path }
  else
    let roots ← columnRoots inputs demand
    let generators := roots.map (routesAt inputs topology demand)
    return roundRobin (generators.map fun routes => routes.length + 1).sum generators

/-- `_columns`. -/
def columns : RouteColumns :=
  match candidateRoutes inputs topology demand with
  | .error fault => ⟨[], some fault⟩
  | .ok routes => keepLegal inputs topology demand routes

/-- `_group_key`. -/
def groupKey : Except Fault
    (RouteMode × Option ℕ × List ℕ × List (ℕ × ℕ × ℕ × ℕ)) := do
  let start := demand.logicalPosition * inputs.sliceSizeBytes
  let stop := (demand.logicalPosition + 1) * inputs.sliceSizeBytes
  let sources := demand.contributors.image (· / inputs.sliceCount)
  let constraints ← bindConstraints inputs
  let restrictions := constraints.bans.filter fun ban =>
    ban.data.sourceRank ∈ sources ∧ max start ban.data.start < min stop ban.data.stop
  return (demand.mode, demand.sourceRank, demand.destinations,
    restrictions.map fun ban => (ban.data.sourceRank, ban.srcRank, ban.dstRank, ban.stageId))

end Columns

end VeriCCL
