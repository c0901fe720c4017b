import VeriCCL.BuildExecutable
import VeriCCL.BuildStorage
import VeriCCL.DependencyClosure
import VeriCCL.Ranges

/-! # Legal repair strategies

`mandatory_dependencies`, `_legality_base` and `legal_strategy` of `verification/bottlenecks.py`.
A strategy may order operations; it is legal when the dependencies that the storage plan makes
mandatory stay without a cycle.  Their closure is kept for recently checked plans. -/
namespace VeriCCL

/-- `StrategyRecord`, as far as its legality depends on it. -/
structure StrategyRecord where
  family : String
  operationIds : List String
  paths : List (String × List ℕ) := []
  orders : List (String × String) := []
  channels : List (String × ℤ) := []
  deriving DecidableEq

/-- `REPAIR_FAMILIES`. -/
def repairFamilies : List String :=
  ["path", "allocation", "order", "channel", "joint", "internal_root", "structure", "partition"]

/-! ## Mandatory dependencies -/

section Mandatory

variable (storage : StoragePlan) (inputs : ResolvedInput)

/-- The producers of what an operation reads. -/
def readProducers (op : Instruction) : Except Fault (Finset String) := do
  let read ← op.inputs.mapM fun key => Checked.required (storage.values.get? key) (.missing key)
  return producers read

/-- More predecessors of a vertex. -/
def extendDependencies (result : Dict String (Finset String)) (key : String)
    (more : Finset String) : Except Fault (Dict String (Finset String)) := do
  let known ← Checked.required (result.get? key) (.missing key)
  return result.set key (known ∪ more)

/-- `position`: the places of the operations. -/
def positionTable : Dict String ℕ :=
  Dict.ofList (storage.instructions.zipIdx.map fun e => (e.1.operationId, e.2))

/-- The state is not there yet when the operation runs, as its producer is not earlier. -/
def producedLater (op : Instruction) (value : Value) : Except Fault Bool :=
  match value.producer with
  | none => return false
  | some producer => do
    let made ← Checked.required ((positionTable storage).get? producer) (.missing producer)
    let here ← Checked.required ((positionTable storage).get? op.operationId)
      (.missing op.operationId)
    return decide (here ≤ made)

/-- An operation waits for the readers of one state, if its output overwrites the state. -/
def protectState (op : Instruction) (target : BufferRegion) (result : Dict String (Finset String))
    (entry : String × Value) : Except Fault (Dict String (Finset String)) :=
  if entry.1 = op.output then return result
  else do
    let later ← producedLater storage op entry.2
    if later = true then return result
    else do
      let address ← Checked.required (storage.addresses.get? entry.1) (.missing entry.1)
      if target.overlaps (canonicalRegion inputs address) then
        extendDependencies result op.operationId
          ((readersOf storage.instructions entry.1).erase op.operationId)
      else return result

/-- An operation waits for the readers of all that its output overwrites. -/
def protectRegions (result : Dict String (Finset String)) (op : Instruction) :
    Except Fault (Dict String (Finset String)) := do
  let address ← Checked.required (storage.addresses.get? op.output) (.missing op.output)
  storage.values.foldlM (protectState storage inputs op (canonicalRegion inputs address)) result

/-- `mandatory_dependencies`. -/
def mandatoryDependencies : Except Fault (Dict String (Finset String)) := do
  let produced ← storage.instructions.mapM fun op => do
    let read ← readProducers storage op
    return (op.operationId, read)
  let reused ← storage.reuse.foldlM (fun result reuse =>
    extendDependencies result reuse.writer reuse.previousReaders) (Dict.ofList produced)
  storage.instructions.foldlM (protectRegions storage inputs) reused

end Mandatory

/-! ## The kept closures -/

/-- An object: where it lives, and its value.  The values here never change, and objects that are
alive at the same time live in different places, so being the same object is being equal. -/
structure ObjectRef (α : Type) where
  address : ℕ
  value : α
  deriving DecidableEq

/-- What a resolved input says, without the proofs that it is well formed. -/
def ResolvedInput.data (inputs : ResolvedInput) :
    (CollectiveSpec × ℕ × ℕ × ℕ) × (ℕ × Layout × ℕ × ℕ) × (Bool × List (ℕ × ℕ) × String) ×
      Option ℕ × List ForbiddenTransfer × Option ℕ :=
  ((inputs.collective, inputs.rankCount, inputs.totalSizeBytes, inputs.sliceSizeBytes),
    (inputs.maxChannels, inputs.layout, inputs.scratchBytesPerRank, inputs.bufferSize),
    (inputs.compatibilityEnabled, inputs.directedLinks, inputs.inputSha256),
    inputs.stageNum, inputs.forbiddenTransfers, inputs.referenceSliceSizeBytes)

theorem ResolvedInput.data_eq_iff {a b : ResolvedInput} : a.data = b.data ↔ a = b := by
  cases a
  cases b
  simp only [ResolvedInput.data, Prod.mk.injEq, ResolvedInput.mk.injEq]
  tauto

set_option synthInstance.maxSize 1000 in
instance : DecidableEq ResolvedInput := fun _ _ => decidable_of_iff _ ResolvedInput.data_eq_iff

/-- An entry of `_LEGALITY_CACHE`. -/
structure LegalityEntry where
  storage : ObjectRef StoragePlan
  inputs : ObjectRef ResolvedInput
  mandatory : Dict String (Finset String)
  ancestors : Option (Dict String (Finset String))

/-- `_LEGALITY_CACHE`. -/
abbrev LegalityCache := Dict (ℕ × ℕ) LegalityEntry

/-- `_LEGALITY_LIMIT`. -/
def legalityLimit : ℕ := 8

/-- Without its oldest entry, if it is full. -/
def LegalityCache.room (cache : LegalityCache) : LegalityCache :=
  if legalityLimit ≤ cache.length then
    match cache.keys with
    | [] => cache
    | oldest :: _ => cache.erase oldest
  else cache

/-- What `_legality_base` computes for objects that are not in its cache. -/
def computeLegality (storage : ObjectRef StoragePlan) (inputs : ObjectRef ResolvedInput) :
    Except Fault LegalityEntry := do
  let mandatory ← mandatoryDependencies storage.value inputs.value
  return { storage, inputs, mandatory, ancestors := (layerAncestors mandatory).toOption }

/-- The entry of the objects. -/
def LegalityCache.find (cache : LegalityCache) (storage : ObjectRef StoragePlan)
    (inputs : ObjectRef ResolvedInput) : Option LegalityEntry :=
  (cache.get? (storage.address, inputs.address)).filter fun entry =>
    entry.storage = storage ∧ entry.inputs = inputs

/-- `_legality_base`, with the cache it leaves. -/
def legalityBase (cache : LegalityCache) (storage : ObjectRef StoragePlan)
    (inputs : ObjectRef ResolvedInput) : Except Fault (LegalityEntry × LegalityCache) :=
  match cache.find storage inputs with
  | some entry => .ok (entry, cache)
  | none => do
    let entry ← computeLegality storage inputs
    return (entry, cache.room.set (storage.address, inputs.address) entry)

/-! ## Legality -/

section Legality

variable (strategy : StrategyRecord) (storage : StoragePlan) (inputs : ResolvedInput)
  (topology : Topology)

/-- The checks of a strategy's names. -/
def StrategyRecord.WellNamed (ops : Dict String Instruction) : Prop :=
  (strategy.family ∈ repairFamilies ∧ strategy.operationIds ≠ [] ∧ strategy.operationIds.Nodup ∧
    ∀ key ∈ strategy.operationIds, key ∈ ops.keys) ∧
  (∀ key ∈ strategy.paths.map (·.1) ++ strategy.channels.map (·.1), key ∈ strategy.operationIds) ∧
  (strategy.paths.map (·.1)).Nodup ∧ (strategy.channels.map (·.1)).Nodup

instance (ops : Dict String Instruction) : Decidable (strategy.WellNamed ops) :=
  inferInstanceAs (Decidable (_ ∧ _))

/-- The source bytes of slices. -/
def sliceRanges (contributors : Finset ℕ) : List DataRange :=
  (contributors.sort (· ≤ ·)).map fun s => {
    sourceRank := s / inputs.sliceCount
    start := s % inputs.sliceCount * inputs.sliceSizeBytes
    stop := (s % inputs.sliceCount + 1) * inputs.sliceSizeBytes
    nonempty := by
      have := inputs.slice_pos
      nlinarith }

/-- The state that an operation sends. -/
def sourceValue (op : Instruction) : Except Fault Value := do
  let key ← Checked.required op.inputs.head? (.index "inputs")
  Checked.required (storage.values.get? key) (.missing key)

/-- A path is one of the operation's, over links that may carry it. -/
def pathLegal (ops : Dict String Instruction) (constraints : ConstraintSet)
    (entry : String × List ℕ) : Except Fault Bool := do
  let op ← Checked.required (ops.get? entry.1) (.missing entry.1)
  let source ← sourceValue storage op
  if op.kind.transfers = false ∨ entry.2.length < 2 ∨ entry.2.head? ≠ some source.rank ∨
      entry.2.getLast? ≠ some op.rank ∨ ¬ entry.2.Nodup ∨ ∃ rank ∈ entry.2, rank ∉ op.participants
  then return false
  else
    (entry.2.zip entry.2.tail).allM fun hop =>
      match topology.links.get? hop with
      | none => return false
      | some _ => constraints.allows (sliceRanges inputs source.contributors) hop.1 hop.2 op.stageId

/-- A channel is one that the operation's link and its resources have. -/
def channelLegal (ops : Dict String Instruction) (entry : String × ℤ) : Except Fault Bool := do
  let op ← Checked.required (ops.get? entry.1) (.missing entry.1)
  if op.kind.transfers = false ∨ entry.2 < 0 then return false
  else do
    let source ← sourceValue storage op
    Checked.ensure (source.rank ≠ op.rank) (.semantic "link ranks must be distinct")
    let edge ← Checked.required (topology.links.get? (source.rank, op.rank)) (.missing "link")
    let shared ← edge.resourceIds.mapM fun resource =>
      Checked.required (topology.sharedResources.get? resource) (.missing resource)
    return decide (entry.2 < (shared.foldl min (min inputs.maxChannels edge.maxChannels) : ℕ))

/-- `legal_strategy` before it comes to the dependencies. -/
def placesLegal : Except Fault Bool := do
  let ops := indexBy (·.operationId) storage.instructions
  if ¬ strategy.WellNamed ops then return false
  else do
    let constraints ← bindConstraints inputs
    let paths ← strategy.paths.allM (pathLegal storage inputs topology ops constraints)
    if paths = false then return false
    else strategy.channels.allM (channelLegal storage inputs topology ops)

/-- The orders are between different operations of the strategy. -/
def StrategyRecord.OrdersNamed : Prop :=
  ∀ order ∈ strategy.orders, order.1 ≠ order.2 ∧ order.1 ∈ strategy.operationIds ∧
    order.2 ∈ strategy.operationIds

instance : Decidable strategy.OrdersNamed :=
  inferInstanceAs (Decidable (∀ order ∈ strategy.orders, _))

end Legality

/-- The map with the orders of a strategy has no cycle. -/
def rebuildLegal (mandatory : Dict String (Finset String)) (orders : List (String × String)) :
    Except Fault Bool := do
  let dependencies ← orders.foldlM (fun dependencies order =>
    extendDependencies dependencies order.2 {order.1}) mandatory
  return (layerAncestors dependencies).isOk

/-- The end of `legal_strategy`, with its shortcut for a single order. -/
def ordersLegal (entry : LegalityEntry) (orders : List (String × String)) : Except Fault Bool :=
  match entry.ancestors with
  -- the mandatory dependencies have a cycle
  | none => return false
  | some ancestors =>
    match orders with
    | [] => return true
    | [order] => do
      let before ← Checked.required (ancestors.get? order.1) (.missing order.1)
      return decide (order.2 ∉ before)
    | orders => rebuildLegal entry.mandatory orders

/-- `legal_strategy`, with the cache it leaves. -/
def legalStrategy (cache : LegalityCache) (strategy : StrategyRecord)
    (storage : ObjectRef StoragePlan) (inputs : ObjectRef ResolvedInput) (topology : Topology) :
    Except Fault (Bool × LegalityCache) := do
  let places ← placesLegal strategy storage.value inputs.value topology
  if places = false then return (false, cache)
  else do
    let base ← legalityBase cache storage inputs
    if ¬ strategy.OrdersNamed then return (false, base.2)
    else do
      let legal ← ordersLegal base.1 strategy.orders
      return (legal, base.2)

/-- The arguments of a call of `legal_strategy`. -/
structure LegalityCall where
  strategy : StrategyRecord
  storage : ObjectRef StoragePlan
  inputs : ObjectRef ResolvedInput
  topology : Topology

/-- A call's answer, and the cache it leaves. -/
def LegalityCall.run (call : LegalityCall) (cache : LegalityCache) :
    Except Fault (Bool × LegalityCache) :=
  legalStrategy cache call.strategy call.storage call.inputs call.topology

/-- The cache after some calls; one that raises leaves it as it was. -/
def cacheAfter (calls : List LegalityCall) : LegalityCache :=
  calls.foldl (fun cache call => ((call.run cache).toOption.map (·.2)).getD cache) []

/-- `legal_strategy` without the shortcut and the cache: the dependencies are rebuilt with the
orders, and tested for cycles. -/
def legalStrategyRebuilt (strategy : StrategyRecord) (storage : StoragePlan)
    (inputs : ResolvedInput) (topology : Topology) : Except Fault Bool := do
  let places ← placesLegal strategy storage inputs topology
  if places = false then return false
  else do
    let mandatory ← mandatoryDependencies storage inputs
    if ¬ strategy.OrdersNamed then return false
    else rebuildLegal mandatory strategy.orders

end VeriCCL
