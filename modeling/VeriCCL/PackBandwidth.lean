import VeriCCL.BatchCompletion

/-! # Packing by bandwidth

`pack_bandwidth` of `solver/trees/packing.py`: trees for all items whose most loaded link is
as fast as possible.  The times of the links are rationals; they are integer multiples of a
common unit, so the load times are too.  Binary search finds the least multiple for which
the roots' cut condition holds, and the packer of `solver/trees/batch.py` packs the trees. -/
namespace VeriCCL

variable {α β : Type} [LinearOrder α] [DecidableEq β]

/-- What `pack_bandwidth` raises: `ConstructionInfeasibleError` or `SemanticError`. -/
inductive PackingFault where
  | infeasible (message : String)
  | semantic (message : String)
  deriving DecidableEq

/-- `BandwidthPacking`. -/
structure BandwidthPacking (α β : Type) where
  batches : List (TreeBatch α β)
  bandwidthTimeUs : ℚ

/-- The class of an error of the packer: only its cut check raises
`ConstructionInfeasibleError`. -/
def PackingFault.of (message : String) : PackingFault :=
  if message = "rooted cut cannot carry all integer tree copies" then .infeasible message
  else .semantic message

/-! ## Ticks -/

/-- `lcm(*(time.denominator for time in times.values()))`. -/
def commonDenominator (times : List ℚ) : ℕ := times.foldl (fun d time => d.lcm time.den) 1

/-- The numerators over the common denominator. -/
def numerators (times : List ℚ) : List ℤ :=
  times.map fun time => time.num * (commonDenominator times / time.den : ℕ)

/-- The common unit of the times: `Fraction(reduce(gcd, numerators), denominator)`. -/
def tickUnit (times : List ℚ) : ℚ :=
  ((numerators times).foldl (fun g n => g.gcd n.natAbs) 0 : ℕ) / (commonDenominator times : ℚ)

/-- `steps`: the times in units. -/
def tickSteps (times : Dict (α × α) ℚ) : Dict (α × α) ℕ :=
  times.map fun entry => (entry.1, ⌊entry.2 / tickUnit times.values⌋.toNat)

/-- `capacities(tick)`. -/
def capacitiesAt (total : ℕ) (steps : Dict (α × α) ℕ) (tick : ℤ) : Capacities α :=
  steps.map fun entry => (entry.1, min (total : ℤ) (tick / entry.2))

/-- The binary search: `low` is infeasible, `high` is feasible. -/
def searchTick (feasible : ℤ → Except String Bool) : ℕ → ℤ → ℤ → Except String ℤ
  | 0, low, high => if 1 < high - low then .error "out of fuel" else .ok high
  | fuel + 1, low, high =>
    if 1 < high - low then do
      let middle := (low + high) / 2
      if ← feasible middle then searchTick feasible fuel low middle
      else searchTick feasible fuel middle high
    else .ok high

/-! ## `pack_bandwidth` -/

/-- The numbers of items of the roots that have any. -/
def rootCounts (rootItems : Dict α (List β)) : Dict α ℕ :=
  (rootItems.filter fun entry => entry.2 ≠ []).map fun entry => (entry.1, entry.2.length)

/-- `BatchPacker(nodes, capacities, root_items).finish()`. -/
def packTrees (maximumFlowValue : MaximumFlowValue α) (fuel : ℕ) (nodes : List α)
    (capacities : Capacities α) (rootItems : Dict α (List β)) :
    Except String (List (TreeBatch α β)) := do
  let packer ← BatchPacker.init maximumFlowValue nodes capacities rootItems
  packer.finish maximumFlowValue fuel

/-- Can the links carry all items, if each may carry all of them? -/
def linksSuffice (maximumFlowValue : MaximumFlowValue α) (nodes : List α) (times : Dict (α × α) ℚ)
    (rootItems : Dict α (List β)) : Except String Bool :=
  if times = [] then .ok false
  else rootedCutFeasible maximumFlowValue nodes
    (times.map fun entry => (entry.1, ((rootCounts rootItems).values.sum : ℤ))) (rootCounts rootItems)

/-- The least feasible tick. -/
def leastTick (maximumFlowValue : MaximumFlowValue α) (nodes : List α) (times : Dict (α × α) ℚ)
    (rootItems : Dict α (List β)) : Except String ℤ :=
  let counts := rootCounts rootItems
  let total := counts.values.sum
  let steps := tickSteps times
  let high := steps.values.foldl max 0 * total
  searchTick (fun tick => rootedCutFeasible maximumFlowValue nodes (capacitiesAt total steps tick) counts)
    (high + 1) (-1) high

/-- `pack_bandwidth`. -/
def packBandwidth (maximumFlowValue : MaximumFlowValue α) (fuel : ℕ) (nodes : List α)
    (times : Dict (α × α) ℚ) (rootItems : Dict α (List β)) :
    Except PackingFault (BandwidthPacking α β) := do
  Checked.ensure (∀ entry ∈ times, 0 < entry.2)
    (.semantic "bandwidth edge slice times must be positive")
  if nodes.length = 1 then
    let batches ← (packTrees maximumFlowValue fuel nodes [] rootItems).mapError .of
    return ⟨batches, 0⟩
  else
    let suffice ← (linksSuffice maximumFlowValue nodes times rootItems).mapError .of
    Checked.ensure (suffice = true)
      (.infeasible "rooted cut is unreachable in the directed graph")
    let tick ← (leastTick maximumFlowValue nodes times rootItems).mapError .of
    let batches ← (packTrees maximumFlowValue fuel nodes
      (capacitiesAt (rootCounts rootItems).values.sum (tickSteps times) tick) rootItems).mapError .of
    return ⟨batches, tick * tickUnit times.values⟩

end VeriCCL
