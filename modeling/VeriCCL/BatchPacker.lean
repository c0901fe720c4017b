import VeriCCL.Checked
import VeriCCL.Dict
import VeriCCL.MaximumFlow
import Mathlib.Data.Finset.Sort
import Mathlib.Data.Finset.Sum

/-! # Batched trees

`solver/trees/batch.py`: trees out of their roots that share the integer capacities of the
rank links.  Items of one root travel in a batch along one tree; when only some of them can
go along a link, the batch is split.  `nx.maximum_flow_value` is a parameter.

The vertices of a flow network are nodes (`inl`) and sources that are added to them
(`inr`): the augmented root, or the sources of the active batches. -/
namespace VeriCCL

variable {α β : Type} [LinearOrder α] [DecidableEq β]

/-- Capacities of links. -/
abbrev Capacities (α : Type) := Dict (α × α) ℤ

/-- The capacity of a link: `capacities.get((src, dst), 0)`. -/
def Capacities.at (capacities : Capacities α) (src dst : α) : ℤ :=
  (capacities.get? (src, dst)).getD 0

/-- `nx.maximum_flow_value`. -/
abbrev MaximumFlowValue (α : Type) := Network (α ⊕ ℕ) → α ⊕ ℕ → α ⊕ ℕ → ℤ

/-- `_graph`: the checks of the links. -/
def checkGraph (nodes : List α) (capacities : Capacities α) : Except String Unit :=
  forM capacities fun entry => do
    Checked.ensure (entry.1.1 ∈ nodes ∧ entry.1.2 ∈ nodes ∧ entry.1.1 ≠ entry.1.2)
      "tree capacity edge must join distinct declared nodes"
    Checked.ensure (0 ≤ entry.2) "tree capacities must be nonnegative integers"

/-- The network of `rooted_cut_feasible`: a source before the roots. -/
def rootedNetwork (nodes : List α) (capacities : Capacities α) (rootCounts : Dict α ℕ) :
    Network (α ⊕ ℕ) where
  vertices := nodes.toFinset.disjSum {0}
  capacity
    | .inl src, .inl dst => (capacities.at src dst).toNat
    | .inr _, .inl root => (rootCounts.get? root).getD 0
    | _, .inr _ => 0

/-- `rooted_cut_feasible`. -/
def rootedCutFeasible (maximumFlowValue : MaximumFlowValue α) (nodes : List α)
    (capacities : Capacities α) (rootCounts : Dict α ℕ) : Except String Bool := do
  checkGraph nodes capacities
  forM rootCounts fun entry =>
    Checked.ensure (entry.1 ∈ nodes ∧ 1 ≤ entry.2)
      "root counts must be positive integers on declared nodes"
  let network := rootedNetwork nodes capacities rootCounts
  return nodes.all fun target =>
    ¬ maximumFlowValue network (.inr 0) (.inl target) < rootCounts.values.sum

/-- `TreeBatch`. -/
structure TreeBatch (α β : Type) where
  batchId : ℕ
  root : α
  items : List β
  edges : List (α × α) := []
  vertices : Finset α

/-- `TreeBatch.multiplicity`. -/
def TreeBatch.multiplicity (batch : TreeBatch α β) : ℕ := batch.items.length

/-- `Extension`. -/
structure Extension where
  amount : ℕ
  remainderId : Option ℕ := none

/-- `BatchPacker`.  Batches are numbered from 0 in the order of their creation. -/
structure BatchPacker (α β : Type) where
  nodes : List α
  capacities : Capacities α
  batches : List (TreeBatch α β)
  active : Finset ℕ
  originalItems : Finset β

/-- The first batch of a root. -/
def TreeBatch.first (batchId : ℕ) (entry : α × List β) : TreeBatch α β where
  batchId := batchId
  root := entry.1
  items := entry.2
  vertices := {entry.1}

namespace BatchPacker

/-- `BatchPacker.__init__`. -/
def init (maximumFlowValue : MaximumFlowValue α) (nodes : List α) (capacities : Capacities α)
    (rootItems : Dict α (List β)) : Except String (BatchPacker α β) := do
  Checked.ensure (nodes ≠ [] ∧ nodes.Nodup) "tree nodes must be nonempty and unique"
  let rootItems := rootItems.filter fun entry => entry.2 ≠ []
  let allItems : List β := rootItems.flatMap (·.2)
  Checked.ensure (allItems ≠ [] ∧ allItems.Nodup) "tree items must be nonempty and unique across roots"
  let feasible ← rootedCutFeasible maximumFlowValue nodes capacities
    (rootItems.map fun entry => (entry.1, entry.2.length))
  Checked.ensure (feasible = true) "rooted cut cannot carry all integer tree copies"
  let batches := (rootItems.mergeSort (fun a b => a.1 ≤ b.1)).mapIdx TreeBatch.first
  return {
    nodes := nodes
    capacities := capacities
    batches := batches
    active := Finset.range batches.length
    originalItems := allItems.toFinset }

variable (maximumFlowValue : MaximumFlowValue α) (packer : BatchPacker α β)

/-- The vertices that a batch has reached. -/
def reached (i : ℕ) : Finset α := (packer.batches[i]?.map (·.vertices)).getD ∅

/-- The number of items of a batch. -/
def multiplicity (i : ℕ) : ℕ := (packer.batches[i]?.map (·.multiplicity)).getD 0

/-- More than any cut of finite capacities. -/
def infinity : ℕ :=
  packer.capacities.values.sum.toNat + (∑ i ∈ packer.active, packer.multiplicity i) + 1

/-- The network of `extension_amount`: the other active batches start at `src`. -/
def network (batchId : ℕ) (src : α) : Network (α ⊕ ℕ) where
  vertices := packer.nodes.toFinset.disjSum packer.active
  capacity
    | .inl u, .inl v => (packer.capacities.at u v).toNat
    | .inl u, .inr i => if u = src ∧ i ∈ packer.active ∧ i ≠ batchId then packer.multiplicity i else 0
    | .inr i, .inl v => if i ∈ packer.active ∧ v ∈ packer.reached i then packer.infinity else 0
    | .inr _, .inr _ => 0

/-- `extension_amount`. -/
def extensionAmount (batchId : ℕ) (src dst : α) : Except String ℕ := do
  let batch ← Checked.required packer.batches[batchId]? "KeyError"
  let capacity := packer.capacities.at src dst
  if batchId ∉ packer.active ∨ src ∉ batch.vertices ∨ dst ∈ batch.vertices ∨ capacity = 0 then
    return 0
  else
    checkGraph packer.nodes packer.capacities
    let others := ∑ i ∈ packer.active.erase batchId, packer.multiplicity i
    let feasible := maximumFlowValue (packer.network batchId src) (.inl src) (.inl dst) - others
    Checked.ensure (0 ≤ feasible) "residual batch cut invariant was violated"
    return (min (batch.multiplicity : ℤ) (min capacity feasible)).toNat

/-- The packer after a batch has been extended by some of its items; the others stay behind
in a new batch. -/
def extended (batchId : ℕ) (batch : TreeBatch α β) (src dst : α) (amount : ℕ) :
    BatchPacker α β :=
  let remainderId := packer.batches.length
  let split := amount < batch.multiplicity
  let batches :=
    if split then
      packer.batches ++ [{ batch with batchId := remainderId, items := batch.items.drop amount }]
    else packer.batches
  { packer with
    batches := batches.set batchId { batch with
      items := batch.items.take amount
      edges := batch.edges ++ [(src, dst)]
      vertices := insert dst batch.vertices }
    active := if split then insert remainderId packer.active else packer.active
    capacities := packer.capacities.set (src, dst) (packer.capacities.at src dst - amount) }

/-- `extend`. -/
def extend (batchId : ℕ) (src dst : α) : Except String (Extension × BatchPacker α β) := do
  let amount ← packer.extensionAmount maximumFlowValue batchId src dst
  if amount = 0 then
    return (⟨0, none⟩, packer)
  else
    let batch ← Checked.required packer.batches[batchId]? "KeyError"
    let remainderId :=
      if amount < batch.multiplicity then some packer.batches.length else none
    return (⟨amount, remainderId⟩, packer.extended batchId batch src dst amount)

/-- What the loops of `finish` work on. -/
structure Growth (α β : Type) where
  frontier : List α
  queue : List ℕ
  packer : BatchPacker α β

/-- One turn of the inner loop of `finish`. -/
def Growth.visit (index : ℕ) (src : α) (growth : Growth α β) (dst : α) :
    Except String (Growth α β) := do
  let (extension, packer) ← growth.packer.extend maximumFlowValue index src dst
  return {
    frontier := if extension.amount ≠ 0 then growth.frontier ++ [dst] else growth.frontier
    queue := growth.queue ++ extension.remainderId.toList
    packer := packer }

/-- The loop over the frontier of a batch. -/
def Growth.grow (index : ℕ) : ℕ → Growth α β → Except String (Growth α β)
  | 0, _ => .error "out of fuel"
  | fuel + 1, growth =>
    match growth.frontier with
    | [] => .ok growth
    | src :: frontier => do
      let growth ← growth.packer.nodes.foldlM (Growth.visit maximumFlowValue index src)
        { growth with frontier := frontier }
      grow index fuel growth

/-- The loop over the queue of batches. -/
def drain : ℕ → List ℕ → BatchPacker α β → Except String (BatchPacker α β)
  | 0, _, _ => .error "out of fuel"
  | _ + 1, [], packer => .ok packer
  | fuel + 1, index :: queue, packer => do
    let batch ← Checked.required packer.batches[index]? "KeyError"
    let growth ← Growth.grow maximumFlowValue index fuel
      { frontier := batch.vertices.sort (· ≤ ·), queue := queue, packer := packer }
    let batch ← Checked.required growth.packer.batches[index]? "KeyError"
    Checked.ensure (batch.vertices = growth.packer.nodes.toFinset ∧
        batch.edges.length + 1 = growth.packer.nodes.length)
      "residual cut construction did not complete a spanning tree"
    drain fuel growth.queue
      { growth.packer with active := growth.packer.active.erase index }

/-- `finish`. -/
def finish (fuel : ℕ) : Except String (List (TreeBatch α β)) := do
  let packer ← drain maximumFlowValue fuel (packer.active.sort (· ≤ ·)) packer
  let items := packer.batches.flatMap (·.items)
  Checked.ensure (items.toFinset = packer.originalItems ∧
      items.length = packer.originalItems.card)
    "batch splitting lost or duplicated an integer item"
  return packer.batches

/-- A public call of `extend`. -/
abbrev Call (α : Type) := ℕ × α × α

/-- The packer after some calls of `extend`. -/
def calls (calls : List (Call α)) : Except String (BatchPacker α β) :=
  calls.foldlM (fun packer call => (·.2) <$> packer.extend maximumFlowValue call.1 call.2.1 call.2.2)
    packer

end BatchPacker

end VeriCCL
