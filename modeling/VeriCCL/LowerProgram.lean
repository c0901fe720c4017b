import VeriCCL.Bindings
import VeriCCL.Identifiers
import Mathlib.Data.Finset.Max
import Mathlib.Data.String.Basic

/-! # Lowering a storage plan

`lower_program` of `xml/v5_program.py`.  The instructions are placed on thread blocks
in plan order.  Each endpoint must wait, on its own rank, for the endpoints there of
what its instruction depends on; a wait is left out when block order or an earlier wait
already implies it.  The source remembers what is implied in one bit mask per endpoint
and per block, with a bit for each endpoint of the rank in order of emission; here a
mask is the set of its bit positions.  A step carries one wait, so further waits go on
NOPs before it.

Blocks are numbered at the end, blocks with awaited steps first, and the waits are
turned into coordinates. -/
namespace VeriCCL

/-- The identity of a step: the source spells it as a text. -/
inductive StepId where
  | nop (operation : String) (rank index : ℕ)
  | endpoint (operation : String) (side : Side) (rank : ℕ)
  deriving DecidableEq

/-- A side as the source spells it. -/
def Side.text : Side → String
  | .copy => "copy"
  | .fused => "fused"
  | .recv => "recv"
  | .send => "send"

/-- The text of a step's identity. -/
def StepId.text : StepId → String
  | .nop operation rank index =>
    "nop" ++ (":" ++ (operation ++ (":" ++ (toString rank ++ (":" ++ toString index)))))
  | .endpoint operation side rank => operation ++ (":" ++ (side.text ++ (":" ++ toString rank)))

theorem Side.text_ne_nat (side : Side) (n : ℕ) : side.text ≠ toString n := by
  intro h
  have hdigit : ∀ c ∈ side.text.toList, c.isDigit = true := by
    rw [h]
    exact fun c => Identifiers.isDigit_of_mem_nat
  have hletter : ∃ c ∈ side.text.toList, c.isDigit = false := by
    cases side with
    | copy => exact ⟨'c', by decide, rfl⟩
    | fused => exact ⟨'f', by decide, rfl⟩
    | recv => exact ⟨'r', by decide, rfl⟩
    | send => exact ⟨'s', by decide, rfl⟩
  obtain ⟨c, hc, hfalse⟩ := hletter
  rw [hdigit c hc] at hfalse
  cases hfalse

/-- **The texts tell the steps apart**, whatever the operations are called. -/
theorem StepId.text_injective : Function.Injective StepId.text := by
  have hside : ∀ side : Side, ':' ∉ side.text.toList := by
    intro side
    cases side <;> decide
  have hnop : ∀ o r i, (StepId.nop o r i).text =
      ("nop" ++ (":" ++ o)) ++ (":" ++ toString r) ++ (":" ++ toString i) := by
    intro o r i
    simp only [StepId.text, String.append_assoc]
  have hend : ∀ o s r, (StepId.endpoint o s r).text = o ++ (":" ++ s.text) ++ (":" ++ toString r) := by
    intro o s r
    simp only [StepId.text, String.append_assoc]
  intro x y h
  cases x with
  | nop o r i =>
    cases y with
    | nop o' r' i' =>
      rw [hnop, hnop] at h
      obtain ⟨h, hi⟩ := Identifiers.last_colon_inj (Identifiers.colon_notMem_nat _)
        (Identifiers.colon_notMem_nat _) h
      obtain ⟨h, hr⟩ := Identifiers.last_colon_inj (Identifiers.colon_notMem_nat _)
        (Identifiers.colon_notMem_nat _) h
      obtain ⟨-, ho⟩ := Identifiers.colon_inj (by decide) (by decide) h
      rw [ho, Identifiers.nat_inj hr, Identifiers.nat_inj hi]
    | endpoint o' s' r' =>
      -- a number stands where the other text has a side
      rw [hnop, hend] at h
      obtain ⟨h, -⟩ := Identifiers.last_colon_inj (Identifiers.colon_notMem_nat _)
        (Identifiers.colon_notMem_nat _) h
      obtain ⟨-, hs⟩ := Identifiers.last_colon_inj (Identifiers.colon_notMem_nat _) (hside s') h
      exact absurd hs.symm (s'.text_ne_nat r)
  | endpoint o s r =>
    cases y with
    | nop o' r' i' =>
      rw [hnop, hend] at h
      obtain ⟨h, -⟩ := Identifiers.last_colon_inj (Identifiers.colon_notMem_nat _)
        (Identifiers.colon_notMem_nat _) h
      obtain ⟨-, hs⟩ := Identifiers.last_colon_inj (hside s) (Identifiers.colon_notMem_nat _) h
      exact absurd hs (s.text_ne_nat r')
    | endpoint o' s' r' =>
      rw [hend, hend] at h
      obtain ⟨h, hr⟩ := Identifiers.last_colon_inj (Identifiers.colon_notMem_nat _)
        (Identifiers.colon_notMem_nat _) h
      obtain ⟨ho, hs⟩ := Identifiers.last_colon_inj (hside s) (hside s') h
      have hinj : s = s' := by
        revert hs
        cases s <;> cases s' <;> decide
      rw [ho, hinj, Identifiers.nat_inj hr]

/-- A step before its wait has coordinates. -/
structure RawStep where
  id : StepId
  operationId : String
  kind : StepKind
  src : Option Address
  dst : Option Address
  deriving DecidableEq

/-- What identifies a block: rank, side, peer and channel. -/
structure BlockKey where
  rank : ℕ
  side : Side
  peer : ℤ
  channel : ℤ
  deriving DecidableEq

/-- The block an endpoint belongs to. -/
def blockKey (layout : Layout) (spec : EndpointSpec) : BlockKey where
  rank := spec.rank
  side := if layout = .fused ∧ spec.side ≠ .copy then .fused else spec.side
  peer := spec.peer
  channel := spec.channel

/-- The tables of the lowering loop. -/
structure Lowering where
  blocks : Dict BlockKey (List RawStep)
  locations : Dict (String × ℕ) StepId
  /-- `endpoint_order` and `endpoint_bits`: the place of an endpoint on its rank. -/
  sequence : StepId → ℕ
  endpointAncestors : StepId → Finset ℕ
  blockAncestors : BlockKey → Finset ℕ
  rankSequence : ℕ → ℕ
  /-- `dependencies_by_step`. -/
  targets : Dict StepId StepId
  stepOwner : Dict StepId BlockKey

namespace Lowering

/-- Before the first instruction. -/
def start : Lowering := ⟨[], [], fun _ => 0, fun _ => ∅, fun _ => ∅, fun _ => 0, [], []⟩

/-- Drop the waits that are covered already.  Newest endpoints come first. -/
def selectWaits (sequence : StepId → ℕ) (ancestors : StepId → Finset ℕ) :
    Finset ℕ → List StepId → List StepId × Finset ℕ
  | covered, [] => ([], covered)
  | covered, target :: rest =>
    if sequence target ∈ covered then selectWaits sequence ancestors covered rest
    else
      let next := selectWaits sequence ancestors (covered ∪ ancestors target) rest
      (target :: next.1, next.2)

/-- The endpoints on a rank of what an instruction depends on. -/
def assigned (s : Lowering) (op : Instruction) (rank : ℕ) : List StepId :=
  ((s.locations.filter fun e => e.1.2 = rank ∧ e.1.1 ∈ op.dependencies).map (·.2)).dedup

/-- The NOPs that carry all waits but the last. -/
def nopWaits (op : Instruction) (rank : ℕ) (waits : List StepId) : List (StepId × StepId) :=
  waits.dropLast.zipIdx.map fun e => (.nop op.operationId rank e.2, e.1)

/-- The waits of the steps of one endpoint. -/
def stepWaits (op : Instruction) (spec : EndpointSpec) (waits : List StepId) :
    List (StepId × StepId) :=
  nopWaits op spec.rank waits ++
    (waits.getLast?.map fun target => (.endpoint op.operationId spec.side spec.rank, target)).toList

/-- The step that does an endpoint's work. -/
def endpointStep (op : Instruction) (spec : EndpointSpec) : RawStep where
  id := .endpoint op.operationId spec.side spec.rank
  operationId := op.operationId
  kind := spec.kind
  src := some spec.src
  dst := some spec.dst

/-- The steps of one endpoint: its NOPs and itself. -/
def endpointSteps (op : Instruction) (spec : EndpointSpec) (waits : List StepId) : List RawStep :=
  (nopWaits op spec.rank waits).map (fun e => ⟨e.1, op.operationId, .nop, none, none⟩) ++
    [endpointStep op spec]

/-- The waits that an endpoint keeps, and what is covered then. -/
def keptWaits (layout : Layout) (wanted : ℕ → List StepId) (s : Lowering) (spec : EndpointSpec) :
    List StepId × Finset ℕ :=
  selectWaits s.sequence s.endpointAncestors (s.blockAncestors (blockKey layout spec))
    ((wanted spec.rank).insertionSort (fun a b => s.sequence b ≤ s.sequence a))

/-- Place one endpoint.  `wanted` are the endpoints on its rank it must follow. -/
def lowerEndpoint (layout : Layout) (op : Instruction) (wanted : ℕ → List StepId) (s : Lowering)
    (spec : EndpointSpec) : Lowering :=
  let key := blockKey layout spec
  let id := StepId.endpoint op.operationId spec.side spec.rank
  let selected := keptWaits layout wanted s spec
  let mask := insert (s.rankSequence spec.rank) selected.2
  { blocks := s.blocks.set key ((s.blocks.get? key).getD [] ++ endpointSteps op spec selected.1)
    locations := s.locations.set (op.operationId, spec.rank) id
    sequence := Function.update s.sequence id (s.rankSequence spec.rank)
    endpointAncestors := Function.update s.endpointAncestors id mask
    blockAncestors := Function.update s.blockAncestors key mask
    rankSequence := Function.update s.rankSequence spec.rank (s.rankSequence spec.rank + 1)
    targets := (stepWaits op spec selected.1).foldl (fun d e => d.set e.1 e.2) s.targets
    stepOwner := (endpointSteps op spec selected.1).foldl (fun d e => d.set e.id key) s.stepOwner }

/-- Every dependency must have an endpoint on a rank of the instruction. -/
def checkLocal (s : Lowering) (op : Instruction) (specs : List EndpointSpec) : Except Fault Unit :=
  let first : Option String := (op.dependencies.filter fun p =>
    ¬ ∃ spec ∈ specs, (p, spec.rank) ∈ s.locations.keys).min
  match first with
  | none => .ok ()
  | some p => .error (.semantic ("a required dependency has no same-rank endpoint: " ++ p ++
      " -> " ++ op.operationId))

/-- Place one instruction. -/
def lowerInstruction (storage : StoragePlan) (layout : Layout) (s : Lowering) (op : Instruction) :
    Except Fault Lowering := do
  let specs ← endpointSpecs op storage
  s.checkLocal op specs
  return specs.foldl (lowerEndpoint layout op (s.assigned op)) s

/-! ## Numbering -/

/-- Sides in the order of their texts. -/
def sideCode : Side → ℤ
  | .copy => 0
  | .fused => 1
  | .recv => 2
  | .send => 3

/-- Blocks with awaited steps come first, then blocks by rank, side, peer and channel. -/
def keyCode (awaited : List BlockKey) (key : BlockKey) : List ℤ :=
  [if key ∈ awaited then 0 else 1, key.rank, sideCode key.side, key.peer, key.channel]

/-- `target_blocks`: the blocks with awaited steps. -/
def awaitedBlocks (s : Lowering) : List BlockKey := s.targets.values.filterMap s.stepOwner.get?

/-- The blocks of a rank in the order of their numbers. -/
def rankKeys (s : Lowering) (rank : ℕ) : List BlockKey :=
  (s.blocks.keys.filter fun key => key.rank = rank).insertionSort
    (fun a b => keyCode s.awaitedBlocks a ≤ keyCode s.awaitedBlocks b)

/-- `block_ids`. -/
def blockIds (s : Lowering) (rankCount : ℕ) : Dict BlockKey ℕ :=
  (List.range rankCount).flatMap fun rank => (s.rankKeys rank).zipIdx

/-- The coordinates of a step: the number of its block and its index. -/
def stepLocations (s : Lowering) (ids : Dict BlockKey ℕ) : Except Fault (Dict StepId (ℕ × ℕ)) := do
  let rows ← s.blocks.mapM fun e => do
    let id ← Checked.required (ids.get? e.1) (.missing "block")
    return e.2.zipIdx.map fun step => (step.1.id, (id, step.2))
  return Dict.ofList rows.flatten

/-- The coordinates of a step's wait, `-1` if it has none. -/
def waitPlace (s : Lowering) (places : Dict StepId (ℕ × ℕ)) (step : RawStep) :
    Except Fault (ℤ × ℤ) :=
  match s.targets.get? step.id with
  | none => .ok (-1, -1)
  | some target => do
    let place ← Checked.required (places.get? target) (.missing target.text)
    return ((place.1 : ℤ), (place.2 : ℤ))

/-- A step with the coordinates of its wait. -/
def placeStep (s : Lowering) (places : Dict StepId (ℕ × ℕ)) (step : RawStep) :
    Except Fault NativeStep := do
  let place ← s.waitPlace places step
  return {
    stepId := step.id.text
    operationId := step.operationId
    kind := step.kind
    src := step.src
    dst := step.dst
    dependencyTb := place.1
    dependencyStep := place.2
    hasDependence := decide (step.id ∈ s.targets.values) }

/-- One block of the program. -/
def placeBlock (s : Lowering) (ids : Dict BlockKey ℕ) (places : Dict StepId (ℕ × ℕ))
    (e : BlockKey × List RawStep) : Except Fault NativeBlock := do
  let id ← Checked.required (ids.get? e.1) (.missing "block")
  let steps ← e.2.mapM (s.placeStep places)
  return {
    rank := e.1.rank
    tbId := id
    channel := max e.1.channel 0
    sendPeer := if (e.1.side = .send ∨ e.1.side = .fused) ∧ ∃ step ∈ steps, step.kind = .s
      then e.1.peer else -1
    recvPeer := if (e.1.side = .recv ∨ e.1.side = .fused) ∧ ∃ step ∈ steps, step.kind.receives = true
      then e.1.peer else -1
    steps := steps }

/-- Blocks by rank and number. -/
def sortBlocks (blocks : List NativeBlock) : List NativeBlock :=
  blocks.insertionSort (fun a b => a.rank < b.rank ∨ (a.rank = b.rank ∧ a.tbId ≤ b.tbId))

end Lowering

open Lowering in
/-- `lower_program`. -/
def lowerProgram (storage : StoragePlan) (context : LoweringContext) :
    Except Fault NativeProgram := do
  let s ← storage.instructions.foldlM (lowerInstruction storage context.inputs.layout) start
  let ids := s.blockIds context.inputs.rankCount
  let places ← s.stepLocations ids
  let blocks ← s.blocks.mapM (s.placeBlock ids places)
  let ordered := sortBlocks blocks
  return {
    rankCount := context.inputs.rankCount
    channels := ((ordered.map fun block : NativeBlock => block.channel).foldl max 0).toNat + 1
    chunksPerLoop := if context.inputs.collective.kind = .allGather then
        context.inputs.sliceCount * context.inputs.rankCount
      else context.inputs.sliceCount
    blocks := ordered
    inputSlots := storage.inputSlots
    outputSlots := storage.outputSlots
    scratchSlots := storage.scratchSlots }

end VeriCCL
