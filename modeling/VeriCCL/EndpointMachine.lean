import VeriCCL.Dict
import Mathlib.Data.Prod.Lex
import Mathlib.Logic.Relation

/-! # Thread blocks and their simulated execution

`ThreadblockProgram` of `xml/threadblocks.py` and `simulate_endpoint_execution` of
`xml/deadlock.py`.  A thread block executes its steps in order.  A copy or a nop executes alone,
the two steps of a transfer together (`EndpointMove`).  The simulation executes them in batches:
all local steps that can, or else all transfers that can. -/
namespace VeriCCL

/-- `EndpointType`. -/
inductive EndpointType
  | send
  | recv
  | recvReduceCopy
  | copy
  | nop
  deriving DecidableEq

/-- The step executes without a peer. -/
def EndpointType.isLocal : EndpointType → Bool
  | .copy | .nop => true
  | _ => false

/-- The direction of a thread block. -/
inductive BlockDirection
  | send
  | recv
  | copy
  deriving DecidableEq

/-- The types of steps that a direction may have. -/
def BlockDirection.allowed : BlockDirection → List EndpointType
  | .copy => [.copy, .nop]
  | .send => [.send, .nop]
  | .recv => [.recv, .recvReduceCopy, .nop]

/-- `ThreadblockKey`. -/
structure ThreadblockKey where
  rank : ℕ
  direction : BlockDirection
  peer : ℤ
  channel : ℤ
  copy_ok : direction = .copy → peer = -1 ∧ channel = -1
  lane_ok : direction ≠ .copy → 0 ≤ peer ∧ 0 ≤ channel ∧ peer ≠ rank

/-- `XmlStep`, as far as the execution depends on it. -/
structure XmlStep where
  stepId : String
  transferId : String
  xmlType : EndpointType
  rank : ℕ
  peer : ℤ
  channel : ℤ
  dependencyStepId : Option String
  hasDependence : Bool
  deriving DecidableEq

/-- `Threadblock`. -/
structure Threadblock where
  key : ThreadblockKey
  tbId : ℕ
  steps : List XmlStep
  rank_ok : ∀ step ∈ steps, step.rank = key.rank
  lane_ok : ∀ step ∈ steps, step.peer = key.peer ∧ step.channel = key.channel
  type_ok : ∀ step ∈ steps, step.xmlType ∈ key.direction.allowed

/-- What identifies a block: its rank and its number there. -/
def Threadblock.blockId (block : Threadblock) : ℕ × ℕ := (block.key.rank, block.tbId)

/-- All steps of some blocks. -/
def blockSteps (threadblocks : List Threadblock) : List XmlStep := threadblocks.flatMap (·.steps)

/-- `ThreadblockProgram`. -/
structure ThreadblockProgram where
  threadblocks : List Threadblock
  transferSteps : Dict String (String × String)
  referencedStepIds : Finset String
  blocks_unique : (threadblocks.map (·.blockId)).Nodup
  steps_unique : ((blockSteps threadblocks).map (·.stepId)).Nodup
  transfers_unique : transferSteps.Distinct
  transfers_known : ∀ entry ∈ transferSteps,
    entry.2.1 ∈ (blockSteps threadblocks).map (·.stepId) ∧
      entry.2.2 ∈ (blockSteps threadblocks).map (·.stepId)
  referenced_known : ∀ id ∈ referencedStepIds, id ∈ (blockSteps threadblocks).map (·.stepId)
  dependencies_ok : ∀ step ∈ blockSteps threadblocks, ∀ id ∈ step.dependencyStepId,
    ∃ dependency ∈ blockSteps threadblocks, dependency.stepId = id ∧ dependency.rank = step.rank
  flags_ok : ∀ step ∈ blockSteps threadblocks,
    step.hasDependence = true ↔ step.stepId ∈ referencedStepIds

namespace ThreadblockProgram

variable (program : ThreadblockProgram)

/-- The steps of a program. -/
def steps : List XmlStep := blockSteps program.threadblocks

/-- `steps_by_id`. -/
def stepsById : Dict String XmlStep := Dict.ofList (program.steps.map fun step => (step.stepId, step))

end ThreadblockProgram

/-! ## Execution -/

/-- How far every block is, and the steps that have completed. -/
structure EndpointState where
  positions : ℕ × ℕ → ℕ
  completed : Finset String

namespace EndpointState

/-- Before the first step. -/
def start : EndpointState := ⟨fun _ => 0, ∅⟩

variable (s : EndpointState)

/-- `heads`: the next step of every block that has one. -/
def heads (program : ThreadblockProgram) : List ((ℕ × ℕ) × XmlStep) :=
  program.threadblocks.filterMap fun block =>
    block.steps[s.positions block.blockId]?.map fun step => (block.blockId, step)

/-- `dependency_ready`. -/
def Ready (step : XmlStep) : Prop := ∀ id ∈ step.dependencyStepId, id ∈ s.completed

instance (step : XmlStep) : Decidable (s.Ready step) :=
  match h : step.dependencyStepId with
  | none => isTrue (by simp [Ready, h])
  | some id => decidable_of_iff (id ∈ s.completed) (by simp [Ready, h])

/-- A block's head completes. -/
def complete (head : (ℕ × ℕ) × XmlStep) : EndpointState where
  positions := Function.update s.positions head.1 (s.positions head.1 + 1)
  completed := insert head.2.stepId s.completed

end EndpointState

/-- **One move of the machine.**  A copy or a nop executes when it heads its block and its
dependency has completed.  The two steps of a transfer execute together when both head their
blocks and the dependencies of both have completed. -/
inductive EndpointMove (program : ThreadblockProgram) : EndpointState → EndpointState → Prop
  | step {s : EndpointState} {head : (ℕ × ℕ) × XmlStep} (hhead : head ∈ s.heads program)
      (hlocal : head.2.xmlType.isLocal = true) (hready : s.Ready head.2) :
      EndpointMove program s (s.complete head)
  | transfer {s : EndpointState} {entry : String × String × String}
      {first second : (ℕ × ℕ) × XmlStep} (hentry : entry ∈ program.transferSteps)
      (hfirst : first ∈ s.heads program) (hfirstId : first.2.stepId = entry.2.1)
      (hsecond : second ∈ s.heads program) (hsecondId : second.2.stepId = entry.2.2)
      (hfirstReady : s.Ready first.2) (hsecondReady : s.Ready second.2) :
      EndpointMove program s ((s.complete first).complete second)

/-! ## The simulation -/

/-- `DeadlockResult`. -/
structure DeadlockResult where
  deadlocked : Bool
  completedStepIds : Finset String
  blockedTransferIds : Finset String
  tbHeads : List ((ℕ × ℕ) × String)
  deriving DecidableEq

section Simulation

variable (program : ThreadblockProgram)

/-- `sorted(current.items())`: by rank and block number. -/
def sortHeads (current : List ((ℕ × ℕ) × XmlStep)) : List ((ℕ × ℕ) × XmlStep) :=
  current.insertionSort fun a b => toLex a.1 ≤ toLex b.1

/-- A local step of the batch, with the completions of the steps before it. -/
def localStep (acc : EndpointState × Bool) (head : (ℕ × ℕ) × XmlStep) : EndpointState × Bool :=
  if head.2.xmlType.isLocal = true ∧ acc.1.Ready head.2 then (acc.1.complete head, true) else acc

/-- `sorted(program.transfer_steps.items())`. -/
def sortTransfers : List (String × String × String) :=
  program.transferSteps.insertionSort fun a b => a.1 ≤ b.1

/-- A transfer's steps are both heads, and the dependencies of both have completed. -/
def transferReady (headIds : List String) (s : EndpointState) (entry : String × String × String) :
    Prop :=
  (entry.2.1 ∈ headIds ∧ entry.2.2 ∈ headIds) ∧
    (∀ step ∈ program.stepsById.get? entry.2.1, s.Ready step) ∧
    ∀ step ∈ program.stepsById.get? entry.2.2, s.Ready step

instance (headIds : List String) (s : EndpointState) (entry : String × String × String) :
    Decidable (transferReady program headIds s entry) :=
  inferInstanceAs (Decidable (_ ∧ _))

/-- A transfer of the batch; the heads are those before the batch. -/
def transferStep (current : List ((ℕ × ℕ) × XmlStep)) (acc : EndpointState × Bool)
    (entry : String × String × String) : EndpointState × Bool :=
  if transferReady program (current.map (·.2.stepId)) acc.1 entry then
    ((current.filter fun head => head.2.stepId = entry.2.1 ∨ head.2.stepId = entry.2.2).foldl
      EndpointState.complete acc.1, true)
  else acc

/-- The transfers that the heads wait for. -/
def blockedTransfers (current : List ((ℕ × ℕ) × XmlStep)) : Finset String :=
  ((current.filter fun head => head.2.xmlType.isLocal = false).map (·.2.transferId)).toFinset

/-- The loop of `simulate_endpoint_execution`, with the turns it may still take; without them
there is no result. -/
def simulateLoop : ℕ → EndpointState → Option DeadlockResult
  | 0, _ => none
  | turns + 1, s =>
    let current := s.heads program
    if current = [] then
      some { deadlocked := false, completedStepIds := s.completed, blockedTransferIds := ∅,
             tbHeads := [] }
    else
      let alone := (sortHeads current).foldl localStep (s, false)
      if alone.2 = true then simulateLoop turns alone.1
      else
        let current := alone.1.heads program
        let paired := (sortTransfers program).foldl (transferStep program current) (alone.1, false)
        if paired.2 = true then simulateLoop turns paired.1
        else
          some { deadlocked := true, completedStepIds := paired.1.completed,
                 blockedTransferIds := blockedTransfers current,
                 tbHeads := current.map fun head => (head.1, head.2.stepId) }

end Simulation
end VeriCCL
