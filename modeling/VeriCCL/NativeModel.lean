import VeriCCL.Collective
import Mathlib.Data.Rat.Defs

/-! # Lowering records

`xml/v5_model.py`: the storage plan (state versions and the instructions that
make them) and the native program (thread blocks of steps).  Ranks, thread-block
ids and buffer offsets are natural numbers: the source refuses negative ones
(`rank_id`, `tb_id`, the bounds of `_validate_bindings`).  Fields that use `-1`
for "none" are integers. -/
namespace VeriCCL

/-- Input, output and scratch buffer of a rank. -/
inductive Buffer where
  | i
  | o
  | s
  deriving DecidableEq

/-- One slice of a buffer. -/
structure Address where
  rank : ℕ
  buffer : Buffer
  offset : ℕ
  deriving DecidableEq

/-- The kind of an instruction.  Lowering makes `send`, `rrc` and `copy`; a
reloaded plan may carry any name. -/
inductive InstructionKind where
  | send
  | rrc
  | copy
  | reduce
  | other (name : String)
  deriving DecidableEq

/-- A routed transfer, before storage. -/
structure NetworkOperation where
  operationId : String
  kind : InstructionKind
  srcRank : ℕ
  dstRank : ℕ
  channel : ℤ
  stageId : ℕ
  contributors : Finset ℕ
  targetContributors : Finset ℕ
  participants : List ℕ
  dependencies : Finset String
  referenceDependencies : Finset String
  priorityTime : ℚ
  deriving DecidableEq

/-- A state version: what one region of one rank holds after `producer`. -/
structure Value where
  stateId : String
  rank : ℕ
  logicalPosition : ℕ
  contributors : Finset ℕ
  producer : Option String
  deriving DecidableEq

/-- An operation on state versions. -/
structure Instruction where
  operationId : String
  kind : InstructionKind
  inputs : List String
  output : String
  rank : ℕ
  peer : ℤ
  channel : ℤ
  stageId : ℕ
  participants : List ℕ
  dependencies : Finset String
  priorityTime : ℚ
  deriving DecidableEq

/-- A scratch slot handed from one state to the next. -/
structure Reuse where
  writer : String
  oldState : String
  newState : String
  previousReaders : Finset String
  rank : ℕ
  offset : ℕ
  deriving DecidableEq

/-- `StoragePlan`. -/
structure StoragePlan where
  values : Dict String Value
  initialIds : List String
  instructions : List Instruction
  addresses : Dict String Address
  outputs : Dict OutputSlot String
  inputSlots : Dict ℕ ℕ
  outputSlots : Dict ℕ ℕ
  scratchSlots : Dict ℕ ℕ
  reuse : List Reuse
  stageCount : ℕ
  referenceOrdersOmitted : List (String × String) := []
  deriving DecidableEq

/-- The kind of a native step. -/
inductive StepKind where
  | s
  | r
  | rrc
  | cpy
  | re
  | nop
  | other (name : String)
  deriving DecidableEq

/-- Receives, with or without reduction. -/
def StepKind.receives : StepKind → Bool
  | .r | .rrc => true
  | _ => false

/-- One step of a thread block. -/
structure NativeStep where
  stepId : String
  operationId : String
  kind : StepKind
  src : Option Address
  dst : Option Address
  dependencyTb : ℤ := -1
  dependencyStep : ℤ := -1
  hasDependence : Bool := false
  count : ℕ := 1
  deriving DecidableEq

/-- A thread block: steps that run in order on one rank. -/
structure NativeBlock where
  rank : ℕ
  tbId : ℕ
  channel : ℤ
  sendPeer : ℤ
  recvPeer : ℤ
  steps : List NativeStep
  deriving DecidableEq

/-- `NativeProgram`. -/
structure NativeProgram where
  rankCount : ℕ
  channels : ℕ
  chunksPerLoop : ℕ
  blocks : List NativeBlock
  inputSlots : Dict ℕ ℕ
  outputSlots : Dict ℕ ℕ
  scratchSlots : Dict ℕ ℕ
  deriving DecidableEq

end VeriCCL
