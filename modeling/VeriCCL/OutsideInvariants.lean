import VeriCCL.BuildExecutable
import VeriCCL.LocalOrder

/-! # What a repair may not touch

`outside_invariants` of `tuning/strategies.py` compares a bundle with a repaired one: the
contract, the operations outside the repaired domain, their communication, and their order on
the thread blocks.  Blocks are compared under the peers they use (`queueKey`), and a block of
both directions uses a peer only while a send, or a receive, stands on it. -/
namespace VeriCCL

/-- `_request_contract`. -/
structure RequestContract where
  ranks : ℕ
  inputBytes : ℕ
  sliceBytes : ℕ
  operator : String
  datatype : String
  reductionOp : Option String
  root : Option ℕ
  inplace : Bool
  deriving DecidableEq

/-- The parts of a `CandidateBundle` that repairs compare. -/
structure CandidateBundle where
  requestContract : Option RequestContract
  storagePlan : Option StoragePlan
  program : Option NativeProgram
  executable : Option Executable

/-- `_signature`. -/
structure OperationSignature where
  kind : InstructionKind
  peer : ℤ
  rank : ℕ
  channel : ℤ
  stageId : ℕ
  participants : List ℕ
  readContributors : Finset ℕ
  madeContributors : Finset ℕ
  deriving DecidableEq

/-- `OutsideCheck`. -/
structure OutsideCheck where
  valid : Bool
  differences : List String
  deriving DecidableEq

def signature (op : Instruction) (storage : StoragePlan) : Except Fault OperationSignature := do
  let first ← op.input 0
  let read ← Checked.required (storage.values.get? first) (.missing first)
  let made ← Checked.required (storage.values.get? op.output) (.missing op.output)
  return ⟨op.kind, op.peer, op.rank, op.channel, op.stageId, op.participants, read.contributors,
    made.contributors⟩

/-- The operations of a plan outside the domain, by identifier. -/
def outsideOperations (storage : StoragePlan) (domain : Finset String) : Dict String Instruction :=
  Dict.ofList ((storage.instructions.filter fun op => op.operationId ∉ domain).map fun op =>
    (op.operationId, op))

/-- The work of an executable, by identifier. -/
def workById (executable : Executable) : Dict String WorkOperation :=
  Dict.ofList (executable.operations.map fun work => (work.operationId, work))

/-- The operations outside the domain that stand on a block, in its order. -/
def blockQueue (outside : List String) (block : NativeBlock) : List String :=
  (block.steps.filter fun step => step.kind ≠ .nop ∧ step.operationId ∈ outside).map
    (·.operationId)

/-- The key under which a block is compared. -/
def queueKey (block : NativeBlock) : ℕ × ℤ × ℤ × ℤ :=
  (block.rank, block.sendPeer, block.recvPeer, block.channel)

/-- `queues`. -/
def queues (outside : List String) (program : NativeProgram) : Dict (ℕ × ℤ × ℤ × ℤ) (List String) :=
  Dict.ofList ((program.blocks.map fun block => (queueKey block, blockQueue outside block)).filter
    fun e => e.2 ≠ [])

/-- What the work of an outside operation is compared on. -/
def communication (work : WorkOperation) : List String × Option String × ℕ × ℚ :=
  (work.resources, work.flowId, work.payloadBytes, work.notBefore)

/-- The difference in the communication of one outside operation. -/
def workDifference (before after : Dict String WorkOperation) (key : String) : List String :=
  match before.get? key, after.get? key with
  | some left, some right =>
    if communication left ≠ communication right then
      ["outside communication resources changed: " ++ key] else []
  | _, _ => []

/-- The difference in one outside operation. -/
def operationDifference (before after : StoragePlan) (key : String) (op : Instruction) :
    Except Fault (List String) :=
  let changed := ["outside operation changed: " ++ key]
  match (Dict.ofList (after.instructions.map fun op => (op.operationId, op))).get? key with
  | none => .ok changed
  | some now => do
    let left ← signature op before
    let right ← signature now after
    return if left ≠ right then changed else []

/-- `outside_invariants`. -/
def outsideInvariants (before after : CandidateBundle) (domain : Finset String) :
    Except Fault OutsideCheck :=
  match after.storagePlan, after.program with
  | some afterStorage, some afterProgram => do
    let storage ← Checked.required before.storagePlan (.missing "instructions")
    let outside := outsideOperations storage domain
    let contract := if before.requestContract ≠ after.requestContract then
      ["local repair changed the external collective/partition contract"] else []
    let executable ← Checked.required before.executable (.missing "operations")
    let beforeWork := workById executable
    let afterWork := (after.executable.map workById).getD []
    let resources := outside.keys.flatMap (workDifference beforeWork afterWork)
    let operations ← outside.mapM fun e => operationDifference storage afterStorage e.1 e.2
    let program ← Checked.required before.program (.missing "blocks")
    let order := if ¬ (queues outside.keys program).Same (queues outside.keys afterProgram) then
      ["outside TB relative order changed"] else []
    let differences := contract ++ resources ++ operations.flatten ++ order
    return ⟨decide (differences = []), differences⟩
  | _, _ => .ok ⟨false, ["missing native candidate"]⟩

/-! ## Lowered bundles -/

/-- A plan that was lowered, checked and built. -/
structure LoweredBundle (context : LoweringContext) where
  contract : Option RequestContract
  storage : StoragePlan
  program : NativeProgram
  executable : Executable
  lowered : lowerProgram storage context = .ok program
  bound : validateBindings program storage = .ok ()
  built : buildExecutable program storage context = .ok executable

/-- The bundle as repairs see it. -/
def LoweredBundle.bundle {context : LoweringContext} (b : LoweredBundle context) :
    CandidateBundle :=
  ⟨b.contract, some b.storage, some b.program, some b.executable⟩

/-- The steps that lowering puts on a thread block, by its identity. -/
def LoweredBundle.stepsAt {context : LoweringContext} (b : LoweredBundle context)
    (key : BlockKey) : List RawStep :=
  match b.storage.instructions.foldlM (Lowering.lowerInstruction b.storage context.inputs.layout)
    Lowering.start with
  | .ok s => s.stepsAt key
  | .error _ => []

/-- The operations among `outside` that stand on some steps, in their order. -/
def stepQueue (outside : List String) (steps : List RawStep) : List String :=
  (steps.filter fun step => step.kind ≠ .nop ∧ step.operationId ∈ outside).map (·.operationId)

/-- A step sends. -/
def Sends (steps : List RawStep) : Prop := ∃ step ∈ steps, step.kind = .s

/-- A step receives. -/
def Receives (steps : List RawStep) : Prop := ∃ step ∈ steps, step.kind.receives = true

section Statement

variable {context context' : LoweringContext} (before : LoweredBundle context)
  (after : LoweredBundle context') (domain : Finset String)

/-- The identifiers of the operations outside the domain. -/
def LoweredBundle.outside : List String := (outsideOperations before.storage domain).keys

/-- **The repair leaves the outside untouched.**  The contract is the same; an operation outside
the domain is in both plans, with the same signature and the same communication; and on every
thread block of lowering the outside operations have the same order. -/
structure Untouched : Prop where
  contract : before.contract = after.contract
  kept : ∀ op ∈ before.storage.instructions, op.operationId ∉ domain →
    ∃ now ∈ after.storage.instructions, now.operationId = op.operationId ∧
      ∃ sig, signature op before.storage = .ok sig ∧ signature now after.storage = .ok sig
  communication : ∀ op ∈ before.storage.instructions, op.operationId ∉ domain →
    ∀ left ∈ before.executable.operations, left.operationId = op.operationId →
    ∀ right ∈ after.executable.operations, right.operationId = op.operationId →
      left.resources = right.resources ∧ left.flowId = right.flowId ∧
        left.payloadBytes = right.payloadBytes
  order : ∀ key, stepQueue (before.outside domain) (before.stepsAt key) =
    stepQueue (before.outside domain) (after.stepsAt key)

/-- A block of both directions on which an outside operation stands sends in both programs or in
neither, and receives in both or in neither. -/
def Steady : Prop :=
  ∀ key, key.side = .fused → stepQueue (before.outside domain) (before.stepsAt key) ≠ [] →
    (Sends (before.stepsAt key) ↔ Sends (after.stepsAt key)) ∧
      (Receives (before.stepsAt key) ↔ Receives (after.stepsAt key))

end Statement

end VeriCCL
