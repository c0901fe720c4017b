import VeriCCL.Bindings
import VeriCCL.Identifiers

/-! # The executable of a program

`build_executable` of `xml/v5_program.py`: one piece of work per instruction, with the
dependencies of the native program, the links and shared resources of its route, and a
flow named after route and channel.  An average is divided after the kernel, by one
more copy on every rank with output. -/
namespace VeriCCL

/-- `'%d:%d' % (src, dst)`. -/
def linkSuffix (src dst : ℕ) : String := toString src ++ (":" ++ toString dst)

/-- The resource of a directed link. -/
def linkResource (src dst : ℕ) : String := "link" ++ (":" ++ linkSuffix src dst)

/-- The service of a transfer. -/
def transferCostKey (kind : InstructionKind) (src dst : ℕ) : String :=
  (if kind = .rrc then "rrc" else "link") ++ (":" ++ linkSuffix src dst)

/-- `'%s:%d:%d:c%d' % (kind, src, dst, channel)`. -/
def flowIdentity (kind : InstructionKind) (src dst : ℕ) (channel : ℤ) : String :=
  kind.text ++ (":" ++ (toString src ++ (":" ++ (toString dst ++ (":" ++ ("c" ++ toString channel))))))

/-- Instructions that cross a link. -/
def InstructionKind.transfers : InstructionKind → Bool
  | .send | .rrc => true
  | _ => false

/-- The kind of work of an instruction. -/
def workKind (kind : InstructionKind) : Except Fault WorkKind :=
  Checked.required kind.work (.semantic "unknown physical work kind")

/-- The dependencies of an operation, sorted. -/
def sortedDependencies (result : ExecutionDependencies) (x : String) : List String :=
  sortStrings (result.dependencies.keys.filter fun p => p ∈ (result.dependencies.get? x).getD ∅)

/-- The record of an instruction's work, before its constructor's checks. -/
def describeWork (result : ExecutionDependencies) (context : LoweringContext) (op : Instruction)
    (kind : WorkKind) (source destination : Address) : Except Fault WorkOperation :=
  if op.kind.transfers then do
    let link ← context.topology.link source.rank destination.rank
    return {
      operationId := op.operationId
      kind := kind
      costKey := some (transferCostKey op.kind source.rank destination.rank)
      payloadBytes := context.inputs.sliceSizeBytes
      dependencies := sortedDependencies result op.operationId
      resources := sortStrings (linkResource source.rank destination.rank :: link.resourceIds).dedup
      flowId := some (flowIdentity op.kind source.rank destination.rank op.channel) }
  else
    return {
      operationId := op.operationId
      kind := kind
      costKey := some (op.kind.text ++ (":" ++ toString op.rank))
      payloadBytes := context.inputs.sliceSizeBytes
      dependencies := sortedDependencies result op.operationId }

/-- The work of one instruction. -/
def workOf (result : ExecutionDependencies) (storage : StoragePlan) (context : LoweringContext)
    (op : Instruction) : Except Fault WorkOperation := do
  let source ← storage.address (← op.input 0)
  let destination ← storage.address op.output
  let kind ← workKind op.kind
  let work ← describeWork result context op kind source destination
  work.check
  return work

/-- The identity of the division that follows an average on a rank. -/
def postscaleId (rank : ℕ) : String := "native-postscale" ++ (":" ++ toString rank)

/-- The operations with an endpoint on a rank. -/
def localOperations (program : NativeProgram) (rank : ℕ) : List String :=
  (((workSteps program).filter fun m => m.1.rank = rank).map (·.2.operationId)).dedup

/-- The division that follows an average, on one rank. -/
def postscale (program : NativeProgram) (context : LoweringContext) (e : ℕ × ℕ) :
    Except Fault WorkOperation := do
  let work : WorkOperation := {
    operationId := postscaleId e.1
    kind := .copy
    costKey := some ("copy" ++ (":" ++ toString e.1))
    payloadBytes := e.2 * context.inputs.sliceSizeBytes
    dependencies := sortStrings (localOperations program e.1) }
  work.check
  return work

/-- The operations that make the outputs. -/
def outputProducers (storage : StoragePlan) : Except Fault (List String) := do
  let producers ← storage.outputs.values.mapM fun state => do
    let value ← Checked.required (storage.values.get? state) (.missing state)
    return value.producer
  return sortStrings (producers.filterMap id).dedup

/-- The divisions that follow an average. -/
def postscales (program : NativeProgram) (context : LoweringContext) :
    Except Fault (List WorkOperation) :=
  if context.inputs.collective.reductionOp = some "avg" then
    ((program.outputSlots.insertionSort fun a b => a.1 ≤ b.1).filter fun e => e.2 ≠ 0).mapM
      (postscale program context)
  else
    .ok []

/-- `build_executable`. -/
def buildExecutable (program : NativeProgram) (storage : StoragePlan) (context : LoweringContext) :
    Except Fault Executable := do
  let result ← executionDependencies program
  let instructions := Dict.ofList (storage.instructions.map fun op => (op.operationId, op))
  Checked.ensure ((∀ x ∈ result.byOp.keys, x ∈ instructions.keys) ∧
      ∀ x ∈ instructions.keys, x ∈ result.byOp.keys)
    (.semantic "native program and semantic operations do not have the same coverage")
  let operations ← instructions.values.mapM (workOf result storage context)
  let producers ← outputProducers storage
  let divisions ← postscales program context
  let executable : Executable := {
    operations := operations ++ divisions
    outputOperations := if context.inputs.collective.reductionOp = some "avg" then
        divisions.map (·.operationId)
      else producers
    context := context.model.context }
  executable.check
  return executable

/-! ## Names -/

theorem linkSuffix_inj {a b c d : ℕ} (h : linkSuffix a b = linkSuffix c d) : a = c ∧ b = d := by
  obtain ⟨h1, h2⟩ := Identifiers.colon_inj (Identifiers.colon_notMem_nat a)
    (Identifiers.colon_notMem_nat c) h
  exact ⟨Identifiers.nat_inj h1, Identifiers.nat_inj h2⟩

theorem linkResource_inj {a b c d : ℕ} (h : linkResource a b = linkResource c d) :
    a = c ∧ b = d :=
  linkSuffix_inj (Identifiers.colon_inj (by decide) (by decide) h).2

/-- **A flow names its route and channel.** -/
theorem flowIdentity_inj {k l : InstructionKind} (hk : k.transfers = true)
    (hl : l.transfers = true) {a b c d : ℕ} {m n : ℤ}
    (h : flowIdentity k a b m = flowIdentity l c d n) : a = c ∧ b = d ∧ m = n := by
  have hcolon : ∀ k : InstructionKind, k.transfers = true → ':' ∉ k.text.toList := by
    intro k hk
    cases k with
    | send => decide
    | rrc => decide
    | copy => simp [InstructionKind.transfers] at hk
    | reduce => simp [InstructionKind.transfers] at hk
    | other name => simp [InstructionKind.transfers] at hk
  obtain ⟨-, h⟩ := Identifiers.colon_inj (hcolon k hk) (hcolon l hl) h
  obtain ⟨h1, h⟩ := Identifiers.colon_inj (Identifiers.colon_notMem_nat a)
    (Identifiers.colon_notMem_nat c) h
  obtain ⟨h2, h⟩ := Identifiers.colon_inj (Identifiers.colon_notMem_nat b)
    (Identifiers.colon_notMem_nat d) h
  refine ⟨Identifiers.nat_inj h1, Identifiers.nat_inj h2, Identifiers.int_inj ?_⟩
  have hlist := congrArg String.toList h
  rw [String.toList_append, String.toList_append, List.append_right_inj] at hlist
  exact String.ext hlist

/-! ## What the executable holds -/

section
variable {program : NativeProgram} {storage : StoragePlan} {context : LoweringContext}
  {result : ExecutionDependencies} {executable : Executable}

/-- What the work of an instruction is. -/
structure WorkOf (result : ExecutionDependencies) (storage : StoragePlan)
    (context : LoweringContext) (op : Instruction) (work : WorkOperation) : Prop where
  operationId : work.operationId = op.operationId
  kind : op.kind.work = some work.kind
  payload : work.payloadBytes = context.inputs.sliceSizeBytes
  dependencies : work.dependencies = sortedDependencies result op.operationId
  released : work.notBefore = 0
  /-- A transfer uses its link and is priced by its route. -/
  transfer : op.kind.transfers = true → ∃ first source destination link,
    op.inputs[0]? = some first ∧ storage.addresses.get? first = some source ∧
    storage.addresses.get? op.output = some destination ∧
    context.topology.link source.rank destination.rank = .ok link ∧
    work.costKey = some (transferCostKey op.kind source.rank destination.rank) ∧
    work.resources =
      sortStrings (linkResource source.rank destination.rank :: link.resourceIds).dedup ∧
    work.flowId = some (flowIdentity op.kind source.rank destination.rank op.channel)
  /-- Other work is priced by kind and rank and uses no resource. -/
  own : op.kind.transfers = false →
    work.costKey = some (op.kind.text ++ (":" ++ toString op.rank)) ∧ work.resources = []
  checked : work.check = .ok ()

theorem workOf_ok {op : Instruction} {work : WorkOperation}
    (h : workOf result storage context op = .ok work) :
    WorkOf result storage context op work := by
  unfold workOf at h
  simp only [Checked.bind_ok, StoragePlan.address, Instruction.input, workKind,
    Checked.required_ok] at h
  obtain ⟨first, hfirst, source, hsource, destination, hdest, kind, hkind, w, hw, _, hcheck, h⟩ := h
  obtain rfl := Checked.pure_ok.mp h
  unfold describeWork at hw
  by_cases ht : op.kind.transfers = true
  · rw [if_pos ht] at hw
    obtain ⟨link, hlink, hw⟩ := Checked.bind_ok.mp hw
    obtain rfl := Checked.pure_ok.mp hw
    exact ⟨rfl, hkind, rfl, rfl, rfl, fun _ => ⟨first, source, destination, link, hfirst, hsource,
      hdest, hlink, rfl, rfl, rfl⟩, fun hf => by simp [ht] at hf, hcheck⟩
  · rw [if_neg ht] at hw
    obtain rfl := Checked.pure_ok.mp hw
    exact ⟨rfl, hkind, rfl, rfl, rfl, fun hf => absurd hf ht, fun _ => ⟨rfl, rfl⟩, hcheck⟩

/-- **What `build_executable` returns**: the work of the instructions, and local
divisions after them. -/
structure Built (storage : StoragePlan) (context : LoweringContext)
    (result : ExecutionDependencies) (executable : Executable) : Prop where
  ids_nodup : executable.ids.Nodup
  known : ∀ work ∈ executable.operations, ∀ p ∈ work.dependencies, p ∈ executable.ids
  work : ∀ work ∈ executable.operations, (∃ op ∈ storage.instructions,
    WorkOf result storage context op work) ∨ (work.kind = .copy ∧ work.notBefore = 0)
  complete : (storage.instructions.map (·.operationId)).Nodup → ∀ op ∈ storage.instructions,
    ∃ work ∈ executable.operations, WorkOf result storage context op work
  checked : ∀ work ∈ executable.operations, work.check = .ok ()
  context_eq : executable.context = context.model.context

theorem buildExecutable_built (hdeps : executionDependencies program = .ok result)
    (h : buildExecutable program storage context = .ok executable) :
    Built storage context result executable := by
  unfold buildExecutable at h
  simp only [Checked.bind_ok, Checked.ensure_ok, hdeps, Except.ok.injEq, exists_eq_left'] at h
  obtain ⟨_, -, operations, hoperations, producers, -, divisions, hdivisions, _, hcheck, h⟩ := h
  obtain rfl := Checked.pure_ok.mp h
  simp only [Executable.check, Checked.bind_ok, Checked.ensure_ok] at hcheck
  obtain ⟨_, hnodup, _, hknown, -⟩ := hcheck
  have hwork : ∀ w ∈ operations, ∃ op ∈ storage.instructions, WorkOf result storage context op w := by
    intro w hw
    obtain ⟨op, hop, hwop⟩ := Checked.mapM_right hoperations hw
    obtain ⟨e, he, rfl⟩ := List.mem_map.mp hop
    have hget := Dict.get?_of_mem (Dict.distinct_ofList _) he
    obtain ⟨found, hfound, heq⟩ := List.mem_map.mp (Dict.mem_of_ofList_get? hget)
    have hvalue : found = e.2 := (Prod.mk.inj heq).2
    exact ⟨e.2, hvalue ▸ hfound, workOf_ok hwop⟩
  have hdivision : ∀ w ∈ divisions, w.kind = .copy ∧ w.notBefore = 0 ∧ w.check = .ok () := by
    intro w hw
    unfold postscales at hdivisions
    split at hdivisions
    · obtain ⟨e, -, he⟩ := Checked.mapM_right hdivisions hw
      simp only [postscale, Checked.bind_ok, Checked.pure_ok] at he
      obtain ⟨_, hc, rfl⟩ := he
      exact ⟨rfl, rfl, hc⟩
    · obtain rfl : [] = divisions := by simpa using hdivisions
      simp at hw
  refine ⟨hnodup, hknown, ?_, ?_, ?_, rfl⟩
  · intro w hw
    rcases List.mem_append.mp hw with hw | hw
    · exact Or.inl (hwork w hw)
    · obtain ⟨hk, hr, -⟩ := hdivision w hw
      exact Or.inr ⟨hk, hr⟩
  · intro hids op hop
    have hget : (Dict.ofList (storage.instructions.map fun op => (op.operationId, op))).get?
        op.operationId = some op := by
      refine (Dict.ofList_get? ?_).mpr (List.mem_map.mpr ⟨op, hop, rfl⟩)
      simpa [Function.comp_def] using hids
    obtain ⟨w, hw, hwop⟩ := Checked.mapM_left hoperations
      (List.mem_map.mpr ⟨_, Dict.mem_of_get? hget, rfl⟩)
    exact ⟨w, List.mem_append_left _ hw, workOf_ok hwop⟩
  · intro w hw
    rcases List.mem_append.mp hw with hw | hw
    · obtain ⟨op, -, hwork⟩ := hwork w hw
      exact hwork.checked
    · exact (hdivision w hw).2.2

/-- The dependencies of an instruction's work are its edges. -/
theorem mem_sortedDependencies (hacc : Accepted program result) {p x : String} :
    p ∈ sortedDependencies result x ↔ result.Edge p x := by
  unfold sortedDependencies sortStrings
  rw [(List.perm_insertionSort _ _).mem_iff, List.mem_filter, decide_eq_true_eq]
  constructor
  · exact fun h => h.2
  · intro h
    refine ⟨?_, h⟩
    obtain ⟨order, -, hkeys, htop⟩ := hacc.topological
    obtain ⟨l, r, hl, hp⟩ := htop p x (hacc.edge_key h) h
    rw [hacc.keys, ← hkeys, hl]
    exact List.mem_append_left _ hp

end

end VeriCCL
