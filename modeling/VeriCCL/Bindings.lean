import VeriCCL.Ancestors
import VeriCCL.Endpoints
import VeriCCL.Request

/-! # Binding a native program to its state versions

`_endpoints` of `xml/v5_program.py` and `_validate_bindings` of `xml/v5_lower.py`: the
endpoints of a program must be exactly those its instructions ask for, on the
addresses of their states, and must keep the instructions' dependencies, once in the
collapsed relation and once among the endpoints of each rank.

`Bound` says what a program and a storage plan satisfy once the check returns. -/
namespace VeriCCL

/-- What an endpoint does; `fused` is a block that does both sides. -/
inductive Side where
  | copy
  | fused
  | recv
  | send
  deriving DecidableEq

/-- One endpoint that an instruction asks for. -/
structure EndpointSpec where
  rank : ℕ
  side : Side
  peer : ℤ
  channel : ℤ
  kind : StepKind
  src : Address
  dst : Address
  deriving DecidableEq

/-- The address of a state. -/
def StoragePlan.address (storage : StoragePlan) (state : String) : Except Fault Address :=
  Checked.required (storage.addresses.get? state) (.missing state)

/-- An input of an instruction. -/
def Instruction.input (op : Instruction) (index : ℕ) : Except Fault String :=
  Checked.required op.inputs[index]? (.index "inputs")

/-- What the receiving end reads of its own: the accumulator of a reduction. -/
def receiverSource (op : Instruction) (storage : StoragePlan) (source : Address) :
    Except Fault Address :=
  if op.kind = .rrc then do storage.address (← op.input 1) else .ok source

/-- `_endpoints`. -/
def endpointSpecs (op : Instruction) (storage : StoragePlan) : Except Fault (List EndpointSpec) := do
  let source ← storage.address (← op.input 0)
  let destination ← storage.address op.output
  if op.kind = .copy then
    return [⟨op.rank, .copy, -1, -1, .cpy, source, destination⟩]
  else
    let receiver ← receiverSource op storage source
    return [⟨source.rank, .send, destination.rank, op.channel, .s, source, destination⟩,
      ⟨destination.rank, .recv, source.rank, op.channel,
        if op.kind = .rrc then .rrc else .r, receiver, destination⟩]

/-- The kind of a step as the source spells it. -/
def StepKind.text : StepKind → String
  | .s => "s"
  | .r => "r"
  | .rrc => "rrc"
  | .cpy => "cpy"
  | .re => "re"
  | .nop => "nop"
  | .other name => name

/-- What the check compares of an endpoint. -/
abbrev SeenEndpoint := ℕ × StepKind × Option Address × Option Address

/-- Endpoints by rank and kind. -/
def sortEndpoints (l : List SeenEndpoint) : List SeenEndpoint :=
  l.insertionSort (fun a b => a.1 < b.1 ∨ (a.1 = b.1 ∧ a.2.1.text ≤ b.2.1.text))

/-- The waits and the block order of one rank. -/
def localEdges (program : NativeProgram) (rank : ℕ) : Dict Location (Finset Location) :=
  Dict.ofList ((program.blocks.filter (fun block => block.rank = rank)).flatMap fun block =>
    block.steps.zipIdx.map fun e => ((block.rank, block.tbId, e.2),
      (if 0 < e.2 then {(block.rank, block.tbId, e.2 - 1)} else ∅) ∪
      (if 0 ≤ e.1.dependencyTb then
        {(block.rank, e.1.dependencyTb.toNat, e.1.dependencyStep.toNat)} else ∅)))

/-- Where the endpoints of the operations are, by operation and rank. -/
def localLocations (program : NativeProgram) : Dict (String × ℕ) Location :=
  Dict.ofList (program.blocks.flatMap fun block =>
    (block.steps.zipIdx.filter (fun e => e.1.kind ≠ .nop)).map fun e =>
      ((e.1.operationId, block.rank), (block.rank, block.tbId, e.2)))

/-- The ranks with steps, in order of first appearance. -/
def stepRanks (program : NativeProgram) : List ℕ :=
  ((program.blocks.filter (fun block => block.steps ≠ [])).map (·.rank)).eraseDups

/-- The slots a rank has of a buffer. -/
def slotsOf (program : NativeProgram) (buffer : Buffer) (rank : ℕ) : Except Fault ℕ :=
  Checked.required ((match buffer with
    | .i => program.inputSlots
    | .o => program.outputSlots
    | .s => program.scratchSlots).get? rank) (.missing (toString rank))

/-- The addresses a step uses on its own rank. -/
def usedAddresses (step : NativeStep) : List (Option Address) :=
  match step.kind with
  | .s => [step.src]
  | .r => [step.dst]
  | .rrc | .cpy | .re => [step.src, step.dst]
  | _ => []

/-- An address must be on the block's rank and inside its buffer. -/
def checkAddress (program : NativeProgram) (block : NativeBlock) (address : Option Address) :
    Except Fault Unit :=
  match address with
  | none => .error (.semantic "native buffer address is outside its declared storage")
  | some a => do
    Checked.ensure (a.rank = block.rank)
      (.semantic "native buffer address is outside its declared storage")
    let slots ← slotsOf program a.buffer block.rank
    Checked.ensure (a.offset < slots)
      (.semantic "native buffer address is outside its declared storage")

/-- An endpoint on a rank must come after the endpoints there of what its operation
depends on. -/
def checkLocalOrder (program : NativeProgram) (locals : Dict ℕ (Dict Location (Finset Location)))
    (op : Instruction) (member : NativeBlock × NativeStep) : Except Fault Unit := do
  let rank := member.1.rank
  let masks ← Checked.required (locals.get? rank) (.missing (toString rank))
  let place ← Checked.required ((localLocations program).get? (op.operationId, rank))
    (.missing op.operationId)
  let mask ← Checked.required (masks.get? place) (.missing op.operationId)
  Checked.ensure (∀ p ∈ op.dependencies, ∀ key ∈ (localLocations program).get? (p, rank), key ∈ mask)
    (.semantic "native local endpoint omits a required data or storage dependency")

/-- The checks of one endpoint of an operation. -/
def checkMember (program : NativeProgram) (op : Instruction) (member : NativeBlock × NativeStep) :
    Except Fault Unit := do
  Checked.ensure (op.kind = .copy ∨ member.1.channel = op.channel)
    (.semantic "native channel differs from the selected channel")
  forM (usedAddresses member.2) (checkAddress program member.1)

/-- The checks of one instruction. -/
def checkInstruction (program : NativeProgram) (storage : StoragePlan)
    (result : ExecutionDependencies) (ancestors : Dict String (Finset String))
    (locals : Dict ℕ (Dict Location (Finset Location))) (op : Instruction) : Except Fault Unit := do
  let mask ← Checked.required (ancestors.get? op.operationId) (.missing op.operationId)
  Checked.ensure (∀ p ∈ op.dependencies, p ∈ mask)
    (.semantic "native program omits a required data or storage dependency")
  let members ← Checked.required (result.byOp.get? op.operationId) (.missing op.operationId)
  forM members (checkLocalOrder program locals op)
  let expected ← endpointSpecs op storage
  Checked.ensure
    (sortEndpoints (members.map fun m => (m.1.rank, m.2.kind, m.2.src, m.2.dst)) =
      sortEndpoints (expected.map fun e => (e.rank, e.kind, some e.src, some e.dst)))
    (.semantic "native buffer references or endpoint type disagree with state bindings")
  forM members (checkMember program op)

/-- `_validate_bindings`. -/
def validateBindings (program : NativeProgram) (storage : StoragePlan) : Except Fault Unit := do
  let result ← executionDependencies program
  let ids := storage.instructions.map (·.operationId)
  Checked.ensure ids.Nodup (.semantic "semantic operation identities are duplicated")
  Checked.ensure ((∀ x ∈ result.byOp.keys, x ∈ ids) ∧ ∀ x ∈ ids, x ∈ result.byOp.keys)
    (.semantic "native and semantic operation coverage differs")
  let ancestors ← dependencyAncestors result.dependencies
  let locals ← (stepRanks program).mapM fun rank => do
    let masks ← dependencyAncestors (localEdges program rank)
    return (rank, masks)
  forM storage.instructions (checkInstruction program storage result ancestors locals)

/-! ## What the check establishes -/

/-- The order of steps on one rank: block order and waits. -/
inductive LocalEdge (program : NativeProgram) : Location → Location → Prop where
  | next {block : NativeBlock} {i : ℕ} (block_mem : block ∈ program.blocks)
      (bound : i + 1 < block.steps.length) :
      LocalEdge program (block.rank, block.tbId, i) (block.rank, block.tbId, i + 1)
  | wait {block : NativeBlock} {i : ℕ} {step : NativeStep} (block_mem : block ∈ program.blocks)
      (at_index : block.steps[i]? = some step) (waits : 0 ≤ step.dependencyTb) :
      LocalEdge program (block.rank, step.dependencyTb.toNat, step.dependencyStep.toNat)
        (block.rank, block.tbId, i)

/-- The place of a step of a block. -/
def NativeBlock.place (block : NativeBlock) (i : ℕ) : Location := (block.rank, block.tbId, i)

/-- **What a program and a plan satisfy once `_validate_bindings` returns.** -/
structure Bound (program : NativeProgram) (storage : StoragePlan)
    (result : ExecutionDependencies) : Prop where
  ids_nodup : (storage.instructions.map (·.operationId)).Nodup
  coverage : ∀ x, x ∈ result.byOp.keys ↔ x ∈ storage.instructions.map (·.operationId)
  /-- The collapsed relation keeps the dependencies. -/
  precedes : ∀ op ∈ storage.instructions, ∀ p ∈ op.dependencies,
    Relation.TransGen result.Edge p op.operationId
  /-- On each rank the endpoints keep the dependencies. -/
  local_precedes : ∀ op ∈ storage.instructions, ∀ p ∈ op.dependencies, ∀ b i step,
    Endpoint program b i step → step.operationId = op.operationId → ∀ c j before,
    Endpoint program c j before → before.operationId = p → c.rank = b.rank →
    Relation.TransGen (LocalEdge program) (c.place j) (b.place i)
  /-- The endpoints are those the instruction asks for. -/
  shape : ∀ op ∈ storage.instructions, ∃ specs, endpointSpecs op storage = .ok specs ∧
    ((endpointsOf program op.operationId).map fun m =>
      (m.1.rank, m.2.kind, m.2.src, m.2.dst)).Perm
        (specs.map fun e => (e.rank, e.kind, some e.src, some e.dst))
  channel : ∀ op ∈ storage.instructions, ∀ b i step, Endpoint program b i step →
    step.operationId = op.operationId → op.kind = .copy ∨ b.channel = op.channel
  address : ∀ op ∈ storage.instructions, ∀ b i step, Endpoint program b i step →
    step.operationId = op.operationId → ∀ used ∈ usedAddresses step,
      ∃ a, used = some a ∧ a.rank = b.rank

section Bound
variable {program : NativeProgram} {storage : StoragePlan} {result : ExecutionDependencies}

theorem mem_localEdges {rank : ℕ} {place : Location} {edges : Finset Location}
    (h : (localEdges program rank).get? place = some edges) : ∃ block ∈ program.blocks, ∃ i step,
      block.steps[i]? = some step ∧ place = (block.rank, block.tbId, i) ∧
      edges = (if 0 < i then {(block.rank, block.tbId, i - 1)} else ∅) ∪
        (if 0 ≤ step.dependencyTb then
          {(block.rank, step.dependencyTb.toNat, step.dependencyStep.toNat)} else ∅) := by
  have hmem := Dict.mem_of_ofList_get? h
  simp only [List.mem_flatMap, List.mem_filter, List.mem_map, Prod.mk.injEq] at hmem
  obtain ⟨block, ⟨hb, -⟩, ⟨step, i⟩, he, hplace, hedges⟩ := hmem
  exact ⟨block, hb, i, step, by simpa [List.mem_zipIdx_iff_getElem?] using he, hplace.symm,
    hedges.symm⟩

/-- What the graph of a rank lists is block order or a wait. -/
theorem localEdge_of_precedes {rank : ℕ} {a b : Location}
    (h : Precedes (localEdges program rank) a b) : LocalEdge program a b := by
  unfold Precedes predecessorsOf at h
  cases hget : (localEdges program rank).get? b with
  | none => simp [hget] at h
  | some edges =>
    rw [hget, Option.getD_some] at h
    obtain ⟨block, hb, i, step, hi, rfl, rfl⟩ := mem_localEdges hget
    rcases Finset.mem_union.mp h with h | h
    · by_cases hpos : 0 < i
      · rw [if_pos hpos, Finset.mem_singleton] at h
        obtain ⟨k, rfl⟩ : ∃ k, i = k + 1 := ⟨i - 1, by omega⟩
        subst h
        exact .next hb (List.getElem?_eq_some_iff.mp hi).1
      · rw [if_neg hpos] at h
        simp at h
    · by_cases hwait : 0 ≤ step.dependencyTb
      · rw [if_pos hwait, Finset.mem_singleton] at h
        subst h
        exact .wait hb hi hwait
      · rw [if_neg hwait] at h
        simp at h

theorem mem_localEdges_keys {block : NativeBlock} (hb : block ∈ program.blocks) {i : ℕ}
    {step : NativeStep} (hi : block.steps[i]? = some step) :
    block.place i ∈ (localEdges program block.rank).keys := by
  rw [localEdges, Dict.mem_keys_ofList]
  simp only [List.mem_map, List.mem_flatMap, List.mem_filter, decide_eq_true_eq]
  exact ⟨_, ⟨block, ⟨hb, rfl⟩, (step, i), by simpa [List.mem_zipIdx_iff_getElem?] using hi, rfl⟩, rfl⟩

/-- The table of places holds the place of every endpoint. -/
theorem localLocations_get? (hacc : Accepted program result) (hfits : Fits program)
    {b : NativeBlock} {i : ℕ} {step : NativeStep} (he : Endpoint program b i step) :
    (localLocations program).get? (step.operationId, b.rank) = some (b.place i) := by
  have hkey : (step.operationId, b.rank) ∈ (localLocations program).keys := by
    rw [localLocations, Dict.mem_keys_ofList]
    simp only [List.mem_map, List.mem_flatMap, List.mem_filter, decide_eq_true_eq]
    exact ⟨_, ⟨b, he.block_mem, (step, i),
      ⟨by simpa [List.mem_zipIdx_iff_getElem?] using he.at_index, he.works⟩, rfl⟩, rfl⟩
  obtain ⟨place, hplace⟩ := Dict.get?_isSome.mpr hkey
  have hmem := Dict.mem_of_ofList_get? hplace
  simp only [List.mem_flatMap, List.mem_map, List.mem_filter, decide_eq_true_eq,
    Prod.mk.injEq] at hmem
  obtain ⟨c, hc, ⟨st, j⟩, ⟨hj, hk⟩, ⟨hop, hrank⟩, hloc⟩ := hmem
  have hend : Endpoint program c j st :=
    ⟨hc, by simpa [List.mem_zipIdx_iff_getElem?] using hj, hk⟩
  have heq := hacc.unique_on_rank hfits hend he hop hrank
  have hblock : c = b := congrArg (fun e => e.1) heq
  have hindex : j = i := congrArg (fun e => e.2.1) heq
  rw [hplace, ← hloc, hblock, hindex]
  rfl

theorem sortEndpoints_perm (l : List SeenEndpoint) : (sortEndpoints l).Perm l :=
  List.perm_insertionSort _ _

/-- The checks of one instruction, with its endpoints. -/
theorem checkInstruction_ok (hacc : Accepted program result)
    {ancestors : Dict String (Finset String)} {locals : Dict ℕ (Dict Location (Finset Location))}
    {op : Instruction} (h : checkInstruction program storage result ancestors locals op = .ok ()) :
    ∃ mask, ancestors.get? op.operationId = some mask ∧ (∀ p ∈ op.dependencies, p ∈ mask) ∧
      (∀ m ∈ endpointsOf program op.operationId, checkLocalOrder program locals op m = .ok ()) ∧
      (∃ specs, endpointSpecs op storage = .ok specs ∧
        sortEndpoints ((endpointsOf program op.operationId).map fun m =>
          (m.1.rank, m.2.kind, m.2.src, m.2.dst)) =
        sortEndpoints (specs.map fun e => (e.rank, e.kind, some e.src, some e.dst))) ∧
      ∀ m ∈ endpointsOf program op.operationId, checkMember program op m = .ok () := by
  unfold checkInstruction at h
  simp only [Checked.bind_ok, Checked.ensure_ok, Checked.required_ok] at h
  obtain ⟨mask, hmask, _, hsub, members, hmembers, _, hlocal, specs, hspecs, _, hsort, hfinal⟩ := h
  have heq : members = endpointsOf program op.operationId := by
    rw [hacc.endpoints] at hmembers
    split at hmembers
    · simp at hmembers
    · exact (Option.some.inj hmembers).symm
  subst heq
  rw [Checked.forM_ok] at hlocal hfinal
  exact ⟨mask, hmask, hsub, hlocal, ⟨specs, hspecs, hsort⟩, hfinal⟩

/-- The blocks of a checked program have the channels of their transfers. -/
theorem validateBindings_channel (hacc : Accepted program result)
    (hdeps : executionDependencies program = .ok result)
    (h : validateBindings program storage = .ok ()) :
    (storage.instructions.map (·.operationId)).Nodup ∧ ∀ op ∈ storage.instructions,
      ∀ m ∈ endpointsOf program op.operationId, op.kind = .copy ∨ m.1.channel = op.channel := by
  unfold validateBindings at h
  simp only [Checked.bind_ok, Checked.ensure_ok, hdeps, Except.ok.injEq, exists_eq_left'] at h
  obtain ⟨_, hnodup, _, -, ancestors, -, locals, -, h⟩ := h
  rw [Checked.forM_ok] at h
  refine ⟨hnodup, fun op hmem m hm => ?_⟩
  obtain ⟨-, -, -, -, -, hfinal⟩ := checkInstruction_ok hacc (h op hmem)
  have hone := hfinal m hm
  unfold checkMember at hone
  simp only [Checked.bind_ok, Checked.ensure_ok] at hone
  obtain ⟨_, hchannel, -⟩ := hone
  exact hchannel

/-- **`_validate_bindings` accepts only what is bound.** -/
theorem validateBindings_bound (hacc : Accepted program result) (hfits : Fits program)
    (hdeps : executionDependencies program = .ok result)
    (h : validateBindings program storage = .ok ()) : Bound program storage result := by
  have hchannels := (validateBindings_channel hacc hdeps h).2
  unfold validateBindings at h
  simp only [Checked.bind_ok, Checked.ensure_ok, hdeps, Except.ok.injEq, exists_eq_left'] at h
  obtain ⟨_, hnodup, _, ⟨hcover, hcover'⟩, ancestors, hanc, locals, hlocals, h⟩ := h
  rw [Checked.forM_ok] at h
  have hop := fun op hmem => checkInstruction_ok hacc (h op hmem)
  have hend : ∀ {op : Instruction} {b i step}, Endpoint program b i step →
      step.operationId = op.operationId → (b, step) ∈ endpointsOf program op.operationId := by
    intro op b i step he hid
    exact mem_endpointsOf.mpr ⟨he.block_mem, List.mem_of_getElem? he.at_index, he.works, hid⟩
  refine ⟨hnodup, fun x => ⟨hcover x, hcover' x⟩, ?_, ?_, ?_, ?_, ?_⟩
  · intro op hmem p hp
    obtain ⟨mask, hmask, hsub, -⟩ := hop op hmem
    have hkey : op.operationId ∈ result.dependencies.keys := by
      rw [hacc.keys]
      exact hcover' _ (List.mem_map.mpr ⟨op, hmem, rfl⟩)
    have hdistinct : result.dependencies.Distinct := by
      unfold Dict.Distinct
      rw [hacc.keys]
      exact hacc.distinct
    obtain ⟨mask', hmask', hspec⟩ := dependencyAncestors_spec hdistinct hanc _ hkey
    obtain rfl : mask' = mask := Option.some.inj (hmask'.symm.trans hmask)
    exact (hspec p).mp (hsub p hp)
  · intro op hmem p hp b i step he hid c j before hbefore hbid hrank
    obtain ⟨-, -, -, hlocal, -⟩ := hop op hmem
    have hone := hlocal _ (hend he hid)
    unfold checkLocalOrder at hone
    simp only [Checked.bind_ok, Checked.ensure_ok, Checked.required_ok] at hone
    obtain ⟨masks, hmasks, place, hplace, mask, hmask, hcheck⟩ := hone
    obtain ⟨rank, -, hrank'⟩ := Checked.mapM_right hlocals (Dict.mem_of_get? hmasks)
    obtain ⟨table, htable, heq⟩ := Checked.bind_ok.mp hrank'
    obtain ⟨rfl, rfl⟩ := Prod.mk.inj (Checked.pure_ok.mp heq)
    rw [← hid, localLocations_get? hacc hfits he] at hplace
    obtain rfl := Option.some.inj hplace
    obtain ⟨mask', hmask', hspec⟩ := dependencyAncestors_spec (Dict.distinct_ofList _) htable _
      (mem_localEdges_keys he.block_mem he.at_index)
    obtain rfl : mask' = mask := Option.some.inj (hmask'.symm.trans hmask)
    have hin := hcheck p hp (c.place j) (by
      rw [← hbid, ← hrank]
      exact localLocations_get? hacc hfits hbefore)
    exact ((hspec _).mp hin).lift id fun _ _ => localEdge_of_precedes
  · intro op hmem
    obtain ⟨-, -, -, -, ⟨specs, hspecs, hsort⟩, -⟩ := hop op hmem
    refine ⟨specs, hspecs, (sortEndpoints_perm _).symm.trans ?_⟩
    rw [hsort]
    exact sortEndpoints_perm _
  · intro op hmem b i step he hid
    exact hchannels op hmem _ (hend he hid)
  · intro op hmem b i step he hid used hused
    obtain ⟨-, -, -, -, -, hfinal⟩ := hop op hmem
    have hone := hfinal _ (hend he hid)
    unfold checkMember at hone
    obtain ⟨_, -, hone⟩ := Checked.bind_ok.mp hone
    rw [Checked.forM_ok] at hone
    have hcheck := hone used hused
    cases used with
    | none => simp [checkAddress] at hcheck
    | some a =>
      simp only [checkAddress, Checked.bind_ok, Checked.ensure_ok] at hcheck
      obtain ⟨_, hrank, -⟩ := hcheck
      exact ⟨a, rfl, hrank⟩

end Bound

end VeriCCL
