import VeriCCL.NativeModel

/-! # Capacity of the native runtime

`xml/capacity.py`.  `checkCapacity` walks the thread blocks once and collects a
violation for every limit the shape breaks; a program is launched only when the
list is empty.  The sets the source fills on the way (block identities, owners of
connections) are the blocks already walked, `seen`. -/
namespace VeriCCL

/-- The pinned parser's node table admits this many retained XML nodes. -/
def xmlMaxRetainedNodes : ℕ := 4095

/-- `RuntimeLimits`, with the ranges its constructor enforces. -/
structure RuntimeLimits where
  stepsPerTb : ℕ := 256
  tbsPerRank : ℕ := 216
  sendTbsPerChannel : ℕ := 32
  recvTbsPerChannel : ℕ := 32
  dependencyId : ℕ := 127
  bufferOffset : ℕ := 32767
  maxChannels : ℕ := 16
  steps_range : 1 ≤ stepsPerTb ∧ stepsPerTb ≤ 256 := by decide
  tbs_range : 1 ≤ tbsPerRank ∧ tbsPerRank ≤ 216 := by decide
  send_range : 1 ≤ sendTbsPerChannel ∧ sendTbsPerChannel ≤ 32 := by decide
  recv_range : 1 ≤ recvTbsPerChannel ∧ recvTbsPerChannel ≤ 32 := by decide
  dependency_range : dependencyId ≤ 127 := by decide
  offset_range : bufferOffset ≤ 32767 := by decide
  channels_range : 1 ≤ maxChannels ∧ maxChannels ≤ 16 := by decide

/-- What the capacity check needs of a step. -/
structure StepCapacity where
  kind : StepKind
  srcOffset : ℤ := -1
  dstOffset : ℤ := -1
  dependencyTb : ℤ := -1
  dependencyStep : ℤ := -1
  count : ℕ := 1

/-- What the capacity check needs of a thread block. -/
structure BlockCapacity where
  rank : ℕ
  tbId : ℕ
  channel : ℤ
  sendPeer : ℤ
  recvPeer : ℤ
  steps : List StepCapacity

/-- `ExecutionShape`. -/
structure ExecutionShape where
  rankCount : ℕ
  channels : ℕ
  blocks : List BlockCapacity
  scratchSlots : Dict ℕ ℕ := []
  chunksPerLoop : Option ℕ := none

/-- The codes of the violations. -/
inductive ViolationCode where
  | channels
  | chunksPerLoop
  | rankId
  | tbId
  | duplicateTbId
  | channelId
  | stepsPerTb
  | peerId
  | connectionOwner
  | runtimeCount
  | bufferOffset
  | dependencyId
  | dependencyStep
  | xmlNodes
  | tbsPerRank
  | denseTbIds
  | sendTbsPerChannel
  | recvTbsPerChannel
  | dependencyTarget
  | scratchBytes
  deriving DecidableEq

/-- The codes as reports spell them. -/
def ViolationCode.text : ViolationCode → String
  | .channels => "channels"
  | .chunksPerLoop => "chunks_per_loop"
  | .rankId => "rank_id"
  | .tbId => "tb_id"
  | .duplicateTbId => "duplicate_tb_id"
  | .channelId => "channel_id"
  | .stepsPerTb => "steps_per_tb"
  | .peerId => "peer_id"
  | .connectionOwner => "connection_owner"
  | .runtimeCount => "runtime_count"
  | .bufferOffset => "buffer_offset"
  | .dependencyId => "dependency_id"
  | .dependencyStep => "dependency_step"
  | .xmlNodes => "xml_nodes"
  | .tbsPerRank => "tbs_per_rank"
  | .denseTbIds => "dense_tb_ids"
  | .sendTbsPerChannel => "send_tbs_per_channel"
  | .recvTbsPerChannel => "recv_tbs_per_channel"
  | .dependencyTarget => "dependency_target"
  | .scratchBytes => "scratch_bytes"

/-- `CapacityViolation`. -/
structure CapacityViolation where
  code : ViolationCode
  rank : Option ℕ
  tbId : Option ℕ
  current : ℤ
  limit : ℤ
  detail : String := ""
  deriving DecidableEq

/-- `CapacityReport`. -/
structure CapacityReport where
  violations : List CapacityViolation
  deriving DecidableEq

/-- A report without violations. -/
def CapacityReport.compatible (report : CapacityReport) : Bool := report.violations.isEmpty

namespace Capacity

/-- The two sides of a connection a block may own. -/
inductive Direction where
  | send
  | recv
  deriving DecidableEq

/-- The peer of a block in one direction, `-1` if it has none. -/
def peer (block : BlockCapacity) : Direction → ℤ
  | .send => block.sendPeer
  | .recv => block.recvPeer

/-- A violation of one block. -/
def issue (code : ViolationCode) (block : BlockCapacity) (current limit : ℤ)
    (detail : String := "") : CapacityViolation :=
  ⟨code, some block.rank, some block.tbId, current, limit, detail⟩

/-- `[v]` when the condition holds. -/
def report (c : Prop) [Decidable c] (v : CapacityViolation) : List CapacityViolation :=
  if c then [v] else []

@[simp] theorem report_eq_nil {c : Prop} [Decidable c] {v : CapacityViolation} :
    report c v = [] ↔ ¬ c := by
  unfold report
  split <;> simp_all

variable (shape : ExecutionShape) (limits : RuntimeLimits)

/-- The largest peer id the shape admits. -/
def peerLimit : ℤ := min 32767 ((shape.rankCount : ℤ) - 1)

/-- Both blocks own the connection to the same peer on the same channel. -/
def sameOwner (dir : Direction) (a b : BlockCapacity) : Prop :=
  a.rank = b.rank ∧ peer a dir = peer b dir ∧ a.channel = b.channel

instance (dir : Direction) (a b : BlockCapacity) : Decidable (sameOwner dir a b) := by
  unfold sameOwner
  infer_instance

/-- The checks of one direction of a block. -/
def directionIssues (seen : List BlockCapacity) (block : BlockCapacity) (dir : Direction) :
    List CapacityViolation :=
  if peer block dir = -1 then []
  else
    report (¬ (0 ≤ peer block dir ∧ peer block dir ≤ peerLimit shape) ∨
        peer block dir = (block.rank : ℤ))
      (issue .peerId block (peer block dir) (peerLimit shape)) ++
    report (∃ other ∈ seen, sameOwner dir other block)
      (issue .connectionOwner block 2 1 (match dir with | .send => "send" | .recv => "recv"))

/-- The checks of one step. -/
def stepIssues (block : BlockCapacity) (step : StepCapacity) : List CapacityViolation :=
  report (step.count ≠ 1) (issue .runtimeCount block step.count 1) ++
  report (¬ (-1 ≤ step.srcOffset ∧ step.srcOffset ≤ limits.bufferOffset))
    (issue .bufferOffset block step.srcOffset limits.bufferOffset) ++
  report (¬ (-1 ≤ step.dstOffset ∧ step.dstOffset ≤ limits.bufferOffset))
    (issue .bufferOffset block step.dstOffset limits.bufferOffset) ++
  report (¬ (-1 ≤ step.dependencyTb ∧ step.dependencyTb ≤ limits.dependencyId))
    (issue .dependencyId block step.dependencyTb limits.dependencyId) ++
  report (¬ (-1 ≤ step.dependencyStep ∧ step.dependencyStep < limits.stepsPerTb))
    (issue .dependencyStep block step.dependencyStep (limits.stepsPerTb - 1))

/-- The checks of one block, after the blocks `seen`. -/
def blockIssues (seen : List BlockCapacity) (block : BlockCapacity) : List CapacityViolation :=
  report (¬ block.rank < shape.rankCount)
    (issue .rankId block block.rank (shape.rankCount - 1)) ++
  report (¬ block.tbId < limits.tbsPerRank)
    (issue .tbId block block.tbId (limits.tbsPerRank - 1)) ++
  report (∃ other ∈ seen, other.rank = block.rank ∧ other.tbId = block.tbId)
    (issue .duplicateTbId block block.tbId (limits.tbsPerRank - 1)) ++
  report (¬ ((block.sendPeer = block.recvPeer ∧ block.recvPeer = -1 ∧ block.channel = -1) ∨
      (0 ≤ block.channel ∧ block.channel < shape.channels)))
    (issue .channelId block block.channel (shape.channels - 1)) ++
  report (limits.stepsPerTb < block.steps.length)
    (issue .stepsPerTb block block.steps.length limits.stepsPerTb) ++
  directionIssues shape seen block .send ++
  directionIssues shape seen block .recv ++
  block.steps.flatMap (stepIssues limits block)

/-- The walk over the blocks. -/
def walk : List BlockCapacity → List BlockCapacity → List CapacityViolation
  | _, [] => []
  | seen, block :: rest => blockIssues shape limits seen block ++ walk (seen ++ [block]) rest

/-- Ranks that own a block, in order of first appearance. -/
def blockRanks : List ℕ := (shape.blocks.map (·.rank)).eraseDups

/-- Retained XML nodes of one rank: its blocks and their steps. -/
def rankXmlNodes (rank : ℕ) : ℕ :=
  ((shape.blocks.filter (·.rank = rank)).map fun block => 1 + block.steps.length).sum

/-- The node capacity of the pinned parser. -/
def nodeIssues : List CapacityViolation :=
  let header := 1 + shape.rankCount
  if xmlMaxRetainedNodes < header then
    [⟨.xmlNodes, none, none, header, xmlMaxRetainedNodes,
      "algo and all GPU headers alone exceed the fixed parser capacity"⟩]
  else
    (blockRanks shape).flatMap fun rank =>
      report (xmlMaxRetainedNodes < header + rankXmlNodes shape rank)
        ⟨.xmlNodes, some rank, none, (header + rankXmlNodes shape rank : ℕ), xmlMaxRetainedNodes,
          "algo + all GPU headers + this rank TB headers and all steps, including NOP"⟩

/-- Number and density of a rank's thread-block ids. -/
def rankIssues (rank : ℕ) : List CapacityViolation :=
  let ids := (shape.blocks.filter (·.rank = rank)).map (·.tbId)
  report (limits.tbsPerRank < ids.length)
    ⟨.tbsPerRank, some rank, none, ids.length, limits.tbsPerRank, ""⟩ ++
  report (¬ ((∀ id ∈ ids, id < ids.length) ∧ ∀ id ∈ List.range ids.length, id ∈ ids))
    ⟨.denseTbIds, some rank, none, (ids.foldl max 0 : ℕ), (ids.length : ℤ) - 1, ""⟩

/-- The connections the blocks use, by rank, channel and direction, in the order
of the walk. -/
def directionUses : List (ℕ × ℤ × Direction) :=
  shape.blocks.flatMap fun block => [Direction.send, Direction.recv].filterMap fun dir =>
    if peer block dir = -1 then none else some (block.rank, block.channel, dir)

/-- Blocks of one rank that use one channel in one direction. -/
def useIssues (use : ℕ × ℤ × Direction) : List CapacityViolation :=
  let count := (directionUses shape).count use
  match use with
  | (rank, channel, .send) => report (limits.sendTbsPerChannel < count)
      ⟨.sendTbsPerChannel, some rank, none, count, limits.sendTbsPerChannel,
        "channel=" ++ toString channel⟩
  | (rank, channel, .recv) => report (limits.recvTbsPerChannel < count)
      ⟨.recvTbsPerChannel, some rank, none, count, limits.recvTbsPerChannel,
        "channel=" ++ toString channel⟩

/-- A dependency must name a step of a block of the same rank.  Among blocks of
one identity the last one counts. -/
def targetIssues (block : BlockCapacity) (step : StepCapacity) : List CapacityViolation :=
  if step.dependencyTb = -1 ∧ step.dependencyStep = -1 then []
  else
    match (shape.blocks.filter fun b => b.rank = block.rank ∧
        (b.tbId : ℤ) = step.dependencyTb).getLast? with
    | none => [issue .dependencyTarget block step.dependencyTb limits.dependencyId]
    | some target =>
      report (¬ (0 ≤ step.dependencyStep ∧ step.dependencyStep < target.steps.length))
        (issue .dependencyTarget block step.dependencyTb limits.dependencyId)

/-- The scratch budget of every rank, when slice size and budget are known. -/
def scratchIssues (sliceBytes : Option ℕ) (budget : Option ℕ) :
    Except Fault (List CapacityViolation) :=
  match sliceBytes, budget with
  | some slice, some budget => do
    Checked.ensure (1 ≤ slice) (.semantic "scratch accounting needs a positive slice size")
    Checked.ensure (∀ e ∈ shape.scratchSlots, e.1 < shape.rankCount)
      (.semantic "invalid scratch allocation or budget")
    return shape.scratchSlots.flatMap fun e =>
      report (budget < e.2 * slice)
        ⟨.scratchBytes, some e.1, none, (e.2 * slice : ℕ), budget, ""⟩
  | _, _ => .ok []

end Capacity

open Capacity in
/-- `check_capacity`. -/
def checkCapacity (shape : ExecutionShape) (limits : RuntimeLimits)
    (sliceBytes scratchBytesPerRank : Option ℕ) : Except Fault CapacityReport := do
  Checked.ensure (1 ≤ shape.rankCount)
    (.semantic "execution shape needs a positive rank count")
  let scratch ← scratchIssues shape sliceBytes scratchBytesPerRank
  return ⟨
    report (¬ (1 ≤ shape.channels ∧ shape.channels ≤ limits.maxChannels))
      ⟨.channels, none, none, shape.channels, limits.maxChannels, ""⟩ ++
    (match shape.chunksPerLoop with
      | none => []
      | some chunks => report (¬ (1 ≤ chunks ∧ chunks ≤ 2 ^ 31 - 1))
          ⟨.chunksPerLoop, none, none, chunks, 2 ^ 31 - 1, ""⟩) ++
    walk shape limits [] shape.blocks ++
    nodeIssues shape ++
    (blockRanks shape).flatMap (rankIssues shape limits) ++
    (directionUses shape).eraseDups.flatMap (useIssues shape limits) ++
    shape.blocks.flatMap (fun block => block.steps.flatMap (targetIssues shape limits block)) ++
    scratch⟩

/-- What the check sees of a step. -/
def stepCapacity (step : NativeStep) : StepCapacity where
  kind := step.kind
  srcOffset := (step.src.map fun a => (a.offset : ℤ)).getD (-1)
  dstOffset := (step.dst.map fun a => (a.offset : ℤ)).getD (-1)
  dependencyTb := step.dependencyTb
  dependencyStep := step.dependencyStep
  count := step.count

/-- What the check sees of a block. -/
def blockCapacity (block : NativeBlock) : BlockCapacity where
  rank := block.rank
  tbId := block.tbId
  channel := block.channel
  sendPeer := block.sendPeer
  recvPeer := block.recvPeer
  steps := block.steps.map stepCapacity

/-- The shape `_capacity` hands to the check. -/
def executionShape (program : NativeProgram) : ExecutionShape where
  rankCount := program.rankCount
  channels := program.channels
  blocks := program.blocks.map blockCapacity
  scratchSlots := program.scratchSlots
  chunksPerLoop := some program.chunksPerLoop

/-! ## What an empty report means -/

namespace Capacity

/-- A walk without violations has none at any block. -/
theorem walk_eq_nil {shape : ExecutionShape} {limits : RuntimeLimits} :
    ∀ {blocks seen : List BlockCapacity}, walk shape limits seen blocks = [] →
    ∀ l b r, blocks = l ++ b :: r → blockIssues shape limits (seen ++ l) b = [] := by
  intro blocks
  induction blocks with
  | nil => intro seen _ l b r h; simp at h
  | cons block rest ih =>
    intro seen h l b r hl
    obtain ⟨h1, h2⟩ := List.append_eq_nil_iff.mp h
    cases l with
    | nil =>
      obtain ⟨rfl, -⟩ := List.cons_eq_cons.mp hl
      simpa using h1
    | cons c l =>
      rw [List.cons_append] at hl
      obtain ⟨rfl, hrest⟩ := List.cons_eq_cons.mp hl
      have := ih h2 l b r hrest
      simpa using this

end Capacity

/-- The identity of a block. -/
def NativeBlock.key (block : NativeBlock) : ℕ × ℕ := (block.rank, block.tbId)

/-- **What a program satisfies when the capacity check reports nothing**, as far as
its structure goes: block identities are unique, peers are other ranks, every
connection has one owner per side, dependency coordinates are at least `-1`. -/
structure Fits (program : NativeProgram) : Prop where
  rank_lt : ∀ block ∈ program.blocks, block.rank < program.rankCount
  keys_distinct : program.blocks.Pairwise (fun a b => a.key ≠ b.key)
  send_peer : ∀ block ∈ program.blocks, block.sendPeer ≠ -1 →
    0 ≤ block.sendPeer ∧ block.sendPeer < program.rankCount ∧ block.sendPeer ≠ block.rank
  recv_peer : ∀ block ∈ program.blocks, block.recvPeer ≠ -1 →
    0 ≤ block.recvPeer ∧ block.recvPeer < program.rankCount ∧ block.recvPeer ≠ block.rank
  send_owner : program.blocks.Pairwise (fun a b => b.sendPeer ≠ -1 →
    ¬ (a.rank = b.rank ∧ a.sendPeer = b.sendPeer ∧ a.channel = b.channel))
  recv_owner : program.blocks.Pairwise (fun a b => b.recvPeer ≠ -1 →
    ¬ (a.rank = b.rank ∧ a.recvPeer = b.recvPeer ∧ a.channel = b.channel))
  dependency_ge : ∀ block ∈ program.blocks, ∀ step ∈ block.steps,
    -1 ≤ step.dependencyTb ∧ -1 ≤ step.dependencyStep

open Capacity in
/-- **An empty report is a program that fits.** -/
theorem fits_of_checkCapacity {program : NativeProgram} {limits : RuntimeLimits}
    {sliceBytes scratchBytesPerRank : Option ℕ} {capacity : CapacityReport}
    (h : checkCapacity (executionShape program) limits sliceBytes scratchBytesPerRank = .ok capacity)
    (hc : capacity.compatible = true) : Fits program := by
  have hwalk : walk (executionShape program) limits [] (executionShape program).blocks = [] := by
    unfold checkCapacity at h
    simp only [Checked.bind_ok, Checked.ensure_ok, Checked.pure_ok] at h
    obtain ⟨_, -, scratch, -, rfl⟩ := h
    simp only [CapacityReport.compatible, List.isEmpty_iff, List.append_eq_nil_iff] at hc
    tauto
  have hblock : ∀ l b r, program.blocks = l ++ b :: r →
      blockIssues (executionShape program) limits (l.map blockCapacity) (blockCapacity b) = [] := by
    intro l b r hl
    have := walk_eq_nil hwalk (l.map blockCapacity) (blockCapacity b) (r.map blockCapacity)
      (by simp [executionShape, hl])
    simpa using this
  have hmem : ∀ block ∈ program.blocks, ∃ seen,
      blockIssues (executionShape program) limits seen (blockCapacity block) = [] := by
    intro block hb
    obtain ⟨l, r, hl⟩ := List.append_of_mem hb
    exact ⟨_, hblock l block r hl⟩
  have hpair : ∀ {R : NativeBlock → NativeBlock → Prop}, (∀ l b r, program.blocks = l ++ b :: r →
      ∀ a ∈ l, R a b) → program.blocks.Pairwise R := by
    intro R hR
    rw [List.pairwise_iff_getElem]
    intro i j hi hj hij
    refine hR (program.blocks.take j) _ (program.blocks.drop (j + 1)) ?_ _ ?_
    · rw [← List.drop_eq_getElem_cons hj, List.take_append_drop]
    · rw [List.mem_take_iff_getElem]
      exact ⟨i, by omega, rfl⟩
  have hpeer : ∀ block ∈ program.blocks, ∀ dir, peer (blockCapacity block) dir ≠ -1 →
      0 ≤ peer (blockCapacity block) dir ∧ peer (blockCapacity block) dir < program.rankCount ∧
        peer (blockCapacity block) dir ≠ block.rank := by
    intro block hb dir hdir
    obtain ⟨seen, hseen⟩ := hmem block hb
    have hd : directionIssues (executionShape program) seen (blockCapacity block) dir = [] := by
      simp only [blockIssues, List.append_eq_nil_iff] at hseen
      cases dir <;> tauto
    unfold directionIssues at hd
    rw [if_neg hdir, List.append_eq_nil_iff, report_eq_nil, not_or, not_not] at hd
    obtain ⟨⟨⟨h0, h1⟩, h2⟩, -⟩ := hd
    refine ⟨h0, ?_, h2⟩
    have hle : peer (blockCapacity block) dir ≤ (program.rankCount : ℤ) - 1 :=
      h1.trans (min_le_right _ _)
    omega
  have howner : ∀ dir, program.blocks.Pairwise (fun a b => peer (blockCapacity b) dir ≠ -1 →
      ¬ sameOwner dir (blockCapacity a) (blockCapacity b)) := by
    intro dir
    refine hpair fun l b r hl a ha hdir hsame => ?_
    have hseen := hblock l b r hl
    have hd : directionIssues (executionShape program) (l.map blockCapacity) (blockCapacity b) dir
        = [] := by
      simp only [blockIssues, List.append_eq_nil_iff] at hseen
      cases dir <;> tauto
    unfold directionIssues at hd
    rw [if_neg hdir, List.append_eq_nil_iff, report_eq_nil, report_eq_nil] at hd
    exact hd.2 ⟨_, List.mem_map.mpr ⟨a, ha, rfl⟩, hsame⟩
  refine ⟨?_, ?_, fun block hb => hpeer block hb .send, fun block hb => hpeer block hb .recv,
    howner .send, howner .recv, ?_⟩
  · intro block hb
    obtain ⟨seen, hseen⟩ := hmem block hb
    simp only [blockIssues, List.append_eq_nil_iff, report_eq_nil, not_not] at hseen
    have hlt : (blockCapacity block).rank < (executionShape program).rankCount := by tauto
    exact hlt
  · refine hpair fun l b r hl a ha heq => ?_
    have hseen := hblock l b r hl
    simp only [blockIssues, List.append_eq_nil_iff] at hseen
    have hdup := report_eq_nil.mp hseen.1.1.1.1.1.2
    exact hdup ⟨_, List.mem_map.mpr ⟨a, ha, rfl⟩, congrArg Prod.fst heq, congrArg Prod.snd heq⟩
  · intro block hb step hs
    obtain ⟨seen, hseen⟩ := hmem block hb
    simp only [blockIssues, List.append_eq_nil_iff] at hseen
    have hsteps : (blockCapacity block).steps.flatMap (stepIssues limits (blockCapacity block))
        = [] := hseen.2
    rw [List.flatMap_eq_nil_iff] at hsteps
    have hone := hsteps _ (List.mem_map.mpr ⟨step, hs, rfl⟩)
    simp only [stepIssues, List.append_eq_nil_iff] at hone
    have htb := not_not.mp (report_eq_nil.mp hone.1.2)
    have hstep := not_not.mp (report_eq_nil.mp hone.2)
    exact ⟨htb.1, hstep.1⟩

end VeriCCL
