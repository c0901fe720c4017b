import VeriCCL.Numbering

/-! # The lowered program keeps the plan's order on every rank

The order `lower_program` keeps among the steps it places, read in the finished
program: the endpoints of an instruction come after those of its dependencies on every
rank where both have one, although most waits were left out; and a wait names a working
step of the rank that is marked as awaited and is no later step of the same block. -/
namespace VeriCCL

/-- What lowering must keep of a plan. -/
structure OrderKept (storage : StoragePlan) (program : NativeProgram) : Prop where
  /-- An endpoint comes after the endpoints on its rank of what its instruction depends on. -/
  ordered : ∀ op ∈ storage.instructions, ∀ p ∈ op.dependencies, ∀ b i step,
    Endpoint program b i step → step.operationId = op.operationId → ∀ c j before,
    Endpoint program c j before → before.operationId = p → c.rank = b.rank →
    Relation.TransGen (LocalEdge program) (c.place j) (b.place i)
  /-- A wait names one step of its rank.  It works, is marked, and is not the waiting step
  or a later one of its block. -/
  targets : ∀ block ∈ program.blocks, ∀ (i : ℕ) (step : NativeStep), block.steps[i]? = some step →
    step.dependencyTb ≠ -1 → ∃ target ∈ program.blocks, ∃ (j : ℕ) (awaited : NativeStep),
      target.rank = block.rank ∧ (target.tbId : ℤ) = step.dependencyTb ∧
      (j : ℤ) = step.dependencyStep ∧ target.steps[j]? = some awaited ∧
      (∀ other ∈ program.blocks, other.rank = block.rank →
        (other.tbId : ℤ) = step.dependencyTb → other = target) ∧
      awaited.hasDependence = true ∧ awaited.kind ≠ .nop ∧ (target = block → j < i)

namespace Lowering

section Numbered
variable {s : Lowering} {n : ℕ} {places : Dict StepId (ℕ × ℕ)} {program : NativeProgram}

/-- The place of a step, from its identity. -/
def locate (places : Dict StepId (ℕ × ℕ)) (id : StepId) : Location :=
  (id.owner.2, (places.get? id).getD (0, 0))

theorem Numbered.locate_eq (h : s.Numbered n places program) {key : BlockKey} {block : NativeBlock}
    (hmade : s.MadeFrom n places key block) {i : ℕ} {raw : RawStep}
    (hi : (s.stepsAt key)[i]? = some raw) : locate places raw.id = block.place i := by
  obtain ⟨b, hb, hplace⟩ := h.place hi
  obtain rfl : b = block.tbId := Option.some.inj (hb.symm.trans hmade.number)
  unfold locate NativeBlock.place
  rw [hplace, h.inv.ranked key raw (List.mem_of_getElem? hi), hmade.rank]
  rfl

/-- The step of the program that a placed step becomes. -/
theorem MadeFrom.step {key : BlockKey} {block : NativeBlock}
    (hmade : s.MadeFrom n places key block) {i : ℕ} {raw : RawStep}
    (hi : (s.stepsAt key)[i]? = some raw) :
    ∃ step, block.steps[i]? = some step ∧ s.placeStep places raw = .ok step :=
  Checked.mapM_getElem? hmade.steps hi

theorem MadeFrom.raw {key : BlockKey} {block : NativeBlock}
    (hmade : s.MadeFrom n places key block) {i : ℕ} {step : NativeStep}
    (hi : block.steps[i]? = some step) :
    ∃ raw, (s.stepsAt key)[i]? = some raw ∧ s.placeStep places raw = .ok step :=
  Checked.mapM_getElem?' hmade.steps hi

/-- What the numbering changes of a step. -/
theorem placeStep_ok {raw : RawStep} {step : NativeStep} (h : s.placeStep places raw = .ok step) :
    step.operationId = raw.operationId ∧ step.kind = raw.kind ∧
      (step.hasDependence = true ↔ raw.id ∈ s.targets.values) ∧
      s.waitPlace places raw = .ok (step.dependencyTb, step.dependencyStep) := by
  unfold placeStep at h
  simp only [Checked.bind_ok, Checked.pure_ok] at h
  obtain ⟨place, hplace, rfl⟩ := h
  exact ⟨rfl, rfl, decide_eq_true_iff, hplace⟩

theorem waitPlace_none {raw : RawStep} (h : s.targets.get? raw.id = none) :
    s.waitPlace places raw = .ok (-1, -1) := by
  unfold waitPlace
  rw [h]

theorem waitPlace_some {raw : RawStep} {t : StepId} {b j : ℕ} (h : s.targets.get? raw.id = some t)
    (hplace : places.get? t = some (b, j)) : s.waitPlace places raw = .ok ((b : ℤ), (j : ℤ)) := by
  unfold waitPlace
  rw [h]
  show (Checked.required (places.get? t) _ >>= _) = _
  rw [hplace]
  rfl

/-- An awaited endpoint, and where the program has it. -/
theorem Numbered.awaited (h : s.Numbered n places program) {o : String} {r : ℕ} {t : StepId}
    (ht : s.locations.get? (o, r) = some t) : ∃ block ∈ program.blocks, ∃ (key : BlockKey) (j : ℕ) (raw : RawStep),
      s.MadeFrom n places key block ∧ block.rank = r ∧ (s.stepsAt key)[j]? = some raw ∧
      raw.id = t ∧ raw.kind ≠ .nop ∧ places.get? t = some (block.tbId, j) := by
  obtain ⟨key, hr, raw, hraw, rfl, -, hk⟩ := (h.inv.located o r t).mp ht
  obtain ⟨j, hj⟩ := List.mem_iff_getElem?.mp hraw
  obtain ⟨block, hb, hmade⟩ := h.block_of_key hraw
  obtain ⟨b, hbid, hplace⟩ := h.place hj
  obtain rfl : b = block.tbId := Option.some.inj (hbid.symm.trans hmade.number)
  exact ⟨block, hb, key, j, raw, hmade, hmade.rank.trans hr, hj, rfl, hk, hplace⟩

/-- Where a step with a wait stands. -/
theorem Inv.waiting (hinv : s.Inv) {a t : StepId} (h : s.targets.get? a = some t) :
    ∃ (key : BlockKey) (i : ℕ) (raw : RawStep), (s.stepsAt key)[i]? = some raw ∧ raw.id = a ∧
      (∃ o, s.locations.get? (o, key.rank) = some t) ∧
      ∀ (j : ℕ) (st : RawStep), (s.stepsAt key)[j]? = some st → st.id = t → j < i := by
  obtain ⟨key, l, raw, r, hsteps, hid, hloc, hearlier⟩ := hinv.waits a t h
  have hi : (s.stepsAt key)[l.length]? = some raw := by simp [hsteps]
  refine ⟨key, l.length, raw, hi, hid, hloc, ?_⟩
  intro j st hj hst
  obtain ⟨k, hk⟩ := List.mem_iff_getElem?.mp (hearlier st (List.mem_of_getElem? hj) hst)
  have hlt := (List.getElem?_eq_some_iff.mp hk).1
  have hk' : (s.stepsAt key)[k]? = some st := by
    rw [hsteps, List.getElem?_append_left hlt, hk]
  have := (hinv.index_unique hj hk' rfl).2
  omega

/-- **The order among identities is the order of the program.** -/
theorem Numbered.localEdge (h : s.Numbered n places program) {a b : StepId} (hab : s.RawEdge a b) :
    LocalEdge program (locate places a) (locate places b) := by
  cases hab with
  | @next key l r x y hsteps =>
    have hx : (s.stepsAt key)[l.length]? = some x := by simp [hsteps]
    have hy : (s.stepsAt key)[l.length + 1]? = some y := by simp [hsteps]
    obtain ⟨block, hb, hmade⟩ := h.block_of_key (List.mem_of_getElem? hx)
    obtain ⟨step, hstep, -⟩ := hmade.step hy
    rw [h.locate_eq hmade hx, h.locate_eq hmade hy]
    exact .next hb (List.getElem?_eq_some_iff.mp hstep).1
  | wait htarget =>
    obtain ⟨key, i, raw, hi, hid, ⟨o, ho⟩, -⟩ := h.inv.waiting htarget
    subst hid
    obtain ⟨block, hb, hmade⟩ := h.block_of_key (List.mem_of_getElem? hi)
    obtain ⟨step, hstep, hok⟩ := hmade.step hi
    obtain ⟨target, -, key', j, raw', hmade', hrank, hj, hid', -, hplace⟩ := h.awaited ho
    obtain ⟨-, -, -, hwait⟩ := placeStep_ok hok
    rw [waitPlace_some htarget hplace, Except.ok.injEq, Prod.mk.injEq] at hwait
    have hedge : LocalEdge program
        (block.rank, step.dependencyTb.toNat, step.dependencyStep.toNat) (block.place i) :=
      .wait hb hstep (by omega)
    rw [h.locate_eq hmade hi, ← hid', h.locate_eq hmade' hj]
    rw [← hwait.1, ← hwait.2, Int.toNat_natCast, Int.toNat_natCast] at hedge
    have hsame : block.rank = target.rank := by rw [hmade.rank, hrank]
    rw [hsame] at hedge
    exact hedge

/-- An endpoint of the program is a placed endpoint. -/
theorem Numbered.endpoint (h : s.Numbered n places program) {b : NativeBlock} {i : ℕ}
    {step : NativeStep} (he : Endpoint program b i step) :
    ∃ id, s.locations.get? (step.operationId, b.rank) = some id ∧
      locate places id = b.place i := by
  obtain ⟨key, hmade⟩ := h.block he.block_mem
  obtain ⟨raw, hi, hok⟩ := hmade.raw he.at_index
  obtain ⟨hop, hkind, -, -⟩ := placeStep_ok hok
  refine ⟨raw.id, (h.inv.located _ _ _).mpr ?_, h.locate_eq hmade hi⟩
  exact ⟨key, hmade.rank.symm, raw, List.mem_of_getElem? hi, rfl, hop.symm, hkind ▸ he.works⟩

/-- The waits of the program. -/
theorem Numbered.target (h : s.Numbered n places program) {block : NativeBlock}
    (hb : block ∈ program.blocks) {i : ℕ} {step : NativeStep} (hi : block.steps[i]? = some step)
    (hwaits : step.dependencyTb ≠ -1) : ∃ target ∈ program.blocks, ∃ (j : ℕ) (awaited : NativeStep),
      target.rank = block.rank ∧ (target.tbId : ℤ) = step.dependencyTb ∧
      (j : ℤ) = step.dependencyStep ∧ target.steps[j]? = some awaited ∧
      awaited.hasDependence = true ∧ awaited.kind ≠ .nop ∧ (target = block → j < i) := by
  obtain ⟨key, hmade⟩ := h.block hb
  obtain ⟨raw, hraw, hok⟩ := hmade.raw hi
  obtain ⟨-, -, -, hwait⟩ := placeStep_ok hok
  cases htarget : s.targets.get? raw.id with
  | none =>
    rw [waitPlace_none htarget, Except.ok.injEq, Prod.mk.injEq] at hwait
    exact absurd hwait.1.symm hwaits
  | some t =>
    obtain ⟨key', i', raw', hraw', hid', ⟨o, ho⟩, hearlier⟩ := h.inv.waiting htarget
    obtain ⟨rfl, rfl⟩ := h.inv.index_unique hraw' hraw hid'
    obtain ⟨target, htb, key'', j, st, hmade', hrank, hj, rfl, hk, hplace⟩ := h.awaited ho
    obtain ⟨awaited, hawaited, hok'⟩ := hmade'.step hj
    obtain ⟨-, hkind, hmarked, -⟩ := placeStep_ok hok'
    rw [waitPlace_some htarget hplace, Except.ok.injEq, Prod.mk.injEq] at hwait
    refine ⟨target, htb, j, awaited, hrank.trans hmade.rank.symm, hwait.1, hwait.2, hawaited, ?_,
      hkind ▸ hk, ?_⟩
    · exact hmarked.mpr (List.mem_map.mpr ⟨_, Dict.mem_of_get? htarget, rfl⟩)
    · rintro rfl
      have hkeys : key'' = key' := by
        apply blockIds_inj hmade'.number hmade.number
        rw [← hmade'.rank, ← hmade.rank]
      rw [hkeys] at hj
      exact hearlier j st hj rfl

end Numbered

/-- The tables behind a lowered program. -/
theorem numbered_of_lowerProgram {storage : StoragePlan} {context : LoweringContext}
    {program : NativeProgram} (h : lowerProgram storage context = .ok program)
    (hids : (storage.instructions.map (·.operationId)).Nodup)
    (hranks : ∀ op ∈ storage.instructions, ∀ specs, endpointSpecs op storage = .ok specs →
      (specs.map (·.rank)).Nodup) : ∃ s places, Run storage.instructions s ∧
        s.Numbered context.inputs.rankCount places program := by
  unfold lowerProgram at h
  simp only [Checked.bind_ok, Checked.pure_ok] at h
  obtain ⟨s, hs, places, hplaces, blocks, hblocks, rfl⟩ := h
  have hstart : Run [] start := ⟨inv_start, by simp [start], by simp, by simp⟩
  have hrun : Run storage.instructions s :=
    Run.foldlM storage.instructions hranks hstart hids hs
  refine ⟨s, places, hrun, hrun.inv, hplaces, ?_, ?_⟩
  · intro block
    show block ∈ sortBlocks blocks ↔ _
    rw [sortBlocks, List.mem_insertionSort]
    constructor
    · exact Checked.mapM_right hblocks
    · rintro ⟨e, he, hok⟩
      obtain ⟨made, hmade, hok'⟩ := Checked.mapM_left hblocks he
      rw [hok, Except.ok.injEq] at hok'
      exact hok' ▸ hmade
  · intro e he
    obtain ⟨made, -, hok⟩ := Checked.mapM_left hblocks he
    exact ⟨made, hok⟩

end Lowering

open Lowering in
/-- **Wait reduction is exact**: what lowering leaves out is implied by what it keeps. -/
theorem wait_reduction_exact {storage : StoragePlan} {context : LoweringContext}
    {program : NativeProgram} (h : lowerProgram storage context = .ok program)
    (hids : (storage.instructions.map (·.operationId)).Nodup)
    (hranks : ∀ op ∈ storage.instructions, ∀ specs, endpointSpecs op storage = .ok specs →
      (specs.map (·.rank)).Nodup) : OrderKept storage program := by
  obtain ⟨s, places, hrun, hnum⟩ := numbered_of_lowerProgram h hids hranks
  refine ⟨?_, ?_⟩
  · intro op hop p hp b i step he hid c j before hbefore hpid hsame
    obtain ⟨x, hx, hxplace⟩ := hnum.endpoint he
    obtain ⟨y, hy, hyplace⟩ := hnum.endpoint hbefore
    rw [hid] at hx
    rw [hpid, hsame] at hy
    have hpath := hrun.covers op hop p hp b.rank y x hy hx
    rw [← hxplace, ← hyplace]
    exact hpath.lift (locate places) fun _ _ hedge => hnum.localEdge hedge
  · intro block hb i step hi hwaits
    obtain ⟨target, htb, j, awaited, hrank, hnumber, hindex, hat, hmarked, hk, hown⟩ :=
      hnum.target hb hi hwaits
    refine ⟨target, htb, j, awaited, hrank, hnumber, hindex, hat, ?_, hmarked, hk, hown⟩
    intro other hother hsame hid
    exact hnum.block_unique hother htb (hsame.trans hrank.symm) (by omega)

/-! ## Plans with and without the two conditions -/

/-- Two ranks that exchange one slice. -/
def pairInputs : ResolvedInput where
  collective := ⟨.broadcast, "float32", none, some 0, false⟩
  rankCount := 2
  totalSizeBytes := 4
  sliceSizeBytes := 4
  maxChannels := 2
  layout := .separate
  scratchBytesPerRank := 16
  bufferSize := 4194304
  compatibilityEnabled := false
  directedLinks := [(0, 1), (1, 0)]
  inputSha256 := ""

def pairContext : LoweringContext where
  inputs := pairInputs
  topology := ⟨[((0, 1), ⟨2, []⟩), ((1, 0), ⟨2, []⟩)], []⟩
  model := { version := "1", services := [] }
  limits := {}

/-- A transfer of one state on a channel. -/
def transfer (id source target : String) (rank : ℕ) (peer channel : ℤ) (deps : Finset String) :
    Instruction :=
  ⟨id, .send, [source], target, rank, peer, channel, 0, [0, 1], deps, 0⟩

/-- A plan over four slots of two ranks. -/
def pairPlan (instructions : List Instruction) : StoragePlan where
  values := []
  initialIds := ["x"]
  instructions := instructions
  addresses := [("x", ⟨0, .i, 0⟩), ("y", ⟨1, .o, 0⟩), ("z", ⟨1, .s, 0⟩), ("w", ⟨0, .s, 0⟩)]
  outputs := []
  inputSlots := [(0, 1), (1, 1)]
  outputSlots := [(0, 1), (1, 1)]
  scratchSlots := [(0, 1), (1, 1)]
  reuse := []
  stageCount := 1

/-- There and back over two channels. -/
def backAndForth : StoragePlan := pairPlan
  [transfer "p" "x" "y" 1 0 0 ∅, transfer "o" "x" "z" 1 0 1 {"p"},
    transfer "q" "y" "w" 0 1 0 {"p", "o"}]

/-- Two transfers of one name. -/
def sameName : StoragePlan := pairPlan
  [transfer "p" "x" "y" 1 0 0 ∅, transfer "p" "x" "z" 1 0 1 ∅, transfer "q" "y" "w" 0 1 0 {"p"}]

/-- A transfer from a rank to itself. -/
def sameRank : StoragePlan := pairPlan
  [transfer "p" "x" "w" 0 0 0 ∅, transfer "q" "w" "y" 1 0 0 {"p"}]

/-- The program of a plan of the pair. -/
def pairProgram (storage : StoragePlan) : NativeProgram :=
  match lowerProgram storage pairContext with
  | .ok program => program
  | .error _ => ⟨0, 0, 0, [], [], [], []⟩

/-- No step comes directly after this one. -/
def Sink (program : NativeProgram) (a : Location) : Prop :=
  ∀ block ∈ program.blocks, (∀ i < block.steps.length - 1, a ≠ block.place i) ∧
    ∀ step ∈ block.steps, 0 ≤ step.dependencyTb →
      a ≠ (block.rank, step.dependencyTb.toNat, step.dependencyStep.toNat)

instance (program : NativeProgram) (a : Location) : Decidable (Sink program a) :=
  inferInstanceAs (Decidable (∀ block ∈ program.blocks,
    (∀ i < block.steps.length - 1, a ≠ block.place i) ∧
      ∀ step ∈ block.steps, 0 ≤ step.dependencyTb →
        a ≠ (block.rank, step.dependencyTb.toNat, step.dependencyStep.toNat)))

theorem Sink.not_before {program : NativeProgram} {a : Location} (h : Sink program a) (b : Location) :
    ¬ Relation.TransGen (LocalEdge program) a b := by
  intro hpath
  obtain ⟨c, hedge, -⟩ := Relation.TransGen.head'_iff.mp hpath
  cases hedge with
  | @next block i hb hi => exact (h block hb).1 i (by omega) rfl
  | wait hb hi hwait => exact (h _ hb).2 _ (List.mem_of_getElem? hi) hwait rfl

/-- Nothing comes after an endpoint, on the rank of an instruction that depends on it. -/
theorem not_orderKept {storage : StoragePlan} {program : NativeProgram}
    (h : ∃ op ∈ storage.instructions, ∃ b ∈ program.blocks, ∃ step ∈ b.steps,
      ∃ c ∈ program.blocks, ∃ before ∈ c.steps.zipIdx, step.kind ≠ .nop ∧
        step.operationId = op.operationId ∧ before.1.kind ≠ .nop ∧
        before.1.operationId ∈ op.dependencies ∧ c.rank = b.rank ∧
        Sink program (c.place before.2)) : ¬ OrderKept storage program := by
  obtain ⟨op, hop, b, hb, step, hstep, c, hc, ⟨before, j⟩, hj, hk, hid, hk', hp, hrank, hsink⟩ := h
  obtain ⟨i, hi⟩ := List.mem_iff_getElem?.mp hstep
  have hat : c.steps[j]? = some before := by simpa [List.mem_zipIdx_iff_getElem?] using hj
  intro hkept
  exact hsink.not_before _
    (hkept.ordered op hop _ hp b i step ⟨hb, hi, hk⟩ hid c j before ⟨hc, hat, hk'⟩ rfl hrank)

/-- The wait of `q` for `p` was left out, and `p` still comes first. -/
theorem wait_reduction_exact_backAndForth : OrderKept backAndForth (pairProgram backAndForth) :=
  @wait_reduction_exact _ pairContext _ (by decide +kernel) (by decide +kernel)
    (by
      intro op hop specs hspecs
      have hall : ∀ op ∈ backAndForth.instructions,
          (endpointSpecs op backAndForth).toOption.all
            (fun specs => decide (specs.map (·.rank)).Nodup) = true := by decide +kernel
      have := hall op hop
      rw [hspecs] at this
      simpa [Except.toOption] using this)

/-- **Both conditions are needed**: of two transfers with one name only the last is waited
for, and of a transfer inside a rank only the receive. -/
theorem wait_reduction_conditions :
    (lowerProgram sameName pairContext = .ok (pairProgram sameName) ∧
      ¬ OrderKept sameName (pairProgram sameName)) ∧
    (lowerProgram sameRank pairContext = .ok (pairProgram sameRank) ∧
      ¬ OrderKept sameRank (pairProgram sameRank)) :=
  ⟨⟨by decide +kernel, not_orderKept (by decide +kernel)⟩,
    by decide +kernel, not_orderKept (by decide +kernel)⟩

end VeriCCL
