import VeriCCL.Endpoints

/-! # Accepted programs do not deadlock

The machine a native program runs on, as far as progress goes: every block runs
its steps in order, a step that carries a wait starts only after the step it names
has completed, and a send completes only together with the receive of its
operation.  The acceptance check looks at operations, not at endpoints: it
collapses the two ends of a transfer, and the NOPs before an end, onto one vertex.

`deadlock_free` shows that this is enough.  The two ends of a transfer complete
together (`Paired`), so an operation that has not completed has not completed at
any end; of these operations take one of least level.  Everything before an end of
it on its block, and everything it or a NOP before it waits for, belongs to an
operation of smaller level and is done.  So either one of its blocks stands at a
NOP that may run, or all its ends are next, and it may run itself. -/
namespace VeriCCL

/-- How many steps each block has completed. -/
abbrev Progress := ℕ × ℕ → ℕ

/-- Nothing has completed. -/
def Progress.start : Progress := fun _ => 0

/-- The step that a wait of a step on `rank` names has completed. -/
def waitDone (pc : Progress) (rank : ℕ) (step : NativeStep) : Prop :=
  0 ≤ step.dependencyTb → step.dependencyStep < pc (rank, step.dependencyTb.toNat)

/-- `step` is the next step of its block, and its wait is over. -/
structure Enabled (program : NativeProgram) (pc : Progress) (block : NativeBlock)
    (step : NativeStep) : Prop where
  block_mem : block ∈ program.blocks
  next : block.steps[pc block.key]? = some step
  wait : waitDone pc block.rank step

/-- The block has completed one more step. -/
def advance (pc : Progress) (block : NativeBlock) : Progress :=
  Function.update pc block.key (pc block.key + 1)

/-- **One move of the machine**: a step that is no end of a transfer alone, or the
two ends of a transfer together. -/
inductive Rendezvous (program : NativeProgram) (pc : Progress) : Progress → Prop where
  | alone {block : NativeBlock} {step : NativeStep} (enabled : Enabled program pc block step)
      (not_send : step.kind ≠ .s) (not_receive : step.kind.receives = false) :
      Rendezvous program pc (advance pc block)
  | transfer {sb rb : NativeBlock} {ss rs : NativeStep} (send : Enabled program pc sb ss)
      (receive : Enabled program pc rb rs) (send_kind : ss.kind = .s)
      (receive_kind : rs.kind.receives = true) (operation : ss.operationId = rs.operationId) :
      Rendezvous program pc (advance (advance pc sb) rb)

/-- The states of runs. -/
def Rendezvous.Reachable (program : NativeProgram) (pc : Progress) : Prop :=
  Relation.ReflTransGen (Rendezvous program) Progress.start pc

section
variable {program : NativeProgram} {result : ExecutionDependencies} {pc : Progress}

@[simp] theorem advance_self (block : NativeBlock) :
    advance pc block block.key = pc block.key + 1 := by
  simp [advance]

theorem advance_of_ne {block : NativeBlock} {key : ℕ × ℕ} (h : key ≠ block.key) :
    advance pc block key = pc key := by
  simp [advance, h]

/-- The ends of an operation complete together. -/
def Paired (program : NativeProgram) (pc : Progress) : Prop :=
  ∀ b i a c j d, Endpoint program b i a → Endpoint program c j d →
    a.operationId = d.operationId → (i < pc b.key ↔ j < pc c.key)

/-- Advancing a block completes its next step and nothing else. -/
theorem lt_advance_iff (hfits : Fits program) {block b : NativeBlock} {step a : NativeStep} {i : ℕ}
    (hblock : block ∈ program.blocks) (hnext : block.steps[pc block.key]? = some step)
    (hb : Endpoint program b i a) :
    i < advance pc block b.key ↔ i < pc b.key ∨ (b, i, a) = (block, pc block.key, step) := by
  by_cases hkey : b.key = block.key
  · obtain rfl := hfits.block_unique hb.block_mem hblock hkey
    rw [advance_self, Nat.lt_succ_iff_lt_or_eq]
    constructor
    · rintro (h | h)
      · exact Or.inl h
      · subst h
        have : a = step := by
          have := hb.at_index.symm.trans hnext
          simpa using this
        exact Or.inr (by rw [this])
    · rintro (h | h)
      · exact Or.inl h
      · exact Or.inr (congrArg (fun e => e.2.1) h)
  · rw [advance_of_ne hkey]
    constructor
    · exact Or.inl
    · rintro (h | h)
      · exact h
      · exact absurd (congrArg (fun e => e.1.key) h) hkey

/-- **A move keeps the ends together.** -/
theorem Paired.step (hacc : Accepted program result) (hfits : Fits program)
    (hpair : Paired program pc) {pc' : Progress} (h : Rendezvous program pc pc') :
    Paired program pc' := by
  intro b i a c j d hb hc hop
  have hold := hpair b i a c j d hb hc hop
  rcases h with ⟨henabled, hsend, hreceive⟩ | ⟨hs, hr, hsk, hrk, hsame⟩
  · rename_i block step
    rw [lt_advance_iff hfits henabled.block_mem henabled.next hb,
      lt_advance_iff hfits henabled.block_mem henabled.next hc]
    by_cases hk : step.kind = .nop
    · -- a NOP is no end
      have hnop : ∀ {b i a}, Endpoint program b i a → (b, i, a) ≠ (block, pc block.key, step) := by
        intro b i a hb heq
        exact hb.works (by rw [(Prod.mk.inj (Prod.mk.inj heq).2).2]; exact hk)
      simp [hold, hnop hb, hnop hc]
    · have hend : Endpoint program block (pc block.key) step :=
        ⟨henabled.block_mem, henabled.next, hk⟩
      -- a local operation has one end only
      have honly : ∀ {b i a c j d}, Endpoint program b i a → Endpoint program c j d →
          a.operationId = d.operationId → (b, i, a) = (block, pc block.key, step) →
          (c, j, d) = (block, pc block.key, step) := by
        intro b i a c j d hb hc hop heq
        obtain ⟨rfl, heq⟩ := Prod.mk.inj heq
        obtain ⟨rfl, rfl⟩ := Prod.mk.inj heq
        rcases hacc.shape hend with ⟨_, _, _, -, -, -, only⟩ |
          ⟨_, _, _, _, _, _, -, -, -, -, hsk, hrk, -, only⟩
        · rw [only c j d hc hop.symm, only b _ a hend rfl]
        · rcases only b _ a hend rfl with heq | heq
          · rw [← (Prod.mk.inj (Prod.mk.inj heq).2).2] at hsk
            exact absurd hsk hsend
          · rw [← (Prod.mk.inj (Prod.mk.inj heq).2).2] at hrk
            exact absurd hrk (by simp [hreceive])
      rw [hold]
      exact or_congr_right ⟨honly hb hc hop, honly hc hb hop.symm⟩
  · rename_i sb rb ss rs
    have hsend : Endpoint program sb (pc sb.key) ss :=
      ⟨hs.block_mem, hs.next, by rw [hsk]; decide⟩
    have hreceive : Endpoint program rb (pc rb.key) rs :=
      ⟨hr.block_mem, hr.next, by intro hk; simp [hk, StepKind.receives] at hrk⟩
    have hdiff : (rb, pc rb.key, rs) ≠ (sb, pc sb.key, ss) := by
      intro heq
      rw [(Prod.mk.inj (Prod.mk.inj heq).2).2, hsk] at hrk
      simp [StepKind.receives] at hrk
    -- both ends are next, on different blocks
    have hranks : rb.rank ≠ sb.rank := fun hrank =>
      hdiff (hacc.unique_on_rank hfits hreceive hsend hsame.symm hrank)
    have hkeys : rb.key ≠ sb.key := fun hkey => hranks (congrArg Prod.fst hkey)
    have hnext : advance pc sb rb.key = pc rb.key := advance_of_ne hkeys
    have hmove : ∀ {b i a}, Endpoint program b i a →
        (i < advance (advance pc sb) rb b.key ↔ i < pc b.key ∨
          a.operationId = ss.operationId) := by
      intro b i a hb
      rw [lt_advance_iff hfits hr.block_mem (by rw [hnext]; exact hr.next) hb, hnext,
        lt_advance_iff hfits hs.block_mem hs.next hb]
      constructor
      · rintro ((h | h) | h)
        · exact Or.inl h
        · exact Or.inr (congrArg (fun e => e.2.2.operationId) h)
        · exact Or.inr ((congrArg (fun e => e.2.2.operationId) h).trans hsame.symm)
      · rintro (h | h)
        · exact Or.inl (Or.inl h)
        · rcases hacc.shape hb with ⟨_, _, _, -, -, -, only⟩ |
            ⟨_, _, _, _, _, _, -, -, -, -, -, -, -, only⟩
          · exact absurd ((only _ _ _ hreceive (hsame.symm.trans h.symm)).trans
              (only _ _ _ hsend h.symm).symm) hdiff
          · rcases only _ _ _ hb rfl with h1 | h1 <;>
            rcases only _ _ _ hsend h.symm with h2 | h2 <;>
            rcases only _ _ _ hreceive (hsame.symm.trans h.symm) with h3 | h3
            all_goals first
              | exact absurd (h3.trans h2.symm) hdiff
              | exact Or.inl (Or.inr (h1.trans h2.symm))
              | exact Or.inr (h1.trans h3.symm)
    rw [hmove hb, hmove hc, hold, hop]

/-- **The ends stay together in every run.** -/
theorem paired_of_reachable (hacc : Accepted program result) (hfits : Fits program)
    (h : Rendezvous.Reachable program pc) : Paired program pc := by
  induction h with
  | refl =>
    intro b i a c j d _ _ _
    simp [Progress.start]
  | tail _ hstep ih => exact ih.step hacc hfits hstep

/-- The work that waits at index `i` is a step at or after `i`, with only NOPs
between. -/
theorem workAt_cases {steps : List NativeStep} {i : ℕ} {x : String} (h : workAt steps i = some x) :
    ∃ k step, i ≤ k ∧ steps[k]? = some step ∧ step.kind ≠ .nop ∧ step.operationId = x ∧
      ∀ j a, i ≤ j → j < k → steps[j]? = some a → a.kind = .nop := by
  unfold workAt at h
  obtain ⟨step, hfind, rfl⟩ := Option.map_eq_some_iff.mp h
  obtain ⟨hkind, l, r, hdrop, hnop⟩ := List.find?_eq_some_iff_append.mp hfind
  refine ⟨i + l.length, step, by omega, ?_, by simpa using hkind, rfl, ?_⟩
  · rw [← List.getElem?_drop, hdrop]
    simp
  · intro j a hij hj ha
    have hget : (steps.drop i)[j - i]? = some a := by
      rw [List.getElem?_drop, show i + (j - i) = j by omega, ha]
    rw [hdrop, List.getElem?_append_left (by omega)] at hget
    have := hnop a (List.mem_of_getElem? hget)
    simpa using this

/-- An operation that still has an end to run. -/
def Unfinished (program : NativeProgram) (pc : Progress) (x : String) : Prop :=
  ∃ block i step, Endpoint program block i step ∧ step.operationId = x ∧ pc block.key ≤ i

/-- A block that has not completed has work left: no program ends in NOPs. -/
theorem exists_unfinished (hacc : Accepted program result) {block : NativeBlock}
    (hblock : block ∈ program.blocks) (hlt : pc block.key < block.steps.length) :
    ∃ x, Unfinished program pc x := by
  set step := block.steps[pc block.key] with hstep
  have hget : block.steps[pc block.key]? = some step := List.getElem?_eq_getElem hlt
  by_cases hk : step.kind = .nop
  · have hwait := hacc.nop_waits block hblock step (List.mem_of_getElem? hget) hk
    obtain ⟨_, _, _, x, -, -, -, hx, -, -⟩ := hacc.wait_target hblock hget hwait
    obtain ⟨k, st, hle, hst, hkind, hop, -⟩ := workAt_cases hx
    exact ⟨x, block, k, st, ⟨hblock, hst, hkind⟩, hop, hle⟩
  · exact ⟨_, block, _, step, ⟨hblock, hget, hk⟩, rfl, Nat.le_refl _⟩

/-- **At an operation of least level**, the next step of each of its blocks may run,
and is a NOP or the operation's own. -/
theorem next_enabled (hacc : Accepted program result) (hfits : Fits program) {level : String → ℕ}
    (hlevel : ∀ p x, result.Edge p x → level p < level x)
    (hinj : ∀ x y, x ∈ result.byOp.keys → level x = level y → x = y)
    {block : NativeBlock} {i : ℕ} {step : NativeStep} (hend : Endpoint program block i step)
    (hle : pc block.key ≤ i)
    (hleast : ∀ y, Unfinished program pc y → level step.operationId ≤ level y) :
    ∃ next, Enabled program pc block next ∧
      (next.kind = .nop ∨ (pc block.key = i ∧ next = step)) := by
  obtain ⟨hi, -⟩ := List.getElem?_eq_some_iff.mp hend.at_index
  have hlt : pc block.key < block.steps.length := hle.trans_lt hi
  set next := block.steps[pc block.key] with hnext
  have hget : block.steps[pc block.key]? = some next := List.getElem?_eq_getElem hlt
  -- the work at the next step is not above the operation
  have hbelow : ∀ x, workAt block.steps (pc block.key) = some x → level x ≤ level step.operationId := by
    intro x hx
    obtain ⟨k, st, hk, hst, hkind, rfl, hnops⟩ := workAt_cases hx
    rcases Nat.lt_trichotomy k i with hki | rfl | hik
    · exact level_le_of_path hlevel
        (hacc.order block hend.block_mem k i st step hki hst hend.at_index hkind hend.works)
    · have : st = step := by simpa using hst.symm.trans hend.at_index
      rw [this]
    · exact absurd (hnops i step hle hik hend.at_index) hend.works
  have hwait : waitDone pc block.rank next := by
    intro hdep
    obtain ⟨target, k, st, x, htarget, hkey, hk, hx, hedge, -⟩ :=
      hacc.wait_target hend.block_mem hget hdep
    by_contra hnot
    have hunfinished : Unfinished program pc st.operationId :=
      ⟨target, k, st, htarget, rfl, by rw [hkey]; omega⟩
    have := hleast _ hunfinished
    have := hlevel _ _ hedge
    have := hbelow x hx
    omega
  refine ⟨next, ⟨hend.block_mem, hget, hwait⟩, ?_⟩
  by_cases hk : next.kind = .nop
  · exact Or.inl hk
  · refine Or.inr ?_
    have hown : Endpoint program block (pc block.key) next := ⟨hend.block_mem, hget, hk⟩
    have hat : workAt block.steps (pc block.key) = some next.operationId := by
      unfold workAt
      rw [List.drop_eq_getElem_cons hlt]
      simp [← hnext, hk]
    have heq : next.operationId = step.operationId :=
      hinj _ _ (hacc.endpoint_key hown)
        (Nat.le_antisymm (hbelow _ hat) (hleast _ ⟨block, _, next, hown, rfl, Nat.le_refl _⟩))
    have := hacc.unique_on_rank hfits hown hend heq rfl
    exact ⟨congrArg (fun e => e.2.1) this, congrArg (fun e => e.2.2) this⟩

/-- An enabled NOP may run. -/
theorem rendezvous_nop {block : NativeBlock} {next : NativeStep}
    (h : Enabled program pc block next) (hk : next.kind = .nop) :
    ∃ pc', Rendezvous program pc pc' :=
  ⟨_, .alone h (by rw [hk]; decide) (by rw [hk]; rfl)⟩

/-- **No reachable state is stuck.**  In every state reached by a program that
`execution_dependencies` and the capacity check accept, if some block has not
completed all its steps then the machine can move. -/
theorem deadlock_free {limits : RuntimeLimits} {sliceBytes scratchBytesPerRank : Option ℕ}
    {capacity : CapacityReport} (hdeps : executionDependencies program = .ok result)
    (hcapacity : checkCapacity (executionShape program) limits sliceBytes scratchBytesPerRank =
      .ok capacity) (hcompatible : capacity.compatible = true)
    (hreach : Rendezvous.Reachable program pc)
    (hleft : ∃ block ∈ program.blocks, pc block.key < block.steps.length) :
    ∃ pc', Rendezvous program pc pc' := by
  have hacc := executionDependencies_accepted hdeps
  have hfits := fits_of_checkCapacity hcapacity hcompatible
  have hpair := paired_of_reachable hacc hfits hreach
  obtain ⟨level, hlevel, hinj⟩ := hacc.level
  obtain ⟨block, hblock, hlt⟩ := hleft
  -- an unfinished operation of least level
  obtain ⟨x, ⟨b, i, a, hb, rfl, hle⟩, hleast⟩ := (measure level).wf.has_min
    {x | Unfinished program pc x} (exists_unfinished hacc hblock hlt)
  have hmin : ∀ y, Unfinished program pc y → level a.operationId ≤ level y :=
    fun y hy => Nat.le_of_not_lt (hleast y hy)
  have hends : ∀ c j d, Endpoint program c j d → d.operationId = a.operationId →
      ∃ next, Enabled program pc c next ∧ (next.kind = .nop ∨ (pc c.key = j ∧ next = d)) := by
    intro c j d hc hop
    have hopen : pc c.key ≤ j := by
      have := hpair b i a c j d hb hc hop.symm
      omega
    exact next_enabled hacc hfits hlevel hinj hc hopen (by rw [hop]; exact hmin)
  rcases hacc.shape hb with ⟨c, j, d, hc, hop, hk, -⟩ |
    ⟨sb, j, ss, rb, k, rs, hs, hr, hsop, hrop, hsk, hrk, -, -⟩
  · obtain ⟨next, hnext, hnop | ⟨-, rfl⟩⟩ := hends c j d hc hop
    · exact rendezvous_nop hnext hnop
    · refine ⟨_, .alone hnext ?_ ?_⟩
      · rcases hk with hk | hk <;> rw [hk] <;> decide
      · rcases hk with hk | hk <;> rw [hk] <;> rfl
  · obtain ⟨snext, hsnext, hnop | ⟨-, rfl⟩⟩ := hends sb j ss hs hsop
    · exact rendezvous_nop hsnext hnop
    obtain ⟨rnext, hrnext, hnop | ⟨-, rfl⟩⟩ := hends rb k rs hr hrop
    · exact rendezvous_nop hrnext hnop
    exact ⟨_, .transfer hsnext hrnext hsk hrk (hsop.trans hrop.symm)⟩

end

/-- Rank 0 sends its slice twice; rank 1 copies the first to its output once both
have arrived, after a NOP that waits for the first. -/
def twoTransfers : NativeProgram where
  rankCount := 2
  channels := 1
  chunksPerLoop := 1
  blocks := [
    ⟨0, 0, 0, 1, -1, [
      { stepId := "a:send:0", operationId := "a", kind := .s, src := some ⟨0, .i, 0⟩,
        dst := some ⟨1, .s, 0⟩ },
      { stepId := "b:send:0", operationId := "b", kind := .s, src := some ⟨0, .i, 0⟩,
        dst := some ⟨1, .s, 1⟩ }]⟩,
    ⟨1, 0, 0, -1, 0, [
      { stepId := "a:recv:1", operationId := "a", kind := .r, src := some ⟨0, .i, 0⟩,
        dst := some ⟨1, .s, 0⟩, hasDependence := true },
      { stepId := "b:recv:1", operationId := "b", kind := .r, src := some ⟨0, .i, 0⟩,
        dst := some ⟨1, .s, 1⟩, hasDependence := true }]⟩,
    ⟨1, 1, 0, -1, -1, [
      { stepId := "nop:c:1:0", operationId := "c", kind := .nop, src := none, dst := none,
        dependencyTb := 0, dependencyStep := 0 },
      { stepId := "c:copy:1", operationId := "c", kind := .cpy, src := some ⟨1, .s, 0⟩,
        dst := some ⟨1, .o, 0⟩, dependencyTb := 0, dependencyStep := 1 }]⟩]
  inputSlots := [(0, 1), (1, 1)]
  outputSlots := [(0, 1), (1, 1)]
  scratchSlots := [(0, 0), (1, 2)]

/-- The relation the scan finds for it. -/
def twoTransfersResult : ExecutionDependencies :=
  match executionDependencies twoTransfers with
  | .ok result => result
  | .error _ => ⟨[], []⟩

theorem twoTransfers_accepted : executionDependencies twoTransfers = .ok twoTransfersResult := by
  decide

theorem twoTransfers_fits :
    checkCapacity (executionShape twoTransfers) {} none none = .ok ⟨[]⟩ := by
  decide

theorem deadlock_free_twoTransfers : ∃ pc', Rendezvous twoTransfers Progress.start pc' :=
  deadlock_free twoTransfers_accepted twoTransfers_fits rfl .refl
    ⟨_, List.mem_cons_self, by decide⟩

end VeriCCL
