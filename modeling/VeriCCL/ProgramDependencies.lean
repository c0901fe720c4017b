import VeriCCL.Capacity
import VeriCCL.Kahn
import Mathlib.Logic.Relation

/-! # The dependency relation of a native program

`_dependency_order` and `execution_dependencies` of `xml/v5_program.py`.  The
source collapses both endpoints of a transfer, and the dependency-only NOP steps
before an endpoint, onto one operation, and requires the collapsed relation to
have a topological order.

`Accepted` says what a program satisfies once `executionDependencies` returns;
`executionDependencies_accepted` proves it, and every later result about accepted
programs starts from there. -/
namespace VeriCCL

/-- `_dependency_order`: Kahn's algorithm on a dictionary of predecessor sets. -/
def dependencyOrder {κ : Type} [DecidableEq κ] (dependencies : Dict κ (Finset κ)) :
    Except Fault (List κ) := do
  Checked.ensure (∀ e ∈ dependencies, ∀ p ∈ e.2, p ∈ dependencies.keys)
    (.semantic "native dependency names an unknown operation")
  let order := Kahn.order dependencies.keys (fun k => (dependencies.get? k).getD ∅) Kahn.fifo
  Checked.ensure (order.length = dependencies.length)
    (.semantic "native endpoint/TB dependency graph is deadlocked")
  return order

/-- **What `_dependency_order` returns** is a permutation of the keys in which
every key follows its predecessors. -/
theorem dependencyOrder_ok {κ : Type} [DecidableEq κ] {dependencies : Dict κ (Finset κ)}
    (hd : dependencies.Distinct) {order : List κ} (h : dependencyOrder dependencies = .ok order) :
    order.Perm dependencies.keys ∧
    Kahn.Topological (fun k => (dependencies.get? k).getD ∅) order := by
  unfold dependencyOrder at h
  simp only [Checked.bind_ok, Checked.ensure_ok, Checked.pure_ok] at h
  obtain ⟨_, -, _, hlen, rfl⟩ := h
  exact ⟨Kahn.order_perm Kahn.fifo_perm hd (by rw [hlen]; simp [Dict.keys]),
    Kahn.order_topological Kahn.fifo_perm hd⟩

/-! ## The scan -/

/-- Where a step is: rank, thread block, index in the block. -/
abbrev Location := ℕ × ℕ × ℕ

/-- All steps with their locations, in program order. -/
def locatedSteps (program : NativeProgram) : List (Location × NativeStep) :=
  program.blocks.flatMap fun block =>
    block.steps.zipIdx.map fun e => ((block.rank, block.tbId, e.2), e.1)

/-- The table of all steps by location. -/
def stepTable (program : NativeProgram) : Dict Location NativeStep :=
  Dict.ofList (locatedSteps program)

/-- The step a dependency of a step on `rank` names. -/
def dependencyTarget (steps : Dict Location NativeStep) (rank : ℕ) (step : NativeStep) :
    Option NativeStep :=
  if 0 ≤ step.dependencyTb ∧ 0 ≤ step.dependencyStep then
    steps.get? (rank, step.dependencyTb.toNat, step.dependencyStep.toNat)
  else
    none

/-- The accumulators of the scan: the relation and the endpoints so far, and in the
current block the last operation and the waits not yet attached to one. -/
structure DependencyScan where
  dependencies : String → Finset String
  byOp : Dict String (List (NativeBlock × NativeStep))
  previous : Option String
  waiting : Finset String

/-- Before the first block. -/
def DependencyScan.start : DependencyScan := ⟨fun _ => ∅, [], none, ∅⟩

/-- Record an endpoint under its operation. -/
def addEndpoint (byOp : Dict String (List (NativeBlock × NativeStep))) (block : NativeBlock)
    (step : NativeStep) : Dict String (List (NativeBlock × NativeStep)) :=
  byOp.set step.operationId ((byOp.get? step.operationId).getD [] ++ [(block, step)])

/-- The waits after the dependency of one step has been read. -/
def readWait (steps : Dict Location NativeStep) (block : NativeBlock) (waiting : Finset String)
    (step : NativeStep) (index : ℕ) : Except Fault (Finset String) :=
  if 0 ≤ step.dependencyTb then
    match dependencyTarget steps block.rank step with
    | none => .error (.semantic
        "native dependency target is absent or does not publish completion")
    | some target => do
      Checked.ensure (target.kind ≠ .nop ∧ target.hasDependence = true)
        (.semantic "native dependency target is absent or does not publish completion")
      Checked.ensure (¬ (step.dependencyTb = block.tbId ∧ (index : ℤ) ≤ step.dependencyStep))
        (.semantic "native dependency points to the same or a later step")
      return insert target.operationId waiting
  else
    .ok waiting

/-- The operation before this one on its block, unless it is the same one. -/
def previousEdge (previous : Option String) (operation : String) : Finset String :=
  match previous with
  | some p => if p = operation then ∅ else {p}
  | none => ∅

/-- One step of the scan. -/
def scanStep (steps : Dict Location NativeStep) (block : NativeBlock) (s : DependencyScan)
    (e : NativeStep × ℕ) : Except Fault DependencyScan := do
  let step := e.1
  Checked.ensure (step.dependencyTb = -1 ↔ step.dependencyStep = -1)
    (.semantic "native dependency must name both TB and step")
  let waiting ← readWait steps block s.waiting step e.2
  if step.kind = .nop then
    Checked.ensure (0 ≤ step.dependencyTb)
      (.semantic "dependency-only NOP must carry a dependency")
    return { s with waiting := waiting }
  else
    Checked.ensure (¬ (waiting.Nonempty ∧ step.dependencyTb < 0))
      (.semantic "the final instruction of a NOP dependency chain must also carry a dependency")
    let own := s.dependencies step.operationId ∪ previousEdge s.previous step.operationId ∪ waiting
    Checked.ensure (step.operationId ∉ own)
      (.semantic "native operation depends on its own completion")
    return {
      dependencies := Function.update s.dependencies step.operationId own
      byOp := addEndpoint s.byOp block step
      previous := some step.operationId
      waiting := ∅ }

/-- One block of the scan. -/
def scanBlock (steps : Dict Location NativeStep) (s : DependencyScan) (block : NativeBlock) :
    Except Fault DependencyScan := do
  let t ← block.steps.zipIdx.foldlM (scanStep steps block) { s with previous := none, waiting := ∅ }
  Checked.ensure (t.waiting = ∅)
    (.semantic "a trailing NOP dependency chain has no native operation")
  return t

/-- The endpoints of one operation: a local step alone, or a send and a receive on
blocks that face each other. -/
def checkEndpoints (members : List (NativeBlock × NativeStep)) : Except Fault Unit :=
  match members with
  | [(_, step)] =>
    Checked.ensure (step.kind = .cpy ∨ step.kind = .re)
      (.semantic "physical transfer must have exactly one send and one matching receive")
  | _ =>
    match members.length, members.filter (fun m => m.2.kind = .s),
        members.filter (fun m => m.2.kind.receives) with
    | 2, [(sb, _)], [(rb, _)] =>
      Checked.ensure (sb.sendPeer = rb.rank ∧ rb.recvPeer = sb.rank ∧ sb.channel = rb.channel)
        (.semantic "physical endpoint peers or channels do not match")
    | _, _, _ =>
      .error (.semantic "physical transfer must have exactly one send and one matching receive")

/-- What `execution_dependencies` returns: the relation and the endpoints, by
operation in order of first appearance. -/
structure ExecutionDependencies where
  dependencies : Dict String (Finset String)
  byOp : Dict String (List (NativeBlock × NativeStep))
  deriving DecidableEq

/-- `execution_dependencies`. -/
def executionDependencies (program : NativeProgram) : Except Fault ExecutionDependencies := do
  let s ← program.blocks.foldlM (scanBlock (stepTable program)) DependencyScan.start
  forM s.byOp.values checkEndpoints
  let dependencies := s.byOp.keys.map fun k => (k, s.dependencies k)
  let _ ← dependencyOrder dependencies
  return ⟨dependencies, s.byOp⟩

/-! ## What the scan establishes -/

/-- The operation that runs at or after index `i`: the owner of the waits there. -/
def workAt (steps : List NativeStep) (i : ℕ) : Option String :=
  ((steps.drop i).find? (fun step => step.kind ≠ .nop)).map (·.operationId)

/-- The steps that do work, with their blocks, in program order. -/
def workSteps (program : NativeProgram) : List (NativeBlock × NativeStep) :=
  program.blocks.flatMap fun block =>
    (block.steps.filter (fun step => step.kind ≠ .nop)).map fun step => (block, step)

/-- The endpoints of an operation, in program order. -/
def endpointsOf (program : NativeProgram) (operation : String) :
    List (NativeBlock × NativeStep) :=
  (workSteps program).filter (fun m => m.2.operationId = operation)

theorem mem_workSteps {program : NativeProgram} {block : NativeBlock} {step : NativeStep} :
    (block, step) ∈ workSteps program ↔
      block ∈ program.blocks ∧ step ∈ block.steps ∧ step.kind ≠ .nop := by
  simp only [workSteps, List.mem_flatMap, List.mem_map, List.mem_filter, decide_eq_true_eq,
    Prod.mk.injEq]
  constructor
  · rintro ⟨b, hb, st, ⟨hst, hk⟩, rfl, rfl⟩
    exact ⟨hb, hst, hk⟩
  · rintro ⟨hb, hst, hk⟩
    exact ⟨block, hb, step, ⟨hst, hk⟩, rfl, rfl⟩

theorem mem_endpointsOf {program : NativeProgram} {operation : String} {block : NativeBlock}
    {step : NativeStep} :
    (block, step) ∈ endpointsOf program operation ↔
      block ∈ program.blocks ∧ step ∈ block.steps ∧ step.kind ≠ .nop ∧
        step.operationId = operation := by
  simp only [endpointsOf, List.mem_filter, mem_workSteps, decide_eq_true_eq]
  tauto

section Scan
variable {steps : Dict Location NativeStep} {block : NativeBlock}

/-- The edges of a relation given by predecessor sets. -/
def EdgeOf (dependencies : String → Finset String) (p x : String) : Prop := p ∈ dependencies x

/-- **Everything a successful step of the scan did.** -/
theorem scanStep_cases {s t : DependencyScan} {step : NativeStep} {i : ℕ}
    (h : scanStep steps block s (step, i) = .ok t) :
    (step.dependencyTb = -1 ↔ step.dependencyStep = -1) ∧
    ∃ waiting, readWait steps block s.waiting step i = .ok waiting ∧
      ((step.kind = .nop ∧ 0 ≤ step.dependencyTb ∧ t = { s with waiting := waiting }) ∨
       (step.kind ≠ .nop ∧ ¬ (waiting.Nonempty ∧ step.dependencyTb < 0) ∧
        step.operationId ∉ s.dependencies step.operationId ∪
          previousEdge s.previous step.operationId ∪ waiting ∧
        t = { dependencies := Function.update s.dependencies step.operationId
                (s.dependencies step.operationId ∪
                  previousEdge s.previous step.operationId ∪ waiting)
              byOp := addEndpoint s.byOp block step
              previous := some step.operationId
              waiting := ∅ })) := by
  unfold scanStep at h
  simp only [Checked.bind_ok, Checked.ensure_ok] at h
  obtain ⟨_, hpair, waiting, hwait, h⟩ := h
  refine ⟨hpair, waiting, hwait, ?_⟩
  by_cases hk : step.kind = .nop
  · rw [if_pos hk] at h
    simp only [Checked.bind_ok, Checked.ensure_ok, Checked.pure_ok] at h
    obtain ⟨_, htb, rfl⟩ := h
    exact Or.inl ⟨hk, htb, rfl⟩
  · rw [if_neg hk] at h
    simp only [Checked.bind_ok, Checked.ensure_ok, Checked.pure_ok] at h
    obtain ⟨_, hfinal, _, hself, rfl⟩ := h
    exact Or.inr ⟨hk, hfinal, hself, rfl⟩

/-- A wait adds its target's operation and keeps the earlier ones. -/
theorem readWait_cases {waiting waiting' : Finset String} {step : NativeStep} {i : ℕ}
    (h : readWait steps block waiting step i = .ok waiting') :
    (step.dependencyTb < 0 ∧ waiting' = waiting) ∨
    ∃ target, dependencyTarget steps block.rank step = some target ∧
      target.kind ≠ .nop ∧ target.hasDependence = true ∧
      ¬ (step.dependencyTb = block.tbId ∧ (i : ℤ) ≤ step.dependencyStep) ∧
      waiting' = insert target.operationId waiting := by
  unfold readWait at h
  by_cases htb : 0 ≤ step.dependencyTb
  · rw [if_pos htb] at h
    cases htarget : dependencyTarget steps block.rank step with
    | none => rw [htarget] at h; simp at h
    | some target =>
      rw [htarget] at h
      simp only [Checked.bind_ok, Checked.ensure_ok, Checked.pure_ok] at h
      obtain ⟨_, ⟨hk, hdep⟩, _, hlater, rfl⟩ := h
      exact Or.inr ⟨target, rfl, hk, hdep, hlater, rfl⟩
  · rw [if_neg htb] at h
    simp only [Except.ok.injEq] at h
    exact Or.inl ⟨by omega, h.symm⟩

theorem readWait_subset {waiting waiting' : Finset String} {step : NativeStep} {i : ℕ}
    (h : readWait steps block waiting step i = .ok waiting') : waiting ⊆ waiting' := by
  rcases readWait_cases h with ⟨-, rfl⟩ | ⟨target, -, -, -, -, rfl⟩
  · exact Finset.Subset.refl _
  · exact Finset.subset_insert _ _

/-- The relation only grows. -/
theorem scanStep_mono {s t : DependencyScan} {e : NativeStep × ℕ}
    (h : scanStep steps block s e = .ok t) (x : String) :
    s.dependencies x ⊆ t.dependencies x := by
  obtain ⟨step, i⟩ := e
  obtain ⟨-, waiting, -, ⟨-, -, rfl⟩ | ⟨-, -, -, rfl⟩⟩ := scanStep_cases h
  · exact Finset.Subset.refl _
  · by_cases hx : x = step.operationId
    · subst hx
      simp only [Function.update_self]
      exact Finset.subset_union_left.trans Finset.subset_union_left
    · simp [Function.update_of_ne hx]

theorem scanSteps_mono {s t : DependencyScan} {l : List (NativeStep × ℕ)}
    (h : l.foldlM (scanStep steps block) s = .ok t) (x : String) :
    s.dependencies x ⊆ t.dependencies x :=
  Checked.foldlM_invariant (fun u => s.dependencies x ⊆ u.dependencies x)
    (fun _ _ _ _ hu hv => hu.trans (scanStep_mono hv x)) (Finset.Subset.refl _) h

/-- The first operation of the rest of a block. -/
def firstWork (l : List (NativeStep × ℕ)) : Option String :=
  (l.find? (fun e => e.1.kind ≠ .nop)).map (·.1.operationId)

/-- **Waits reach the operation that follows them**: whatever is still waiting when
the rest of a block is scanned becomes a dependency of its first operation. -/
theorem waiting_resolved {l : List (NativeStep × ℕ)} :
    ∀ {s t : DependencyScan}, l.foldlM (scanStep steps block) s = .ok t → t.waiting = ∅ →
    ∀ o ∈ s.waiting, ∃ x, firstWork l = some x ∧ o ∈ t.dependencies x ∧ o ≠ x := by
  induction l with
  | nil =>
    intro s t h ht o ho
    rw [List.foldlM_nil, Checked.pure_ok] at h
    rw [h, ht] at ho
    exact absurd ho (Finset.notMem_empty o)
  | cons e l ih =>
    intro s t h ht o ho
    obtain ⟨step, i⟩ := e
    rw [List.foldlM_cons, Checked.bind_ok] at h
    obtain ⟨u, hu, h⟩ := h
    obtain ⟨-, waiting, hwait, ⟨hk, -, rfl⟩ | ⟨hk, -, hself, rfl⟩⟩ := scanStep_cases hu
    · obtain ⟨x, hx, hox⟩ := ih h ht o (readWait_subset hwait ho)
      refine ⟨x, ?_, hox⟩
      rw [← hx]
      simp [firstWork, hk]
    · refine ⟨step.operationId, by simp [firstWork, hk], ?_, ?_⟩
      · refine scanSteps_mono h step.operationId ?_
        simp only [Function.update_self]
        exact Finset.mem_union_right _ (readWait_subset hwait ho)
      · rintro rfl
        exact hself (Finset.mem_union_right _ (readWait_subset hwait ho))

/-- **Block order becomes the relation**: the last operation leads to every later
one of the block. -/
theorem previous_leads {l : List (NativeStep × ℕ)} :
    ∀ {s t : DependencyScan}, l.foldlM (scanStep steps block) s = .ok t →
    ∀ {p : String}, s.previous = some p → ∀ e ∈ l, e.1.kind ≠ .nop →
      Relation.ReflTransGen (EdgeOf t.dependencies) p e.1.operationId := by
  induction l with
  | nil => intro s t _ p _ e he; simp at he
  | cons e l ih =>
    intro s t h p hp e' he' hk'
    obtain ⟨step, i⟩ := e
    rw [List.foldlM_cons, Checked.bind_ok] at h
    obtain ⟨u, hu, h⟩ := h
    obtain ⟨-, waiting, -, ⟨hk, -, rfl⟩ | ⟨hk, -, -, rfl⟩⟩ := scanStep_cases hu
    · rcases List.mem_cons.mp he' with rfl | he'
      · exact absurd hk hk'
      · exact ih h hp e' he' hk'
    · have hfirst : Relation.ReflTransGen (EdgeOf t.dependencies) p step.operationId := by
        by_cases hpx : p = step.operationId
        · rw [hpx]
        · refine Relation.ReflTransGen.single (scanSteps_mono h step.operationId ?_)
          simp [previousEdge, hp, hpx]
      rcases List.mem_cons.mp he' with rfl | he'
      · exact hfirst
      · exact hfirst.trans (ih h rfl e' he' hk')

/-- A block whose scan succeeded, cut at any of its steps. -/
theorem scanBlock_turn {s t : DependencyScan} (h : scanBlock steps s block = .ok t)
    {l r : List (NativeStep × ℕ)} {e : NativeStep × ℕ} (hl : block.steps.zipIdx = l ++ e :: r) :
    t.waiting = ∅ ∧ ∃ u v, scanStep steps block u e = .ok v ∧
      r.foldlM (scanStep steps block) v = .ok t := by
  unfold scanBlock at h
  simp only [Checked.bind_ok, Checked.ensure_ok, Checked.pure_ok] at h
  obtain ⟨u, hu, _, hw, rfl⟩ := h
  rw [hl] at hu
  obtain ⟨a, b, -, hab, hb⟩ := Checked.foldlM_turn hu
  exact ⟨hw, a, b, hab, hb⟩

theorem scanBlock_mono {s t : DependencyScan} (h : scanBlock steps s block = .ok t) (x : String) :
    s.dependencies x ⊆ t.dependencies x := by
  unfold scanBlock at h
  simp only [Checked.bind_ok, Checked.ensure_ok, Checked.pure_ok] at h
  obtain ⟨u, hu, _, -, rfl⟩ := h
  exact scanSteps_mono hu x

theorem scanBlocks_mono {s t : DependencyScan} {l : List NativeBlock}
    (h : l.foldlM (scanBlock steps) s = .ok t) (x : String) :
    s.dependencies x ⊆ t.dependencies x :=
  Checked.foldlM_invariant (fun u => s.dependencies x ⊆ u.dependencies x)
    (fun _ _ _ _ hu hv => hu.trans (scanBlock_mono hv x)) (Finset.Subset.refl _) h

/-- Only operations with an endpoint have dependencies. -/
def DependencyScan.Listed (s : DependencyScan) : Prop :=
  ∀ x, (s.dependencies x).Nonempty → x ∈ s.byOp.keys

theorem scanStep_listed {s t : DependencyScan} {e : NativeStep × ℕ} (hs : s.Listed)
    (h : scanStep steps block s e = .ok t) : t.Listed := by
  obtain ⟨step, i⟩ := e
  obtain ⟨-, waiting, -, ⟨-, -, rfl⟩ | ⟨-, -, -, rfl⟩⟩ := scanStep_cases h
  · exact hs
  · intro x hx
    simp only [addEndpoint, Dict.mem_keys_set]
    by_cases hxs : x = step.operationId
    · exact Or.inl hxs
    · simp only [Function.update_of_ne hxs] at hx
      exact Or.inr (hs x hx)

theorem scanBlock_listed {s t : DependencyScan} (hs : s.Listed)
    (h : scanBlock steps s block = .ok t) : t.Listed := by
  unfold scanBlock at h
  simp only [Checked.bind_ok, Checked.ensure_ok, Checked.pure_ok] at h
  obtain ⟨u, hu, _, -, rfl⟩ := h
  exact Checked.foldlM_invariant (f := scanStep steps block) DependencyScan.Listed
    (fun _ _ _ _ ha hb => scanStep_listed ha hb)
    (s := { s with previous := none, waiting := ∅ }) hs hu

/-! ### Endpoints -/

/-- `byOp` lists, for every operation of `w`, its endpoints in `w`. -/
structure Grouped (byOp : Dict String (List (NativeBlock × NativeStep)))
    (w : List (NativeBlock × NativeStep)) : Prop where
  distinct : byOp.Distinct
  get : ∀ x, byOp.get? x = if w.filter (fun m => m.2.operationId = x) = [] then none
    else some (w.filter (fun m => m.2.operationId = x))

theorem grouped_nil : Grouped [] [] := ⟨Dict.distinct_nil, fun _ => rfl⟩

theorem Grouped.add {byOp : Dict String (List (NativeBlock × NativeStep))}
    {w : List (NativeBlock × NativeStep)} (h : Grouped byOp w) (block : NativeBlock)
    (step : NativeStep) : Grouped (addEndpoint byOp block step) (w ++ [(block, step)]) := by
  refine ⟨h.distinct.set _ _, fun x => ?_⟩
  have hold : (byOp.get? x).getD [] = w.filter (fun m => m.2.operationId = x) := by
    rw [h.get x]
    split
    · rename_i hnil
      rw [hnil, Option.getD_none]
    · rw [Option.getD_some]
  unfold addEndpoint
  rw [Dict.get?_set, List.filter_append]
  by_cases hx : step.operationId = x
  · subst hx
    rw [hold]
    simp
  · have hnone : [(block, step)].filter (fun m => m.2.operationId = x) = [] := by simp [hx]
    rw [if_neg hx, h.get x, hnone, List.append_nil]

theorem Grouped.scanSteps {l : List (NativeStep × ℕ)} :
    ∀ {s t : DependencyScan} {w : List (NativeBlock × NativeStep)}, Grouped s.byOp w →
    l.foldlM (scanStep steps block) s = .ok t →
    Grouped t.byOp (w ++ ((l.map (·.1)).filter (fun step => step.kind ≠ .nop)).map
      fun step => (block, step)) := by
  induction l with
  | nil =>
    intro s t w hs h
    rw [List.foldlM_nil, Checked.pure_ok] at h
    simpa [h] using hs
  | cons e l ih =>
    intro s t w hs h
    obtain ⟨step, i⟩ := e
    rw [List.foldlM_cons, Checked.bind_ok] at h
    obtain ⟨u, hu, h⟩ := h
    obtain ⟨-, waiting, -, ⟨hk, -, rfl⟩ | ⟨hk, -, -, rfl⟩⟩ := scanStep_cases hu
    · simpa [hk] using ih (s := { s with waiting := waiting }) hs h
    · simpa [hk] using ih (hs.add block step) h

theorem Grouped.scanBlocks {l : List NativeBlock} :
    ∀ {s t : DependencyScan} {w : List (NativeBlock × NativeStep)}, Grouped s.byOp w →
    l.foldlM (scanBlock steps) s = .ok t →
    Grouped t.byOp (w ++ l.flatMap fun block =>
      (block.steps.filter (fun step => step.kind ≠ .nop)).map fun step => (block, step)) := by
  induction l with
  | nil =>
    intro s t w hs h
    rw [List.foldlM_nil, Checked.pure_ok] at h
    simpa [h] using hs
  | cons block l ih =>
    intro s t w hs h
    rw [List.foldlM_cons, Checked.bind_ok] at h
    obtain ⟨u, hu, h⟩ := h
    unfold scanBlock at hu
    simp only [Checked.bind_ok, Checked.ensure_ok, Checked.pure_ok] at hu
    obtain ⟨v, hv, _, -, rfl⟩ := hu
    have hg := ih (Grouped.scanSteps (s := { s with previous := none, waiting := ∅ }) hs hv) h
    rw [List.zipIdx_map_fst] at hg
    simpa using hg

end Scan

/-! ## Accepted programs -/

/-- The dependency relation of a result: `p` is listed for `x`. -/
def ExecutionDependencies.Edge (result : ExecutionDependencies) (p x : String) : Prop :=
  p ∈ (result.dependencies.get? x).getD ∅

/-- **What a program satisfies once `execution_dependencies` returns.** -/
structure Accepted (program : NativeProgram) (result : ExecutionDependencies) : Prop where
  /-- A dependency names both coordinates or neither. -/
  pair : ∀ block ∈ program.blocks, ∀ step ∈ block.steps,
    (step.dependencyTb = -1 ↔ step.dependencyStep = -1)
  /-- A wait's target exists, publishes, is not later on the same block, and its
  operation precedes the operation the wait belongs to. -/
  wait : ∀ block ∈ program.blocks, ∀ (i : ℕ) (step : NativeStep), block.steps[i]? = some step →
    0 ≤ step.dependencyTb → ∃ target x,
      dependencyTarget (stepTable program) block.rank step = some target ∧
      target.kind ≠ .nop ∧ target.hasDependence = true ∧
      ¬ (step.dependencyTb = block.tbId ∧ (i : ℤ) ≤ step.dependencyStep) ∧
      workAt block.steps i = some x ∧ result.Edge target.operationId x ∧ target.operationId ≠ x
  /-- A NOP carries a wait. -/
  nop_waits : ∀ block ∈ program.blocks, ∀ step ∈ block.steps, step.kind = .nop →
    0 ≤ step.dependencyTb
  /-- Block order is part of the relation. -/
  order : ∀ block ∈ program.blocks, ∀ (i j : ℕ) (a b : NativeStep), i < j →
    block.steps[i]? = some a → block.steps[j]? = some b → a.kind ≠ .nop → b.kind ≠ .nop →
    Relation.ReflTransGen result.Edge a.operationId b.operationId
  /-- The endpoints are those of the program. -/
  endpoints : ∀ x, result.byOp.get? x =
    if endpointsOf program x = [] then none else some (endpointsOf program x)
  distinct : result.byOp.Distinct
  keys : result.dependencies.keys = result.byOp.keys
  /-- Every operation is one local step, or a send and a receive that match. -/
  matched : ∀ x, endpointsOf program x ≠ [] → checkEndpoints (endpointsOf program x) = .ok ()
  /-- The operations have a topological order. -/
  topological : ∃ order : List String, order.Nodup ∧ (∀ x, x ∈ order ↔ x ∈ result.byOp.keys) ∧
    ∀ p x, x ∈ result.byOp.keys → result.Edge p x →
      ∃ l r, order = l ++ x :: r ∧ p ∈ l

theorem zipIdx_split {α : Type} {l : List α} {i : ℕ} {a : α} (h : l[i]? = some a) :
    l.zipIdx = l.zipIdx.take i ++ (a, i) :: l.zipIdx.drop (i + 1) := by
  obtain ⟨hi, rfl⟩ := List.getElem?_eq_some_iff.mp h
  have hi' : i < l.zipIdx.length := by simpa using hi
  conv_lhs => rw [← List.take_append_drop i l.zipIdx, List.drop_eq_getElem_cons hi']
  simp

theorem workAt_eq {steps : List NativeStep} {i : ℕ} :
    workAt steps i = firstWork (steps.zipIdx.drop i) := by
  have hmap : (steps.zipIdx.drop i).map (·.1) = steps.drop i := by
    rw [List.map_drop, List.zipIdx_map_fst]
  unfold workAt firstWork
  rw [← hmap, List.find?_map]
  simp [Function.comp_def, Option.map_map]

/-- The value at a key of a dictionary that tabulates a function. -/
theorem get?_tabulate {ν : Type} (l : List String) (f : String → ν) (k : String) :
    Dict.get? (l.map fun x => (x, f x)) k = if k ∈ l then some (f k) else none := by
  induction l with
  | nil => simp
  | cons x l ih =>
    rw [List.map_cons, Dict.get?_cons, ih]
    by_cases hx : x = k
    · simp [hx]
    · simp [hx, Ne.symm hx]

/-- **`execution_dependencies` accepts only programs that satisfy `Accepted`.** -/
theorem executionDependencies_accepted {program : NativeProgram} {result : ExecutionDependencies}
    (h : executionDependencies program = .ok result) : Accepted program result := by
  unfold executionDependencies at h
  simp only [Checked.bind_ok, Checked.pure_ok] at h
  obtain ⟨s, hs, _, hmembers, order, horder, rfl⟩ := h
  rw [Checked.forM_ok] at hmembers
  have hgroup : Grouped s.byOp (workSteps program) := by
    have := Grouped.scanBlocks grouped_nil hs
    simpa [workSteps] using this
  have hget : ∀ x, s.byOp.get? x =
      if endpointsOf program x = [] then none else some (endpointsOf program x) := hgroup.get
  have hkey : ∀ x, x ∈ s.byOp.keys ↔ endpointsOf program x ≠ [] := by
    intro x
    rw [← Dict.get?_isSome, hget x]
    by_cases hnil : endpointsOf program x = []
    · rw [if_pos hnil]
      simp [hnil]
    · rw [if_neg hnil]
      simp [hnil]
  have hkeys : Dict.keys (s.byOp.keys.map fun k => (k, s.dependencies k)) = s.byOp.keys := by
    simp [Dict.keys, Function.comp_def]
  have hlisted : s.Listed := Checked.foldlM_invariant DependencyScan.Listed
    (fun _ _ _ _ hu hv => scanBlock_listed hu hv) (fun x hx => by simp [DependencyScan.start] at hx) hs
  have hedge : ∀ x, x ∈ s.byOp.keys → ∀ p, p ∈ s.dependencies x →
      ExecutionDependencies.Edge ⟨s.byOp.keys.map fun k => (k, s.dependencies k), s.byOp⟩ p x := by
    intro x hx p hp
    simp only [ExecutionDependencies.Edge]
    rw [get?_tabulate, if_pos hx]
    exact hp
  -- a step of a block, with the states of the scan around it
  have hturn : ∀ block ∈ program.blocks, ∀ (i : ℕ) (step : NativeStep),
      block.steps[i]? = some step → ∃ u v t, scanStep (stepTable program) block u (step, i) = .ok v ∧
        (block.steps.zipIdx.drop (i + 1)).foldlM (scanStep (stepTable program) block) v = .ok t ∧
        t.waiting = ∅ ∧ ∀ x, t.dependencies x ⊆ s.dependencies x := by
    intro block hblock i step hi
    obtain ⟨l, r, hl⟩ := List.append_of_mem hblock
    rw [hl] at hs
    obtain ⟨a, b, -, hab, hb⟩ := Checked.foldlM_turn hs
    obtain ⟨hw, u, v, huv, hv⟩ := scanBlock_turn hab (zipIdx_split hi)
    exact ⟨u, v, b, huv, hv, hw, fun x => scanBlocks_mono hb x⟩
  have hwork : ∀ block ∈ program.blocks, ∀ step ∈ block.steps, step.kind ≠ .nop →
      step.operationId ∈ s.byOp.keys := by
    intro block hblock step hstep hk
    rw [hkey]
    exact List.ne_nil_of_mem (mem_endpointsOf.mpr ⟨hblock, hstep, hk, rfl⟩)
  refine ⟨?_, ?_, ?_, ?_, hget, hgroup.distinct, ?_, ?_, ?_⟩
  · intro block hblock step hstep
    obtain ⟨i, hi⟩ := List.mem_iff_getElem?.mp hstep
    obtain ⟨u, v, t, huv, -⟩ := hturn block hblock i step hi
    exact (scanStep_cases huv).1
  · intro block hblock i step hi htb
    obtain ⟨u, v, t, huv, hv, hw, hsub⟩ := hturn block hblock i step hi
    obtain ⟨-, waiting, hwait, hcase⟩ := scanStep_cases huv
    have hdrop : block.steps.zipIdx.drop i = (step, i) :: block.steps.zipIdx.drop (i + 1) := by
      obtain ⟨hlt, rfl⟩ := List.getElem?_eq_some_iff.mp hi
      rw [List.drop_eq_getElem_cons (by simpa using hlt)]
      simp
    obtain ⟨hneg, -⟩ | ⟨target, htarget, hkind, hdep, hlater, rfl⟩ := readWait_cases hwait
    · omega
    · rcases hcase with ⟨hk, -, rfl⟩ | ⟨hk, -, hself, rfl⟩
      · obtain ⟨x, hx, hox, hne⟩ := waiting_resolved hv hw target.operationId
          (Finset.mem_insert_self _ _)
        have hat : workAt block.steps i = some x := by
          rw [workAt_eq, hdrop, ← hx]
          simp [firstWork, hk]
        refine ⟨target, x, htarget, hkind, hdep, hlater, hat, hedge x ?_ _ (hsub x hox), hne⟩
        unfold workAt at hat
        obtain ⟨st, hst, rfl⟩ := Option.map_eq_some_iff.mp hat
        exact hwork block hblock st (List.mem_of_mem_drop (List.mem_of_find?_eq_some hst))
          (by simpa using List.find?_some hst)
      · refine ⟨target, step.operationId, htarget, hkind, hdep, hlater, ?_, ?_, ?_⟩
        · rw [workAt_eq, hdrop]
          simp [firstWork, hk]
        · refine hedge _ (hwork block hblock step (List.mem_of_getElem? hi) hk) _ ?_
          refine hsub _ (scanSteps_mono hv _ ?_)
          simp
        · rintro heq
          exact hself (Finset.mem_union_right _ (heq ▸ Finset.mem_insert_self _ _))
  · intro block hblock step hstep hk
    obtain ⟨i, hi⟩ := List.mem_iff_getElem?.mp hstep
    obtain ⟨u, v, t, huv, -⟩ := hturn block hblock i step hi
    obtain ⟨-, waiting, -, ⟨-, htb, -⟩ | ⟨hk', -⟩⟩ := scanStep_cases huv
    · exact htb
    · exact absurd hk hk'
  · intro block hblock i j a b hij ha hb hka hkb
    obtain ⟨u, v, t, huv, hv, -, hsub⟩ := hturn block hblock i a ha
    obtain ⟨-, waiting, -, ⟨hk, -⟩ | ⟨-, -, -, rfl⟩⟩ := scanStep_cases huv
    · exact absurd hk hka
    · have hmem : (b, j) ∈ block.steps.zipIdx.drop (i + 1) := by
        rw [List.mem_iff_getElem?]
        refine ⟨j - (i + 1), ?_⟩
        rw [List.getElem?_drop, show i + 1 + (j - (i + 1)) = j by omega]
        simp [hb]
      refine (previous_leads hv rfl _ hmem hkb).lift id ?_
      intro p x hp
      exact hedge x (hlisted x ⟨p, hsub x hp⟩) p (hsub x hp)
  · exact hkeys
  · intro x hx
    refine hmembers _ ?_
    have hsome : s.byOp.get? x = some (endpointsOf program x) := by rw [hget x, if_neg hx]
    exact List.mem_map.mpr ⟨_, Dict.mem_of_get? hsome, rfl⟩
  · have hdistinct : Dict.Distinct (s.byOp.keys.map fun k => (k, s.dependencies k)) := by
      unfold Dict.Distinct
      rw [hkeys]
      exact hgroup.distinct
    obtain ⟨hperm, htop⟩ := dependencyOrder_ok hdistinct horder
    rw [hkeys] at hperm
    refine ⟨order, hperm.nodup_iff.mpr hgroup.distinct, fun x => hperm.mem_iff, ?_⟩
    intro p x hx hp
    obtain ⟨l, r, hl⟩ := List.append_of_mem (hperm.mem_iff.mpr hx)
    exact ⟨l, r, hl, htop l x r hl p hp⟩

end VeriCCL
