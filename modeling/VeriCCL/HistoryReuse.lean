import VeriCCL.LocalOrder
import VeriCCL.StoredNetwork

/-! # Schedules from the history run

A stored schedule is what was read back from a plan.  Adapted to another number of slices and
to other ranks it runs, in every order that respects its dependencies, and leaves the outputs of
the collective (`adapted_schedule_runs`). -/
namespace VeriCCL

/-! ## Dependencies -/

/-- A transfer waits for another. -/
def TransferWaits (operations : List NetworkOperation) (key other : String) : Prop :=
  ∃ op ∈ operations, op.operationId = key ∧ other ∈ op.dependencies

/-- **No transfer of a sound network waits for itself.** -/
theorem NetworkSound.acyclic {spec : CollectiveSpec} {ranks n : ℕ} {operations : List NetworkOperation}
    (h : NetworkSound spec ranks n operations) (key : String) :
    ¬ Relation.TransGen (TransferWaits operations) key key := by
  obtain ⟨level, hlevel⟩ := h.ordered
  have hstep : ∀ a b, TransferWaits operations a b → level b < level a := by
    rintro _ b ⟨op, hop, rfl, hkey⟩
    exact hlevel op hop b hkey
  have hdown : ∀ a b, Relation.TransGen (TransferWaits operations) a b → level b < level a := by
    intro a b hpath
    induction hpath with
    | single hab => exact hstep _ _ hab
    | tail _ hbc ih => exact (hstep _ _ hbc).trans ih
  exact fun hcycle => lt_irrefl _ (hdown key key hcycle)

/-! ## Slices -/

namespace ScheduleHit
variable {hit : ScheduleHit} {inputs : ResolvedInput} {old : CollectiveSpec} {pos : ℕ → ℕ} {position : ℕ}

/-- A new slice is carried from one old slice. -/
theorem newPositions_filter (q : ℕ) (hposition : position < inputs.sliceCount) :
    (newPositions inputs pos q).filter (fun p => p = position) = if pos position = q then [position] else [] := by
  rw [newPositions, List.filter_filter]
  have hswap : (List.range inputs.sliceCount).filter (fun p => decide (p = position) && decide (pos p = q)) =
      ((List.range inputs.sliceCount).filter (fun p => p = position)).filter fun p => pos p = q := by
    rw [List.filter_filter]
    exact List.filter_congr fun p _ => Bool.and_comm _ _
  rw [hswap, List.filter_eq, List.count_eq_one_of_mem List.nodup_range (List.mem_range.mpr hposition)]
  by_cases hq : pos position = q <;> simp [hq]

/-- **The transfers of a new slice are the copies of those of one old slice.** -/
theorem carriedAll_slice (hsound : NetworkSound old inputs.rankCount hit.sliceCount hit.operations)
    (h : Admissible hit old inputs) (hposition : position < inputs.sliceCount) :
    (carriedAll hit inputs pos).filter (fun x => logicalPosition x.contributors inputs.sliceCount = position) =
      (hit.operations.filter fun op => hit.sliceAt op = pos position).map (hit.carried inputs · position) := by
  have hone : ∀ op ∈ hit.operations, ((newPositions inputs pos (hit.sliceAt op)).map (hit.carried inputs op)).filter
      (fun x => logicalPosition x.contributors inputs.sliceCount = position) =
        if hit.sliceAt op = pos position then [hit.carried inputs op position] else [] := by
    intro op hop
    obtain ⟨q, -, hsource, -⟩ := hsound.sameSlice op hop
    rw [List.filter_map, List.filter_congr (q := fun p => decide (p = position)), newPositions_filter _ hposition]
    · by_cases hq : pos position = hit.sliceAt op
      · rw [if_pos hq, if_pos hq.symm, List.map_singleton]
      · rw [if_neg hq, if_neg (Ne.symm hq), List.map_nil]
    · intro p hp
      have hat := logicalPosition_eq (atSlice_carried h hsource (mem_newPositions.mp hp).1)
      exact decide_eq_decide.mpr (Iff.of_eq (congrArg (· = position) hat))
  rw [carriedAll, List.filter_flatMap, List.flatMap_congr hone]
  induction hit.operations with
  | nil => rfl
  | cons op rest ih =>
    rw [List.flatMap_cons, ih, List.filter_cons]
    by_cases hq : hit.sliceAt op = pos position <;> simp [hq]

end ScheduleHit

/-! ## The history -/

/-- **An adapted schedule runs.**  The transfers read back from a plan, however rearranged, are
adapted to every admissible number of slices and every mapping of the ranks: copies have
different names and do not wait for each other in a cycle, each new slice has exactly the copies
of the transfers of one old slice, and every order that respects the dependencies executes and
leaves the required outputs.  No request asks for a scatter. -/
theorem adapted_schedule_runs {context : LoweringContext} {candidate : List NetworkOperation}
    {plan stored : StoragePlan} (hplan : buildStoragePlan context candidate = .ok plan)
    (hemitted : Emitted context.inputs.rankCount candidate) (hstored : Rearranged plan stored)
    (startTimes : String → Option ℚ) {inputs : ResolvedInput} {mapping : Dict ℕ ℕ}
    (hranks : inputs.rankCount = context.inputs.rankCount) (hkind : inputs.collective.kind ≠ .scatter)
    (hmapped : RanksMapped mapping inputs.rankCount context.inputs.collective inputs.collective)
    {required : Dict OutputSlot (Finset ℕ)}
    (hrequired : requiredOutputs inputs.collective inputs.rankCount inputs.sliceCount = .ok required) :
    ∃ network adapted, stored.network startTimes = .ok network ∧
      let hit : ScheduleHit := ⟨context.inputs.sliceCount, network, mapping⟩
      hit.adapt inputs = .ok adapted ∧
      (adapted.operations.map (·.operationId)).Nodup ∧
      (∀ key, ¬ Relation.TransGen (TransferWaits adapted.operations) key key) ∧
      (∀ position < inputs.sliceCount, ∃! q, hit.oldPosition inputs position = .ok q ∧
        q < context.inputs.sliceCount ∧
        (adapted.operations.filter fun x => logicalPosition x.contributors inputs.sliceCount = position) =
          (network.filter fun op => hit.sliceAt op = q).map (hit.carried inputs · position)) ∧
      ∀ order, LinearOrderOf (·.operationId) (·.dependencies) adapted.operations order →
        ∃ final, order.foldlM NetworkOperation.execute
            (startHoldings inputs.collective inputs.rankCount inputs.sliceCount) = some final ∧
          ∀ slot contributors, required.get? slot = some contributors → contributors ∈ final slot.rank := by
  obtain ⟨network, hnetwork, hsound⟩ := network_sound hplan hemitted hstored startTimes
  rw [← hranks] at hsound
  set hit : ScheduleHit := ⟨context.inputs.sliceCount, network, mapping⟩
  have hold : ∃ required, requiredOutputs context.inputs.collective inputs.rankCount
      context.inputs.sliceCount = .ok required := by
    simp only [buildStoragePlan, Checked.bind_ok] at hplan
    obtain ⟨-, -, expected, hexpected, -⟩ := hplan
    exact ⟨expected, hranks ▸ hexpected⟩
  have h : hit.Admissible context.inputs.collective inputs := ⟨hold, ⟨required, hrequired⟩, hmapped⟩
  obtain ⟨pos, hpos⟩ := h.positions
  have hadapted := ScheduleHit.adapt_sound hsound h hkind hpos
  refine ⟨network, _, hnetwork, ScheduleHit.adapt_ok hsound h hpos.found, hadapted.distinct, hadapted.acyclic,
    fun position hposition => ?_, fun order horder => ?_⟩
  · refine ⟨pos position, ⟨hpos.found position hposition, hpos.lt position hposition,
      ScheduleHit.carriedAll_slice hsound h hposition⟩, ?_⟩
    rintro q ⟨hq, -⟩
    exact Except.ok.inj (hq.symm.trans (hpos.found position hposition))
  · obtain ⟨final, hfinal, hafter⟩ := hadapted.run horder
    refine ⟨final, hfinal, fun slot contributors hslot => ?_⟩
    have hentry : (slot, contributors) ∈ requiredEntries inputs.collective inputs.rankCount inputs.sliceCount :=
      (requiredOutputs_get? hrequired).mp hslot
    exact hadapted.outputs_held horder.1 hafter hentry

/-! ## Two ranks that reduce and scatter -/

/-- Two ranks reduce and scatter eight bytes, in slices of a given size. -/
def halvesInputs (size : ℕ) (hpos : 0 < size) (hdvd : size ∣ 8) : ResolvedInput := { pairInputs with
  collective := ⟨.reduceScatter, "float32", some "sum", none, false⟩
  totalSizeBytes := 8
  sliceSizeBytes := size
  slice_pos := hpos
  slice_dvd := hdvd
  total_pos := by decide
  root_ok := by simp [CollectiveKind.rooted]
  reference_ok := by simp [pairInputs] }

/-- In two slices. -/
def halvesContext : LoweringContext :=
  { pairContext with inputs := halvesInputs 4 (Nat.succ_pos _) (by decide) }

/-- A rank sends one slice to the other, which adds it to its own. -/
def halvesTransfer (id : String) (src dst value own : ℕ) : NetworkOperation where
  operationId := id
  kind := .rrc
  srcRank := src
  dstRank := dst
  channel := 0
  stageId := 0
  contributors := {value}
  targetContributors := {value, own}
  participants := [0, 1]
  dependencies := ∅
  referenceDependencies := ∅
  priorityTime := 0

/-- Each rank sends the other its slice. -/
def halvesCandidate : List NetworkOperation := [halvesTransfer "a" 0 1 1 3, halvesTransfer "b" 1 0 2 0]

/-- The reduction in two slices, adapted to eight slices and to exchanged ranks. -/
theorem adapted_schedule_runs_halves :
    let inputs := halvesInputs 1 (by decide) (by decide)
    ∃ plan network adapted, buildStoragePlan halvesContext halvesCandidate = .ok plan ∧
      plan.network (fun _ => none) = .ok network ∧
      ScheduleHit.adapt ⟨2, network, [(0, 1), (1, 0)]⟩ inputs = .ok adapted ∧
      (adapted.operations.map (·.operationId)).Nodup ∧
      ∀ order, LinearOrderOf (·.operationId) (·.dependencies) adapted.operations order →
        ∃ final, order.foldlM NetworkOperation.execute
          (startHoldings inputs.collective inputs.rankCount inputs.sliceCount) = some final := by
  intro inputs
  have hok : ∀ {α : Type} (x : Except Fault α), x.toOption.isSome = true → ∃ a, x = .ok a := by
    intro α x hx
    cases x with
    | ok a => exact ⟨a, rfl⟩
    | error fault => cases hx
  obtain ⟨plan, hplan⟩ := hok (buildStoragePlan halvesContext halvesCandidate) (by decide +kernel)
  obtain ⟨required, hrequired⟩ := hok (requiredOutputs inputs.collective inputs.rankCount inputs.sliceCount)
    (by decide +kernel)
  have hemitted : Emitted halvesContext.inputs.rankCount halvesCandidate := by
    refine ⟨by decide, fun op hop slot hname => ?_⟩
    have hfirst : (outputCopyId slot).toList.head? = some 'o' := by
      have hmark : ("output-copy-r" : String).toList = 'o' :: "utput-copy-r".toList := by decide
      simp only [outputCopyId, String.toList_append, hmark, List.cons_append, List.head?_cons]
    rw [← hname] at hfirst
    have hothers : ∀ op ∈ halvesCandidate, op.operationId.toList.head? ≠ some 'o' := by decide
    exact hothers op hop hfirst
  have hmapped : RanksMapped [(0, 1), (1, 0)] inputs.rankCount halvesContext.inputs.collective
      inputs.collective :=
    ⟨by decide, by decide, rfl, by simp [halvesContext, halvesInputs]⟩
  obtain ⟨network, adapted, hnetwork, hadapted, hdistinct, -, -, hruns⟩ :=
    adapted_schedule_runs hplan hemitted ⟨rfl, List.Perm.refl _⟩ (fun _ => none)
      (rfl : inputs.rankCount = halvesContext.inputs.rankCount) (by decide) hmapped hrequired
  refine ⟨plan, network, adapted, hplan, hnetwork, hadapted, hdistinct, fun order horder => ?_⟩
  obtain ⟨final, hfinal, -⟩ := hruns order horder
  exact ⟨final, hfinal⟩

end VeriCCL
