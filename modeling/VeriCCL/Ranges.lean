import VeriCCL.Request

/-! # Source byte ranges and the constraints on them

`semantics/ranges.py`.  A constraint forbids a range of a rank's original input on one
directed link in one stage; it is bound to bytes, so it does not depend on the slice size
that was chosen. -/
namespace VeriCCL

/-- `DataRange`: bytes of the original input of a rank. -/
structure DataRange where
  sourceRank : ℕ
  start : ℕ
  stop : ℕ
  nonempty : start < stop
  deriving DecidableEq

/-- `DataRange.intersects`. -/
def DataRange.intersects (a b : DataRange) : Prop :=
  a.sourceRank = b.sourceRank ∧ max a.start b.start < min a.stop b.stop

instance (a b : DataRange) : Decidable (a.intersects b) :=
  inferInstanceAs (Decidable (_ ∧ _))

/-- `EdgeBan`. -/
structure EdgeBan where
  data : DataRange
  srcRank : ℕ
  dstRank : ℕ
  stageId : ℕ
  deriving DecidableEq

/-- `ConstraintSet`. -/
structure ConstraintSet where
  bans : List EdgeBan
  rankCount : ℕ
  fixedStageCount : Option ℕ := none
  deriving DecidableEq

/-- `ConstraintSet.allows`. -/
def ConstraintSet.allows (set : ConstraintSet) (contributors : List DataRange)
    (srcRank dstRank stageId : ℕ) : Except Fault Bool :=
  if set.rankCount ≤ srcRank ∨ set.rankCount ≤ dstRank ∨ srcRank = dstRank then .ok false
  else if ∃ count ∈ set.fixedStageCount, count ≤ stageId then .ok false
  else if contributors = [] then
    .error (.semantic "constraint check needs nonempty source ranges")
  else .ok (decide (¬ ∃ ban ∈ set.bans,
    (ban.srcRank = srcRank ∧ ban.dstRank = dstRank ∧ ban.stageId = stageId) ∧
      ∃ piece ∈ contributors, ban.data.intersects piece))

theorem allows_ok {set : ConstraintSet} {contributors : List DataRange}
    {srcRank dstRank stageId : ℕ} :
    set.allows contributors srcRank dstRank stageId = .ok true ↔
      srcRank < set.rankCount ∧ dstRank < set.rankCount ∧ srcRank ≠ dstRank ∧
      (∀ count ∈ set.fixedStageCount, stageId < count) ∧ contributors ≠ [] ∧
      ¬ ∃ ban ∈ set.bans, (ban.srcRank = srcRank ∧ ban.dstRank = dstRank ∧
        ban.stageId = stageId) ∧ ∃ piece ∈ contributors, ban.data.intersects piece := by
  unfold ConstraintSet.allows
  by_cases hranks : set.rankCount ≤ srcRank ∨ set.rankCount ≤ dstRank ∨ srcRank = dstRank
  · rw [if_pos hranks]
    constructor
    · intro h
      cases h
    · rintro ⟨hsrc, hdst, hne, _⟩
      omega
  · by_cases hstage : ∃ count ∈ set.fixedStageCount, count ≤ stageId
    · rw [if_neg hranks, if_pos hstage]
      constructor
      · intro h
        cases h
      · rintro ⟨_, _, _, hbelow, _⟩
        obtain ⟨count, hcount, hle⟩ := hstage
        have := hbelow count hcount
        omega
    · have hbelow : ∀ count ∈ set.fixedStageCount, stageId < count := by
        intro count hcount
        by_contra hle
        exact hstage ⟨count, hcount, by omega⟩
      rw [if_neg hranks, if_neg hstage]
      by_cases hnil : contributors = []
      · simp [hnil]
      · rw [if_neg hnil, Except.ok.injEq, decide_eq_true_iff]
        constructor
        · exact fun h => ⟨by omega, by omega, by omega, hbelow, hnil, h⟩
        · exact fun h => h.2.2.2.2.2

/-- The reference slice size that slice numbers of constraints refer to. -/
def ResolvedInput.reference (inputs : ResolvedInput) : ℕ :=
  inputs.referenceSliceSizeBytes.getD inputs.sliceSizeBytes

theorem ResolvedInput.reference_pos (inputs : ResolvedInput) : 0 < inputs.reference := by
  unfold ResolvedInput.reference
  cases h : inputs.referenceSliceSizeBytes with
  | none => exact inputs.slice_pos
  | some size => exact (inputs.reference_ok size h).1

/-- The bytes of a slice of the reference partition. -/
def bindTransfer (inputs : ResolvedInput) (item : ForbiddenTransfer) : Except Fault EdgeBan := do
  let count := inputs.totalSizeBytes / inputs.reference
  let rank := item.sliceId / count
  let index := item.sliceId % count
  Checked.ensure (rank < inputs.rankCount)
    (.semantic "constraint source slice is outside the reference partition")
  return {
    data := {
      sourceRank := rank
      start := index * inputs.reference
      stop := (index + 1) * inputs.reference
      nonempty := by
        have := inputs.reference_pos
        nlinarith }
    srcRank := item.srcRank
    dstRank := item.dstRank
    stageId := item.stageId }

/-- `bind_constraints`. -/
def bindConstraints (inputs : ResolvedInput) : Except Fault ConstraintSet := do
  let bans ← inputs.forbiddenTransfers.mapM (bindTransfer inputs)
  return ⟨bans, inputs.rankCount, inputs.stageNum⟩

end VeriCCL
