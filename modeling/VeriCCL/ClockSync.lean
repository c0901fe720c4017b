import VeriCCL.TraceCodec

/-! # Clocks of several devices

`verification/online/clock_sync.py`, over exact rationals: a device's timer counts
nanoseconds from an unknown offset, and samples of the host bracket that offset.  What all
samples of a rank allow is an interval (`alignRank`); a time is known up to half its width,
and two times are ordered only when they are further apart than their uncertainties
together. -/
namespace VeriCCL

/-! ## Minima -/

/-- `min(values)`, with a value for the empty list. -/
def minDefault {α : Type} [LinearOrder α] (a : α) (l : List α) : α :=
  OrderDual.ofDual (maxDefault (OrderDual.toDual a) (l.map OrderDual.toDual))

theorem minDefault_le {α : Type} [LinearOrder α] {a b : α} {l : List α} (h : b ∈ l) :
    minDefault a l ≤ b :=
  OrderDual.toDual_le_toDual.mp (le_maxDefault (List.mem_map_of_mem h))

theorem minDefault_mem {α : Type} [LinearOrder α] {a : α} {l : List α} (h : l ≠ []) :
    minDefault a l ∈ l := by
  have hne : l.map OrderDual.toDual ≠ [] := by simpa using h
  have hmem : maxDefault (OrderDual.toDual a) (l.map OrderDual.toDual) ∈ l.map OrderDual.toDual :=
    maxDefault_mem hne
  obtain ⟨b, hb, heq⟩ := List.mem_map.mp hmem
  rw [minDefault, ← heq]
  exact hb

/-! ## Samples, timestamps and transforms -/

/-- `ClockSyncSample`. -/
structure ClockSyncSample where
  rank : ℕ
  gpuTicks : ℕ
  hostBeforeUs : ℚ
  hostAfterUs : ℚ
  referenceOffsetUs : ℚ
  referenceUncertaintyUs : ℚ
  ordered : hostBeforeUs ≤ hostAfterUs
  uncertain : 0 ≤ referenceUncertaintyUs

/-- `AlignedTimestamp`. -/
structure AlignedTimestamp where
  valueUs : ℚ
  uncertaintyUs : ℚ
  uncertain : 0 ≤ uncertaintyUs

/-- `ClockOrdering`. -/
inductive ClockOrdering where
  | before
  | after
  | unordered
  deriving DecidableEq

/-- `ClockTransform`. -/
structure ClockTransform where
  rank : ℕ
  slopeUsPerTick : ℚ
  interceptUs : ℚ
  uncertaintyUs : ℚ
  sampleCount : ℕ
  originTicks : ℕ := 0
  originTimeUs : Option ℚ := none
  rising : 0 < slopeUsPerTick
  uncertain : 0 ≤ uncertaintyUs
  sampled : 2 ≤ sampleCount

/-- `ClockTransform(rank, slope, intercept, uncertainty, sample_count)`. -/
def clockTransform (rank : ℕ) (slope intercept uncertainty : ℚ) (sampleCount : ℕ) :
    Except Fault ClockTransform :=
  if hslope : 0 < slope then
    if huncertainty : 0 ≤ uncertainty then
      if hcount : 2 ≤ sampleCount then
        .ok {
          rank := rank
          slopeUsPerTick := slope
          interceptUs := intercept
          uncertaintyUs := uncertainty
          sampleCount := sampleCount
          rising := hslope
          uncertain := huncertainty
          sampled := hcount }
      else .error (.semantic "clock transform needs at least two samples")
    else .error (.semantic "clock transform uncertainty must be non-negative")
  else .error (.semantic "clock transform slope must be positive")

/-- `ClockTransform.timestamp`. -/
def ClockTransform.timestamp (transform : ClockTransform) (gpuTicks : ℕ) : AlignedTimestamp where
  valueUs := transform.slopeUsPerTick * ((gpuTicks : ℚ) - transform.originTicks) +
    transform.originTimeUs.getD transform.interceptUs
  uncertaintyUs := transform.uncertaintyUs
  uncertain := transform.uncertain

/-- `ClockAlignment`: the transforms of ranks. -/
structure ClockAlignment where
  transforms : Dict ℕ ClockTransform
  nonempty : transforms ≠ []
  ranked : ∀ entry ∈ transforms, entry.2.rank = entry.1

/-- `ClockAlignment(transforms)`. -/
def clockAlignment (transforms : Dict ℕ ClockTransform) : Except Fault ClockAlignment :=
  if hnonempty : transforms ≠ [] then
    if hranked : ∀ entry ∈ transforms, entry.2.rank = entry.1 then .ok ⟨transforms, hnonempty, hranked⟩
    else .error (.semantic "clock transform rank is inconsistent")
  else .error (.semantic "clock alignment must contain transforms")

/-- `ClockAlignment.timestamp`. -/
def ClockAlignment.timestamp (alignment : ClockAlignment) (rank gpuTicks : ℕ) :
    Except Fault AlignedTimestamp :=
  (fun transform => transform.timestamp gpuTicks) <$>
    Checked.required (alignment.transforms.get? rank) (.semantic "clock transform is missing for rank")

/-- `ClockAlignment.compare_timestamps`. -/
def compareTimestamps (left right : AlignedTimestamp) : ClockOrdering :=
  let uncertainty := left.uncertaintyUs + right.uncertaintyUs
  let difference := right.valueUs - left.valueUs
  if difference > uncertainty then .before
  else if difference < -uncertainty then .after
  else .unordered

/-- `ClockAlignment.compare`. -/
def ClockAlignment.compare (alignment : ClockAlignment) (leftRank leftTicks rightRank rightTicks : ℕ) :
    Except Fault ClockOrdering := do
  let left ← alignment.timestamp leftRank leftTicks
  let right ← alignment.timestamp rightRank rightTicks
  return compareTimestamps left right

/-! ## `align_bracketed_globaltimers` -/

/-- The least offset that a sample allows. -/
def ClockSyncSample.lowerOffset (sample : ClockSyncSample) : ℚ :=
  sample.hostBeforeUs + sample.referenceOffsetUs - sample.referenceUncertaintyUs -
    (sample.gpuTicks : ℚ) / 1000

/-- The greatest offset that a sample allows. -/
def ClockSyncSample.upperOffset (sample : ClockSyncSample) : ℚ :=
  sample.hostAfterUs + sample.referenceOffsetUs + sample.referenceUncertaintyUs -
    (sample.gpuTicks : ℚ) / 1000

/-- An entry of `issues`. -/
structure ClockIssue where
  rank : ℕ
  reason : String
  deriving DecidableEq

/-- `transforms, issues`. -/
structure ClockState where
  transforms : Dict ℕ ClockTransform := []
  issues : List ClockIssue := []

/-- `issues.append`. -/
def ClockState.report (s : ClockState) (issue : ClockIssue) : ClockState where
  transforms := s.transforms
  issues := s.issues ++ [issue]

/-- `transforms[rank] = ...`. -/
def ClockState.place (s : ClockState) (rank : ℕ) (transform : ClockTransform) : ClockState where
  transforms := s.transforms.set rank transform
  issues := s.issues

/-- The samples enclose the records. -/
def Encloses (own : List ClockSyncSample) (records : List StepTraceRecord) : Prop :=
  2 ≤ own.length ∧
    minDefault 0 (own.map (·.gpuTicks)) ≤ minDefault 0 (records.map (·.raw.tbReach)) ∧
      maxDefault 0 (records.map (·.raw.transferEnd)) ≤ maxDefault 0 (own.map (·.gpuTicks))

instance (own : List ClockSyncSample) (records : List StepTraceRecord) :
    Decidable (Encloses own records) := inferInstanceAs (Decidable (_ ∧ _))

/-- One turn of the loop over ranks. -/
def alignRank (samples : List ClockSyncSample) (s : ClockState) (entry : ℕ × List StepTraceRecord) :
    Except Fault ClockState :=
  if entry.2 = [] then .ok s
  else
    let own := samples.filter (·.rank = entry.1)
    if Encloses own entry.2 then
      let lower := maxDefault 0 (own.map (·.lowerOffset))
      let upper := minDefault 0 (own.map (·.upperOffset))
      if lower > upper then .ok (s.report ⟨entry.1, "clock_reference_intervals_inconsistent"⟩)
      else s.place entry.1 <$>
        clockTransform entry.1 (1 / 1000) ((lower + upper) / 2) ((upper - lower) / 2) own.length
    else .ok (s.report ⟨entry.1, "clock_references_do_not_enclose_target"⟩)

/-- `align_bracketed_globaltimers`. -/
def alignBracketedGlobaltimers (recordsByRank : Dict ℕ (List StepTraceRecord))
    (samples : List ClockSyncSample) : Except Fault (Option ClockAlignment × List ClockIssue) := do
  let s ← recordsByRank.foldlM (alignRank samples) {}
  if s.transforms = [] then return (none, s.issues)
  else return (some (← clockAlignment s.transforms), s.issues)

/-! ## What is known of a time -/

/-- The true time of a tick, when the timer of every rank has a constant offset. -/
def trueTime (offset : ℕ → ℚ) (rank ticks : ℕ) : ℚ := (ticks : ℚ) / 1000 + offset rank

/-- A sample is right about a time. -/
def ClockSyncSample.Brackets (sample : ClockSyncSample) (time : ℚ) : Prop :=
  sample.hostBeforeUs + sample.referenceOffsetUs - sample.referenceUncertaintyUs ≤ time ∧
    time ≤ sample.hostAfterUs + sample.referenceOffsetUs + sample.referenceUncertaintyUs

/-- A time is known up to the uncertainty of a timestamp. -/
def AlignedTimestamp.Knows (stamp : AlignedTimestamp) (time : ℚ) : Prop :=
  stamp.valueUs - stamp.uncertaintyUs ≤ time ∧ time ≤ stamp.valueUs + stamp.uncertaintyUs

/-- Every aligned tick is known. -/
def ClockAlignment.Knows (alignment : ClockAlignment) (offset : ℕ → ℚ) : Prop :=
  ∀ rank ticks stamp, alignment.timestamp rank ticks = .ok stamp → stamp.Knows (trueTime offset rank ticks)

/-- A tick of a rank. -/
structure ClockEvent where
  rank : ℕ
  ticks : ℕ

/-- A comparison, either way round, puts an event before another. -/
def ClockAlignment.Orders (alignment : ClockAlignment) (left right : ClockEvent) : Prop :=
  alignment.compare left.rank left.ticks right.rank right.ticks = .ok .before ∨
    alignment.compare right.rank right.ticks left.rank left.ticks = .ok .after

section Compare
variable {left middle right : AlignedTimestamp} {t u : ℚ}

theorem compare_before : compareTimestamps left right = .before ↔
    left.uncertaintyUs + right.uncertaintyUs < right.valueUs - left.valueUs := by
  unfold compareTimestamps
  dsimp only
  split_ifs with h1 h2
  · exact iff_of_true rfl h1
  · exact iff_of_false (by simp) h1
  · exact iff_of_false (by simp) h1

theorem compare_after : compareTimestamps left right = .after ↔
    right.valueUs - left.valueUs < -(left.uncertaintyUs + right.uncertaintyUs) := by
  have hleft := left.uncertain
  have hright := right.uncertain
  unfold compareTimestamps
  dsimp only
  split_ifs with h1 h2
  · exact iff_of_false (by simp) (by linarith)
  · exact iff_of_true rfl h2
  · exact iff_of_false (by simp) h2

/-- Before and after are each other's converse. -/
theorem compare_swap : compareTimestamps left right = .before ↔ compareTimestamps right left = .after := by
  rw [compare_before, compare_after]
  constructor <;> intro h <;> linarith

/-- **What is known to come before comes before.** -/
theorem compare_sound (hleft : left.Knows t) (hright : right.Knows u)
    (h : compareTimestamps left right = .before) : t < u := by
  rw [compare_before] at h
  have := hleft.2
  have := hright.1
  linarith

/-- **Before is transitive.** -/
theorem compare_trans (h : compareTimestamps left middle = .before)
    (h' : compareTimestamps middle right = .before) : compareTimestamps left right = .before := by
  rw [compare_before] at h h' ⊢
  have := middle.uncertain
  linarith

theorem compare_irrefl : compareTimestamps left left ≠ .before := by
  rw [Ne, compare_before]
  have := left.uncertain
  intro h
  linarith

end Compare

namespace ClockAlignment
variable {alignment : ClockAlignment} {offset : ℕ → ℚ}

theorem compare_ok {leftRank leftTicks rightRank rightTicks : ℕ} {ordering : ClockOrdering} :
    alignment.compare leftRank leftTicks rightRank rightTicks = .ok ordering ↔
      ∃ left right, alignment.timestamp leftRank leftTicks = .ok left ∧
        alignment.timestamp rightRank rightTicks = .ok right ∧ compareTimestamps left right = ordering := by
  simp only [ClockAlignment.compare, Checked.bind_ok, Checked.pure_ok]
  constructor
  · rintro ⟨left, hleft, right, hright, rfl⟩
    exact ⟨left, right, hleft, hright, rfl⟩
  · rintro ⟨left, right, hleft, hright, rfl⟩
    exact ⟨left, hleft, right, hright, rfl⟩

/-- Either way round, the left timestamp is before the right one. -/
theorem orders_iff {left right : ClockEvent} : alignment.Orders left right ↔
    alignment.compare left.rank left.ticks right.rank right.ticks = .ok .before := by
  refine ⟨fun h => h.elim id fun h => ?_, .inl⟩
  obtain ⟨a, b, ha, hb, h⟩ := compare_ok.mp h
  exact compare_ok.mpr ⟨b, a, hb, ha, compare_swap.mpr h⟩

theorem orders_trans {left middle right : ClockEvent} (h : alignment.Orders left middle)
    (h' : alignment.Orders middle right) : alignment.Orders left right := by
  rw [orders_iff, compare_ok] at h h' ⊢
  obtain ⟨a, b, ha, hb, h⟩ := h
  obtain ⟨b', c, hb', hc, h'⟩ := h'
  obtain rfl := Except.ok.inj (hb.symm.trans hb')
  exact ⟨a, c, ha, hc, compare_trans h h'⟩

/-- **A chain of comparisons is a comparison.** -/
theorem orders_of_chain {left right : ClockEvent} (h : Relation.TransGen alignment.Orders left right) :
    alignment.Orders left right := by
  induction h with
  | single h => exact h
  | tail _ h ih => exact orders_trans ih h

/-- **No two chains contradict each other.** -/
theorem chain_consistent {left right : ClockEvent}
    (h : Relation.TransGen alignment.Orders left right) :
    ¬ Relation.TransGen alignment.Orders right left := by
  intro h'
  have hself := orders_iff.mp (orders_trans (orders_of_chain h) (orders_of_chain h'))
  obtain ⟨a, b, ha, hb, h⟩ := compare_ok.mp hself
  obtain rfl := Except.ok.inj (ha.symm.trans hb)
  exact compare_irrefl h

end ClockAlignment

/-! ## Samples that are right -/

section Align
variable {samples : List ClockSyncSample} {offset : ℕ → ℚ} {s : ClockState}

/-- What holds between turns: transforms that know, and no inconsistent interval. -/
structure ClockState.Right (s : ClockState) (offset : ℕ → ℚ) : Prop where
  ranked : ∀ entry ∈ s.transforms, entry.2.rank = entry.1
  knows : ∀ entry ∈ s.transforms, ∀ ticks, (entry.2.timestamp ticks).Knows (trueTime offset entry.1 ticks)
  consistent : ∀ issue ∈ s.issues, issue.reason ≠ "clock_reference_intervals_inconsistent"

/-- **The offset lies in the interval.** -/
theorem offset_between {own : List ClockSyncSample} (hne : own ≠ []) {c : ℚ}
    (hbrackets : ∀ sample ∈ own, sample.Brackets ((sample.gpuTicks : ℚ) / 1000 + c)) :
    maxDefault 0 (own.map (·.lowerOffset)) ≤ c ∧ c ≤ minDefault 0 (own.map (·.upperOffset)) := by
  have hlower : own.map (·.lowerOffset) ≠ [] := by simpa using hne
  have hupper : own.map (·.upperOffset) ≠ [] := by simpa using hne
  obtain ⟨low, hlow, heq⟩ := List.mem_map.mp (maxDefault_mem (a := 0) hlower)
  obtain ⟨high, hhigh, heq'⟩ := List.mem_map.mp (minDefault_mem (a := 0) hupper)
  rw [← heq, ← heq', ClockSyncSample.lowerOffset, ClockSyncSample.upperOffset]
  have := (hbrackets low hlow).1
  have := (hbrackets high hhigh).2
  constructor <;> linarith

/-- The transform of an interval that has the offset knows every tick. -/
theorem clockTransform_knows {rank sampleCount : ℕ} {lower upper : ℚ} (hlow : lower ≤ offset rank)
    (hhigh : offset rank ≤ upper) (hcount : 2 ≤ sampleCount) :
    ∃ transform, clockTransform rank (1 / 1000) ((lower + upper) / 2) ((upper - lower) / 2) sampleCount =
      .ok transform ∧ transform.rank = rank ∧
        ∀ ticks, (transform.timestamp ticks).Knows (trueTime offset rank ticks) := by
  unfold clockTransform
  rw [dif_pos (by norm_num), dif_pos (by linarith), dif_pos hcount]
  refine ⟨_, rfl, rfl, fun ticks => ?_⟩
  simp only [AlignedTimestamp.Knows, ClockTransform.timestamp, trueTime, Option.getD_none, Nat.cast_zero]
  constructor <;> linarith

theorem ClockState.Right.report (h : s.Right offset) {issue : ClockIssue}
    (hissue : issue.reason ≠ "clock_reference_intervals_inconsistent") : (s.report issue).Right offset := by
  refine ⟨h.ranked, h.knows, fun other hother => ?_⟩
  rcases List.mem_append.mp hother with hother | hother
  · exact h.consistent other hother
  · rwa [List.mem_singleton.mp hother]

theorem ClockState.Right.place (h : s.Right offset) {rank : ℕ} {transform : ClockTransform}
    (hrank : transform.rank = rank)
    (hknows : ∀ ticks, (transform.timestamp ticks).Knows (trueTime offset rank ticks)) :
    (s.place rank transform).Right offset := by
  refine ⟨fun entry hentry => ?_, fun entry hentry => ?_, h.consistent⟩
  · rcases Dict.mem_set hentry with hentry | rfl
    · exact h.ranked entry hentry
    · exact hrank
  · rcases Dict.mem_set hentry with hentry | rfl
    · exact h.knows entry hentry
    · exact hknows

/-- **A turn keeps what is right**, and does not fail. -/
theorem ClockState.Right.turn (h : s.Right offset)
    (hbrackets : ∀ sample ∈ samples, sample.Brackets (trueTime offset sample.rank sample.gpuTicks))
    (entry : ℕ × List StepTraceRecord) : ∃ s', alignRank samples s entry = .ok s' ∧ s'.Right offset := by
  by_cases hempty : entry.2 = []
  · exact ⟨s, if_pos hempty, h⟩
  by_cases hencloses : Encloses (samples.filter (·.rank = entry.1)) entry.2
  · have hne : samples.filter (·.rank = entry.1) ≠ [] :=
      List.ne_nil_of_length_pos (by have := hencloses.1; omega)
    have hown : ∀ sample ∈ samples.filter (·.rank = entry.1),
        sample.Brackets ((sample.gpuTicks : ℚ) / 1000 + offset entry.1) := by
      intro sample hsample
      obtain ⟨hsample, hrank⟩ := List.mem_filter.mp hsample
      rw [← of_decide_eq_true hrank]
      exact hbrackets sample hsample
    obtain ⟨hlow, hhigh⟩ := offset_between hne hown
    obtain ⟨transform, htransform, hrank, hknows⟩ := clockTransform_knows hlow hhigh hencloses.1
    refine ⟨_, ?_, h.place hrank hknows⟩
    rw [alignRank, if_neg hempty]
    dsimp only
    rw [if_pos hencloses, if_neg (not_lt.mpr (hlow.trans hhigh)), htransform]
    rfl
  · have hissue : (⟨entry.1, "clock_references_do_not_enclose_target"⟩ : ClockIssue).reason ≠
        "clock_reference_intervals_inconsistent" := by
      show "clock_references_do_not_enclose_target" ≠ "clock_reference_intervals_inconsistent"
      decide
    refine ⟨_, ?_, h.report hissue⟩
    rw [alignRank, if_neg hempty]
    dsimp only
    rw [if_neg hencloses]

/-- **The loop keeps what is right.** -/
theorem ClockState.Right.run (h : s.Right offset)
    (hbrackets : ∀ sample ∈ samples, sample.Brackets (trueTime offset sample.rank sample.gpuTicks))
    (entries : List (ℕ × List StepTraceRecord)) :
    ∃ s', entries.foldlM (alignRank samples) s = .ok s' ∧ s'.Right offset := by
  induction entries generalizing s with
  | nil => exact ⟨s, rfl, h⟩
  | cons entry entries ih =>
    obtain ⟨s₁, hturn, h₁⟩ := h.turn hbrackets entry
    obtain ⟨s₂, hrest, h₂⟩ := ih h₁
    exact ⟨s₂, by rw [List.foldlM_cons, hturn]; exact hrest, h₂⟩

/-- **Aligned clocks never order events wrongly.**  When every sample brackets its time, no
interval is inconsistent, every aligned tick is known, an order that a comparison gives is the
true one, and orders chain without contradiction. -/
theorem clock_alignment_sound (recordsByRank : Dict ℕ (List StepTraceRecord))
    (hbrackets : ∀ sample ∈ samples, sample.Brackets (trueTime offset sample.rank sample.gpuTicks)) :
    ∃ result issues, alignBracketedGlobaltimers recordsByRank samples = .ok (result, issues) ∧
      (∀ issue ∈ issues, issue.reason ≠ "clock_reference_intervals_inconsistent") ∧
      ∀ alignment ∈ result, alignment.Knows offset ∧
        (∀ leftRank leftTicks rightRank rightTicks,
          (alignment.compare leftRank leftTicks rightRank rightTicks = .ok .before →
            trueTime offset leftRank leftTicks < trueTime offset rightRank rightTicks) ∧
          (alignment.compare leftRank leftTicks rightRank rightTicks = .ok .after →
            trueTime offset rightRank rightTicks < trueTime offset leftRank leftTicks)) ∧
        (∀ left middle right : ClockEvent,
          alignment.compare left.rank left.ticks middle.rank middle.ticks = .ok .before →
          alignment.compare middle.rank middle.ticks right.rank right.ticks = .ok .before →
          alignment.compare left.rank left.ticks right.rank right.ticks = .ok .before) ∧
        ∀ left right, Relation.TransGen alignment.Orders left right →
          alignment.Orders left right ∧ ¬ Relation.TransGen alignment.Orders right left := by
  have hstart : ClockState.Right {} offset := ⟨by simp, by simp, by simp⟩
  obtain ⟨s, hloop, hright⟩ := hstart.run hbrackets recordsByRank
  by_cases hnone : s.transforms = []
  · refine ⟨none, s.issues, ?_, hright.consistent, by simp⟩
    rw [alignBracketedGlobaltimers, hloop]
    exact if_pos hnone
  · refine ⟨some ⟨s.transforms, hnone, hright.ranked⟩, s.issues, ?_, hright.consistent, ?_⟩
    · rw [alignBracketedGlobaltimers, hloop]
      refine (if_neg hnone).trans ?_
      rw [clockAlignment, dif_pos hnone, dif_pos hright.ranked]
      rfl
    · intro alignment halignment
      obtain rfl := Option.mem_some_iff.mp halignment
      have hknows : ClockAlignment.Knows ⟨s.transforms, hnone, hright.ranked⟩ offset := by
        intro rank ticks stamp h
        simp only [ClockAlignment.timestamp, Checked.map_ok, Checked.required_ok] at h
        obtain ⟨transform, htransform, rfl⟩ := h
        exact hright.knows _ (Dict.mem_of_get? htransform) ticks
      refine ⟨hknows, fun leftRank leftTicks rightRank rightTicks => ⟨fun h => ?_, fun h => ?_⟩,
        fun left middle right h h' => ?_, fun left right h =>
          ⟨ClockAlignment.orders_of_chain h, ClockAlignment.chain_consistent h⟩⟩
      · obtain ⟨a, b, ha, hb, h⟩ := ClockAlignment.compare_ok.mp h
        exact compare_sound (hknows _ _ _ ha) (hknows _ _ _ hb) h
      · obtain ⟨a, b, ha, hb, h⟩ := ClockAlignment.compare_ok.mp h
        exact compare_sound (hknows _ _ _ hb) (hknows _ _ _ ha) (compare_swap.mpr h)
      · exact ClockAlignment.orders_iff.mp
          (ClockAlignment.orders_trans (.inl h : ClockAlignment.Orders _ left middle) (.inl h'))

/-- A sample of rank 0 at a time of its timer. -/
def sampleAt (gpuTicks : ℕ) : ClockSyncSample := ⟨0, gpuTicks, -1, 1, 0, 0, by norm_num, le_rfl⟩

/-- Two samples of one rank around a record. -/
theorem clock_alignment_sound_pair : ∃ result issues,
    alignBracketedGlobaltimers [(0, [sendTrace])] [sampleAt 0, sampleAt 10] =
        .ok (result, issues) ∧
    ∀ alignment ∈ result, alignment.Knows fun _ => 0 := by
  have hbrackets : ∀ sample ∈ [sampleAt 0, sampleAt 10],
      sample.Brackets (trueTime (fun _ => 0) sample.rank sample.gpuTicks) := by
    simp only [List.forall_mem_cons, ClockSyncSample.Brackets, trueTime, sampleAt]
    norm_num
  obtain ⟨result, issues, hok, -, hall⟩ := clock_alignment_sound [(0, [sendTrace])] hbrackets
  exact ⟨result, issues, hok, fun alignment h => (hall alignment h).1⟩

end Align

end VeriCCL
