import VeriCCL.ReplayEffect

/-! # The outputs of a schedule cover what is expected

`check_version_outputs`: every output lies in one expected segment, holds the original
bytes that belong there, and the outputs of a segment tile it. -/
namespace VeriCCL

/-- Two intervals have no common point. -/
def Apart (a b : ℕ × ℕ) : Prop := a.2 ≤ b.1 ∨ b.2 ≤ a.1

theorem Apart.symm {a b : ℕ × ℕ} (h : Apart a b) : Apart b a := Or.symm h

/-- What the cursor of `_check_interval_cover` has seen. -/
theorem cover_of_cursor {stop : ℕ} {label : String} {l : List (ℕ × ℕ)} {start cursor : ℕ}
    (h : l.foldlM (fun cursor e => do
      Checked.ensure (e.1 = cursor ∧ e.1 < e.2 ∧ e.2 ≤ stop)
        (Fault.semantic (label ++ " has a gap, duplicate or out-of-range interval"))
      return e.2) start = .ok cursor) :
    l.Pairwise Apart ∧ (∀ e ∈ l, start ≤ e.1 ∧ e.1 < e.2 ∧ e.2 ≤ stop) ∧
      ∀ k, start ≤ k → k < cursor → ∃ e ∈ l, e.1 ≤ k ∧ k < e.2 := by
  induction l generalizing start with
  | nil =>
    rw [List.foldlM_nil, Checked.pure_ok] at h
    subst h
    refine ⟨List.Pairwise.nil, by simp, ?_⟩
    intro k hk hk'
    omega
  | cons e l ih =>
    rw [List.foldlM_cons, Checked.bind_ok] at h
    obtain ⟨next, hnext, h⟩ := h
    simp only [Checked.bind_ok, Checked.pure_ok, Checked.ensure_ok] at hnext
    obtain ⟨_, ⟨rfl, hlt, hstop⟩, rfl⟩ := hnext
    obtain ⟨hpair, hall, hcover⟩ := ih h
    refine ⟨List.pairwise_cons.mpr ⟨fun b hb => Or.inl (hall b hb).1, hpair⟩, ?_, ?_⟩
    · intro b hb
      rcases List.mem_cons.mp hb with rfl | hb
      · exact ⟨le_refl _, hlt, hstop⟩
      · obtain ⟨h1, h2, h3⟩ := hall b hb
        exact ⟨by omega, h2, h3⟩
    · intro k hk hk'
      by_cases hin : k < e.2
      · exact ⟨e, List.mem_cons_self, hk, hin⟩
      · obtain ⟨b, hb, hbk⟩ := hcover k (by omega) hk'
        exact ⟨b, List.mem_cons_of_mem _ hb, hbk⟩

/-- **Intervals that pass the check tile the range.** -/
theorem checkIntervalCover_ok {intervals : List (ℕ × ℕ)} {start stop : ℕ} {label : String}
    (h : checkIntervalCover intervals start stop label = .ok ()) :
    intervals.Pairwise Apart ∧ ∀ k, start ≤ k → k < stop → ∃ e ∈ intervals, e.1 ≤ k ∧ k < e.2 := by
  unfold checkIntervalCover at h
  simp only [Checked.bind_ok, Checked.ensure_ok] at h
  obtain ⟨cursor, hfold, rfl⟩ := h
  obtain ⟨hpair, -, hcover⟩ := cover_of_cursor hfold
  have hperm : (sortIntervals intervals).Perm intervals := List.perm_insertionSort _ _
  refine ⟨hperm.pairwise hpair Apart.symm, ?_⟩
  intro k hk hk'
  obtain ⟨e, he, hek⟩ := hcover k hk hk'
  exact ⟨e, hperm.mem_iff.mp he, hek⟩

/-- The range of bytes an output stands for. -/
def outputInterval (ledger : VersionLedger) (output : OutputBinding) : ℕ × ℕ :=
  (output.offsetBytes, output.offsetBytes +
    ((ledger.states.get? output.stateId).map fun state => state.storage.size).getD 0)

/-- What is checked of an output. -/
structure Placed (expected : List Segment) (ledger : VersionLedger) (output : OutputBinding)
    (index : ℕ) (segment : Segment) (state : StateVersion) : Prop where
  at_index : expected[index]? = some segment
  known : ledger.states.get? output.stateId = some state
  active : output.stateId ∈ ledger.active
  rank : segment.rank = output.rank
  state_rank : state.rank = output.rank
  start : segment.start ≤ output.offsetBytes
  stop : output.offsetBytes + state.storage.size ≤ segment.stop
  logical : state.logicalStart + segment.start = segment.logicalStart + output.offsetBytes
  sources : state.sources.toFinset = segment.sources

/-- The segment a byte is looked up in. -/
theorem segmentAt_some {expected : List Segment} {rank offset index : ℕ}
    (h : segmentAt expected rank offset = some index) : ∃ segment, expected[index]? = some segment ∧
      segment.rank = rank ∧ segment.start ≤ offset := by
  unfold segmentAt at h
  simp only [Option.map_eq_some_iff, Option.filter_eq_some_iff, decide_eq_true_eq] at h
  obtain ⟨e, ⟨hat, hpos⟩, rfl⟩ := h
  generalize hmine : ((expected.zipIdx.filter fun e => decide (e.1.rank = rank)).map fun e =>
    (e.1.start, e.2)) = mine at hat hpos
  generalize hp : (fun e : ℕ × ℕ => decide (e.1 < offset ∨ e.1 = offset ∧ e.2 ≤ expected.length)) =
    p at hat hpos
  have hlt : (mine.takeWhile p).length - 1 < (mine.takeWhile p).length := by omega
  have hmem : e ∈ mine.takeWhile p := by
    rw [← @List.takeWhile_append_dropWhile _ p mine, List.getElem?_append_left (by simpa using hlt)]
      at hat
    exact List.mem_of_getElem? (by simpa using hat)
  have hsat : p e = true := by
    have := List.all_takeWhile (p := p) (l := mine)
    exact List.all_eq_true.mp this e hmem
  have hstart : e.1 ≤ offset := by
    rw [← hp] at hsat
    simp only [decide_eq_true_eq] at hsat
    omega
  have hin : e ∈ mine := (List.takeWhile_sublist _).subset hmem
  rw [← hmine] at hin
  obtain ⟨⟨segment, i⟩, hseg, rfl⟩ := List.mem_map.mp hin
  obtain ⟨hzip, hrank⟩ := List.mem_filter.mp hseg
  refine ⟨segment, by simpa [List.mem_zipIdx_iff_getElem?] using hzip, by simpa using hrank, hstart⟩

/-- One output of a successful check. -/
theorem checkOutput_ok {expected : List Segment} {ledger : VersionLedger} {atUs : ℚ}
    {coverage coverage' : Coverage} {output : OutputBinding}
    (h : checkOutput expected ledger atUs coverage output = .ok coverage') :
    ∃ index segment state, segmentAt expected output.rank output.offsetBytes = some index ∧
      Placed expected ledger output index segment state ∧
      coverage'.intervals = Function.update coverage.intervals index
        (coverage.intervals index ++ [outputInterval ledger output]) := by
  unfold checkOutput at h
  simp only [Checked.bind_ok, Checked.pure_ok, Checked.ensure_ok, Checked.required_ok] at h
  obtain ⟨state, hstate, _, ⟨-, hrank⟩, index, hindex, segment, hsegment, _, hstop, _,
    ⟨hlogical, hsources⟩, rfl⟩ := h
  have hread := VersionLedger.readable_ok.mp hstate
  obtain ⟨segment', hsegment', hsrank, hstart⟩ := segmentAt_some hindex
  obtain rfl : segment = segment' := Option.some.inj (hsegment.symm.trans hsegment')
  have hsize := state.storage_size
  have hrange := state.range_nonempty
  refine ⟨index, segment, state, hindex, ⟨hsegment, hread.known, hread.active, hsrank, hrank, hstart,
    by omega, by omega, hsources⟩, ?_⟩
  have hend : output.offsetBytes + state.logicalEnd - state.logicalStart =
      output.offsetBytes + state.storage.size := by omega
  unfold outputInterval
  rw [hread.known, Option.map_some, Option.getD_some, hend]

/-- The intervals of a segment are those of the outputs in it. -/
theorem coverage_intervals {expected : List Segment} {ledger : VersionLedger} {atUs : ℚ}
    (outputs : List OutputBinding) {coverage coverage' : Coverage}
    (h : outputs.foldlM (checkOutput expected ledger atUs) coverage = .ok coverage') :
    (∀ index, coverage'.intervals index = coverage.intervals index ++
      (outputs.filter fun o => segmentAt expected o.rank o.offsetBytes = some index).map
        (outputInterval ledger)) ∧
    ∀ o ∈ outputs, ∃ index segment state,
      segmentAt expected o.rank o.offsetBytes = some index ∧
        Placed expected ledger o index segment state := by
  induction outputs generalizing coverage with
  | nil =>
    rw [List.foldlM_nil, Checked.pure_ok] at h
    subst h
    simp
  | cons output outputs ih =>
    rw [List.foldlM_cons, Checked.bind_ok] at h
    obtain ⟨next, hnext, h⟩ := h
    obtain ⟨index, segment, state, hindex, hplaced, hintervals⟩ := checkOutput_ok hnext
    obtain ⟨hrest, hall⟩ := ih h
    refine ⟨?_, ?_⟩
    · intro i
      rw [hrest, hintervals]
      by_cases hi : index = i
      · subst hi
        rw [Function.update_self, List.filter_cons_of_pos (by simpa using hindex), List.map_cons,
          List.append_assoc]
        rfl
      · rw [Function.update_of_ne (Ne.symm hi), List.filter_cons_of_neg]
        rw [hindex]
        simpa using hi
    · intro o ho
      rcases List.mem_cons.mp ho with rfl | ho
      · exact ⟨index, segment, state, hindex, hplaced⟩
      · exact hall o ho

/-- Segments of one rank do not overlap. -/
def SegmentsApart (a b : Segment) : Prop :=
  a.rank = b.rank → Apart (a.start, a.stop) (b.start, b.stop)

theorem segments_grid (ranks width : ℕ) (logical : ℕ → ℕ → ℕ) (sources : ℕ → ℕ → Finset ℕ) :
    ((List.range ranks).flatMap fun rank => (List.range ranks).map fun source =>
      (⟨rank, source * width, (source + 1) * width, logical rank source, sources rank source⟩ :
        Segment)).Pairwise SegmentsApart := by
  rw [List.pairwise_flatMap]
  refine ⟨?_, ?_⟩
  · intro rank _
    rw [List.pairwise_map]
    refine List.pairwise_lt_range.imp ?_
    intro a b hab _
    exact Or.inl (Nat.mul_le_mul_right width hab)
  · refine List.pairwise_lt_range.imp ?_
    intro a b hab x hx y hy hrank
    obtain ⟨s, -, rfl⟩ := List.mem_map.mp hx
    obtain ⟨t, -, rfl⟩ := List.mem_map.mp hy
    exact absurd hrank (Nat.ne_of_lt hab)

theorem segments_rows (ranks : List ℕ) (hranks : ranks.Pairwise (· < ·)) (segment : ℕ → Segment)
    (hrank : ∀ rank, (segment rank).rank = rank) :
    (ranks.map segment).Pairwise SegmentsApart := by
  rw [List.pairwise_map]
  refine hranks.imp ?_
  intro a b hab hsame
  rw [hrank, hrank] at hsame
  omega

/-- **The segments of a rank do not overlap.** -/
theorem expectedSegments_apart {spec : CollectiveSpec} {ranks size : ℕ} {expected : List Segment}
    (h : expectedSegments spec ranks size = .ok expected) : expected.Pairwise SegmentsApart := by
  unfold expectedSegments at h
  cases hkind : spec.kind <;> rw [hkind] at h <;>
    simp only [Except.ok.injEq, Checked.bind_ok, Checked.pure_ok, Checked.ensure_ok] at h
  case broadcast => exact h ▸ segments_rows _ List.pairwise_lt_range _ fun _ => rfl
  case reduce =>
    rw [← h]
    cases spec.root with
    | none => exact List.Pairwise.nil
    | some root => exact List.pairwise_singleton _ _
  case scatter => cases h
  case gather => cases h
  case allGather => exact h ▸ segments_grid ranks size (fun _ _ => 0) (fun _ source => {source})
  case allReduce => exact h ▸ segments_rows _ List.pairwise_lt_range _ fun _ => rfl
  case allToAll =>
    obtain ⟨_, -, rfl⟩ := h
    exact segments_grid ranks (size / ranks) (fun rank _ => rank * (size / ranks))
      (fun _ source => {source})
  case reduceScatter =>
    obtain ⟨_, -, rfl⟩ := h
    exact segments_rows _ List.pairwise_lt_range _ fun _ => rfl

/-- **What the output check establishes**: every byte of a segment is in an output that
holds the right contributions, and outputs of one rank do not overlap. -/
theorem checkVersionOutputs_ok {spec : CollectiveSpec} {ranks inputBytes : ℕ}
    {outputs : List OutputBinding} {ledger : VersionLedger} {atUs : ℚ} {totals : Dict ℕ ℕ}
    (h : checkVersionOutputs spec ranks inputBytes outputs ledger atUs = .ok totals) :
    ∃ expected, expectedSegments spec ranks inputBytes = .ok expected ∧
      (∀ o ∈ outputs, ∃ index segment state, Placed expected ledger o index segment state) ∧
      (∀ segment ∈ expected, ∀ k, segment.start ≤ k → k < segment.stop → ∃ o ∈ outputs,
        ∃ index state, Placed expected ledger o index segment state ∧
          o.offsetBytes ≤ k ∧ k < o.offsetBytes + state.storage.size) ∧
      outputs.Pairwise fun a b => a.rank = b.rank →
        Apart (outputInterval ledger a) (outputInterval ledger b) := by
  unfold checkVersionOutputs at h
  simp only [Checked.bind_ok, Checked.pure_ok] at h
  obtain ⟨expected, hexpected, coverage, hcoverage, _, hcover, -⟩ := h
  rw [Checked.forM_ok] at hcover
  obtain ⟨hintervals, hall⟩ := coverage_intervals outputs hcoverage
  have htiled : ∀ {index : ℕ} {segment : Segment}, expected[index]? = some segment →
      ((outputs.filter fun o => segmentAt expected o.rank o.offsetBytes = some index).map
        (outputInterval ledger)).Pairwise Apart ∧
      ∀ k, segment.start ≤ k → k < segment.stop → ∃ e ∈
        (outputs.filter fun o => segmentAt expected o.rank o.offsetBytes = some index).map
          (outputInterval ledger), e.1 ≤ k ∧ k < e.2 := by
    intro index segment hat
    have hone := checkIntervalCover_ok (hcover (segment, index)
      (by simpa [List.mem_zipIdx_iff_getElem?] using hat))
    rw [hintervals, List.nil_append] at hone
    exact hone
  refine ⟨expected, hexpected, ?_, ?_, ?_⟩
  · intro o ho
    obtain ⟨index, segment, state, -, hplaced⟩ := hall o ho
    exact ⟨index, segment, state, hplaced⟩
  · intro segment hsegment k hk hk'
    obtain ⟨index, hat⟩ := List.mem_iff_getElem?.mp hsegment
    obtain ⟨e, he, hek⟩ := (htiled hat).2 k hk hk'
    obtain ⟨o, ho, rfl⟩ := List.mem_map.mp he
    obtain ⟨ho, hseg⟩ := List.mem_filter.mp ho
    obtain ⟨index', segment', state, hindex', hplaced⟩ := hall o ho
    obtain rfl : index = index' := by
      have : segmentAt expected o.rank o.offsetBytes = some index := by simpa using hseg
      exact Option.some.inj (this.symm.trans hindex')
    obtain rfl : segment = segment' := Option.some.inj (hat.symm.trans hplaced.at_index)
    refine ⟨o, ho, index, state, hplaced, hek.1, ?_⟩
    have hlt := hek.2
    unfold outputInterval at hlt
    rw [hplaced.known, Option.map_some, Option.getD_some] at hlt
    exact hlt
  · rw [List.pairwise_iff_forall_sublist]
    intro a b hab hrank
    obtain ⟨index, segment, state, hindex, hplaced⟩ := hall a (hab.subset (by simp))
    obtain ⟨index', segment', state', hindex', hplaced'⟩ := hall b (hab.subset (by simp))
    by_cases hsame : index = index'
    · subst hsame
      have hsub : [a, b].Sublist
          (outputs.filter fun o => segmentAt expected o.rank o.offsetBytes = some index) := by
        have := hab.filter fun o => decide (segmentAt expected o.rank o.offsetBytes = some index)
        rwa [List.filter_cons_of_pos (by simpa using hindex),
          List.filter_cons_of_pos (by simpa using hindex'), List.filter_nil] at this
      have hpair := (htiled hplaced.at_index).1.sublist (hsub.map (outputInterval ledger))
      exact List.rel_of_pairwise_cons hpair (by simp)
    · -- different segments of one rank
      have hsegments : SegmentsApart segment segment' ∨ SegmentsApart segment' segment := by
        have hpairs := expectedSegments_apart hexpected
        rw [List.pairwise_iff_getElem] at hpairs
        obtain ⟨hi, rfl⟩ := List.getElem?_eq_some_iff.mp hplaced.at_index
        obtain ⟨hj, rfl⟩ := List.getElem?_eq_some_iff.mp hplaced'.at_index
        rcases Nat.lt_or_gt_of_ne hsame with hlt | hlt
        · exact Or.inl (hpairs index index' hi hj hlt)
        · exact Or.inr (hpairs index' index hj hi hlt)
      have hranks : segment.rank = segment'.rank := by
        rw [hplaced.rank, hplaced'.rank, hrank]
      have hstart := hplaced.start
      have hstop := hplaced.stop
      have hstart' := hplaced'.start
      have hstop' := hplaced'.stop
      unfold outputInterval Apart
      rw [hplaced.known, hplaced'.known]
      simp only [Option.map_some, Option.getD_some]
      rcases hsegments with hcase | hcase
      · rcases hcase hranks with h | h <;> simp only at h <;> omega
      · rcases hcase hranks.symm with h | h <;> simp only at h <;> omega

end VeriCCL
