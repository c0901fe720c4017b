import VeriCCL.OutputCoverage

/-! # Slots and segments

`required_outputs` says slice by slice what a collective must produce;
`_expected_segments` says it again in bytes, for the checker of version schedules.  For
slices of `z` bytes the two agree.  The link is the list of segments for slices of one
byte: the byte segments are its multiples, and the slots are its points. -/
namespace VeriCCL

/-- The collectives a request may ask for. -/
def CollectiveKind.external : CollectiveKind → Bool
  | .scatter | .gather => false
  | _ => true

/-- A segment counted in slices, in bytes. -/
def Segment.scale (z : ℕ) (segment : Segment) : Segment :=
  ⟨segment.rank, segment.start * z, segment.stop * z, segment.logicalStart * z, segment.sources⟩

/-- The segment asks for the contributions `K` in a slot. -/
structure Segment.Asks (n : ℕ) (segment : Segment) (slot : OutputSlot) (K : Finset ℕ) : Prop where
  rank : segment.rank = slot.rank
  start : segment.start ≤ slot.offset
  stop : slot.offset < segment.stop
  contributions : K = segment.sources.image fun r =>
    r * n + (segment.logicalStart + (slot.offset - segment.start))

/-- The number of slices of a rank's output. -/
def outputSlices (spec : CollectiveSpec) (ranks n rank : ℕ) : ℕ :=
  if rank < ranks then
    match spec.kind with
    | .broadcast | .allReduce | .allToAll => n
    | .reduce => if spec.root = some rank then n else 0
    | .allGather => ranks * n
    | .reduceScatter => n / ranks
    | .scatter | .gather => 0
  else 0

/-- Segments of one rank are in the order of their starts. -/
def SegmentsOrdered (a b : Segment) : Prop :=
  a.rank = b.rank → a.start ≤ b.start ∧ a.stop ≤ b.start ∧ a.sources ≠ b.sources

/-- The segments for slices of one byte describe both specifications. -/
structure Describes (spec : CollectiveSpec) (ranks n : ℕ) (segments : List Segment) : Prop where
  bytes : ∀ z, expectedSegments spec ranks (n * z) = .ok (segments.map (Segment.scale z))
  slots : ∀ slot K, (slot, K) ∈ requiredEntries spec ranks n ↔ ∃ s ∈ segments, s.Asks n slot K
  ordered : segments.Pairwise SegmentsOrdered
  within : ∀ s ∈ segments, s.start ≤ s.stop ∧ s.logicalStart + (s.stop - s.start) ≤ n
  tiled : ∀ rank o, (∃ s ∈ segments, s.rank = rank ∧ s.start ≤ o ∧ o < s.stop) ↔
    o < outputSlices spec ranks n rank

/-! ## The kinds -/

section Kinds
variable {spec : CollectiveSpec} {ranks n : ℕ}

/-- One segment for every rank. -/
theorem rows_ordered (segment : ℕ → Segment) (hrank : ∀ rank, (segment rank).rank = rank) :
    ((List.range ranks).map segment).Pairwise SegmentsOrdered := by
  rw [List.pairwise_map]
  refine List.pairwise_lt_range.imp ?_
  intro a b hab hsame
  rw [hrank, hrank] at hsame
  omega

/-- One segment for every rank and source. -/
theorem grid_ordered (width : ℕ) (logical : ℕ → ℕ) :
    ((List.range ranks).flatMap fun rank => (List.range ranks).map fun source =>
      (⟨rank, source * width, (source + 1) * width, logical rank, {source}⟩ :
        Segment)).Pairwise SegmentsOrdered := by
  rw [List.pairwise_flatMap]
  refine ⟨?_, ?_⟩
  · intro rank _
    rw [List.pairwise_map]
    refine List.pairwise_lt_range.imp ?_
    intro a b hab _
    refine ⟨Nat.mul_le_mul_right width hab.le, Nat.mul_le_mul_right width hab, ?_⟩
    simp only [ne_eq, Finset.singleton_inj]
    omega
  · refine List.pairwise_lt_range.imp ?_
    intro a b hab x hx y hy hrank
    obtain ⟨s, -, rfl⟩ := List.mem_map.mp hx
    obtain ⟨t, -, rfl⟩ := List.mem_map.mp hy
    exact absurd hrank (Nat.ne_of_lt hab)

/-- The parts of a range. -/
theorem part_iff {width o count : ℕ} :
    (∃ i < count, i * width ≤ o ∧ o < (i + 1) * width) ↔ o < count * width := by
  constructor
  · rintro ⟨i, hi, -, ho⟩
    exact lt_of_lt_of_le ho (Nat.mul_le_mul_right width hi)
  · intro ho
    have hpos : 0 < width := Nat.pos_of_mul_pos_left (Nat.zero_lt_of_lt ho)
    refine ⟨o / width, Nat.div_lt_of_lt_mul (by rwa [Nat.mul_comm]), Nat.div_mul_le_self o width, ?_⟩
    rw [Nat.add_one_mul]
    exact Nat.lt_div_mul_add hpos

/-- Collectives that give every rank one segment. -/
theorem describes_rows (width : ℕ) (logical : ℕ → ℕ) (sources : Finset ℕ)
    (hbytes : ∀ z, expectedSegments spec ranks (n * z) = .ok ((List.range ranks).map fun rank =>
      ⟨rank, 0, width * z, logical rank * z, sources⟩))
    (hslots : ∀ slot K, (slot, K) ∈ requiredEntries spec ranks n ↔ ∃ rank < ranks, ∃ l < width,
      slot = ⟨rank, l⟩ ∧ K = sources.image fun r => r * n + (logical rank + l))
    (hwithin : ∀ rank < ranks, logical rank + width ≤ n)
    (hsize : ∀ rank < ranks, outputSlices spec ranks n rank = width) :
    Describes spec ranks n ((List.range ranks).map fun rank =>
      ⟨rank, 0, width, logical rank, sources⟩) where
  bytes z := by
    rw [hbytes, List.map_map]
    simp [Segment.scale, Function.comp_def]
  slots slot K := by
    rw [hslots]
    simp only [List.mem_map, List.mem_range]
    constructor
    · rintro ⟨rank, hrank, l, hl, rfl, rfl⟩
      exact ⟨_, ⟨rank, hrank, rfl⟩, ⟨rfl, Nat.zero_le _, hl, rfl⟩⟩
    · rintro ⟨_, ⟨rank, hrank, rfl⟩, ⟨hr, -, hl, hK⟩⟩
      exact ⟨rank, hrank, slot.offset, hl, by rw [show rank = slot.rank from hr], hK⟩
  ordered := rows_ordered _ fun _ => rfl
  within s hs := by
    obtain ⟨rank, hrank, rfl⟩ := List.mem_map.mp hs
    exact ⟨Nat.zero_le _, hwithin rank (List.mem_range.mp hrank)⟩
  tiled rank o := by
    simp only [List.mem_map, List.mem_range]
    constructor
    · rintro ⟨_, ⟨r, hr, rfl⟩, rfl, -, ho⟩
      rw [hsize _ hr]
      exact ho
    · intro ho
      by_cases hrank : rank < ranks
      · rw [hsize rank hrank] at ho
        exact ⟨_, ⟨rank, hrank, rfl⟩, rfl, Nat.zero_le _, ho⟩
      · simp [outputSlices, hrank] at ho

/-- Collectives that give every rank one segment from each source. -/
theorem describes_grid (width : ℕ) (logical : ℕ → ℕ)
    (hbytes : ∀ z, expectedSegments spec ranks (n * z) = .ok ((List.range ranks).flatMap fun rank =>
      (List.range ranks).map fun source =>
        ⟨rank, source * (width * z), (source + 1) * (width * z), logical rank * z, {source}⟩))
    (hslots : ∀ slot K, (slot, K) ∈ requiredEntries spec ranks n ↔ ∃ rank < ranks, ∃ source < ranks,
      ∃ l < width, slot = ⟨rank, source * width + l⟩ ∧ K = {source * n + (logical rank + l)})
    (hwithin : ∀ rank < ranks, logical rank + width ≤ n)
    (hsize : ∀ rank < ranks, outputSlices spec ranks n rank = ranks * width) :
    Describes spec ranks n ((List.range ranks).flatMap fun rank => (List.range ranks).map fun source =>
      ⟨rank, source * width, (source + 1) * width, logical rank, {source}⟩) where
  bytes z := by
    rw [hbytes, List.map_flatMap]
    simp only [List.map_map, Function.comp_def, Segment.scale, Nat.mul_assoc]
  slots slot K := by
    rw [hslots]
    simp only [List.mem_flatMap, List.mem_map, List.mem_range]
    constructor
    · rintro ⟨rank, hrank, source, hsource, l, hl, rfl, rfl⟩
      refine ⟨_, ⟨rank, hrank, source, hsource, rfl⟩, ⟨rfl, Nat.le_add_right _ _, ?_, ?_⟩⟩
      · rw [Nat.add_one_mul]
        exact Nat.add_lt_add_left hl _
      · simp
    · rintro ⟨_, ⟨rank, hrank, source, hsource, rfl⟩, ⟨hr, hstart, hstop, hK⟩⟩
      have hend : slot.offset < source * width + width := by
        rw [← Nat.add_one_mul]
        exact hstop
      have hfrom : source * width ≤ slot.offset := hstart
      refine ⟨rank, hrank, source, hsource, slot.offset - source * width, by omega, ?_, ?_⟩
      · rw [Nat.add_sub_cancel' hfrom, show rank = slot.rank from hr]
      · rw [hK, Finset.image_singleton]
  ordered := grid_ordered width logical
  within s hs := by
    simp only [List.mem_flatMap, List.mem_map, List.mem_range] at hs
    obtain ⟨rank, hrank, source, -, rfl⟩ := hs
    simp only [Nat.add_one_mul, Nat.add_sub_cancel_left]
    exact ⟨Nat.le_add_right _ _, hwithin rank hrank⟩
  tiled rank o := by
    simp only [List.mem_flatMap, List.mem_map, List.mem_range]
    constructor
    · rintro ⟨_, ⟨r, hr, source, hsource, rfl⟩, rfl, hstart, hstop⟩
      rw [hsize _ hr, ← part_iff]
      exact ⟨source, hsource, hstart, hstop⟩
    · intro ho
      by_cases hrank : rank < ranks
      · rw [hsize rank hrank, ← part_iff] at ho
        obtain ⟨source, hsource, hstart, hstop⟩ := ho
        exact ⟨_, ⟨rank, hrank, source, hsource, rfl⟩, rfl, hstart, hstop⟩
      · simp [outputSlices, hrank] at ho

/-- A slice of a partitioned input: its part, and its place there. -/
theorem exists_part (width count : ℕ) (P : ℕ → ℕ → ℕ → Prop) :
    (∃ l < count * width, P (l / width) (l % width) l) ↔
      ∃ i < count, ∃ j < width, P i j (i * width + j) := by
  constructor
  · rintro ⟨l, hl, hP⟩
    have hpos : 0 < width := Nat.pos_of_mul_pos_left (Nat.zero_lt_of_lt hl)
    refine ⟨l / width, Nat.div_lt_of_lt_mul (by rwa [Nat.mul_comm]), l % width,
      Nat.mod_lt _ hpos, ?_⟩
    rwa [Nat.mul_comm, Nat.div_add_mod]
  · rintro ⟨i, hi, j, hj, hP⟩
    refine ⟨i * width + j, ?_, ?_⟩
    · calc i * width + j < i * width + width := Nat.add_lt_add_left hj _
        _ = (i + 1) * width := (Nat.add_one_mul i width).symm
        _ ≤ count * width := Nat.mul_le_mul_right width hi
    · have hpos : 0 < width := Nat.zero_lt_of_lt hj
      have hdiv : (i * width + j) / width = i := by
        rw [Nat.mul_comm, Nat.mul_add_div hpos, Nat.div_eq_of_lt hj, Nat.add_zero]
      rwa [hdiv, Nat.mul_add_mod_of_lt hj]

/-- The parts of an input of `n` slices. -/
theorem part_size (h : n % ranks = 0) (z : ℕ) :
    n * z % ranks = 0 ∧ n * z / ranks = n / ranks * z := by
  have hdvd : ranks ∣ n := Nat.dvd_of_mod_eq_zero h
  refine ⟨Nat.mod_eq_zero_of_dvd (hdvd.mul_right z), ?_⟩
  rw [Nat.mul_comm n z, Nat.mul_div_assoc z hdvd, Nat.mul_comm]

theorem part_within {width rank : ℕ} (hn : ranks * width = n) (hrank : rank < ranks) :
    rank * width + width ≤ n := by
  rw [← hn, ← Nat.add_one_mul]
  exact Nat.mul_le_mul_right width hrank

theorem describes_broadcast (hkind : spec.kind = .broadcast) {root : ℕ}
    (hroot : spec.root = some root) : ∃ segments, Describes spec ranks n segments := by
  refine ⟨_, describes_rows n (fun _ => 0) {root} ?_ ?_ ?_ ?_⟩
  · intro z
    simp [expectedSegments, hkind, hroot]
  · intro slot K
    simp only [requiredEntries, hkind, hroot, Option.getD_some, List.mem_flatMap, List.mem_map,
      List.mem_range, Prod.mk.injEq, Finset.image_singleton, Nat.zero_add, eq_comm]
  · intro rank _
    simp
  · intro rank hrank
    simp [outputSlices, hkind, hrank]

theorem describes_allReduce (hkind : spec.kind = .allReduce) :
    ∃ segments, Describes spec ranks n segments := by
  refine ⟨_, describes_rows n (fun _ => 0) (.range ranks) ?_ ?_ ?_ ?_⟩
  · intro z
    simp [expectedSegments, hkind]
  · intro slot K
    simp only [requiredEntries, hkind, List.mem_flatMap, List.mem_map, List.mem_range,
      Prod.mk.injEq, aggregateContributors, Nat.zero_add, eq_comm]
  · intro rank _
    simp
  · intro rank hrank
    simp [outputSlices, hkind, hrank]

theorem describes_reduceScatter (hkind : spec.kind = .reduceScatter)
    (hpart : n % ranks = 0) : ∃ segments, Describes spec ranks n segments := by
  have hn : ranks * (n / ranks) = n := Nat.mul_div_cancel' (Nat.dvd_of_mod_eq_zero hpart)
  refine ⟨_, describes_rows (n / ranks) (fun rank => rank * (n / ranks)) (.range ranks) ?_ ?_ ?_ ?_⟩
  · intro z
    obtain ⟨hmod, hdiv⟩ := part_size hpart z
    simp only [expectedSegments, hkind, Checked.bind_ok, Checked.ensure_ok, Checked.pure_ok, hdiv,
      Nat.mul_assoc]
    exact ⟨(), hmod, trivial⟩
  · intro slot K
    have := exists_part (n / ranks) ranks fun i j l =>
      slot = ⟨i, j⟩ ∧ K = (Finset.range ranks).image fun r => r * n + l
    rw [hn] at this
    simp only [requiredEntries, hkind, List.mem_map, List.mem_range, Prod.mk.injEq,
      aggregateContributors, eq_comm (b := slot), eq_comm (b := K)]
    exact this
  · intro rank hrank
    exact part_within hn hrank
  · intro rank hrank
    simp [outputSlices, hkind, hrank]

theorem describes_allGather (hkind : spec.kind = .allGather) :
    ∃ segments, Describes spec ranks n segments := by
  refine ⟨_, describes_grid n (fun _ => 0) ?_ ?_ ?_ ?_⟩
  · intro z
    simp [expectedSegments, hkind]
  · intro slot K
    simp only [requiredEntries, hkind, List.mem_flatMap, List.mem_map, List.mem_range,
      Prod.mk.injEq, Nat.zero_add, eq_comm]
  · intro rank _
    simp
  · intro rank hrank
    simp [outputSlices, hkind, hrank]

theorem describes_allToAll (hkind : spec.kind = .allToAll) (hpart : n % ranks = 0) :
    ∃ segments, Describes spec ranks n segments := by
  have hn : ranks * (n / ranks) = n := Nat.mul_div_cancel' (Nat.dvd_of_mod_eq_zero hpart)
  refine ⟨_, describes_grid (n / ranks) (fun rank => rank * (n / ranks)) ?_ ?_ ?_ ?_⟩
  · intro z
    obtain ⟨hmod, hdiv⟩ := part_size hpart z
    simp only [expectedSegments, hkind, Checked.bind_ok, Checked.ensure_ok, Checked.pure_ok, hdiv,
      Nat.mul_assoc]
    exact ⟨(), hmod, trivial⟩
  · intro slot K
    have hsource := fun source => exists_part (n / ranks) ranks fun i j l =>
      slot = ⟨i, source * (n / ranks) + j⟩ ∧ K = {source * n + l}
    rw [hn] at hsource
    simp only [requiredEntries, hkind, List.mem_flatMap, List.mem_map, List.mem_range,
      Prod.mk.injEq, eq_comm (b := slot), eq_comm (b := K), hsource]
    constructor
    · rintro ⟨source, hs, rank, hrank, h⟩
      exact ⟨rank, hrank, source, hs, h⟩
    · rintro ⟨rank, hrank, source, hs, h⟩
      exact ⟨source, hs, rank, hrank, h⟩
  · intro rank hrank
    exact part_within hn hrank
  · intro rank hrank
    simp [outputSlices, hkind, hrank, hn]

theorem describes_reduce (hkind : spec.kind = .reduce) {root : ℕ} (hroot : spec.root = some root)
    (hlt : root < ranks) : Describes spec ranks n [⟨root, 0, n, 0, .range ranks⟩] where
  bytes z := by
    simp [expectedSegments, hkind, hroot, Segment.scale]
  slots slot K := by
    simp only [requiredEntries, hkind, hroot, Option.getD_some, List.mem_map, List.mem_range,
      Prod.mk.injEq, List.mem_singleton, exists_eq_left, aggregateContributors]
    constructor
    · rintro ⟨l, hl, rfl, rfl⟩
      exact ⟨rfl, Nat.zero_le _, hl, by simp⟩
    · rintro ⟨hr, -, hl, hK⟩
      exact ⟨slot.offset, hl, by rw [show root = slot.rank from hr], by simp [hK]⟩
  ordered := List.pairwise_singleton _ _
  within s hs := by simp [List.mem_singleton.mp hs]
  tiled rank o := by
    simp only [List.mem_singleton, exists_eq_left, Nat.zero_le, true_and, outputSlices, hkind, hroot,
      Option.some.injEq]
    constructor
    · rintro ⟨rfl, ho⟩
      rw [if_pos hlt, if_pos rfl]
      exact ho
    · intro ho
      by_cases hrank : root = rank
      · subst hrank
        rw [if_pos hlt, if_pos rfl] at ho
        exact ⟨rfl, ho⟩
      · simp [hrank] at ho

/-- **Both specifications of an external collective come from one list of segments.** -/
theorem exists_describes (hvalid : validateOutputProblem spec ranks n = .ok ())
    (hexternal : spec.kind.external = true) : ∃ segments, Describes spec ranks n segments := by
  obtain ⟨-, -, hroot, hpart⟩ := validateOutputProblem_ok hvalid
  cases hkind : spec.kind with
  | broadcast =>
    obtain ⟨root, hsome, -⟩ := hroot (by rw [hkind]; rfl)
    exact describes_broadcast hkind hsome
  | reduce =>
    obtain ⟨root, hsome, hlt⟩ := hroot (by rw [hkind]; rfl)
    exact ⟨_, describes_reduce hkind hsome hlt⟩
  | scatter => simp [hkind, CollectiveKind.external] at hexternal
  | gather => simp [hkind, CollectiveKind.external] at hexternal
  | allGather => exact describes_allGather hkind
  | allReduce => exact describes_allReduce hkind
  | allToAll => exact describes_allToAll hkind (hpart (by rw [hkind]; rfl))
  | reduceScatter => exact describes_reduceScatter hkind (hpart (by rw [hkind]; rfl))

end Kinds

/-! ## The output check finds every segment -/

/-- A list of intervals that follow one another. -/
theorem foldlM_cover {label : String} {z stop : ℕ} (hz : 0 < z) (first count : ℕ)
    (hstop : (first + count) * z ≤ stop) :
    ((List.range' first count).map fun w => (w * z, w * z + z)).foldlM (fun cursor e => do
      Checked.ensure (e.1 = cursor ∧ e.1 < e.2 ∧ e.2 ≤ stop)
        (Fault.semantic (label ++ " has a gap, duplicate or out-of-range interval"))
      return e.2) (first * z) = .ok ((first + count) * z) := by
  induction count generalizing first with
  | zero => rfl
  | succ count ih =>
    have hnext : first * z + z = (first + 1) * z := (Nat.add_one_mul first z).symm
    have hsum : first + (count + 1) = first + 1 + count := by omega
    have hle : first * z + z ≤ stop := by
      rw [hnext]
      exact le_trans (Nat.mul_le_mul_right z (by omega)) hstop
    rw [List.range'_succ, List.map_cons, List.foldlM_cons, Checked.bind_ok]
    refine ⟨first * z + z, ?_, ?_⟩
    · simp only [Checked.bind_ok, Checked.ensure_ok, Checked.pure_ok]
      exact ⟨(), ⟨trivial, by omega, hle⟩, trivial⟩
    · rw [hnext, hsum]
      exact ih (first + 1) (by rwa [← hsum])

theorem sortIntervals_sorted (intervals : List (ℕ × ℕ)) :
    (sortIntervals intervals).Pairwise fun a b => a.1 < b.1 ∨ (a.1 = b.1 ∧ a.2 ≤ b.2) := by
  have : IsTrans (ℕ × ℕ) fun a b => a.1 < b.1 ∨ (a.1 = b.1 ∧ a.2 ≤ b.2) :=
    ⟨fun a b c hab hbc => by omega⟩
  have : Std.Total fun a b : ℕ × ℕ => a.1 < b.1 ∨ (a.1 = b.1 ∧ a.2 ≤ b.2) :=
    ⟨fun a b => by omega⟩
  exact List.pairwise_insertionSort _ _

/-- **Slices in any order tile a segment.** -/
theorem checkIntervalCover_slices {intervals : List (ℕ × ℕ)} {first last z : ℕ} {label : String}
    (hz : 0 < z) (hle : first ≤ last)
    (hperm : intervals.Perm ((List.range' first (last - first)).map fun w => (w * z, w * z + z))) :
    checkIntervalCover intervals (first * z) (last * z) label = .ok () := by
  have hsorted : sortIntervals intervals =
      (List.range' first (last - first)).map fun w => (w * z, w * z + z) := by
    refine List.Perm.eq_of_pairwise ?_ (sortIntervals_sorted intervals) ?_
      ((List.perm_insertionSort _ _).trans hperm)
    · intro a b _ _ hab hba
      obtain ⟨a, a'⟩ := a
      obtain ⟨b, b'⟩ := b
      simp only [Prod.mk.injEq] at hab hba ⊢
      omega
    · rw [List.pairwise_map]
      refine (List.pairwise_lt_range' 1).imp ?_
      intro a b hab
      exact Or.inl (Nat.mul_lt_mul_of_pos_right hab hz)
  have hlast : first + (last - first) = last := by omega
  unfold checkIntervalCover
  rw [hsorted, Checked.bind_ok]
  refine ⟨last * z, ?_, by rw [Checked.ensure_ok]⟩
  have hfold := @foldlM_cover label z (last * z) hz first (last - first) (by rw [hlast])
  rwa [hlast] at hfold

/-- The bisection stops at the segment a byte is in. -/
theorem segmentAt_eq {before after : List Segment} {segment : Segment} {offset : ℕ}
    (hordered : (before ++ segment :: after).Pairwise SegmentsOrdered)
    (hstart : segment.start ≤ offset) (hstop : offset < segment.stop) :
    segmentAt (before ++ segment :: after) segment.rank offset = some before.length := by
  rw [List.pairwise_append, List.pairwise_cons] at hordered
  obtain ⟨-, ⟨hafter, -⟩, hbefore⟩ := hordered
  unfold segmentAt
  simp only [List.zipIdx_append, List.zipIdx_cons, List.filter_append, List.map_append,
    List.length_append, List.length_cons, Nat.zero_add]
  rw [List.filter_cons_of_pos (by simp), List.map_cons]
  generalize hpre : ((before.zipIdx.filter fun e => decide (e.1.rank = segment.rank)).map fun e =>
    (e.1.start, e.2)) = pre
  generalize hpost : (((after.zipIdx (before.length + 1)).filter fun e =>
    decide (e.1.rank = segment.rank)).map fun e => (e.1.start, e.2)) = post
  generalize htotal : before.length + (after.length + 1) = total
  have hall : ∀ e ∈ pre ++ [(segment.start, before.length)],
      decide (e.1 < offset ∨ e.1 = offset ∧ e.2 ≤ total) = true := by
    intro e he
    rw [decide_eq_true_eq]
    rcases List.mem_append.mp he with he | he
    · rw [← hpre] at he
      obtain ⟨⟨s, i⟩, hs, rfl⟩ := List.mem_map.mp he
      obtain ⟨hzip, hrank⟩ := List.mem_filter.mp hs
      obtain ⟨-, hi, hget⟩ := List.mem_zipIdx hzip
      have horder := (hbefore s (hget ▸ List.getElem_mem _) segment List.mem_cons_self
        (by simpa using hrank)).1
      simp only at horder hi ⊢
      omega
    · rw [List.mem_singleton.mp he]
      simp only
      omega
  have hnone : ∀ e ∈ post, ¬ decide (e.1 < offset ∨ e.1 = offset ∧ e.2 ≤ total) = true := by
    intro e he
    rw [decide_eq_true_eq]
    rw [← hpost] at he
    obtain ⟨⟨s, i⟩, hs, rfl⟩ := List.mem_map.mp he
    obtain ⟨hzip, hrank⟩ := List.mem_filter.mp hs
    obtain ⟨-, -, hget⟩ := List.mem_zipIdx hzip
    have horder := (hafter s (hget ▸ List.getElem_mem _) (by simpa [eq_comm] using hrank)).2.1
    simp only
    omega
  have htake : (pre ++ (segment.start, before.length) :: post).takeWhile
      (fun e => decide (e.1 < offset ∨ e.1 = offset ∧ e.2 ≤ total)) =
        pre ++ [(segment.start, before.length)] := by
    rw [List.append_cons, List.takeWhile_append_of_pos hall]
    cases post with
    | nil => simp
    | cons e post => rw [List.takeWhile_cons, if_neg (hnone e List.mem_cons_self), List.append_nil]
  rw [htake]
  simp

theorem SegmentsOrdered.scale {a b : Segment} (h : SegmentsOrdered a b) (z : ℕ) :
    SegmentsOrdered (a.scale z) (b.scale z) := by
  intro hrank
  obtain ⟨hstart, hstop, hsources⟩ := h hrank
  exact ⟨Nat.mul_le_mul_right z hstart, Nat.mul_le_mul_right z hstop, hsources⟩

/-- The segment of a slice, in bytes. -/
theorem segmentAt_scale {segments : List Segment} {s : Segment} {index w z : ℕ}
    (hordered : segments.Pairwise SegmentsOrdered) (hz : 0 < z) (hat : segments[index]? = some s)
    (hstart : s.start ≤ w) (hstop : w < s.stop) :
    segmentAt (segments.map (Segment.scale z)) s.rank (w * z) = some index := by
  have hscaled : (segments.map (Segment.scale z)).Pairwise SegmentsOrdered := by
    rw [List.pairwise_map]
    exact hordered.imp fun h => h.scale z
  obtain ⟨hlt, rfl⟩ := List.getElem?_eq_some_iff.mp hat
  have hsplit : segments.map (Segment.scale z) = (segments.take index).map (Segment.scale z) ++
      segments[index].scale z :: (segments.drop (index + 1)).map (Segment.scale z) := by
    conv_lhs => rw [← List.take_append_drop index segments, List.drop_eq_getElem_cons hlt]
    rw [List.map_append, List.map_cons]
  rw [hsplit] at hscaled ⊢
  have hfound := segmentAt_eq hscaled (Nat.mul_le_mul_right z hstart)
    (Nat.mul_lt_mul_of_pos_right hstop hz)
  rwa [List.length_map, List.length_take, Nat.min_eq_left hlt.le] at hfound

/-! ## Versions of one slice -/

/-- A version of the slice position `p` whose contributions are the slices `K`: slice `s` is
the range `[p * z, (p + 1) * z)` of rank `s / n`'s input. -/
structure SliceVersion (n z p : ℕ) (K : Finset ℕ) (state : StateVersion) : Prop where
  nonempty : K.Nonempty
  position : ∀ s ∈ K, s % n = p
  ranges : (state.contributors.map fun r => (r.sourceRank, r.start, r.stop)).toFinset =
    K.image fun s => (s / n, p * z, (p + 1) * z)

namespace SliceVersion
variable {n z p : ℕ} {K : Finset ℕ} {state : StateVersion}

theorem mem_ranges (h : SliceVersion n z p K state) {r : ℕ} :
    (r ∈ state.sources ↔ ∃ s ∈ K, s / n = r) ∧
      (state.logicalStart = p * z ∧ state.logicalEnd = (p + 1) * z) := by
  have hmem : ∀ e : ℕ × ℕ × ℕ,
      (∃ r ∈ state.sources, (r, state.logicalStart, state.logicalEnd) = e) ↔
        ∃ s ∈ K, (s / n, p * z, (p + 1) * z) = e := by
    intro e
    have := Finset.ext_iff.mp h.ranges e
    simpa [StateVersion.contributors] using this
  have hrange : state.logicalStart = p * z ∧ state.logicalEnd = (p + 1) * z := by
    obtain ⟨s, hs⟩ := h.nonempty
    obtain ⟨r, -, he⟩ := (hmem _).mpr ⟨s, hs, rfl⟩
    simp only [Prod.mk.injEq] at he
    exact he.2
  refine ⟨⟨?_, ?_⟩, hrange⟩
  · intro hr
    obtain ⟨s, hs, he⟩ := (hmem _).mp ⟨r, hr, rfl⟩
    exact ⟨s, hs, (Prod.mk.inj he).1⟩
  · rintro ⟨s, hs, rfl⟩
    obtain ⟨r, hr, he⟩ := (hmem _).mpr ⟨s, hs, rfl⟩
    rwa [← (Prod.mk.inj he).1]

theorem logicalStart (h : SliceVersion n z p K state) : state.logicalStart = p * z :=
  (h.mem_ranges (r := 0)).2.1

theorem storage_size (h : SliceVersion n z p K state) : state.storage.size = z := by
  rw [state.storage_size, (h.mem_ranges (r := 0)).2.1, (h.mem_ranges (r := 0)).2.2, Nat.add_one_mul,
    Nat.add_sub_cancel_left]

/-- The contributions of a version. -/
theorem eq_image (h : SliceVersion n z p K state) :
    K = state.sources.toFinset.image fun r => r * n + p := by
  ext s
  simp only [Finset.mem_image, List.mem_toFinset, h.mem_ranges.1]
  constructor
  · intro hs
    refine ⟨s / n, ⟨s, hs, rfl⟩, ?_⟩
    rw [← h.position s hs, Nat.mul_comm, Nat.div_add_mod]
  · rintro ⟨_, ⟨t, ht, rfl⟩, rfl⟩
    rwa [← h.position t ht, Nat.mul_comm, Nat.div_add_mod]

/-- A version meets what a slot asks for exactly when position and sources do. -/
theorem eq_image_iff (h : SliceVersion n z p K state) {sources : Finset ℕ} {x : ℕ} (hx : x < n) :
    K = (sources.image fun r => r * n + x) ↔ p = x ∧ state.sources.toFinset = sources := by
  constructor
  · intro hK
    have hmod : ∀ r, (r * n + x) % n = x := fun r => Nat.mul_add_mod_of_lt hx
    have hp : p = x := by
      obtain ⟨s, hs⟩ := h.nonempty
      rw [← h.position s hs]
      rw [hK] at hs
      obtain ⟨r, -, rfl⟩ := Finset.mem_image.mp hs
      exact hmod r
    refine ⟨hp, ?_⟩
    have hinj : Function.Injective fun r => r * n + x := by
      intro a b hab
      exact Nat.eq_of_mul_eq_mul_right (Nat.zero_lt_of_lt hx) (Nat.add_right_cancel hab)
    refine Finset.image_injective hinj ?_
    rw [← hK, h.eq_image, hp]
  · rintro ⟨rfl, rfl⟩
    exact h.eq_image

end SliceVersion

/-- What is bound is readable and is a version of one slice. -/
def SliceBinding (n z : ℕ) (ledger : VersionLedger) (atUs : ℚ) (p : OutputBinding → ℕ)
    (K : OutputBinding → Finset ℕ) (output : OutputBinding) : Prop :=
  ∃ state, ledger.readable output.stateId atUs = .ok state ∧
    SliceVersion n z (p output) (K output) state

/-- Every output is stored on its own rank. -/
def OnRank (ledger : VersionLedger) (output : OutputBinding) : Prop :=
  ∀ state, ledger.states.get? output.stateId = some state → state.rank = output.rank

/-- The outputs are one for each required slot, at its byte offset and with its
contributions. -/
structure FillsSlots (required : Dict OutputSlot (Finset ℕ)) (z : ℕ)
    (K : OutputBinding → Finset ℕ) (outputs : List OutputBinding) : Prop where
  slots : (outputs.map fun o => (o.rank, o.offsetBytes)).Perm
    (required.keys.map fun slot => (slot.rank, slot.offset * z))
  contributions : ∀ o ∈ outputs, ∀ slot ∈ required.keys,
    o.rank = slot.rank → o.offsetBytes = slot.offset * z → required.get? slot = some (K o)

section Outputs
variable {spec : CollectiveSpec} {ranks n z : ℕ} {segments : List Segment} {ledger : VersionLedger}
  {atUs : ℚ} {p : OutputBinding → ℕ} {K : OutputBinding → Finset ℕ}

/-- The segment `s` at `index` asks for what the output holds, in slice `w`. -/
structure FitsSlot (n z : ℕ) (segments : List Segment) (K : OutputBinding → Finset ℕ)
    (o : OutputBinding) (index : ℕ) (s : Segment) (w : ℕ) : Prop where
  at_index : segments[index]? = some s
  asks : s.Asks n ⟨o.rank, w⟩ (K o)
  offset : o.offsetBytes = w * z

theorem FitsSlot.mem {o : OutputBinding} {index w : ℕ} {s : Segment}
    (h : FitsSlot n z segments K o index s w) : s ∈ segments := List.mem_of_getElem? h.at_index

/-- Where the check looks for an output that fits. -/
theorem FitsSlot.segmentAt (hd : Describes spec ranks n segments) (hz : 0 < z) {o : OutputBinding}
    {index w : ℕ} {s : Segment} (h : FitsSlot n z segments K o index s w) :
    VeriCCL.segmentAt (segments.map (Segment.scale z)) o.rank o.offsetBytes = some index := by
  rw [h.offset, ← show s.rank = o.rank from h.asks.rank]
  exact segmentAt_scale hd.ordered hz h.at_index h.asks.start h.asks.stop

/-- The position in the input that a slot asks for is one of its slices. -/
theorem FitsSlot.position_lt (hd : Describes spec ranks n segments) {o : OutputBinding} {index w : ℕ}
    {s : Segment} (h : FitsSlot n z segments K o index s w) : s.logicalStart + (w - s.start) < n := by
  have hwithin := (hd.within s h.mem).2
  have hstart : s.start ≤ w := h.asks.start
  have hstop : w < s.stop := h.asks.stop
  omega

/-- Segments of one rank that share a slot, or their sources, are the same. -/
theorem Describes.segment_unique (hd : Describes spec ranks n segments) {s t : Segment}
    (hs : s ∈ segments) (ht : t ∈ segments) (hrank : s.rank = t.rank)
    (hsame : s.sources = t.sources ∨ ∃ w, (s.start ≤ w ∧ w < s.stop) ∧ (t.start ≤ w ∧ w < t.stop)) :
    s = t := by
  by_contra hne
  rcases pairwise_or hd.ordered hs ht hne with h | h
  · obtain ⟨-, hstop, hsources⟩ := h hrank
    rcases hsame with hsame | ⟨w, h1, h2⟩
    · exact hsources hsame
    · omega
  · obtain ⟨-, hstop, hsources⟩ := h hrank.symm
    rcases hsame with hsame | ⟨w, h1, h2⟩
    · exact hsources hsame.symm
    · omega

/-- What a slot must hold. -/
theorem Describes.required_get? (hd : Describes spec ranks n segments) {slot : OutputSlot}
    {C : Finset ℕ} :
    (Dict.ofList (requiredEntries spec ranks n)).get? slot = some C ↔ ∃ s ∈ segments, s.Asks n slot C := by
  rw [← hd.slots]
  refine ⟨Dict.mem_of_ofList_get?, ?_⟩
  intro hmem
  have hkey : slot ∈ (Dict.ofList (requiredEntries spec ranks n)).keys :=
    Dict.mem_keys_ofList.mpr (List.mem_map.mpr ⟨_, hmem, rfl⟩)
  obtain ⟨D, hD⟩ := Dict.get?_isSome.mpr hkey
  obtain ⟨s, hs, hC⟩ := (hd.slots _ _).mp hmem
  obtain ⟨t, ht, hD'⟩ := (hd.slots _ _).mp (Dict.mem_of_ofList_get? hD)
  obtain rfl : s = t := hd.segment_unique hs ht (hC.rank.trans hD'.rank.symm)
    (Or.inr ⟨slot.offset, ⟨hC.start, hC.stop⟩, hD'.start, hD'.stop⟩)
  rw [hD, hC.contributions, hD'.contributions]

theorem Describes.mem_required (hd : Describes spec ranks n segments) {slot : OutputSlot} :
    slot ∈ (Dict.ofList (requiredEntries spec ranks n)).keys ↔
      ∃ s ∈ segments, s.rank = slot.rank ∧ s.start ≤ slot.offset ∧ slot.offset < s.stop := by
  rw [← Dict.get?_isSome]
  simp only [hd.required_get?]
  constructor
  · rintro ⟨C, s, hs, h⟩
    exact ⟨s, hs, h.rank, h.start, h.stop⟩
  · rintro ⟨s, hs, hrank, hstart, hstop⟩
    exact ⟨_, s, hs, hrank, hstart, hstop, rfl⟩

/-- **The slots of a rank are its output, from first to last.** -/
theorem Describes.offsets_perm (hd : Describes spec ranks n segments) (rank : ℕ) :
    (((Dict.ofList (requiredEntries spec ranks n)).keys.filter fun slot => slot.rank = rank).map
      (·.offset)).Perm (List.range (outputSlices spec ranks n rank)) := by
  rw [List.perm_ext_iff_of_nodup _ List.nodup_range]
  · intro o
    simp only [List.mem_map, List.mem_filter, List.mem_range, hd.mem_required, ← hd.tiled,
      decide_eq_true_eq]
    constructor
    · rintro ⟨slot, ⟨⟨s, hs, hrank, hin⟩, rfl⟩, rfl⟩
      exact ⟨s, hs, hrank, hin⟩
    · rintro ⟨s, hs, hrank, hin⟩
      exact ⟨⟨rank, o⟩, ⟨⟨s, hs, hrank, hin⟩, rfl⟩, rfl⟩
  · refine List.Nodup.map_on ?_ ((Dict.distinct_ofList _).filter _)
    rintro ⟨r, o⟩ ha ⟨r', o'⟩ hb hoff
    have hr := (List.mem_filter.mp ha).2
    have hr' := (List.mem_filter.mp hb).2
    simp only [decide_eq_true_eq] at hr hr' hoff
    rw [hr, hr', hoff]

/-- An output that the check places is one slice of its segment. -/
theorem fits_of_placed (hd : Describes spec ranks n segments) (hz : 0 < z) {o : OutputBinding}
    {index : ℕ} {segment : Segment} {state : StateVersion}
    (hplaced : Placed (segments.map (Segment.scale z)) ledger o index segment state)
    (hslice : SliceVersion n z (p o) (K o) state) :
    ∃ s w, segment = s.scale z ∧ FitsSlot n z segments K o index s w := by
  have hat := hplaced.at_index
  rw [List.getElem?_map, Option.map_eq_some_iff] at hat
  obtain ⟨s, hs, rfl⟩ := hat
  have hstart : s.start * z ≤ o.offsetBytes := hplaced.start
  have hstop : o.offsetBytes + z ≤ s.stop * z := by
    have hplace := hplaced.stop
    rw [hslice.storage_size] at hplace
    exact hplace
  have hlogical : p o * z + s.start * z = s.logicalStart * z + o.offsetBytes := by
    rw [← hslice.logicalStart]
    exact hplaced.logical
  -- the offset is a whole number of slices
  obtain ⟨w, hw⟩ : ∃ w, o.offsetBytes = w * z := by
    refine ⟨p o + s.start - s.logicalStart, ?_⟩
    rw [Nat.sub_mul, Nat.add_mul]
    omega
  rw [hw] at hstart hstop hlogical
  have hfirst : s.start ≤ w := Nat.le_of_mul_le_mul_right hstart hz
  have hlast : w < s.stop := by
    rw [← Nat.add_one_mul] at hstop
    exact Nat.le_of_mul_le_mul_right hstop hz
  have hp : p o = s.logicalStart + (w - s.start) := by
    rw [← Nat.add_mul, ← Nat.add_mul] at hlogical
    have := Nat.eq_of_mul_eq_mul_right hz hlogical
    omega
  have hwithin := (hd.within s (List.mem_of_getElem? hs)).2
  refine ⟨s, w, rfl, hs, ⟨hplaced.rank, hfirst, hlast, ?_⟩, hw⟩
  exact (hslice.eq_image_iff (by simp only; omega)).mpr ⟨hp, hplaced.sources⟩

/-- An output that fits passes its check. -/
theorem checkOutput_fits (hd : Describes spec ranks n segments) (hz : 0 < z) {o : OutputBinding}
    (hbound : SliceBinding n z ledger atUs p K o) (hrank : OnRank ledger o) {index w : ℕ}
    {s : Segment} (hfits : FitsSlot n z segments K o index s w) {coverage : Coverage}
    (hused : o.stateId ∉ coverage.used) :
    ∃ coverage', checkOutput (segments.map (Segment.scale z)) ledger atUs coverage o = .ok coverage' ∧
      coverage'.used = o.stateId :: coverage.used := by
  obtain ⟨state, hread, hslice⟩ := hbound
  obtain ⟨hp, hsources⟩ := (hslice.eq_image_iff (hfits.position_lt hd)).mp hfits.asks.contributions
  have hend : state.logicalEnd = (p o + 1) * z := (hslice.mem_ranges (r := 0)).2.2
  have hstart : s.start ≤ w := hfits.asks.start
  have hstop : w < s.stop := hfits.asks.stop
  refine ⟨⟨Function.update coverage.intervals index (coverage.intervals index ++
    [(o.offsetBytes, o.offsetBytes + state.logicalEnd - state.logicalStart)]),
    o.stateId :: coverage.used⟩, ?_, rfl⟩
  unfold checkOutput
  simp only [Checked.bind_ok, Checked.pure_ok, Checked.ensure_ok, Checked.required_ok]
  refine ⟨state, hread, (), ⟨hused, hrank state (VersionLedger.readable_ok.mp hread).known⟩, index,
    hfits.segmentAt hd hz, s.scale z, ?_, (), ?_, (), ⟨?_, hsources⟩, rfl⟩
  · rw [List.getElem?_map, hfits.at_index, Option.map_some]
  · rw [hfits.offset, hslice.logicalStart, hend, Nat.add_one_mul, Nat.add_comm (p o * z) z,
      ← Nat.add_assoc, Nat.add_sub_cancel, ← Nat.add_one_mul]
    exact Nat.mul_le_mul_right z hstop
  · have hexact : p o * z + s.start * z = s.logicalStart * z + w * z := by
      rw [← Nat.add_mul, ← Nat.add_mul, hp]
      congr 1
      omega
    rw [hslice.logicalStart, hfits.offset]
    simp only [Segment.scale]
    exact eq_sub_of_add_eq (by exact_mod_cast hexact)

/-- Outputs that fit, each with a version of its own, all pass. -/
theorem foldlM_checkOutput (hd : Describes spec ranks n segments) (hz : 0 < z)
    (outputs : List OutputBinding) (coverage : Coverage)
    (hbound : ∀ o ∈ outputs, SliceBinding n z ledger atUs p K o)
    (hrank : ∀ o ∈ outputs, OnRank ledger o)
    (hfits : ∀ o ∈ outputs, ∃ index s w, FitsSlot n z segments K o index s w)
    (hused : ∀ o ∈ outputs, o.stateId ∉ coverage.used)
    (hids : outputs.Pairwise fun a b => a.stateId ≠ b.stateId) :
    ∃ coverage', outputs.foldlM (checkOutput (segments.map (Segment.scale z)) ledger atUs) coverage =
      .ok coverage' := by
  induction outputs generalizing coverage with
  | nil => exact ⟨coverage, rfl⟩
  | cons o outputs ih =>
    rw [List.pairwise_cons] at hids
    obtain ⟨index, s, w, hfit⟩ := hfits o List.mem_cons_self
    obtain ⟨next, hnext, hnextUsed⟩ := checkOutput_fits hd hz (hbound o List.mem_cons_self)
      (hrank o List.mem_cons_self) hfit (hused o List.mem_cons_self)
    have hfresh : ∀ b ∈ outputs, b.stateId ∉ next.used := by
      intro b hb
      rw [hnextUsed, List.mem_cons, not_or]
      exact ⟨Ne.symm (hids.1 b hb), hused b (List.mem_cons_of_mem _ hb)⟩
    obtain ⟨last, hlast⟩ := ih next (fun b hb => hbound b (List.mem_cons_of_mem _ hb))
      (fun b hb => hrank b (List.mem_cons_of_mem _ hb))
      (fun b hb => hfits b (List.mem_cons_of_mem _ hb)) hfresh hids.2
    refine ⟨last, ?_⟩
    rw [List.foldlM_cons, Checked.bind_ok]
    exact ⟨next, hnext, hlast⟩

/-- One version fits one slot of its rank. -/
theorem offset_eq_of_stateId (hd : Describes spec ranks n segments) {a b : OutputBinding}
    (ha : SliceBinding n z ledger atUs p K a) (hb : SliceBinding n z ledger atUs p K b)
    (hranka : OnRank ledger a) (hrankb : OnRank ledger b) {i j v w : ℕ} {s t : Segment}
    (hs : FitsSlot n z segments K a i s v) (ht : FitsSlot n z segments K b j t w)
    (hid : a.stateId = b.stateId) : (a.rank, a.offsetBytes) = (b.rank, b.offsetBytes) := by
  obtain ⟨state, hread, hslice⟩ := ha
  obtain ⟨state', hread', hslice'⟩ := hb
  obtain rfl : state = state' := by
    rw [hid] at hread
    exact Except.ok.inj (hread.symm.trans hread')
  have hrank : a.rank = b.rank := by
    have hknown := (VersionLedger.readable_ok.mp hread).known
    have hknown' := (VersionLedger.readable_ok.mp hread').known
    exact (hranka state hknown).symm.trans (hrankb state hknown')
  obtain ⟨hp, hsources⟩ := (hslice.eq_image_iff (hs.position_lt hd)).mp hs.asks.contributions
  obtain ⟨hp', hsources'⟩ := (hslice'.eq_image_iff (ht.position_lt hd)).mp ht.asks.contributions
  obtain rfl : s = t := by
    refine hd.segment_unique hs.mem ht.mem ?_ (Or.inl (hsources.symm.trans hsources'))
    rw [hs.asks.rank, ht.asks.rank]
    exact hrank
  have hstart : s.start ≤ v := hs.asks.start
  have hstart' : s.start ≤ w := ht.asks.start
  have hsame : p a * z = p b * z := hslice.logicalStart.symm.trans hslice'.logicalStart
  rw [hrank, hs.offset, ht.offset]
  congr 1
  have hlogical : (s.logicalStart + (v - s.start)) * z = (s.logicalStart + (w - s.start)) * z := by
    rw [← hp, ← hp', hsame]
  rw [Nat.add_mul, Nat.add_mul, Nat.sub_mul, Nat.sub_mul] at hlogical
  have h1 := Nat.mul_le_mul_right z hstart
  have h2 := Nat.mul_le_mul_right z hstart'
  omega

/-- No slot is filled twice. -/
theorem FillsSlots.nodup (hz : 0 < z) {outputs : List OutputBinding}
    (h : FillsSlots (Dict.ofList (requiredEntries spec ranks n)) z K outputs) :
    (outputs.map fun o => (o.rank, o.offsetBytes)).Nodup := by
  refine h.slots.nodup_iff.mpr ((Dict.distinct_ofList _).map ?_)
  rintro ⟨r, a⟩ ⟨r', b⟩ hab
  simp only [Prod.mk.injEq] at hab
  rw [hab.1, Nat.eq_of_mul_eq_mul_right hz hab.2]

/-- Outputs that fill the slots fit. -/
theorem FillsSlots.fits (hd : Describes spec ranks n segments) {outputs : List OutputBinding}
    (h : FillsSlots (Dict.ofList (requiredEntries spec ranks n)) z K outputs) {o : OutputBinding}
    (ho : o ∈ outputs) : ∃ index s w, FitsSlot n z segments K o index s w := by
  have hmem : (o.rank, o.offsetBytes) ∈ (Dict.ofList (requiredEntries spec ranks n)).keys.map
      fun slot => (slot.rank, slot.offset * z) :=
    h.slots.subset (List.mem_map.mpr ⟨o, ho, rfl⟩)
  obtain ⟨slot, hslot, he⟩ := List.mem_map.mp hmem
  obtain ⟨hrank, hoffset⟩ := Prod.mk.inj he
  have hget := h.contributions o ho slot hslot hrank.symm hoffset.symm
  obtain ⟨s, hs, hasks⟩ := hd.required_get?.mp hget
  obtain ⟨index, hat⟩ := List.mem_iff_getElem?.mp hs
  refine ⟨index, s, slot.offset, hat, ?_, hoffset.symm⟩
  rw [← hrank]
  exact hasks

/-- The outputs that fill the slots of a segment tile it. -/
theorem FillsSlots.intervals_perm (hd : Describes spec ranks n segments) (hz : 0 < z)
    {outputs : List OutputBinding}
    (h : FillsSlots (Dict.ofList (requiredEntries spec ranks n)) z K outputs)
    (hbound : ∀ o ∈ outputs, SliceBinding n z ledger atUs p K o) {index : ℕ} {s : Segment}
    (hat : segments[index]? = some s) :
    ((outputs.filter fun o => VeriCCL.segmentAt (segments.map (Segment.scale z)) o.rank
      o.offsetBytes = some index).map (outputInterval ledger)).Perm
      ((List.range' s.start (s.stop - s.start)).map fun w => (w * z, w * z + z)) := by
  have hinterval : ∀ {o w}, o ∈ outputs → o.offsetBytes = w * z →
      outputInterval ledger o = (w * z, w * z + z) := by
    intro o w ho hoffset
    obtain ⟨state, hread, hslice⟩ := hbound o ho
    unfold outputInterval
    rw [(VersionLedger.readable_ok.mp hread).known, hoffset, Option.map_some, Option.getD_some,
      hslice.storage_size]
  have hnodup := h.nodup hz
  -- an output found in this segment is one of its slices
  have hhere : ∀ {o}, o ∈ outputs → VeriCCL.segmentAt (segments.map (Segment.scale z)) o.rank
      o.offsetBytes = some index → ∃ w, FitsSlot n z segments K o index s w := by
    intro o ho hseg
    obtain ⟨i, t, w, hfit⟩ := h.fits hd ho
    obtain rfl : i = index := Option.some.inj ((hfit.segmentAt hd hz).symm.trans hseg)
    obtain rfl : t = s := Option.some.inj (hfit.at_index.symm.trans hat)
    exact ⟨w, hfit⟩
  rw [List.perm_ext_iff_of_nodup]
  · rintro ⟨left, right⟩
    simp only [List.mem_map, List.mem_filter, decide_eq_true_eq, List.mem_range'_1]
    constructor
    · rintro ⟨o, ⟨ho, hseg⟩, he⟩
      obtain ⟨w, hfit⟩ := hhere ho hseg
      have hstart : s.start ≤ w := hfit.asks.start
      have hstop : w < s.stop := hfit.asks.stop
      exact ⟨w, by omega, (hinterval ho hfit.offset).symm.trans he⟩
    · rintro ⟨w, hw, he⟩
      have hstop : w < s.stop := by omega
      have hkey : (⟨s.rank, w⟩ : OutputSlot) ∈ (Dict.ofList (requiredEntries spec ranks n)).keys :=
        hd.mem_required.mpr ⟨s, List.mem_of_getElem? hat, rfl, hw.1, hstop⟩
      have hmem := h.slots.mem_iff.mpr (List.mem_map.mpr ⟨_, hkey, rfl⟩)
      obtain ⟨o, ho, hslot⟩ := List.mem_map.mp hmem
      obtain ⟨hrank, hoffset⟩ := Prod.mk.inj hslot
      refine ⟨o, ⟨ho, ?_⟩, (hinterval ho hoffset).trans he⟩
      rw [hrank, hoffset]
      exact segmentAt_scale hd.ordered hz hat hw.1 hstop
  · refine List.Nodup.map_on ?_ (List.Nodup.filter _ (List.Nodup.of_map _ hnodup))
    intro a ha b hb heq
    obtain ⟨ha, hsega⟩ := List.mem_filter.mp ha
    obtain ⟨hb, hsegb⟩ := List.mem_filter.mp hb
    obtain ⟨v, hfita⟩ := hhere ha (by simpa using hsega)
    obtain ⟨w, hfitb⟩ := hhere hb (by simpa using hsegb)
    refine List.inj_on_of_nodup_map hnodup ha hb ?_
    rw [hinterval ha hfita.offset, hinterval hb hfitb.offset] at heq
    have hrank : a.rank = b.rank :=
      (show s.rank = a.rank from hfita.asks.rank).symm.trans hfitb.asks.rank
    rw [hrank, hfita.offset, hfitb.offset, (Prod.mk.inj heq).1]
  · refine List.Nodup.map ?_ List.nodup_range'
    intro a b hab
    exact Nat.eq_of_mul_eq_mul_right hz (Prod.mk.inj hab).1

/-- Outputs that fill the slots are accepted. -/
theorem FillsSlots.accepted (hd : Describes spec ranks n segments) (hz : 0 < z)
    {outputs : List OutputBinding}
    (h : FillsSlots (Dict.ofList (requiredEntries spec ranks n)) z K outputs)
    (hbound : ∀ o ∈ outputs, SliceBinding n z ledger atUs p K o)
    (hrank : ∀ o ∈ outputs, OnRank ledger o) :
    ∃ totals, checkVersionOutputs spec ranks (n * z) outputs ledger atUs = .ok totals := by
  have hids : outputs.Pairwise fun a b => a.stateId ≠ b.stateId := by
    refine (List.pairwise_map.mp (h.nodup hz)).imp_of_mem ?_
    intro a b ha hb hne hid
    obtain ⟨i, s, v, hs⟩ := h.fits hd ha
    obtain ⟨j, t, w, ht⟩ := h.fits hd hb
    exact hne (offset_eq_of_stateId hd (hbound a ha) (hbound b hb) (hrank a ha) (hrank b hb) hs ht hid)
  obtain ⟨coverage, hcoverage⟩ := foldlM_checkOutput hd hz outputs ⟨fun _ => [], []⟩ hbound hrank
    (fun o ho => h.fits hd ho) (fun o _ => by simp) hids
  unfold checkVersionOutputs
  simp only [Checked.bind_ok, Checked.pure_ok]
  refine ⟨_, _, hd.bytes z, coverage, hcoverage, (), ?_, rfl⟩
  rw [Checked.forM_ok]
  rintro ⟨segment, index⟩ hzip
  have hat : (segments.map (Segment.scale z))[index]? = some segment := by
    simpa [List.mem_zipIdx_iff_getElem?] using hzip
  rw [List.getElem?_map, Option.map_eq_some_iff] at hat
  obtain ⟨s, hs, rfl⟩ := hat
  rw [(coverage_intervals outputs hcoverage).1 index, List.nil_append]
  exact checkIntervalCover_slices hz (hd.within s (List.mem_of_getElem? hs)).1
    (h.intervals_perm hd hz hbound hs)

/-- Accepted outputs fill the slots. -/
theorem fillsSlots_of_accepted (hd : Describes spec ranks n segments) (hz : 0 < z)
    {outputs : List OutputBinding} {totals : Dict ℕ ℕ}
    (h : checkVersionOutputs spec ranks (n * z) outputs ledger atUs = .ok totals)
    (hbound : ∀ o ∈ outputs, SliceBinding n z ledger atUs p K o) :
    (∀ o ∈ outputs, OnRank ledger o) ∧
      FillsSlots (Dict.ofList (requiredEntries spec ranks n)) z K outputs := by
  obtain ⟨expected, hexpected, hall, hcover, hapart⟩ := checkVersionOutputs_ok h
  obtain rfl : segments.map (Segment.scale z) = expected :=
    Except.ok.inj ((hd.bytes z).symm.trans hexpected)
  have hstate : ∀ {o : OutputBinding} {index : ℕ} {segment : Segment} {state : StateVersion}, o ∈ outputs →
      Placed (segments.map (Segment.scale z)) ledger o index segment state →
      SliceVersion n z (p o) (K o) state := by
    intro o index segment state ho hplaced
    obtain ⟨state', hread, hslice⟩ := hbound o ho
    obtain rfl : state = state' :=
      Option.some.inj (hplaced.known.symm.trans (VersionLedger.readable_ok.mp hread).known)
    exact hslice
  have hfits : ∀ o ∈ outputs, ∃ index s w, FitsSlot n z segments K o index s w := by
    intro o ho
    obtain ⟨index, segment, state, hplaced⟩ := hall o ho
    obtain ⟨s, w, -, hfit⟩ := fits_of_placed hd hz hplaced (hstate ho hplaced)
    exact ⟨index, s, w, hfit⟩
  refine ⟨?_, ?_, ?_⟩
  · intro o ho state hknown
    obtain ⟨index, segment, state', hplaced⟩ := hall o ho
    obtain rfl : state = state' := Option.some.inj (hknown.symm.trans hplaced.known)
    exact hplaced.state_rank
  · -- the slots are distinct on both sides, so membership decides
    rw [List.perm_ext_iff_of_nodup]
    · rintro ⟨rank, offset⟩
      simp only [List.mem_map, Prod.mk.injEq, hd.mem_required]
      constructor
      · rintro ⟨o, ho, rfl, rfl⟩
        obtain ⟨index, s, w, hfit⟩ := hfits o ho
        exact ⟨⟨o.rank, w⟩, ⟨s, hfit.mem, hfit.asks.rank, hfit.asks.start, hfit.asks.stop⟩, rfl,
          hfit.offset.symm⟩
      · rintro ⟨slot, ⟨s, hs, hrank, hstart, hstop⟩, rfl, rfl⟩
        obtain ⟨o, ho, index, state, hplaced, hle, hlt⟩ := hcover (s.scale z)
          (List.mem_map.mpr ⟨s, hs, rfl⟩) (slot.offset * z) (Nat.mul_le_mul_right z hstart)
          (Nat.mul_lt_mul_of_pos_right hstop hz)
        obtain ⟨t, w, -, hfit⟩ := fits_of_placed hd hz hplaced (hstate ho hplaced)
        refine ⟨o, ho, hplaced.rank.symm.trans hrank, ?_⟩
        -- the slice that covers the first byte of the slot is the slot
        rw [hfit.offset] at hle hlt ⊢
        rw [(hstate ho hplaced).storage_size, ← Nat.add_one_mul] at hlt
        have hw := Nat.le_of_mul_le_mul_right hle hz
        have hw' := Nat.lt_of_mul_lt_mul_right hlt
        rw [show w = slot.offset by omega]
    · rw [List.Nodup, List.pairwise_map]
      refine hapart.imp_of_mem ?_
      intro a b ha hb hab hsame
      obtain ⟨hrank, hoffset⟩ := Prod.mk.inj hsame
      obtain ⟨state, hread, hslice⟩ := hbound a ha
      obtain ⟨state', hread', hslice'⟩ := hbound b hb
      have hab := hab hrank
      unfold Apart outputInterval at hab
      rw [(VersionLedger.readable_ok.mp hread).known, (VersionLedger.readable_ok.mp hread').known] at hab
      simp only [Option.map_some, Option.getD_some, hslice.storage_size, hslice'.storage_size] at hab
      omega
    · refine (Dict.distinct_ofList _).map ?_
      rintro ⟨r, a⟩ ⟨r', b⟩ hab
      simp only [Prod.mk.injEq] at hab
      rw [hab.1, Nat.eq_of_mul_eq_mul_right hz hab.2]
  · intro o ho slot _ hrank hoffset
    obtain ⟨index, s, w, hfit⟩ := hfits o ho
    have hw : w = slot.offset := Nat.eq_of_mul_eq_mul_right hz (hfit.offset.symm.trans hoffset)
    refine hd.required_get?.mpr ⟨s, hfit.mem, ?_⟩
    have hasks := hfit.asks
    rw [hrank, hw] at hasks
    exact hasks

/-- **The two specifications agree.**  Outputs bound to versions of single slices are
accepted exactly when each is stored on its rank and they are one for each required slot,
with its contributions; and the slots of a rank are its output from first to last. -/
theorem collective_specifications_agree {required : Dict OutputSlot (Finset ℕ)}
    (hrequired : requiredOutputs spec ranks n = .ok required)
    (hexternal : spec.kind.external = true) (hz : 0 < z) (outputs : List OutputBinding)
    (hbound : ∀ o ∈ outputs, SliceBinding n z ledger atUs p K o) :
    ((∃ totals, checkVersionOutputs spec ranks (n * z) outputs ledger atUs = .ok totals) ↔
      (∀ o ∈ outputs, OnRank ledger o) ∧ FillsSlots required z K outputs) ∧
    ∀ rank, ((required.keys.filter fun slot => slot.rank = rank).map (·.offset)).Perm
      (List.range (outputSlices spec ranks n rank)) := by
  unfold requiredOutputs at hrequired
  simp only [Checked.bind_ok, Checked.pure_ok] at hrequired
  obtain ⟨_, hvalid, rfl⟩ := hrequired
  obtain ⟨segments, hd⟩ := exists_describes hvalid hexternal
  refine ⟨⟨?_, ?_⟩, hd.offsets_perm⟩
  · rintro ⟨totals, h⟩
    exact fillsSlots_of_accepted hd hz h hbound
  · rintro ⟨hrank, hfills⟩
    exact hfills.accepted hd hz hbound hrank

end Outputs

/-! ## A byte on two ranks -/

/-- A broadcast from rank 0. -/
def oneByteBroadcast : CollectiveSpec := ⟨.broadcast, "int8", none, some 0, false⟩

theorem rootOnly_sorted : [0].Pairwise (· < ·) := List.pairwise_singleton _ _

/-- Rank 0's byte, on a rank. -/
def byteOn (id : String) (rank : ℕ) : StateVersion where
  stateId := id
  rank := rank
  logicalStart := 0
  logicalEnd := 1
  sources := [0]
  storage := ⟨rank, "output", 0, 1, .output, Nat.one_pos⟩
  readyUs := 0
  range_nonempty := Nat.one_pos
  storage_rank := rfl
  storage_size := rfl
  sources_sorted := rootOnly_sorted

/-- The byte on both ranks. -/
def twoBytes : VersionLedger where
  scratchBudgets := []
  states := [("a", byteOn "a" 0), ("b", byteOn "b" 1)]
  active := {"a", "b"}

theorem byteOn_slice (id : String) (rank : ℕ) : SliceVersion 1 1 0 {0} (byteOn id rank) where
  nonempty := Finset.singleton_nonempty 0
  position := by simp
  ranges := by simp [byteOn, StateVersion.contributors]

theorem twoBytes_bound {o : OutputBinding} (h : o.stateId = "a" ∨ o.stateId = "b") :
    SliceBinding 1 1 twoBytes 0 (fun _ => 0) (fun _ => {0}) o := by
  rcases h with h | h
  · refine ⟨byteOn "a" 0, ?_, byteOn_slice "a" 0⟩
    rw [h]
    rfl
  · refine ⟨byteOn "b" 1, ?_, byteOn_slice "b" 1⟩
    rw [h]
    rfl

theorem collective_specifications_agree_broadcast :
    FillsSlots [(⟨0, 0⟩, {0}), (⟨1, 0⟩, {0})] 1 (fun _ => {0}) [⟨1, 0, "b"⟩, ⟨0, 0, "a"⟩] := by
  have hagree := @collective_specifications_agree oneByteBroadcast 2 1 1 twoBytes 0 (fun _ => 0)
    (fun _ => {0}) [(⟨0, 0⟩, {0}), (⟨1, 0⟩, {0})] (by decide +kernel) rfl Nat.one_pos
    [⟨1, 0, "b"⟩, ⟨0, 0, "a"⟩] (by
      intro o ho
      apply twoBytes_bound
      simp only [List.mem_cons, List.not_mem_nil, or_false] at ho
      rcases ho with rfl | rfl
      · exact Or.inr rfl
      · exact Or.inl rfl)
  exact (hagree.1.mp ⟨[(0, 1), (1, 1)], by decide +kernel⟩).2

/-- Rank 0's copy cannot stand for rank 1's output, although it fills the slot. -/
theorem other_rank_fills_slots :
    ¬ ∀ (spec : CollectiveSpec) (ranks n z : ℕ) (ledger : VersionLedger) (atUs : ℚ)
      (p : OutputBinding → ℕ) (K : OutputBinding → Finset ℕ) (required : Dict OutputSlot (Finset ℕ))
      (outputs : List OutputBinding), requiredOutputs spec ranks n = .ok required →
      spec.kind.external = true → 0 < z →
      (∀ o ∈ outputs, SliceBinding n z ledger atUs p K o) →
      ((∃ totals, checkVersionOutputs spec ranks (n * z) outputs ledger atUs = .ok totals) ↔
        FillsSlots required z K outputs) := by
  intro h
  have hagree := h oneByteBroadcast 2 1 1 twoBytes 0 (fun _ => 0) (fun _ => {0})
    [(⟨0, 0⟩, {0}), (⟨1, 0⟩, {0})] [⟨0, 0, "a"⟩, ⟨1, 0, "a"⟩] (by decide +kernel) rfl Nat.one_pos (by
      intro o ho
      apply twoBytes_bound
      simp only [List.mem_cons, List.not_mem_nil, or_false] at ho
      rcases ho with rfl | rfl <;> exact Or.inl rfl)
  have hfills : FillsSlots [(⟨0, 0⟩, {0}), (⟨1, 0⟩, {0})] 1 (fun _ => {0})
      [⟨0, 0, "a"⟩, ⟨1, 0, "a"⟩] := by
    refine ⟨by decide, ?_⟩
    intro o _ slot hslot _ _
    simp only [Dict.keys, List.map_cons, List.map_nil, List.mem_cons, List.not_mem_nil, or_false] at hslot
    rcases hslot with rfl | rfl <;> rfl
  obtain ⟨totals, haccept⟩ := hagree.mpr hfills
  have hreject : checkVersionOutputs oneByteBroadcast 2 1 [⟨0, 0, "a"⟩, ⟨1, 0, "a"⟩] twoBytes 0 =
      .error (.semantic "duplicate output state or wrong output rank") := by
    decide +kernel
  rw [show 1 * 1 = 1 from rfl, hreject] at haccept
  cases haccept

end VeriCCL
