import VeriCCL.TraceFormat

/-! # The two parsers of a trace

Both parsers read the same records (`readRecord`): `parseTrace` accepts when all are read,
no step is there twice and every iteration has all steps of the rank, and
`parsePartialTrace` finds no issue when all are read, no step is there twice and every step
is there in some iteration. -/
namespace VeriCCL

open Packed (Field)

/-! ## Reading one record -/

section Records
variable {data : List UInt8} {sidecar : TraceSidecar} {header : TraceHeader} {index : ℕ}
  {record : StepTraceRecord} {raw : RawStepTraceRecord} {metadata : TraceStepMetadata}

/-- The constructor of a step's record. -/
theorem stepTraceRecord_ok : stepTraceRecord raw metadata = .ok record ↔
    record.raw = raw ∧ record.metadata = metadata := by
  constructor
  · intro h
    unfold stepTraceRecord at h
    split_ifs at h
    obtain rfl := Except.ok.inj h
    exact ⟨rfl, rfl⟩
  · rintro ⟨rfl, rfl⟩
    obtain ⟨hkey, hendpoint, hpeer, hchannel⟩ := record.agrees
    rw [stepTraceRecord, dif_pos hkey, dif_pos hendpoint, dif_pos hpeer, dif_pos hchannel]

/-- **When a record is read.** -/
theorem readRecord_ok : readRecord data sidecar header index = .ok record ↔
    decodeRecord data (header.headerSize + index * header.recordSize) = .ok record.raw ∧
      record.raw.rank = header.rank ∧
        sidecar.entries.get? record.raw.key = some record.metadata := by
  simp only [readRecord, TraceSidecar.entry, Checked.bind_ok, Checked.ensure_ok, Checked.required_ok,
    stepTraceRecord_ok]
  constructor
  · rintro ⟨_, hdecode, -, hrank, _, hentry, rfl, rfl⟩
    refine ⟨hdecode, hrank, ?_⟩
    rw [RawTraceFields.key, hrank]
    exact hentry
  · rintro ⟨hdecode, hrank, hentry⟩
    refine ⟨_, hdecode, (), hrank, _, ?_, rfl, rfl⟩
    rw [RawTraceFields.key, hrank] at hentry
    exact hentry

/-- The step of a record is one that the sidecar expects. -/
theorem step_mem_expected (h : readRecord data sidecar header index = .ok record) :
    record.step ∈ sidecar.expectedSteps header.rank := by
  obtain ⟨-, hrank, hentry⟩ := readRecord_ok.mp h
  have hmem := Dict.mem_of_get? hentry
  have hkey := record.agrees.key
  rw [TraceSidecar.expectedSteps, List.mem_toFinset, List.mem_map]
  refine ⟨record.metadata, List.mem_filter.mpr ⟨List.mem_map_of_mem hmem, ?_⟩, ?_⟩
  · have := congrArg Prod.fst hkey
    simpa [TraceStepMetadata.key, RawTraceFields.key, hrank] using this.symm
  · exact (congrArg Prod.snd hkey).symm

/-- What identifies a record in `parse_trace`. -/
def StepTraceRecord.identity (record : StepTraceRecord) : (ℕ × ℕ × ℕ) × ℕ :=
  (record.raw.key, record.raw.iteration)

/-- Records of one rank are identified by their step and iteration. -/
theorem identity_nodup {records : List StepTraceRecord} {rank : ℕ}
    (hrank : ∀ record ∈ records, record.raw.rank = rank) :
    (records.map (·.identity)).Nodup ↔ (records.map (·.stepKey)).Nodup := by
  have hmap : records.map (·.identity) =
      (records.map (·.stepKey)).map fun key => ((rank, key.1.1, key.1.2), key.2) := by
    rw [List.map_map]
    refine List.map_congr_left fun record hrecord => ?_
    rw [StepTraceRecord.identity, RawTraceFields.key, hrank record hrecord]
    rfl
  rw [hmap, List.nodup_map_iff fun a b hab => ?_]
  simp only [Prod.mk.injEq, true_and] at hab
  exact Prod.ext (Prod.ext hab.1.1 hab.1.2) hab.2

/-- **When `parse_trace` takes a record.** -/
theorem parseRecord_ok {result result' : List StepTraceRecord} :
    parseRecord data sidecar header result index = .ok result' ↔
      ∃ record, readRecord data sidecar header index = .ok record ∧
        record.identity ∉ result.map (·.identity) ∧ result' = result ++ [record] := by
  simp only [readRecord_ok, parseRecord, TraceSidecar.entry, Checked.bind_ok, Checked.ensure_ok,
    Checked.required_ok, stepTraceRecord_ok, Checked.pure_ok]
  constructor
  · rintro ⟨_, hdecode, -, hrank, _, hentry, -, -, -, -, -, -, -, hnew, record, ⟨rfl, rfl⟩, rfl⟩
    exact ⟨record, ⟨hdecode, hrank, hentry⟩, hnew, rfl⟩
  · rintro ⟨record, ⟨hdecode, hrank, hentry⟩, hnew, rfl⟩
    exact ⟨_, hdecode, (), hrank, _, hentry, (), record.agrees.endpoint, (), record.agrees.peer, (),
      record.agrees.channel, (), hnew, record, ⟨rfl, rfl⟩, rfl⟩

end Records

/-! ## The loops -/

section Loops
variable {data : List UInt8} {sidecar : TraceSidecar} {header : TraceHeader} {indexes : List ℕ}

/-- All records are read. -/
def ReadsAll (data : List UInt8) (sidecar : TraceSidecar) (header : TraceHeader) (indexes : List ℕ)
    (records : List StepTraceRecord) : Prop :=
  List.Forall₂ (fun index record => readRecord data sidecar header index = .ok record) indexes records

theorem ReadsAll.mem {records : List StepTraceRecord} (h : ReadsAll data sidecar header indexes records)
    {record : StepTraceRecord} (hrecord : record ∈ records) :
    ∃ index ∈ indexes, readRecord data sidecar header index = .ok record := by
  induction h with
  | nil => cases hrecord
  | @cons index first indexes records hfirst hrest ih =>
    rcases List.mem_cons.mp hrecord with rfl | hrecord
    · exact ⟨index, List.mem_cons_self, hfirst⟩
    · obtain ⟨index, hindex, h⟩ := ih hrecord
      exact ⟨index, List.mem_cons_of_mem _ hindex, h⟩

/-- **The loop of `parse_trace`** reads all records and finds none twice. -/
theorem parse_loop {result final : List StepTraceRecord} (hresult : (result.map (·.identity)).Nodup) :
    indexes.foldlM (parseRecord data sidecar header) result = .ok final ↔
      ∃ records, ReadsAll data sidecar header indexes records ∧ final = result ++ records ∧
        (final.map (·.identity)).Nodup := by
  induction indexes generalizing result with
  | nil =>
    rw [List.foldlM_nil, Checked.pure_ok]
    constructor
    · rintro rfl
      exact ⟨[], .nil, (List.append_nil _).symm, hresult⟩
    · rintro ⟨records, hall, rfl, -⟩
      cases hall
      exact (List.append_nil _).symm
  | cons index indexes ih =>
    rw [List.foldlM_cons, Checked.bind_ok]
    simp only [parseRecord_ok]
    constructor
    · rintro ⟨_, ⟨record, hread, hnew, rfl⟩, hrest⟩
      have hnodup : ((result ++ [record]).map (·.identity)).Nodup := by
        rw [List.map_append, List.map_singleton, List.nodup_append]
        refine ⟨hresult, List.nodup_singleton _, fun a ha b hb hab => hnew ?_⟩
        rwa [← List.mem_singleton.mp hb, ← hab]
      obtain ⟨records, hall, rfl, hfinal⟩ := (ih hnodup).mp hrest
      exact ⟨record :: records, .cons hread hall, by simp, hfinal⟩
    · rintro ⟨_, hall, rfl, hfinal⟩
      cases hall with
      | @cons _ record _ records hread hall =>
        have hsplit : result ++ record :: records = (result ++ [record]) ++ records := by simp
        rw [hsplit] at hfinal
        have hnodup : ((result ++ [record]).map (·.identity)).Nodup := by
          rw [List.map_append] at hfinal
          exact (List.nodup_append.mp hfinal).1
        refine ⟨_, ⟨record, hread, fun hmem => ?_, rfl⟩,
          (ih hnodup).mpr ⟨records, hall, hsplit, hsplit ▸ hfinal⟩⟩
        rw [List.map_append, List.map_singleton] at hnodup
        exact (List.nodup_append.mp hnodup).2.2 _ hmem _ List.mem_cons_self rfl

/-- A loop that reads all records adds them in turn. -/
theorem partial_loop_all {s : PartialState} {records : List StepTraceRecord}
    (h : ReadsAll data sidecar header indexes records) :
    indexes.foldlM (partialRecord data sidecar header) s = .ok (records.foldl PartialState.add s) := by
  induction h generalizing s with
  | nil => rfl
  | @cons index record indexes records hread _ ih =>
    have hturn : partialRecord data sidecar header s index = .ok (s.add record) := by
      rw [partialRecord, hread]
    rw [List.foldlM_cons, hturn]
    exact ih

/-- A turn of the loop of `parse_partial_trace` never takes an issue away. -/
theorem partialRecord_issues {s s' : PartialState} {index : ℕ}
    (h : partialRecord data sidecar header s index = .ok s') :
    (∃ record, readRecord data sidecar header index = .ok record ∧ s' = s.add record) ∨
      ∃ issue, s' = s.report issue := by
  unfold partialRecord at h
  cases hread : readRecord data sidecar header index with
  | ok record =>
    rw [hread] at h
    exact .inl ⟨record, rfl, (Except.ok.inj h).symm⟩
  | error fault =>
    rw [hread] at h
    cases fault with
    | semantic reason => exact .inr ⟨_, (Except.ok.inj h).symm⟩
    | missing key => cases h
    | index sequence => cases h

theorem partial_loop_issues {s s' : PartialState}
    (h : indexes.foldlM (partialRecord data sidecar header) s = .ok s') :
    s.issues.length ≤ s'.issues.length ∧ (s'.issues = s.issues →
      ∃ records, ReadsAll data sidecar header indexes records ∧ s' = records.foldl PartialState.add s) := by
  induction indexes generalizing s with
  | nil =>
    rw [List.foldlM_nil, Checked.pure_ok] at h
    subst h
    exact ⟨le_rfl, fun _ => ⟨[], .nil, rfl⟩⟩
  | cons index indexes ih =>
    rw [List.foldlM_cons, Checked.bind_ok] at h
    obtain ⟨middle, hturn, hrest⟩ := h
    obtain ⟨hle, hall⟩ := ih hrest
    rcases partialRecord_issues hturn with ⟨record, hread, rfl⟩ | ⟨issue, rfl⟩
    · refine ⟨hle, fun hsame => ?_⟩
      obtain ⟨records, hreads, rfl⟩ := hall hsame
      exact ⟨record :: records, .cons hread hreads, rfl⟩
    · -- an issue that is there stays
      have hgrow : s.issues.length < s'.issues.length := by
        have : s.issues.length + 1 ≤ s'.issues.length := by
          simpa [PartialState.report] using hle
        omega
      exact ⟨hgrow.le, fun hsame => absurd (congrArg List.length hsame) hgrow.ne'⟩

/-- **Adding records** finds a duplicate exactly when a step is there twice. -/
theorem add_records {front records : List StepTraceRecord} {s : PartialState}
    (hfront : (front.map (·.stepKey)).Nodup) (hrecords : s.records = front.map fun r => (r.stepKey, r))
    (hnone : s.duplicates = []) :
    ((records.foldl PartialState.add s).duplicates = [] ↔ ((front ++ records).map (·.stepKey)).Nodup) ∧
      (((front ++ records).map (·.stepKey)).Nodup →
        (records.foldl PartialState.add s).records = (front ++ records).map fun r => (r.stepKey, r)) ∧
      (records.foldl PartialState.add s).issues = s.issues := by
  have hgrow : ∀ (records : List StepTraceRecord) (s : PartialState), s.duplicates ≠ [] →
      (records.foldl PartialState.add s).duplicates ≠ [] := by
    intro records
    induction records with
    | nil => exact fun s h => h
    | cons record records ih =>
      intro s h
      refine ih _ ?_
      unfold PartialState.add
      dsimp only
      split
      · exact fun hnil => by simpa [hnil] using List.mem_insert_self (l := s.duplicates) (a := record.stepKey)
      · exact h
  induction records generalizing front s with
  | nil => simp [hfront, hrecords, hnone]
  | cons record records ih =>
    have hkeys : s.records.keys = front.map (·.stepKey) := by
      rw [hrecords, Dict.keys, List.map_map]
      rfl
    have hsplit : front ++ record :: records = (front ++ [record]) ++ records := by simp
    rw [List.foldl_cons, hsplit]
    by_cases hmem : record.stepKey ∈ front.map (·.stepKey)
    · -- the step is there already
      have hadd : (s.add record).duplicates ≠ [] := by
        unfold PartialState.add
        dsimp only
        rw [if_pos (hkeys ▸ hmem)]
        exact fun hnil => by simpa [hnil] using List.mem_insert_self (l := s.duplicates) (a := record.stepKey)
      have hnot : ¬ (((front ++ [record]) ++ records).map (·.stepKey)).Nodup := by
        intro h
        rw [List.append_assoc, List.map_append, List.nodup_append] at h
        exact h.2.2 _ hmem record.stepKey (by simp) rfl
      have hissues : ∀ (records : List StepTraceRecord) (s : PartialState),
          (records.foldl PartialState.add s).issues = s.issues := by
        intro records
        induction records with
        | nil => exact fun s => rfl
        | cons r records ih => exact fun s => ih _
      exact ⟨iff_of_false (hgrow records _ hadd) hnot, fun h => absurd h hnot, hissues _ _⟩
    · have hnodup : ((front ++ [record]).map (·.stepKey)).Nodup := by
        rw [List.map_append, List.map_singleton, List.nodup_append]
        refine ⟨hfront, List.nodup_singleton _, fun a ha b hb hab => hmem ?_⟩
        rwa [← List.mem_singleton.mp hb, ← hab]
      have hset : (s.add record).records = (front ++ [record]).map fun r => (r.stepKey, r) := by
        show s.records.set record.stepKey record = _
        rw [Dict.set_of_notMem (by rwa [hkeys]), hrecords, List.map_append]
        rfl
      have hnone' : (s.add record).duplicates = [] := by
        show (if _ then _ else _) = _
        rw [if_neg (by rwa [hkeys]), hnone]
      exact ih hnodup hset hnone'

/-- Adding all records of a trace. -/
theorem add_all (records : List StepTraceRecord) :
    ((records.foldl PartialState.add {}).duplicates = [] ↔ (records.map (·.stepKey)).Nodup) ∧
      ((records.map (·.stepKey)).Nodup →
        (records.foldl PartialState.add {}).records = records.map fun r => (r.stepKey, r)) ∧
      (records.foldl PartialState.add {}).issues = [] :=
  have hnil : (([] : List StepTraceRecord).map (·.stepKey)).Nodup := List.nodup_nil
  add_records hnil rfl rfl

/-- The loop of `parse_trace` over a whole trace. -/
theorem parse_loop_all {records : List StepTraceRecord} :
    indexes.foldlM (parseRecord data sidecar header) [] = .ok records ↔
      ReadsAll data sidecar header indexes records ∧ (records.map (·.identity)).Nodup := by
  have hnil : (([] : List StepTraceRecord).map (·.identity)).Nodup := List.nodup_nil
  rw [parse_loop hnil]
  constructor
  · rintro ⟨records, hall, rfl, hnodup⟩
    exact ⟨hall, hnodup⟩
  · exact fun ⟨hall, hnodup⟩ => ⟨records, hall, rfl, hnodup⟩

end Loops

/-! ## What the parsers accept -/

section Accept
variable {data : List UInt8} {sidecar : TraceSidecar} {header : TraceHeader}
  {records : List StepTraceRecord}

/-- A header that both parsers accept. -/
structure TraceHeader.Accepted (header : TraceHeader) (data : List UInt8) : Prop where
  magic : header.magic = traceMagic
  version : header.version = traceVersion
  headerSize : header.headerSize = Packed.size rawHeaderStruct
  recordSize : header.recordSize = Packed.size rawRecordStruct
  count : header.count ≤ header.capacity
  overflow : header.overflow = 0
  reserved : header.reserved = 0
  length : data.length = header.headerSize + header.count * header.recordSize

theorem checkHeader_ok : checkHeader data header = .ok () ↔ header.Accepted data := by
  simp only [checkHeader, Checked.bind_ok, Checked.ensure_ok]
  constructor
  · rintro ⟨-, hmagic, -, hversion, -, hheader, -, hrecord, -, hcount, -, -, -, ⟨hoverflow, hreserved⟩,
      hlength⟩
    exact ⟨hmagic, hversion, hheader, hrecord, hcount, hoverflow, hreserved, hlength⟩
  · intro h
    refine ⟨(), h.magic, (), h.version, (), h.headerSize, (), h.recordSize, (), h.count, (), ?_, (),
      ⟨h.overflow, h.reserved⟩, h.length⟩
    rw [h.overflow, Nat.zero_and]

/-- Every record of a trace is of the header's rank. -/
theorem ReadsAll.rank {indexes : List ℕ} (h : ReadsAll data sidecar header indexes records) :
    ∀ record ∈ records, record.raw.rank = header.rank := by
  intro record hrecord
  obtain ⟨index, -, hread⟩ := h.mem hrecord
  exact (readRecord_ok.mp hread).2.1

/-- **What `parse_trace` accepts.** -/
theorem parseTrace_ok : parseTrace data sidecar = .ok records ↔
    Packed.size rawHeaderStruct ≤ data.length ∧ ∃ header, unpackHeader data = .ok header ∧
      header.Accepted data ∧ ReadsAll data sidecar header (List.range header.count) records ∧
        (records.map (·.stepKey)).Nodup ∧
        (sidecar.expectedSteps header.rank = ∅ ∨ iterationsOf records ≠ ∅) ∧
        ∀ iteration ∈ iterationsOf records, stepsOf records iteration = sidecar.expectedSteps header.rank := by
  simp only [parseTrace, Checked.bind_ok, Checked.ensure_ok, Checked.pure_ok]
  constructor
  · rintro ⟨-, hsize, header, hheader, _, hcheck, result, hloop, -, hnonempty, -, hcomplete, rfl⟩
    obtain ⟨hall, hnodup⟩ := parse_loop_all.mp hloop
    exact ⟨hsize, header, hheader, checkHeader_ok.mp hcheck, hall, (identity_nodup hall.rank).mp hnodup,
      hnonempty, hcomplete⟩
  · rintro ⟨hsize, header, hheader, haccepted, hall, hnodup, hnonempty, hcomplete⟩
    exact ⟨(), hsize, header, hheader, (), checkHeader_ok.mpr haccepted, records,
      parse_loop_all.mpr ⟨hall, (identity_nodup hall.rank).mpr hnodup⟩, (),
      hnonempty, (), hcomplete, rfl⟩

theorem mem_sortSteps {steps : Finset (ℕ × ℕ)} {step : ℕ × ℕ} : step ∈ sortSteps steps ↔ step ∈ steps := by
  simp only [sortSteps, List.mem_map, Finset.mem_sort, Finset.mem_image]
  constructor
  · rintro ⟨_, ⟨step, hstep, rfl⟩, rfl⟩
    exact hstep
  · exact fun hstep => ⟨_, ⟨step, hstep, rfl⟩, rfl⟩

@[simp] theorem sortSteps_empty : sortSteps ∅ = [] :=
  List.eq_nil_iff_forall_not_mem.mpr fun step hstep => Finset.notMem_empty step (mem_sortSteps.mp hstep)

/-- The records that are left without duplicates. -/
theorem unique_values (records : List StepTraceRecord) (s : PartialState) (hnone : s.duplicates = [])
    (hrecords : s.records = records.map fun r => (r.stepKey, r)) : s.unique.values = records := by
  have hall : s.unique = s.records := by
    rw [PartialState.unique, List.filter_eq_self]
    simp [hnone]
  rw [hall, hrecords, Dict.values, List.map_map]
  exact List.map_id _

/-- **When `parse_partial_trace` finds no issue.** -/
theorem parsePartialTrace_ok {rank : ℕ} : (∃ trace, parsePartialTrace data sidecar rank = .ok trace ∧
      trace.issues = [] ∧ trace.records = records) ↔
    Packed.size rawHeaderStruct ≤ data.length ∧ ∃ header, unpackHeader data = .ok header ∧
      header.Accepted data ∧ header.rank = rank ∧
        ReadsAll data sidecar header (List.range header.count) records ∧
        (records.map (·.stepKey)).Nodup ∧
        sidecar.expectedSteps header.rank ⊆ (records.map (·.step)).toFinset := by
  simp only [parsePartialTrace, Checked.bind_ok, Checked.ensure_ok, Checked.pure_ok]
  constructor
  · rintro ⟨_, ⟨-, hsize, header, hheader, -, ⟨hmagic, hversion, hhsize, hrsize, hrank⟩, -,
      ⟨hcount, hlength, hreserved, -⟩, s, hloop, rfl⟩, hissues, rfl⟩
    simp only [List.append_eq_nil_iff, List.map_eq_nil_iff] at hissues
    obtain ⟨⟨hissues, hduplicates⟩, hmissing⟩ := hissues
    have hoverflow : header.overflow = 0 := by
      by_contra hne
      have hle := (partial_loop_issues hloop).1
      simp [hne, hissues] at hle
    have hstart : ∀ {c : List TraceIssue}, (if header.overflow ≠ 0 then c else []) = [] :=
      fun {_} => if_neg (not_not.mpr hoverflow)
    rw [hstart] at hloop
    obtain ⟨records, hall, rfl⟩ := (partial_loop_issues hloop).2 hissues
    obtain ⟨hiff, hdict, -⟩ := add_all records
    have hnodup := hiff.mp hduplicates
    have hvalues := unique_values records _ hduplicates (hdict hnodup)
    rw [hvalues] at hmissing ⊢
    refine ⟨hsize, header, hheader, ⟨hmagic, hversion, hhsize, hrsize, hcount, hoverflow, hreserved,
      hlength⟩, hrank, hall, hnodup, fun step hstep => ?_⟩
    by_contra hnot
    have hmem := mem_sortSteps.mpr (Finset.mem_sdiff.mpr ⟨hstep, hnot⟩)
    rw [hmissing] at hmem
    cases hmem
  · rintro ⟨hsize, header, hheader, haccepted, hrank, hall, hnodup, hsub⟩
    obtain ⟨hiff, hdict, hissues⟩ := add_all records
    have hduplicates := hiff.mpr hnodup
    have hvalues := unique_values records _ hduplicates (hdict hnodup)
    have hloop := partial_loop_all (s := { issues := if header.overflow ≠ 0 then
      [.overflow header.rank] else [] }) hall
    have hstart : ∀ {c : List TraceIssue}, (if header.overflow ≠ 0 then c else []) = [] :=
      fun {_} => if_neg (not_not.mpr haccepted.overflow)
    refine ⟨_, ⟨(), hsize, header, hheader, (), ⟨haccepted.magic, haccepted.version,
      haccepted.headerSize, haccepted.recordSize, hrank⟩, (), ⟨haccepted.count, haccepted.length,
      haccepted.reserved, by rw [haccepted.overflow]; rfl⟩, _, hloop, rfl⟩, ?_, ?_⟩
    · rw [hstart, hvalues, hissues, hduplicates, Finset.sdiff_eq_empty_iff_subset.mpr hsub,
        sortSteps_empty]
      rfl
    · rw [hstart]
      exact hvalues

/-- The steps of a trace's iteration are expected. -/
theorem stepsOf_subset {indexes : List ℕ} (h : ReadsAll data sidecar header indexes records)
    (iteration : ℕ) : stepsOf records iteration ⊆ sidecar.expectedSteps header.rank := by
  intro step hstep
  rw [stepsOf, List.mem_toFinset] at hstep
  obtain ⟨record, hrecord, rfl⟩ := List.mem_map.mp hstep
  obtain ⟨index, -, hread⟩ := h.mem (List.mem_filter.mp hrecord).1
  exact step_mem_expected hread

/-- **`parse_trace` accepts what has no issue and no iteration that lacks a step.** -/
theorem parseTrace_iff_partial {rank : ℕ}
    (hrank : ∀ header, unpackHeader data = .ok header → header.rank = rank) :
    parseTrace data sidecar = .ok records ↔
      (∃ trace, parsePartialTrace data sidecar rank = .ok trace ∧ trace.issues = [] ∧
        trace.records = records) ∧
      ∀ iteration ∈ iterationsOf records, sidecar.expectedSteps rank ⊆ stepsOf records iteration := by
  rw [parseTrace_ok, parsePartialTrace_ok]
  constructor
  · rintro ⟨hsize, header, hheader, haccepted, hall, hnodup, hnonempty, hcomplete⟩
    obtain rfl := hrank header hheader
    refine ⟨⟨hsize, header, hheader, haccepted, rfl, hall, hnodup, ?_⟩,
      fun iteration hiteration => (hcomplete iteration hiteration).ge⟩
    rcases hnonempty with hnone | hsome
    · rw [hnone]
      exact Finset.empty_subset _
    · obtain ⟨iteration, hiteration⟩ := Finset.nonempty_iff_ne_empty.mpr hsome
      rw [← hcomplete iteration hiteration]
      intro step hstep
      rw [stepsOf, List.mem_toFinset] at hstep
      obtain ⟨record, hrecord, rfl⟩ := List.mem_map.mp hstep
      exact List.mem_toFinset.mpr (List.mem_map_of_mem (List.mem_filter.mp hrecord).1)
  · rintro ⟨⟨hsize, header, hheader, haccepted, rfl, hall, hnodup, hsub⟩, hcomplete⟩
    refine ⟨hsize, header, hheader, haccepted, hall, hnodup, ?_, fun iteration hiteration =>
      (stepsOf_subset hall iteration).antisymm (hcomplete iteration hiteration)⟩
    rcases Finset.eq_empty_or_nonempty (sidecar.expectedSteps header.rank) with hnone | ⟨step, hstep⟩
    · exact .inl hnone
    · obtain ⟨record, hrecord, -⟩ := List.mem_map.mp (List.mem_toFinset.mp (hsub hstep))
      refine .inr (Finset.nonempty_iff_ne_empty.mp ⟨record.raw.iteration, ?_⟩)
      exact List.mem_toFinset.mpr (List.mem_map_of_mem hrecord)

end Accept

end VeriCCL
