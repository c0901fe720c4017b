import VeriCCL.TraceParsers

/-! # Traces are read back

What `encodeRawTrace` writes, both parsers read.  Neither parser reads beyond the data: what
it reads lies in a record that the length of the file accounts for. -/
namespace VeriCCL

open Packed (Field)

/-! ## Faults -/

section Faults
variable {data : List UInt8} {sidecar : TraceSidecar}

/-- A `SemanticError`. -/
def Fault.Semantic (fault : Fault) : Prop := ∃ message, fault = .semantic message

theorem ensure_semantic {c : Prop} [Decidable c] {message : String} {fault : Fault}
    (h : Checked.ensure c (.semantic message) = .error fault) : fault.Semantic :=
  ⟨message, (Checked.ensure_error h).2.symm⟩

theorem check_semantic {fields : RawTraceFields} {fault : Fault} (h : fields.check = .error fault) :
    fault.Semantic := by
  rcases Checked.bind_error h with h | ⟨_, -, h⟩
  · obtain ⟨item, -, h⟩ := Checked.forM_error h
    exact ensure_semantic h
  · rcases Checked.bind_error h with h | ⟨_, -, h⟩
    · exact ensure_semantic h
    · rcases Checked.bind_error h with h | ⟨_, -, h⟩
      · exact ensure_semantic h
      · exact ensure_semantic h

theorem record_ok {fields : RawTraceFields} {record : RawStepTraceRecord} :
    fields.record = .ok record ↔ record.toRawTraceFields = fields := by
  unfold RawTraceFields.record
  split
  · next h =>
    rw [Except.ok.injEq]
    constructor
    · rintro rfl
      rfl
    · rintro rfl
      rfl
  · next fault h =>
    constructor
    · intro hok
      cases hok
    · rintro rfl
      rw [record.checked] at h
      cases h

theorem record_semantic {fields : RawTraceFields} {fault : Fault} (h : fields.record = .error fault) :
    fault.Semantic := by
  unfold RawTraceFields.record at h
  split at h
  · cases h
  · next hcheck =>
    cases h
    exact check_semantic hcheck

/-- The values of a header are read. -/
theorem unpackHeader_exists (h : Packed.size rawHeaderStruct ≤ data.length) :
    ∃ header, unpackHeader data = .ok header := by
  simp only [unpackHeader, Checked.bind_ok, Checked.required_ok, Packed.unpackFrom, Nat.zero_add,
    if_pos h, Option.some.injEq]
  exact ⟨_, _, rfl, rfl⟩

theorem unpackHeader_total {fault : Fault} {message : String}
    (hsize : Checked.ensure (Packed.size rawHeaderStruct ≤ data.length) (Fault.semantic message) = .ok ())
    (h : unpackHeader data = .error fault) : False := by
  obtain ⟨header, hheader⟩ := unpackHeader_exists (Checked.ensure_ok.mp hsize)
  rw [hheader] at h
  cases h

/-- Within the data, only the check of a record may fail. -/
theorem decodeRecord_semantic {offset : ℕ} {fault : Fault}
    (hsize : offset + Packed.size rawRecordStruct ≤ data.length)
    (h : decodeRecord data offset = .error fault) : fault.Semantic := by
  have hvalues : Packed.unpackFrom rawRecordStruct data offset =
      some (Packed.unpack rawRecordStruct (data.drop offset)) := if_pos hsize
  have hfields : ∃ fields, RawTraceFields.ofValues (Packed.unpack rawRecordStruct (data.drop offset)) =
      some fields := ⟨_, rfl⟩
  obtain ⟨fields, hfields⟩ := hfields
  rw [decodeRecord, hvalues] at h
  simp only [Checked.required, hfields, bind, Except.bind] at h
  exact record_semantic h

theorem entry_semantic {key : ℕ × ℕ × ℕ} {fault : Fault} (h : sidecar.entry key = .error fault) :
    fault.Semantic := ⟨_, (Checked.required_error h).2.symm⟩

theorem stepTraceRecord_semantic {raw : RawStepTraceRecord} {metadata : TraceStepMetadata} {fault : Fault}
    (h : stepTraceRecord raw metadata = .error fault) : fault.Semantic := by
  unfold stepTraceRecord at h
  split_ifs at h
  all_goals exact ⟨_, (Except.error.inj h).symm⟩

variable {header : TraceHeader} {index : ℕ}

/-- A record that the header counts lies in the data. -/
theorem recordInside (hlength : data.length = header.headerSize + header.count * header.recordSize)
    (hsize : header.recordSize = Packed.size rawRecordStruct) (hindex : index < header.count) :
    header.headerSize + index * header.recordSize + Packed.size rawRecordStruct ≤ data.length := by
  have hle : (index + 1) * header.recordSize ≤ header.count * header.recordSize :=
    Nat.mul_le_mul_right _ hindex
  rw [hlength, ← hsize]
  rw [Nat.add_mul, Nat.one_mul] at hle
  omega

theorem TraceHeader.Accepted.inside (h : header.Accepted data) (hindex : index < header.count) :
    header.headerSize + index * header.recordSize + Packed.size rawRecordStruct ≤ data.length :=
  recordInside h.length h.recordSize hindex

theorem readRecord_semantic {fault : Fault}
    (hsize : header.headerSize + index * header.recordSize + Packed.size rawRecordStruct ≤ data.length)
    (h : readRecord data sidecar header index = .error fault) : fault.Semantic := by
  rcases Checked.bind_error h with h | ⟨_, -, h⟩
  · exact decodeRecord_semantic hsize h
  · rcases Checked.bind_error h with h | ⟨_, -, h⟩
    · exact ensure_semantic h
    · rcases Checked.bind_error h with h | ⟨_, -, h⟩
      · exact entry_semantic h
      · exact stepTraceRecord_semantic h

/-- A turn of the loop of `parse_partial_trace` does not fail within the data. -/
theorem partialRecord_total {s : PartialState} {fault : Fault}
    (hsize : header.headerSize + index * header.recordSize + Packed.size rawRecordStruct ≤ data.length)
    (h : partialRecord data sidecar header s index = .error fault) : fault.Semantic := by
  unfold partialRecord at h
  cases hread : readRecord data sidecar header index with
  | ok record =>
    rw [hread] at h
    cases h
  | error other =>
    obtain ⟨message, rfl⟩ := readRecord_semantic hsize hread
    rw [hread] at h
    cases h

theorem parseRecord_semantic {result : List StepTraceRecord} {fault : Fault}
    (hsize : header.headerSize + index * header.recordSize + Packed.size rawRecordStruct ≤ data.length)
    (h : parseRecord data sidecar header result index = .error fault) : fault.Semantic := by
  rcases Checked.bind_error h with h | ⟨_, -, h⟩
  · exact decodeRecord_semantic hsize h
  · rcases Checked.bind_error h with h | ⟨_, -, h⟩
    · exact ensure_semantic h
    · rcases Checked.bind_error h with h | ⟨_, -, h⟩
      · exact entry_semantic h
      · iterate 4
          rcases Checked.bind_error h with h | ⟨_, -, h⟩
          · exact ensure_semantic h
        rcases Checked.bind_error h with h | ⟨_, -, h⟩
        · exact stepTraceRecord_semantic h
        · cases h

/-- **`parse_trace` fails only with a `SemanticError`.** -/
theorem parseTrace_semantic {fault : Fault} (h : parseTrace data sidecar = .error fault) :
    fault.Semantic := by
  rcases Checked.bind_error h with h | ⟨_, hsize, h⟩
  · exact ensure_semantic h
  · rcases Checked.bind_error h with h | ⟨header, -, h⟩
    · exact (unpackHeader_total hsize h).elim
    · rcases Checked.bind_error h with h | ⟨_, hcheck, h⟩
      · unfold checkHeader at h
        iterate 7
          rcases Checked.bind_error h with h | ⟨_, -, h⟩
          · exact ensure_semantic h
        exact ensure_semantic h
      · have haccepted := checkHeader_ok.mp hcheck
        rcases Checked.bind_error h with h | ⟨_, -, h⟩
        · obtain ⟨_, index, _, hinside, h⟩ := Checked.foldlM_error
            (fun _ indexes => ∀ index ∈ indexes, index < header.count)
            (fun _ _ _ _ hall _ index hindex => hall index (List.mem_cons_of_mem _ hindex))
            (fun index hindex => List.mem_range.mp hindex) h
          exact parseRecord_semantic (haccepted.inside (hinside index List.mem_cons_self)) h
        · iterate 2
            rcases Checked.bind_error h with h | ⟨_, -, h⟩
            · exact ensure_semantic h
          cases h

/-- **`parse_partial_trace` fails only with a `SemanticError`.** -/
theorem parsePartialTrace_semantic {rank : ℕ} {fault : Fault}
    (h : parsePartialTrace data sidecar rank = .error fault) : fault.Semantic := by
  rcases Checked.bind_error h with h | ⟨_, hsize, h⟩
  · exact ensure_semantic h
  · rcases Checked.bind_error h with h | ⟨header, -, h⟩
    · exact (unpackHeader_total hsize h).elim
    · rcases Checked.bind_error h with h | ⟨_, hidentity, h⟩
      · exact ensure_semantic h
      · rcases Checked.bind_error h with h | ⟨_, hlength, h⟩
        · exact ensure_semantic h
        · obtain ⟨-, -, -, hrecord, -⟩ := Checked.ensure_ok.mp hidentity
          obtain ⟨-, hlength, -⟩ := Checked.ensure_ok.mp hlength
          rcases Checked.bind_error h with h | ⟨_, -, h⟩
          · obtain ⟨_, index, _, hinside, h⟩ := Checked.foldlM_error
              (fun _ indexes => ∀ index ∈ indexes, index < header.count)
              (fun _ _ _ _ hall _ index hindex => hall index (List.mem_cons_of_mem _ hindex))
              (fun index hindex => List.mem_range.mp hindex) h
            exact partialRecord_total (recordInside hlength hrecord (hinside index List.mem_cons_self)) h
          · cases h

end Faults

/-! ## Round trips -/

section RoundTrip
variable {sidecar : TraceSidecar} {records : List RawStepTraceRecord}

/-- What the check of a record says. -/
theorem check_ok {fields : RawTraceFields} : fields.check = .ok () ↔
    (∀ item ∈ fields.unsigneds, item.1 ≤ item.2.2) ∧ (-0x8000 ≤ fields.peer ∧ fields.peer ≤ 0x7FFF) ∧
      fields.reserved = 0 ∧ fields.tbReach ≤ fields.dependencyDone ∧
        fields.dependencyDone ≤ fields.transferStart ∧ fields.transferStart ≤ fields.transferEnd := by
  simp only [RawTraceFields.check, unsignedField, Checked.bind_ok, Checked.ensure_ok]
  constructor
  · rintro ⟨_, hunsigned, -, hpeer, -, hreserved, hmonotonic⟩
    exact ⟨fun item hitem => Checked.ensure_ok.mp (Checked.forM_ok.mp hunsigned item hitem), hpeer,
      hreserved, hmonotonic⟩
  · rintro ⟨hunsigned, hpeer, hreserved, hmonotonic⟩
    exact ⟨(), Checked.forM_ok.mpr fun item hitem => Checked.ensure_ok.mpr (hunsigned item hitem), (),
      hpeer, (), hreserved, hmonotonic⟩

/-- **A record fits its format.** -/
theorem packRecord_exists (record : RawStepTraceRecord) : ∃ bytes, packRecord record = .ok bytes := by
  obtain ⟨hunsigned, ⟨hlow, hhigh⟩, -, -⟩ := check_ok.mp record.checked
  simp only [RawTraceFields.unsigneds, List.forall_mem_cons, List.not_mem_nil, false_imp_iff,
    implies_true, and_true] at hunsigned
  obtain ⟨h1, h2, h3, h4, h5, h6, h7, h8, h9, h10, h11, h12⟩ := hunsigned
  obtain ⟨bytes, hbytes⟩ : ∃ bytes, Packed.pack rawRecordStruct record.values = some bytes := by
    apply Packed.pack_fits
    simp only [rawRecordStruct, RawTraceFields.values, List.filter_cons, reduceCtorEq, exists_false,
      Field.pad.injEq, exists_eq', not_true, not_false_eq_true, decide_true, decide_false, if_true,
      if_false, Bool.false_eq_true, List.filter_nil, List.forall₂_cons, List.Forall₂.nil, and_true,
      Field.Fits]
    omega
  exact ⟨bytes, Checked.required_ok.mpr hbytes⟩

theorem packRecord_length {record : RawStepTraceRecord} {bytes : List UInt8}
    (h : packRecord record = .ok bytes) : bytes.length = Packed.size rawRecordStruct :=
  Packed.length_pack (Checked.required_ok.mp h)

/-- **A record is read back** from where it was put. -/
theorem decodeRecord_pack {record : RawStepTraceRecord} {front bytes rest : List UInt8} {offset : ℕ}
    (h : packRecord record = .ok bytes) (hoffset : front.length = offset) :
    decodeRecord (front ++ (bytes ++ rest)) offset = .ok record := by
  simp only [decodeRecord, Checked.bind_ok, Checked.required_ok, record_ok]
  exact ⟨_, Packed.unpackFrom_pack (Checked.required_ok.mp h) hoffset, _, rfl, rfl⟩

/-- Packed records are all of one length. -/
theorem length_flatten {packed : List (List UInt8)} {n : ℕ} (h : ∀ bytes ∈ packed, bytes.length = n) :
    packed.flatten.length = packed.length * n := by
  induction packed with
  | nil => simp
  | cons bytes packed ih =>
    rw [List.flatten_cons, List.length_append, h bytes List.mem_cons_self,
      ih fun other hother => h other (List.mem_cons_of_mem _ hother), List.length_cons, Nat.add_mul,
      Nat.one_mul, Nat.add_comm]

/-- What a trace has to be to be read back: records of one rank that agree with the sidecar,
none twice, and every iteration complete. -/
structure Traceable (sidecar : TraceSidecar) (rank : ℕ) (records : List RawStepTraceRecord) : Prop where
  rank : ∀ record ∈ records, record.rank = rank
  agrees : ∀ record ∈ records, ∃ metadata, sidecar.entries.get? record.key = some metadata ∧
    record.Agrees metadata
  once : (records.map fun record => ((record.tbId, record.stepIndex), record.iteration)).Nodup

/-- Every iteration has all steps of the rank. -/
def CompleteIterations (sidecar : TraceSidecar) (rank : ℕ) (records : List RawStepTraceRecord) : Prop :=
  ∀ record ∈ records, ∀ step ∈ sidecar.expectedSteps rank, ∃ other ∈ records,
    other.iteration = record.iteration ∧ (other.tbId, other.stepIndex) = step

variable {rank : ℕ}

/-- Each record with its entry. -/
theorem Traceable.traces (h : Traceable sidecar rank records) : ∃ traces : List StepTraceRecord,
    traces.map (·.raw) = records ∧
      ∀ trace ∈ traces, sidecar.entries.get? trace.raw.key = some trace.metadata := by
  obtain ⟨-, hagrees, -⟩ := h
  induction records with
  | nil => exact ⟨[], rfl, by simp⟩
  | cons record records ih =>
    obtain ⟨traces, hraw, hentries⟩ := ih fun other hother => hagrees other (List.mem_cons_of_mem _ hother)
    obtain ⟨metadata, hentry, hagree⟩ := hagrees record List.mem_cons_self
    exact ⟨⟨record, metadata, hagree⟩ :: traces, by rw [List.map_cons, hraw],
      List.forall_mem_cons.mpr ⟨hentry, hentries⟩⟩

/-- **Encoded records are there to be read.** -/
theorem encode_reads (h : Traceable sidecar rank records) (hrank : rank ≤ 0xFFFFFFFF) {capacity : Option ℕ}
    (hcapacity : records.length ≤ capacity.getD records.length)
    (hbound : capacity.getD records.length ≤ 0xFFFFFFFFFFFFFFFF) :
    ∃ data header traces, encodeRawTrace records rank capacity false = .ok data ∧
      Packed.size rawHeaderStruct ≤ data.length ∧ unpackHeader data = .ok header ∧
      header.Accepted data ∧ header.rank = rank ∧ traces.map (·.raw) = records ∧
      ReadsAll data sidecar header (List.range header.count) traces ∧
      (traces.map (·.stepKey)).Nodup := by
  obtain ⟨traces, hraw, hentries⟩ := h.traces
  obtain ⟨packed, hpacked⟩ := Checked.mapM_total fun record (_ : record ∈ records) =>
    packRecord_exists record
  set header : TraceHeader := {
    magic := traceMagic
    version := traceVersion
    headerSize := Packed.size rawHeaderStruct
    recordSize := Packed.size rawRecordStruct
    rank := rank
    count := records.length
    capacity := capacity.getD records.length
    overflow := if false = true then traceOverflowFlag else 0
    reserved := 0 } with hheader
  obtain ⟨front, hfront⟩ : ∃ front, Packed.pack rawHeaderStruct header.values = some front := by
    have hhsize : Packed.size rawHeaderStruct = 40 := rfl
    have hrsize : Packed.size rawRecordStruct = 64 := rfl
    apply Packed.pack_fits
    simp only [rawHeaderStruct, TraceHeader.values, hheader, List.filter_cons, reduceCtorEq, exists_false,
      not_false_eq_true, decide_true, if_true, List.filter_nil, List.forall₂_cons, List.Forall₂.nil,
      and_true, Field.Fits, hrsize, traceMagic, traceVersion, Bool.false_eq_true, if_false]
    have hsize : Packed.size [Field.unsigned 4, .unsigned 2, .unsigned 2, .unsigned 4, .unsigned 4,
      .unsigned 8, .unsigned 8, .unsigned 4, .unsigned 4] = 40 := rfl
    rw [hsize]
    omega
  have hfrontLength : front.length = Packed.size rawHeaderStruct := Packed.length_pack hfront
  have hlengths : ∀ bytes ∈ packed, bytes.length = Packed.size rawRecordStruct := by
    intro bytes hbytes
    obtain ⟨record, -, h⟩ := Checked.mapM_right hpacked hbytes
    exact packRecord_length h
  have hcount : packed.length = records.length := (Checked.mapM_ok.mp hpacked).length_eq.symm
  have hunpack : unpackHeader (front ++ packed.flatten) = .ok header := by
    have hread : Packed.unpackFrom rawHeaderStruct ([] ++ (front ++ packed.flatten)) 0 = _ :=
      Packed.unpackFrom_pack hfront rfl
    simp only [unpackHeader, Checked.bind_ok, Checked.required_ok]
    exact ⟨_, hread, rfl⟩
  refine ⟨front ++ packed.flatten, header, traces, ?_, ?_, hunpack, ?_, rfl, hraw, ?_, ?_⟩
  · simp only [encodeRawTrace, unsignedField, Checked.bind_ok, Checked.ensure_ok, Checked.required_ok,
      Checked.pure_ok]
    exact ⟨(), hrank, (), h.rank, (), hbound, (), hcapacity, front, hfront, packed, hpacked, rfl⟩
  · rw [List.length_append, hfrontLength]
    exact Nat.le_add_right _ _
  · refine ⟨rfl, rfl, rfl, rfl, hcapacity, rfl, rfl, ?_⟩
    rw [List.length_append, hfrontLength, length_flatten hlengths, hcount]
  · -- the record of a trace is where its index says
    have htraces : traces.length = records.length := by rw [← hraw, List.length_map]
    refine List.forall₂_iff_get.mpr ⟨by rw [List.length_range, htraces], fun i hi hi' => ?_⟩
    rw [List.get_eq_getElem, List.getElem_range, readRecord_ok]
    have hmem : traces.get ⟨i, hi'⟩ ∈ traces := List.get_mem _ _
    have hir : i < records.length := htraces ▸ hi'
    have hip : i < packed.length := hcount ▸ hir
    have hrecord : records[i] = (traces.get ⟨i, hi'⟩).raw := by
      simp only [← hraw, List.getElem_map, List.get_eq_getElem]
    have hpack : packRecord (traces.get ⟨i, hi'⟩).raw = .ok packed[i] := by
      rw [← hrecord]
      exact (List.forall₂_iff_get.mp (Checked.mapM_ok.mp hpacked)).2 i hir hip
    refine ⟨?_, ?_, hentries _ hmem⟩
    · have hflat : packed.flatten =
          (packed.take i).flatten ++ (packed[i] ++ (packed.drop (i + 1)).flatten) := by
        rw [← List.flatten_cons, ← List.flatten_append, List.getElem_cons_drop, List.take_append_drop]
      rw [hflat, ← List.append_assoc]
      refine decodeRecord_pack hpack ?_
      rw [List.length_append, hfrontLength,
        length_flatten fun bytes hbytes => hlengths bytes (List.mem_of_mem_take hbytes),
        List.length_take, Nat.min_eq_left hip.le]
    · rw [← hrecord]
      exact h.rank _ (List.getElem_mem hir)
  · have hkeys : traces.map (·.stepKey) =
        records.map fun record => ((record.tbId, record.stepIndex), record.iteration) := by
      rw [← hraw, List.map_map]
      rfl
    rw [hkeys]
    exact h.once

/-- **Traces are read back.** -/
theorem parseTrace_encode (h : Traceable sidecar rank records)
    (hcomplete : CompleteIterations sidecar rank records)
    (hnonempty : sidecar.expectedSteps rank ≠ ∅ → records ≠ []) (hrank : rank ≤ 0xFFFFFFFF)
    {capacity : Option ℕ} (hcapacity : records.length ≤ capacity.getD records.length)
    (hbound : capacity.getD records.length ≤ 0xFFFFFFFFFFFFFFFF) :
    ∃ data traces, encodeRawTrace records rank capacity false = .ok data ∧
      parseTrace data sidecar = .ok traces ∧ traces.map (·.raw) = records := by
  obtain ⟨data, header, traces, hencode, hsize, hheader, haccepted, rfl, hraw, hall, hnodup⟩ :=
    encode_reads h hrank hcapacity hbound
  refine ⟨data, traces, hencode, parseTrace_ok.mpr ⟨hsize, header, hheader, haccepted, hall, hnodup,
    ?_, fun iteration hiteration => (stepsOf_subset hall iteration).antisymm fun step hstep => ?_⟩, hraw⟩
  · by_cases hexpected : sidecar.expectedSteps header.rank = ∅
    · exact .inl hexpected
    · obtain ⟨record, hrecord⟩ := List.exists_mem_of_ne_nil _ (hnonempty hexpected)
      rw [← hraw] at hrecord
      obtain ⟨trace, htrace, -⟩ := List.mem_map.mp hrecord
      refine .inr (Finset.nonempty_iff_ne_empty.mp ⟨trace.raw.iteration, ?_⟩)
      exact List.mem_toFinset.mpr (List.mem_map_of_mem htrace)
  · obtain ⟨trace, htrace, rfl⟩ := List.mem_map.mp (List.mem_toFinset.mp hiteration)
    obtain ⟨other, hother, hsame, rfl⟩ := hcomplete trace.raw (hraw ▸ List.mem_map_of_mem htrace) step hstep
    rw [← hraw] at hother
    obtain ⟨trace', htrace', rfl⟩ := List.mem_map.mp hother
    rw [stepsOf, List.mem_toFinset, List.mem_map]
    exact ⟨trace', List.mem_filter.mpr ⟨htrace', by simpa using hsame⟩, rfl⟩

end RoundTrip

/-! ## The two parsers -/

/-- **The codec and its two parsers.**  Traces are read back; `parse_trace` accepts what
`parse_partial_trace` finds no issue in and where no iteration lacks a step, with the same
records; and both fail only with a `SemanticError`. -/
theorem trace_parsers_agree :
    (∀ (sidecar : TraceSidecar) (rank : ℕ) (records : List RawStepTraceRecord) (capacity : Option ℕ),
      Traceable sidecar rank records → CompleteIterations sidecar rank records →
      (sidecar.expectedSteps rank ≠ ∅ → records ≠ []) → rank ≤ 0xFFFFFFFF →
      records.length ≤ capacity.getD records.length →
      capacity.getD records.length ≤ 0xFFFFFFFFFFFFFFFF →
      ∃ data traces, encodeRawTrace records rank capacity false = .ok data ∧
        parseTrace data sidecar = .ok traces ∧ traces.map (·.raw) = records) ∧
    (∀ (data : List UInt8) (sidecar : TraceSidecar) (rank : ℕ) (records : List StepTraceRecord),
      (∀ header, unpackHeader data = .ok header → header.rank = rank) →
      (parseTrace data sidecar = .ok records ↔
        (∃ trace, parsePartialTrace data sidecar rank = .ok trace ∧ trace.issues = [] ∧
          trace.records = records) ∧
        ∀ iteration ∈ iterationsOf records, sidecar.expectedSteps rank ⊆ stepsOf records iteration)) ∧
    ∀ (data : List UInt8) (sidecar : TraceSidecar) (fault : Fault),
      (parseTrace data sidecar = .error fault → fault.Semantic) ∧
        ∀ rank, parsePartialTrace data sidecar rank = .error fault → fault.Semantic :=
  ⟨fun _ _ _ _ h hcomplete hnonempty hrank hcapacity hbound =>
      parseTrace_encode h hcomplete hnonempty hrank hcapacity hbound,
    fun _ _ _ _ hrank => parseTrace_iff_partial hrank,
    fun _ _ _ => ⟨parseTrace_semantic, fun _ => parsePartialTrace_semantic⟩⟩

/-! ## An iteration that lacks a step -/

/-- A send of rank 0 in an iteration. -/
def sendFields (stepIndex iteration : ℕ) : RawTraceFields where
  rank := 0
  tbId := 0
  stepIndex := stepIndex
  endpointType := 0
  peer := 1
  channel := 0
  iteration := iteration
  tbReach := 1
  dependencyDone := 2
  transferStart := 3
  transferEnd := 4
  flags := 0
  reserved := 0

/-- The entry of a send. -/
def sendMetadata (stepIndex : ℕ) : TraceStepMetadata where
  rank := 0
  tbId := 0
  stepIndex := stepIndex
  runtimeEndpointType := 0
  peer := 1
  runtimeChannel := 0

/-- A rank with two sends. -/
def sendSidecar : TraceSidecar where
  rankCount := 2
  entries := [((0, 0, 0), sendMetadata 0), ((0, 0, 1), sendMetadata 1)]

/-- The first send. -/
def sendRecord : RawStepTraceRecord := ⟨sendFields 0 0, rfl⟩

/-- Both sends, and the first one once more. -/
def sendRecords : List RawStepTraceRecord :=
  [sendRecord, ⟨sendFields 1 0, rfl⟩, ⟨sendFields 0 1, rfl⟩]

/-- The first send with its metadata. -/
def sendTrace : StepTraceRecord := ⟨sendRecord, sendMetadata 0, rfl, rfl, rfl, rfl⟩

theorem sendRecords_traceable : Traceable sendSidecar 0 sendRecords where
  rank := by decide
  agrees := by
    simp only [sendRecords, List.forall_mem_cons]
    exact ⟨⟨sendMetadata 0, rfl, rfl, rfl, rfl, rfl⟩, ⟨sendMetadata 1, rfl, rfl, rfl, rfl, rfl⟩,
      ⟨sendMetadata 0, rfl, rfl, rfl, rfl, rfl⟩, by simp⟩
  once := by decide

/-- Records that are read are the same. -/
theorem ReadsAll.unique {data : List UInt8} {sidecar : TraceSidecar} {header : TraceHeader}
    {indexes : List ℕ} {records records' : List StepTraceRecord}
    (h : ReadsAll data sidecar header indexes records)
    (h' : ReadsAll data sidecar header indexes records') : records = records' := by
  induction h generalizing records' with
  | nil =>
    cases h'
    rfl
  | cons hread _ ih =>
    cases h' with
    | cons hread' hrest' => rw [Except.ok.inj (hread.symm.trans hread'), ih hrest']

/-- **The two parsers disagree** on a trace whose second iteration lacks a step, a trace
without records is not read back, and a capacity of more than 64 bits is not written. -/
theorem trace_parsers_disagree :
    (∃ data, encodeRawTrace sendRecords 0 none false = .ok data ∧
      (∃ trace, parsePartialTrace data sendSidecar 0 = .ok trace ∧ trace.issues = []) ∧
        ∀ records, parseTrace data sendSidecar ≠ .ok records) ∧
    (Traceable sendSidecar 0 [] ∧ CompleteIterations sendSidecar 0 [] ∧
      ∃ data, encodeRawTrace [] 0 none false = .ok data ∧
        ∀ records, parseTrace data sendSidecar ≠ .ok records) ∧
    ∀ data, encodeRawTrace [] 0 (some (2 ^ 64)) false ≠ .ok data := by
  refine ⟨?_, ⟨⟨by simp, by simp, by simp⟩, by simp [CompleteIterations], ?_⟩, fun data h => ?_⟩
  · have hcapacity : sendRecords.length ≤ (none : Option ℕ).getD sendRecords.length := le_rfl
    have hbound : (none : Option ℕ).getD sendRecords.length ≤ 0xFFFFFFFFFFFFFFFF := by decide
    obtain ⟨data, header, traces, hencode, hsize, hheader, haccepted, hrank, hraw, hall, hnodup⟩ :=
      encode_reads sendRecords_traceable (by decide) hcapacity hbound
    have hexpected : sendSidecar.expectedSteps 0 = {(0, 0), (0, 1)} := by decide
    have hsteps : traces.map (·.step) = sendRecords.map fun record => (record.tbId, record.stepIndex) := by
      rw [← hraw, List.map_map]
      rfl
    refine ⟨data, hencode, ?_, fun records hparse => ?_⟩
    · obtain ⟨trace, htrace, hissues, -⟩ := parsePartialTrace_ok.mpr ⟨hsize, header, hheader, haccepted,
        hrank, hall, hnodup, by rw [hrank, hexpected, hsteps]; decide⟩
      exact ⟨trace, htrace, hissues⟩
    · obtain ⟨-, header', hheader', -, hall', -, -, hcomplete⟩ := parseTrace_ok.mp hparse
      obtain rfl := Except.ok.inj (hheader.symm.trans hheader')
      obtain rfl := hall.unique hall'
      have hstepsOf : stepsOf traces 1 = ((sendRecords.filter (·.iteration = 1)).map fun record =>
          (record.tbId, record.stepIndex)).toFinset := by
        rw [stepsOf, ← hraw, List.filter_map, List.map_map]
        rfl
      have hiteration : 1 ∈ iterationsOf traces := by
        have : traces.map (·.raw.iteration) = sendRecords.map (·.iteration) := by
          rw [← hraw, List.map_map]
          rfl
        rw [iterationsOf, this]
        decide
      have hall := hcomplete 1 hiteration
      rw [hstepsOf, hrank, hexpected] at hall
      exact absurd hall (by decide)
  · have htraceable : Traceable sendSidecar 0 [] := ⟨by simp, by simp, by simp⟩
    have hcapacity : ([] : List RawStepTraceRecord).length ≤ (none : Option ℕ).getD 0 := le_rfl
    obtain ⟨data, header, traces, hencode, -, hheader, -, hrank, hraw, hall, -⟩ :=
      encode_reads htraceable (by decide) hcapacity (by decide)
    refine ⟨data, hencode, fun records hparse => ?_⟩
    obtain ⟨-, header', hheader', -, hall', -, hnonempty, -⟩ := parseTrace_ok.mp hparse
    obtain rfl := Except.ok.inj (hheader.symm.trans hheader')
    obtain rfl := hall.unique hall'
    obtain rfl := List.map_eq_nil_iff.mp hraw
    rw [hrank] at hnonempty
    exact hnonempty.elim (fun hnone => absurd hnone (by decide)) fun hsome => hsome rfl
  · simp only [encodeRawTrace, unsignedField, Checked.bind_ok, Checked.ensure_ok] at h
    obtain ⟨-, -, -, -, -, hbound, -⟩ := h
    exact absurd hbound (by decide)

end VeriCCL
