import VeriCCL.NativeManifest

/-! # The storage model's aliases are the real ones

Lowering reasons about `canonical_region`, the runtime works on pointers.  For the geometry
that `export_manifest` writes and `WorkSpec::parse` accepts (`NativeGeometry`), and pointers
that `validate_buffers` accepts (`AcceptedPointers`), two slices of a rank share a byte exactly when
their canonical regions overlap, and no address wraps around. -/
namespace VeriCCL

/-! ## Checked machine words -/

theorem nativeInteger_ok {value : ℤ} {name : String} {maximum : ℕ} {u : UInt64}
    (h : nativeInteger value name maximum = .ok u) : (u.toNat : ℤ) = value ∧ value ≤ maximum := by
  unfold nativeInteger at h
  split at h
  · cases h
  · rename_i hrange
    split at h
    · cases h
    · rename_i hmax
      cases h
      rw [UInt64.toNat_ofNat']
      omega

/-- A natural number that was read is the number that was written. -/
theorem nativeInteger_nat {value : ℕ} {name : String} {maximum : ℕ} {u : UInt64}
    (h : nativeInteger value name maximum = .ok u) : u.toNat = value := by
  have := (nativeInteger_ok h).1
  omega

/-! ## The geometry of one rank -/

/-- What the runtime knows about the buffers of a rank is what lowering assumes: the slots of
the program, and for shared storage the position of each buffer in it. -/
structure NativeGeometry (program : NativeProgram) (inputs : ResolvedInput) (rank : ℕ)
    (g : BufferGeometry) : Prop where
  inputBytes : ∃ slots, program.inputSlots.get? rank = some slots ∧
    g.inputBytes.toNat = slots * inputs.sliceSizeBytes
  outputBytes : ∃ slots, program.outputSlots.get? rank = some slots ∧
    g.outputBytes.toNat = slots * inputs.sliceSizeBytes
  inplace : g.inplace = inputs.collective.inplace
  inputOffset : inputs.collective.inplace = true → g.inputOffset.toNat =
    inplaceBase inputs ⟨rank, .i, 0⟩ * inputs.sliceSizeBytes
  outputOffset : inputs.collective.inplace = true → g.outputOffset.toNat =
    inplaceBase inputs ⟨rank, .o, 0⟩ * inputs.sliceSizeBytes

section Export

variable {program : NativeProgram} {inputs : ResolvedInput} {traceRecords : Option (Dict ℕ ℕ)}
  {tracePrefix : Option String} {manifest : Manifest}

/-- What the exported entry of a rank says about its buffers. -/
theorem manifestRank_ok {rank : ℕ} {item : ManifestRank}
    (h : manifestRank program inputs traceRecords tracePrefix rank = .ok item) :
    (∃ slots, program.inputSlots.get? rank = some slots ∧
        item.inputBytes = slots * inputs.sliceSizeBytes) ∧
      (∃ slots, program.outputSlots.get? rank = some slots ∧
        item.outputBytes = slots * inputs.sliceSizeBytes) ∧
      item.inputOffsetBytes = (if inputs.collective.inplace = true ∧
        inputs.collective.kind.value = "allgather" then rank * inputs.totalSizeBytes else 0) ∧
      item.outputOffsetBytes = (if inputs.collective.inplace = true ∧
        inputs.collective.kind.value = "reduce_scatter" then
          rank * (inputs.totalSizeBytes / inputs.rankCount) else 0) := by
  unfold manifestRank at h
  simp only [Checked.bind_ok, Checked.required_ok, Checked.pure_ok] at h
  obtain ⟨_, -, i, hi, o, ho, _, -, rfl⟩ := h
  exact ⟨⟨i, hi, rfl⟩, ⟨o, ho, rfl⟩, rfl, rfl⟩

/-- What the exported document says about the request. -/
theorem exportManifest_ok (h : exportManifest program inputs traceRecords tracePrefix = .ok manifest) :
    (List.Forall₂ (fun rank item =>
        manifestRank program inputs traceRecords tracePrefix rank = .ok item)
      (List.range inputs.rankCount) manifest.ranks) ∧
      manifest.collective = inputs.collective.kind.value ∧
      manifest.inplace = inputs.collective.inplace ∧ manifest.rankCount = inputs.rankCount ∧
      manifest.inputSizeBytes = inputs.totalSizeBytes ∧
      manifest.sliceBytes = inputs.sliceSizeBytes := by
  unfold exportManifest at h
  simp only [Checked.bind_ok, Checked.pure_ok] at h
  obtain ⟨ranks, hranks, rfl⟩ := h
  exact ⟨Checked.mapM_ok.mp hranks, rfl, rfl, rfl, rfl, rfl⟩

/-- The entry at a position of the exported ranks is that rank's. -/
theorem exportManifest_rank
    (h : exportManifest program inputs traceRecords tracePrefix = .ok manifest) {r : ℕ}
    {item : ManifestRank} (hitem : manifest.ranks[r]? = some item) :
    manifestRank program inputs traceRecords tracePrefix r = .ok item := by
  obtain ⟨hranks, -⟩ := exportManifest_ok h
  obtain ⟨hlt, rfl⟩ := List.getElem?_eq_some_iff.mp hitem
  have hlength := hranks.length_eq
  have hget := hranks.get (hlength ▸ hlt) hlt
  simpa using hget

end Export

/-! ## The native reader -/

theorem parseRank_ok {manifest : Manifest} {root : ℤ} {message ranks : UInt64} {r : ℕ}
    {g : LocalGeometry} (h : parseRank manifest root message ranks r = .ok g) :
    ∃ item, manifest.ranks[r]? = some item ∧ g.buffers.inputBytes.toNat = item.inputBytes ∧
      g.buffers.outputBytes.toNat = item.outputBytes ∧
      g.buffers.inputOffset.toNat = item.inputOffsetBytes ∧
      g.buffers.outputOffset.toNat = item.outputOffsetBytes ∧
      g.buffers.inplace = manifest.inplace := by
  unfold parseRank at h
  simp only [Checked.bind_ok, Checked.required_ok, Checked.pure_ok] at h
  obtain ⟨item, hitem, _, -, inBytes, hin, outBytes, hout, _, -, _, -, io, hio, oo, hoo, h⟩ := h
  obtain ⟨_, -, _, -, _, -, _, -, _, -, _, -, _, -, _, -, _, -, _, -, rfl⟩ := h
  exact ⟨item, hitem, nativeInteger_nat hin, nativeInteger_nat hout, nativeInteger_nat hio,
    nativeInteger_nat hoo, rfl⟩

/-- What an accepted manifest has passed. -/
theorem WorkSpec.parse_ok {manifest : Manifest} {rank ranks : Int32} {spec : WorkSpec}
    (h : WorkSpec.parse manifest rank ranks = .ok spec) :
    (manifest.rankCount : ℤ) = ranks.toInt ∧ spec.sliceBytes.toNat = manifest.sliceBytes ∧
      (manifest.collective ∈ ["alltoall", "reduce_scatter"] →
        manifest.inputSizeBytes / manifest.sliceBytes % manifest.rankCount = 0) ∧
      ∃ root message count g, spec.buffers = g.buffers ∧
        parseRank manifest root message count rank.toInt.toNat = .ok g := by
  unfold WorkSpec.parse at h
  simp only [Checked.bind_ok, Checked.required_ok, Checked.pure_ok, Checked.ensure_ok] at h
  obtain ⟨_, ⟨hcount, hpos, hrank, hlt⟩, root, -, _, -, _, -, _, -, _, -, _, -, h⟩ := h
  obtain ⟨message, hmessage, slice, hslice, _, -, _, -, _, -, _, hdvd, _, -, _, -, _, -, h⟩ := h
  obtain ⟨parsed, hparsed, mine, hmine, rfl⟩ := h
  refine ⟨hcount, nativeInteger_nat hslice, fun hkind => ?_, root, message,
    UInt64.ofNat ranks.toInt.toNat, mine, rfl, ?_⟩
  · have hmod := congrArg UInt64.toNat (hdvd hkind)
    have hsmall : ranks.toInt.toNat < 2 ^ 64 := by
      have := ranks.toInt_lt
      omega
    rw [UInt64.toNat_mod, UInt64.toNat_div, UInt64.toNat_ofNat', Nat.mod_eq_of_lt hsmall,
      nativeInteger_nat hmessage, nativeInteger_nat hslice] at hmod
    have hranks : ranks.toInt.toNat = manifest.rankCount := by omega
    rwa [hranks] at hmod
  · obtain ⟨hlt', rfl⟩ := List.getElem?_eq_some_iff.mp hmine
    have hall := Checked.mapM_ok.mp hparsed
    have hbound : rank.toInt.toNat < (List.range ranks.toInt.toNat).length := by
      rw [List.length_range]
      omega
    have hget := hall.get hbound hlt'
    simpa using hget

/-- **The runtime reads the geometry that lowering assumes.** -/
theorem nativeGeometry_of_parse {program : NativeProgram} {inputs : ResolvedInput}
    {traceRecords : Option (Dict ℕ ℕ)} {tracePrefix : Option String} {manifest : Manifest}
    {rank ranks : Int32} {spec : WorkSpec}
    (hexport : exportManifest program inputs traceRecords tracePrefix = .ok manifest)
    (hparse : WorkSpec.parse manifest rank ranks = .ok spec) :
    NativeGeometry program inputs rank.toInt.toNat spec.buffers := by
  obtain ⟨-, -, hdvd, root, message, count, g, hbuffers, hg⟩ := WorkSpec.parse_ok hparse
  obtain ⟨item, hitem, hin, hout, hio, hoo, hinplace⟩ := parseRank_ok hg
  obtain ⟨⟨i, hi, hinBytes⟩, ⟨o, ho, houtBytes⟩, hinOffset, houtOffset⟩ :=
    manifestRank_ok (exportManifest_rank hexport hitem)
  obtain ⟨-, hkind, hman, hcount, htotal, hslice⟩ := exportManifest_ok hexport
  have hwhole : inputs.sliceCount * inputs.sliceSizeBytes = inputs.totalSizeBytes :=
    Nat.div_mul_cancel inputs.slice_dvd
  rw [hbuffers]
  refine ⟨⟨i, hi, hin.trans hinBytes⟩, ⟨o, ho, hout.trans houtBytes⟩, hinplace.trans hman,
    fun hshared => ?_, fun hshared => ?_⟩
  · rw [hio, hinOffset, hshared]
    cases hk : inputs.collective.kind <;>
      simp [inplaceBase, hk, CollectiveKind.value, Nat.mul_assoc, hwhole]
  · rw [hoo, houtOffset, hshared]
    cases hk : inputs.collective.kind <;> simp [inplaceBase, hk, CollectiveKind.value]
    -- the parts of a reduce-scatter are whole slices
    have hmod : inputs.sliceCount % inputs.rankCount = 0 := by
      have := hdvd (by simp [hkind, hk, CollectiveKind.value])
      rwa [htotal, hslice, hcount] at this
    have hpart : inputs.totalSizeBytes / inputs.rankCount =
        inputs.sliceCount / inputs.rankCount * inputs.sliceSizeBytes := by
      rw [← hwhole, Nat.mul_comm, Nat.mul_div_assoc _ (Nat.dvd_of_mod_eq_zero hmod), Nat.mul_comm]
    rw [hpart, Nat.mul_assoc]

/-! ## The pointers of a call -/

/-- What accepted pointers satisfy. -/
structure AcceptedPointers (g : BufferGeometry) (input output : UInt64) : Prop where
  inputFits : input.toNat + g.inputBytes.toNat < 2 ^ 64
  outputFits : output.toNat + g.outputBytes.toNat < 2 ^ 64
  shared : g.inplace = true → ∃ base, input.toNat = base + g.inputOffset.toNat ∧
    output.toNat = base + g.outputOffset.toNat
  apart : g.inplace = false → 0 < g.inputBytes.toNat → 0 < g.outputBytes.toNat →
    output.toNat + g.outputBytes.toNat ≤ input.toNat ∨
      input.toNat + g.inputBytes.toNat ≤ output.toNat

/-- A buffer that passed the overflow check ends below the last address. -/
theorem fits_of_check {pointer bytes : UInt64} (h : ¬ uintptrMax - pointer < bytes) :
    pointer.toNat + bytes.toNat < 2 ^ 64 := by
  have hmax : uintptrMax.toNat = 2 ^ 64 - 1 := rfl
  have hpointer := pointer.toNat_lt
  have hle : pointer ≤ uintptrMax := UInt64.le_iff_toNat_le.mpr (by omega)
  rw [UInt64.lt_iff_toNat_lt, UInt64.toNat_sub_of_le _ _ hle] at h
  omega

theorem accepted_of_validate {g : BufferGeometry} {input inputSize output outputSize : UInt64}
    (h : validateBuffers g input inputSize output outputSize = .ok ()) :
    AcceptedPointers g input output := by
  unfold validateBuffers at h
  simp only [Checked.bind_ok, Checked.ensure_ok, not_or] at h
  obtain ⟨_, -, _, ⟨hin, hout⟩, h⟩ := h
  have hinFits := fits_of_check hin
  have houtFits := fits_of_check hout
  refine ⟨hinFits, houtFits, fun hshared => ?_, fun hshared hi ho => ?_⟩
  · rw [if_pos hshared] at h
    simp only [Checked.ensure_ok] at h
    obtain ⟨hio, hoo, hbase⟩ := h
    have hio : g.inputOffset ≤ input := UInt64.not_lt.mp hio
    have hoo : g.outputOffset ≤ output := UInt64.not_lt.mp hoo
    have hsame := congrArg UInt64.toNat (not_not.mp hbase)
    rw [UInt64.toNat_sub_of_le _ _ hio, UInt64.toNat_sub_of_le _ _ hoo] at hsame
    rw [UInt64.le_iff_toNat_le] at hio hoo
    exact ⟨input.toNat - g.inputOffset.toNat, by omega, by omega⟩
  · rw [if_neg (by simp [hshared]), Checked.ensure_ok] at h
    have hi' : g.inputBytes ≠ 0 := by
      rintro hzero
      simp [hzero] at hi
    have ho' : g.outputBytes ≠ 0 := by
      rintro hzero
      simp [hzero] at ho
    simp only [hi', ho', ne_eq, not_false_eq_true, true_and, not_and_or, UInt64.lt_iff_toNat_lt,
      UInt64.toNat_add, Nat.mod_eq_of_lt hinFits, Nat.mod_eq_of_lt houtFits] at h
    omega

/-! ## Slices in memory -/

/-- The slots a program declares for the inputs or the outputs of its ranks. -/
def NativeProgram.declaredSlots (program : NativeProgram) : Buffer → Dict ℕ ℕ
  | .i => program.inputSlots
  | .o => program.outputSlots
  | .s => program.scratchSlots

/-- The address is an input or output slice that the program declares. -/
def DeclaredSlice (program : NativeProgram) (address : Address) : Prop :=
  address.buffer ≠ .s ∧
    ∃ slots, (program.declaredSlots address.buffer).get? address.rank = some slots ∧
      address.offset < slots

instance (program : NativeProgram) (address : Address) : Decidable (DeclaredSlice program address) :=
  match h : (program.declaredSlots address.buffer).get? address.rank with
  | none => isFalse fun hdeclared => by simp [DeclaredSlice, h] at hdeclared
  | some slots =>
    decidable_of_iff (address.buffer ≠ .s ∧ address.offset < slots) (by simp [DeclaredSlice, h])

/-- The pointer of the buffer that an address is in. -/
def bufferPointer (input output : UInt64) : Buffer → UInt64
  | .o => output
  | _ => input

/-- The machine address of a slice: `input + k * S` or `output + k * S`. -/
def machineAddress (input output sliceBytes : UInt64) (address : Address) : UInt64 :=
  bufferPointer input output address.buffer + UInt64.ofNat address.offset * sliceBytes

/-- Two slices share a byte. -/
def SharesByte (a b sliceBytes : UInt64) : Prop :=
  ∃ byte, (a.toNat ≤ byte ∧ byte < a.toNat + sliceBytes.toNat) ∧
    (b.toNat ≤ byte ∧ byte < b.toNat + sliceBytes.toNat)

theorem sharesByte_iff {a b sliceBytes : UInt64} : SharesByte a b sliceBytes ↔
    max a.toNat b.toNat < min (a.toNat + sliceBytes.toNat) (b.toNat + sliceBytes.toNat) := by
  constructor
  · rintro ⟨byte, ⟨ha, ha'⟩, hb, hb'⟩
    omega
  · intro h
    exact ⟨max a.toNat b.toNat, by omega, by omega⟩

section Slices

variable {program : NativeProgram} {inputs : ResolvedInput} {rank : ℕ} {g : BufferGeometry}
  {input output sliceBytes : UInt64} {a b : Address}

/-- The bytes of the buffer that an address is in. -/
def BufferGeometry.bytesOf (g : BufferGeometry) : Buffer → ℕ
  | .o => g.outputBytes.toNat
  | _ => g.inputBytes.toNat

/-- A declared slice lies inside its buffer. -/
theorem NativeGeometry.slice_le (h : NativeGeometry program inputs rank g)
    (ha : DeclaredSlice program a) (hrank : a.rank = rank) :
    a.offset * inputs.sliceSizeBytes + inputs.sliceSizeBytes ≤ g.bytesOf a.buffer := by
  obtain ⟨hbuffer, slots, hslots, hlt⟩ := ha
  have hmul : (a.offset + 1) * inputs.sliceSizeBytes ≤ slots * inputs.sliceSizeBytes :=
    Nat.mul_le_mul_right _ hlt
  rw [Nat.add_mul, Nat.one_mul] at hmul
  cases hk : a.buffer with
  | i =>
    obtain ⟨n, hn, hbytes⟩ := h.inputBytes
    simp only [hk, NativeProgram.declaredSlots, hrank, hn, Option.some.injEq] at hslots
    simpa [BufferGeometry.bytesOf, hbytes, hslots] using hmul
  | o =>
    obtain ⟨n, hn, hbytes⟩ := h.outputBytes
    simp only [hk, NativeProgram.declaredSlots, hrank, hn, Option.some.injEq] at hslots
    simpa [BufferGeometry.bytesOf, hbytes, hslots] using hmul
  | s => exact absurd hk hbuffer

theorem AcceptedPointers.fits (h : AcceptedPointers g input output) (buffer : Buffer) :
    (bufferPointer input output buffer).toNat + g.bytesOf buffer < 2 ^ 64 := by
  cases buffer with
  | o => exact h.outputFits
  | i => exact h.inputFits
  | s => exact h.inputFits

/-- **No computed address wraps around.** -/
theorem machineAddress_exact (hg : NativeGeometry program inputs rank g)
    (hptr : AcceptedPointers g input output) (hslice : sliceBytes.toNat = inputs.sliceSizeBytes)
    (ha : DeclaredSlice program a) (hrank : a.rank = rank) :
    (machineAddress input output sliceBytes a).toNat =
        (bufferPointer input output a.buffer).toNat + a.offset * inputs.sliceSizeBytes ∧
      (machineAddress input output sliceBytes a).toNat + sliceBytes.toNat < 2 ^ 64 := by
  have hin := hg.slice_le ha hrank
  have hfits := hptr.fits a.buffer
  have hpos := inputs.slice_pos
  have hoffset : a.offset ≤ a.offset * inputs.sliceSizeBytes := Nat.le_mul_of_pos_right _ hpos
  have hmul : (UInt64.ofNat a.offset * sliceBytes).toNat = a.offset * inputs.sliceSizeBytes := by
    rw [UInt64.toNat_mul, UInt64.toNat_ofNat', hslice, Nat.mod_eq_of_lt (a := a.offset) (by omega),
      Nat.mod_eq_of_lt (by omega)]
  have haddress : (machineAddress input output sliceBytes a).toNat =
      (bufferPointer input output a.buffer).toNat + a.offset * inputs.sliceSizeBytes := by
    rw [machineAddress, UInt64.toNat_add, hmul, Nat.mod_eq_of_lt (by omega)]
  exact ⟨haddress, by omega⟩

/-- Slices of shared storage lie at their canonical positions from one base. -/
theorem machineAddress_shared (hg : NativeGeometry program inputs rank g)
    (hptr : AcceptedPointers g input output) (hslice : sliceBytes.toNat = inputs.sliceSizeBytes)
    (hshared : inputs.collective.inplace = true) :
    ∃ base, ∀ a, DeclaredSlice program a → a.rank = rank →
      (machineAddress input output sliceBytes a).toNat =
        base + (canonicalRegion inputs a).offset := by
  obtain ⟨base, hin, hout⟩ := hptr.shared (hg.inplace.trans hshared)
  refine ⟨base, fun a ha hrank => ?_⟩
  rw [(machineAddress_exact hg hptr hslice ha hrank).1]
  cases hk : a.buffer with
  | i =>
    have hbase : inplaceBase inputs a = inplaceBase inputs ⟨rank, .i, 0⟩ := by
      simp [inplaceBase, hk, hrank]
    simp only [bufferPointer, canonicalRegion, hk, hshared, sliceRegion]
    rw [hin, hg.inputOffset hshared, hbase, Nat.add_mul, Nat.add_assoc]
  | o =>
    have hbase : inplaceBase inputs a = inplaceBase inputs ⟨rank, .o, 0⟩ := by
      simp [inplaceBase, hk, hrank]
    simp only [bufferPointer, canonicalRegion, hk, hshared, sliceRegion]
    rw [hout, hg.outputOffset hshared, hbase, Nat.add_mul, Nat.add_assoc]
  | s => exact absurd hk ha.1

/-- Slices at their canonical positions from one base share a byte when their regions overlap. -/
theorem sharesByte_of_base (hslice : sliceBytes.toNat = inputs.sliceSizeBytes) {x y base : ℕ}
    {u v : UInt64} (hu : u.toNat = base + x) (hv : v.toNat = base + y) :
    SharesByte u v sliceBytes ↔
      max x y < min (x + inputs.sliceSizeBytes) (y + inputs.sliceSizeBytes) := by
  rw [sharesByte_iff, hu, hv, hslice]
  omega

/-- The bytes of the input and of the output buffer are apart when they are not shared. -/
theorem not_sharesByte_apart (hg : NativeGeometry program inputs rank g)
    (hptr : AcceptedPointers g input output) (hslice : sliceBytes.toNat = inputs.sliceSizeBytes)
    (hown : inputs.collective.inplace = false) (ha : DeclaredSlice program a) (hra : a.rank = rank)
    (hb : DeclaredSlice program b) (hrb : b.rank = rank) (hka : a.buffer = .i) (hkb : b.buffer = .o) :
    ¬ SharesByte (machineAddress input output sliceBytes a)
      (machineAddress input output sliceBytes b) sliceBytes := by
  have hpos := inputs.slice_pos
  have hain := hg.slice_le ha hra
  have hbin := hg.slice_le hb hrb
  have haddress := (machineAddress_exact hg hptr hslice ha hra).1
  have hbddress := (machineAddress_exact hg hptr hslice hb hrb).1
  simp only [hka, hkb, BufferGeometry.bytesOf, bufferPointer] at hain hbin haddress hbddress
  have hapart := hptr.apart (hg.inplace.trans hown) (by omega) (by omega)
  rw [sharesByte_iff, haddress, hbddress, hslice]
  omega

theorem SharesByte.symm {u v : UInt64} (h : SharesByte u v sliceBytes) :
    SharesByte v u sliceBytes :=
  h.imp fun _ hbyte => hbyte.symm

theorem sharesByte_iff_overlaps (hg : NativeGeometry program inputs rank g)
    (hptr : AcceptedPointers g input output) (hslice : sliceBytes.toNat = inputs.sliceSizeBytes)
    (ha : DeclaredSlice program a) (hra : a.rank = rank) (hb : DeclaredSlice program b) (hrb : b.rank = rank) :
    SharesByte (machineAddress input output sliceBytes a)
        (machineAddress input output sliceBytes b) sliceBytes ↔
      (canonicalRegion inputs a).overlaps (canonicalRegion inputs b) := by
  cases hshared : inputs.collective.inplace with
  | true =>
    obtain ⟨base, hbase⟩ := machineAddress_shared hg hptr hslice hshared
    rw [sharesByte_of_base hslice (hbase a ha hra) (hbase b hb hrb)]
    cases hka : a.buffer <;> cases hkb : b.buffer <;>
      simp_all [BufferRegion.overlaps, canonicalRegion, sliceRegion, DeclaredSlice]
  | false =>
    have haddress := (machineAddress_exact hg hptr hslice ha hra).1
    have hbddress := (machineAddress_exact hg hptr hslice hb hrb).1
    cases hka : a.buffer with
    | s => exact absurd hka ha.1
    | i =>
      cases hkb : b.buffer with
      | s => exact absurd hkb hb.1
      | i =>
        rw [hka] at haddress
        rw [hkb] at hbddress
        rw [sharesByte_of_base hslice haddress hbddress]
        simp [BufferRegion.overlaps, canonicalRegion, sliceRegion, hka, hkb, hshared, hra, hrb]
      | o =>
        have hnot := not_sharesByte_apart hg hptr hslice hshared ha hra hb hrb hka hkb
        simp [BufferRegion.overlaps, canonicalRegion, sliceRegion, hka, hkb, hshared, hnot]
    | o =>
      cases hkb : b.buffer with
      | s => exact absurd hkb hb.1
      | i =>
        have hnot : ¬ SharesByte (machineAddress input output sliceBytes a)
            (machineAddress input output sliceBytes b) sliceBytes := fun h =>
          not_sharesByte_apart hg hptr hslice hshared hb hrb ha hra hkb hka h.symm
        simp [BufferRegion.overlaps, canonicalRegion, sliceRegion, hka, hkb, hshared, hnot]
      | o =>
        rw [hka] at haddress
        rw [hkb] at hbddress
        rw [sharesByte_of_base hslice haddress hbddress]
        simp [BufferRegion.overlaps, canonicalRegion, sliceRegion, hka, hkb, hshared, hra, hrb]

end Slices

/-- **The storage model's aliases are the real ones.**  For the geometry that is exported and
accepted, and pointers that are accepted for it, the address of a slice is exact, its last byte
has an address, and two slices share a byte exactly when their canonical regions overlap. -/
theorem native_aliases (program : NativeProgram) (inputs : ResolvedInput)
    (traceRecords : Option (Dict ℕ ℕ)) (tracePrefix : Option String) (manifest : Manifest)
    (rank ranks : Int32) (spec : WorkSpec) (input inputSize output outputSize : UInt64)
    (hexport : exportManifest program inputs traceRecords tracePrefix = .ok manifest)
    (hparse : WorkSpec.parse manifest rank ranks = .ok spec)
    (hvalid : validateBuffers spec.buffers input inputSize output outputSize = .ok ()) :
    ∀ a, DeclaredSlice program a → a.rank = rank.toInt.toNat →
      ((machineAddress input output spec.sliceBytes a).toNat =
          (bufferPointer input output a.buffer).toNat + a.offset * inputs.sliceSizeBytes ∧
        (machineAddress input output spec.sliceBytes a).toNat + inputs.sliceSizeBytes < 2 ^ 64) ∧
      ∀ b, DeclaredSlice program b → b.rank = rank.toInt.toNat →
        (SharesByte (machineAddress input output spec.sliceBytes a)
            (machineAddress input output spec.sliceBytes b) spec.sliceBytes ↔
          (canonicalRegion inputs a).overlaps (canonicalRegion inputs b)) := by
  have hg := nativeGeometry_of_parse hexport hparse
  have hptr := accepted_of_validate hvalid
  have hslice : spec.sliceBytes.toNat = inputs.sliceSizeBytes :=
    (WorkSpec.parse_ok hparse).2.1.trans (exportManifest_ok hexport).2.2.2.2.2
  intro a ha hra
  have hexact := machineAddress_exact hg hptr hslice ha hra
  rw [hslice] at hexact
  exact ⟨hexact, fun b hb hrb => sharesByte_iff_overlaps hg hptr hslice ha hra hb hrb⟩

/-! ## An all-gather of two ranks in place -/

/-- What a rank gathers from each rank. -/
def gatherBytes : ℕ := 8

def gatherInputs : ResolvedInput where
  collective := ⟨.allGather, "float32", none, none, true⟩
  rankCount := 2
  totalSizeBytes := gatherBytes
  sliceSizeBytes := gatherBytes
  maxChannels := 1
  layout := .fused
  scratchBytesPerRank := 16
  bufferSize := 4194304
  compatibilityEnabled := false
  directedLinks := [(0, 1), (1, 0)]
  inputSha256 := ""
  rank_pos := Nat.succ_pos _

def gatherProgram : NativeProgram where
  rankCount := 2
  channels := 1
  chunksPerLoop := 2
  blocks := []
  inputSlots := [(0, 1), (1, 1)]
  outputSlots := [(0, 2), (1, 2)]
  scratchSlots := [(0, 0), (1, 0)]

def gatherRank (rank offset : ℕ) : ManifestRank :=
  ⟨rank, 8, 16, 0, offset, 0, true, 0, 0, 0, []⟩

def gatherManifest : Manifest :=
  ⟨"allgather", "float32", none, none, true, 2, 8, 8, 16, 1, [gatherRank 0 0, gatherRank 1 8], ""⟩

def gatherSpec : WorkSpec :=
  ⟨2, 1, -1, "allgather", "float32", "sum", 4, 8, 8, 16, 1, true, ⟨8, 16, 0, 8, true⟩, true, 0, 0, 0, 0⟩

/-- Rank 1's input is the second slice of its output. -/
theorem native_aliases_gather :
    SharesByte (machineAddress 1008 1000 8 ⟨1, .i, 0⟩) (machineAddress 1008 1000 8 ⟨1, .o, 1⟩) 8 ∧
      ¬ SharesByte (machineAddress 1008 1000 8 ⟨1, .i, 0⟩)
        (machineAddress 1008 1000 8 ⟨1, .o, 0⟩) 8 := by
  have h := (native_aliases gatherProgram gatherInputs none none gatherManifest 1 2 gatherSpec
    1008 8 1000 16 (by rfl) (by rfl) (by rfl) ⟨1, .i, 0⟩ (by decide) (by rfl)).2
  exact ⟨(h ⟨1, .o, 1⟩ (by decide) (by rfl)).mpr (by decide),
    fun hshares => absurd ((h ⟨1, .o, 0⟩ (by decide) (by rfl)).mp hshares) (by decide)⟩

end VeriCCL
