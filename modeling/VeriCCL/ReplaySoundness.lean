import VeriCCL.OutputCoverage
import VeriCCL.ReplayMemory
import Mathlib.Data.String.Basic

/-! # Replay soundness

A schedule that `replay_version_schedule` accepts is correct in byte memory, whatever the
order of the single reads and writes inside the intervals of its operations: an operation
reads and writes its bytes anywhere in its interval, and only what it makes a byte from
must be read before that byte is written.  Where one operation ends no later than another
starts, everything the first does comes before everything the second does.

Two operations of no length at the same instant are the one case that the intervals do
not order.  The replay runs them by their identities; `Execution` takes the rule for
them as a parameter. -/
namespace VeriCCL

/-- The operation of an access. -/
def Trace.Event.operation {ι L : Type} : Trace.Event ι L → ι
  | .read i _ => i
  | .write i _ => i

/-- **An order of reads and writes that the intervals allow.**  Operations that are
simultaneous and have no length are ordered only as `tie` says. -/
structure VersionSchedule.Execution (schedule : VersionSchedule)
    (tie : VersionOperation → VersionOperation → Prop)
    (trace : List (Trace.Event VersionOperation Byte)) : Prop where
  nodup : trace.Nodup
  reads : ∀ op l, .read op l ∈ trace ↔
    op ∈ schedule.operations ∧ schedule.memoryOperations.reads op l
  writes : ∀ op l, .write op l ∈ trace ↔
    op ∈ schedule.operations ∧ schedule.memoryOperations.writes op l
  /-- A byte is written after the bytes it is made from were read. -/
  own : ∀ op ∈ schedule.operations, ∀ l k, schedule.memoryOperations.writes op l →
    schedule.memoryOperations.uses op l k → Trace.Before trace (.read op k) (.write op l)
  intervals : ∀ a b, a.endUs ≤ b.startUs → (b.endUs ≤ a.startUs → tie a b) →
    ∀ e ∈ trace, ∀ f ∈ trace, e.operation = a → f.operation = b → a ≠ b → Trace.Before trace e f

/-- Operations of no length at one instant, in the order of the replay. -/
def byIdentity (a b : VersionOperation) : Prop := a.operationId < b.operationId

/-- The memory at the start holds the original inputs where the schedule says. -/
def VersionSchedule.Initial (schedule : VersionSchedule) (init : Byte → Multiset (ℕ × ℕ)) : Prop :=
  ∀ state ∈ schedule.initialStates, ∀ k < state.storage.size,
    init (state.storage.byte k) = {(state.rank, state.logicalStart + k)}

/-- **The outputs hold what the collective asks for**: every expected byte is in the
range of an output, and the memory where that output is stored has exactly its
contributions, each once; outputs lie in the expected ranges and do not overlap. -/
structure VersionSchedule.Correct (schedule : VersionSchedule) (inputs : ResolvedInput)
    (memory : Byte → Multiset (ℕ × ℕ)) (expected : List Segment) : Prop where
  segments : expectedSegments inputs.collective schedule.rankCount schedule.inputBytes = .ok expected
  holds : ∀ segment ∈ expected, ∀ k, segment.start ≤ k → k < segment.stop →
    ∃ o ∈ schedule.outputs, ∃ region, o.rank = segment.rank ∧
      schedule.storageOf o.stateId = some region ∧ region.rank = o.rank ∧ o.offsetBytes ≤ k ∧
      k < o.offsetBytes + region.size ∧
      memory (region.byte (k - o.offsetBytes)) =
        segment.sources.val.map fun source => (source, segment.logicalStart + (k - segment.start))
  inside : ∀ o ∈ schedule.outputs, ∃ segment ∈ expected, ∃ region,
    schedule.storageOf o.stateId = some region ∧ segment.rank = o.rank ∧
      segment.start ≤ o.offsetBytes ∧ o.offsetBytes + region.size ≤ segment.stop
  apart : schedule.outputs.Pairwise fun a b => a.rank = b.rank → ∀ region region',
    schedule.storageOf a.stateId = some region → schedule.storageOf b.stateId = some region' →
      a.offsetBytes + region.size ≤ b.offsetBytes ∨ b.offsetBytes + region'.size ≤ a.offsetBytes

/-! ## The start -/

section Initial
variable {schedule : VersionSchedule} {inputs : ResolvedInput}

/-- The ledger while the initial states are added. -/
structure Loaded (loaded : List StateVersion) (ledger : VersionLedger) : Prop where
  indexed : ledger.Indexed
  known : ∀ state ∈ loaded, ledger.states.get? state.stateId = some state
  only : ∀ id state, ledger.states.get? id = some state → state ∈ loaded
  original : ∀ state ∈ loaded, state.readyUs = 0 ∧ state.sources = [state.rank]

theorem Loaded.add {loaded : List StateVersion} {ledger ledger' : VersionLedger}
    (h : Loaded loaded ledger) {state : StateVersion}
    (hadd : addInitialState schedule inputs ledger state = .ok ledger') :
    Loaded (loaded ++ [state]) ledger' := by
  unfold addInitialState VersionLedger.addInitial at hadd
  simp only [Checked.bind_ok, Checked.ensure_ok] at hadd
  obtain ⟨_, ⟨-, hready, hsources⟩, _, -, hstore⟩ := hadd
  have hstored := h.indexed.store hstore
  refine ⟨hstored.indexed, ?_, ?_, ?_⟩
  · intro x hx
    rw [hstored.states]
    rcases List.mem_append.mp hx with hx | hx
    · rw [if_neg, h.known x hx]
      intro hid
      have := h.known x hx
      rw [← hid, hstored.fresh] at this
      cases this
    · rw [List.mem_singleton.mp hx, if_pos rfl]
  · intro id x hx
    rw [hstored.states] at hx
    split at hx
    · rw [← Option.some.inj hx]
      exact List.mem_append_right _ (List.mem_singleton_self _)
    · exact List.mem_append_left _ (h.only id x hx)
  · intro x hx
    rcases List.mem_append.mp hx with hx | hx
    · exact h.original x hx
    · rw [List.mem_singleton.mp hx]
      exact ⟨hready, hsources⟩

theorem Loaded.addAll (states : List StateVersion) {loaded : List StateVersion}
    {ledger ledger' : VersionLedger} (h : Loaded loaded ledger)
    (hadd : states.foldlM (addInitialState schedule inputs) ledger = .ok ledger') :
    Loaded (loaded ++ states) ledger' := by
  induction states generalizing loaded ledger with
  | nil =>
    rw [List.foldlM_nil, Checked.pure_ok] at hadd
    subst hadd
    simpa using h
  | cons state states ih =>
    rw [List.foldlM_cons, Checked.bind_ok] at hadd
    obtain ⟨next, hnext, hadd⟩ := hadd
    have := ih (h.add hnext) hadd
    simpa using this

/-- A ledger without versions. -/
theorem loaded_empty {ledger : VersionLedger} (hstates : ledger.states = [])
    (hactive : ledger.active = ∅) (hregions : ledger.regions = []) : Loaded [] ledger := by
  have hentries : ∀ buffer, ledger.entries buffer = [] := by
    intro buffer
    unfold VersionLedger.entries
    rw [hregions]
    rfl
  refine ⟨⟨?_, ?_, ?_, ?_⟩, by simp, ?_, by simp⟩
  · intro id state h
    rw [hstates] at h
    cases h
  · intro buffer offset id
    rw [hentries, hactive]
    simp
  · intro id h
    rw [hactive] at h
    simp at h
  · intro buffer
    rw [hentries]
    exact List.Pairwise.nil
  · intro id state h
    rw [hstates] at h
    cases h

/-- **The replay starts sound.** -/
theorem Loaded.sound {ledger : VersionLedger} (h : Loaded schedule.initialStates ledger)
    {init : Byte → Multiset (ℕ × ℕ)} (hinit : schedule.Initial init) :
    Sound schedule init [] 0 ledger := by
  refine ⟨⟨h.indexed, h.known, by simp, fun id state hs => Or.inl (h.only id state hs)⟩, by simp, ?_,
    ?_, by simp, List.Pairwise.nil⟩
  · intro id state hs _
    exact ⟨(h.original state (h.only id state hs)).1.le, by simp⟩
  · intro id _ state hs k hk
    have hmem := h.only id state hs
    show init (state.storage.byte k) = state.meaning k
    rw [hinit state hmem k hk]
    unfold StateVersion.meaning
    rw [(h.original state hmem).2]
    rfl

end Initial

/-! ## The run -/

section Run
variable {schedule : VersionSchedule} {inputs : ResolvedInput} {constraints : ConstraintSet}

theorem replayOperation_body {replay replay' : Replay} {op : VersionOperation}
    (h : replayOperation schedule inputs constraints replay op = .ok replay') :
    replayBody schedule inputs constraints replay op = .ok replay'.ledger := by
  unfold replayOperation at h
  split at h
  · cases h
  · rename_i ledger hbody
    rw [← Except.ok.inj h]
    exact hbody

/-- The states after a part of the replay. -/
theorem Stated.run (l : List VersionOperation) {done : List VersionOperation}
    {replay replay' : Replay} (h : Stated schedule done replay.ledger)
    (hrun : l.foldlM (replayOperation schedule inputs constraints) replay = .ok replay') :
    Stated schedule (done ++ l) replay'.ledger ∧ Extends replay.ledger replay'.ledger := by
  induction l generalizing done replay with
  | nil =>
    rw [List.foldlM_nil, Checked.pure_ok] at hrun
    subst hrun
    exact ⟨by simpa using h, fun _ _ hs => hs⟩
  | cons op l ih =>
    rw [List.foldlM_cons, Checked.bind_ok] at hrun
    obtain ⟨next, hnext, hrun⟩ := hrun
    have heffect := replayBody_effect h.indexed (replayOperation_body hnext)
    obtain ⟨hstated, hext⟩ := ih (h.effect heffect) hrun
    refine ⟨by simpa using hstated, fun id state hs => ?_⟩
    exact hext _ _ (heffect.extends _ _ hs)

/-- **The whole replay is sound.** -/
theorem Sound.run {init : Byte → Multiset (ℕ × ℕ)} (l : List VersionOperation)
    (hstarts : l.Pairwise fun a b => a.startUs ≤ b.startUs) {done : List VersionOperation} {now : ℚ}
    {replay replay' : Replay} (h : Sound schedule init done now replay.ledger)
    (hnow : ∀ op ∈ l, now ≤ op.startUs)
    (hrun : l.foldlM (replayOperation schedule inputs constraints) replay = .ok replay')
    (hagree : ∀ id state, replay'.ledger.states.get? id = some state →
      schedule.storageOf id = some state.storage) :
    ∃ now', Sound schedule init (done ++ l) now' replay'.ledger := by
  induction l generalizing done now replay with
  | nil =>
    rw [List.foldlM_nil, Checked.pure_ok] at hrun
    subst hrun
    exact ⟨now, by simpa using h⟩
  | cons op l ih =>
    obtain ⟨-, hext⟩ := Stated.run (op :: l) h.stated hrun
    rw [List.foldlM_cons, Checked.bind_ok] at hrun
    obtain ⟨next, hnext, hrun⟩ := hrun
    rw [List.pairwise_cons] at hstarts
    have heffect := replayBody_effect h.stated.indexed (replayOperation_body hnext)
    have hstep := h.effect (hnow op List.mem_cons_self) heffect
      fun id state hs => hagree id state (hext id state hs)
    obtain ⟨now', hsound⟩ := ih hstarts.2 hstep hstarts.1 hrun
    exact ⟨now', by simpa using hsound⟩

instance : Std.Total replayLe where
  total a b := by
    unfold replayLe
    rcases lt_trichotomy a.startUs b.startUs with h | h | h
    · exact Or.inl (Or.inl h)
    · rcases lt_trichotomy a.endUs b.endUs with h' | h' | h'
      · exact Or.inl (Or.inr ⟨h, Or.inl h'⟩)
      · rcases le_total a.operationId b.operationId with h'' | h''
        · exact Or.inl (Or.inr ⟨h, Or.inr ⟨h', h''⟩⟩)
        · exact Or.inr (Or.inr ⟨h.symm, Or.inr ⟨h'.symm, h''⟩⟩)
      · exact Or.inr (Or.inr ⟨h.symm, Or.inl h'⟩)
    · exact Or.inr (Or.inl h)

instance : IsTrans VersionOperation replayLe where
  trans a b c hab hbc := by
    unfold replayLe at hab hbc ⊢
    rcases hab with hab | ⟨hab, hab'⟩
    · rcases hbc with hbc | ⟨hbc, -⟩
      · exact Or.inl (hab.trans hbc)
      · exact Or.inl (hbc ▸ hab)
    · rcases hbc with hbc | ⟨hbc, hbc'⟩
      · exact Or.inl (hab ▸ hbc)
      · refine Or.inr ⟨hab.trans hbc, ?_⟩
        rcases hab' with hab' | ⟨hab', hid⟩
        · rcases hbc' with hbc' | ⟨hbc', -⟩
          · exact Or.inl (hab'.trans hbc')
          · exact Or.inl (hbc' ▸ hab')
        · rcases hbc' with hbc' | ⟨hbc', hid'⟩
          · exact Or.inl (hab' ▸ hbc')
          · exact Or.inr ⟨hab'.trans hbc', hid.trans hid'⟩

theorem replayOrder_sorted (operations : List VersionOperation) :
    (replayOrder operations).Pairwise replayLe := List.pairwise_insertionSort _ _

theorem replayOrder_perm (operations : List VersionOperation) :
    (replayOrder operations).Perm operations := List.perm_insertionSort _ _

theorem startUs_le_of_replayLe {a b : VersionOperation} (h : replayLe a b) : a.startUs ≤ b.startUs := by
  rcases h with h | ⟨h, -⟩
  · exact h.le
  · exact h.le

/-- Simultaneous operations of no length are replayed by their identities. -/
theorem byIdentity_of_replayLe {a b : VersionOperation} (h : replayLe a b)
    (hne : a.operationId ≠ b.operationId) (hba : b.endUs ≤ a.startUs) :
    byIdentity a b := by
  have ha := a.interval
  have hb := b.interval
  rcases h with h | ⟨-, h | ⟨-, h⟩⟩
  · exact absurd (hb.trans hba) (not_le_of_gt h)
  · exact absurd ((hba.trans ha)) (not_le_of_gt h)
  · exact lt_of_le_of_ne h hne

/-- **An execution agrees with the replay on every conflict.** -/
theorem Sound.serial {init : Byte → Multiset (ℕ × ℕ)} {now : ℚ} {ledger : VersionLedger}
    (h : Sound schedule init (replayOrder schedule.operations) now ledger)
    {trace : List (Trace.Event VersionOperation Byte)}
    (hexec : schedule.Execution byIdentity trace) :
    Trace.Serial schedule.memoryOperations (replayOrder schedule.operations) trace := by
  have hperm := replayOrder_perm schedule.operations
  have hids : ((replayOrder schedule.operations).map (·.operationId)).Nodup :=
    ((hperm.map _).nodup_iff).mpr schedule.ids_nodup
  have hnodup : (replayOrder schedule.operations).Nodup := List.Nodup.of_map _ hids
  -- an earlier operation that conflicts ends first, so all it does comes first
  have hbefore : ∀ i j, Trace.Earlier (replayOrder schedule.operations) i j →
      schedule.Conflict i j → ∀ e ∈ trace, ∀ f ∈ trace, e.operation = i → f.operation = j →
        Trace.Before trace e f := by
    rintro i j ⟨x, y, hxy, hi⟩ hconflict e he f hf hei hfj
    have hsub : [i, j].Sublist (replayOrder schedule.operations) := by
      rw [hxy]
      exact (List.singleton_sublist.mpr hi).append (List.singleton_sublist.mpr List.mem_cons_self)
    have happart := List.pairwise_iff_forall_sublist.mp h.apart hsub hconflict
    have hle := List.pairwise_iff_forall_sublist.mp (replayOrder_sorted _) hsub
    have hne : i.operationId ≠ j.operationId := by
      have := hids.sublist (hsub.map (·.operationId))
      simpa using this
    exact hexec.intervals i j happart (byIdentity_of_replayLe hle hne) e he f hf hei hfj
      fun hij => hne (congrArg _ hij)
  have hmem : ∀ {i j}, Trace.Earlier (replayOrder schedule.operations) i j →
      i ∈ schedule.operations ∧ j ∈ schedule.operations := by
    rintro i j ⟨x, y, hxy, hi⟩
    refine ⟨hperm.mem_iff.mp ?_, hperm.mem_iff.mp ?_⟩
    · rw [hxy]
      exact List.mem_append_left _ hi
    · rw [hxy]
      exact List.mem_append_right _ List.mem_cons_self
  refine ⟨hnodup, hexec.nodup, ?_, ?_, ?_, ?_, ?_, ?_, ?_⟩
  · intro i l hr
    obtain ⟨hi, hreads⟩ := (hexec.reads i l).mp hr
    exact ⟨hperm.mem_iff.mpr hi, hreads⟩
  · intro i l
    rw [hexec.writes, hperm.mem_iff]
  · intro i hi l k hw hu
    exact hexec.own i (hperm.mem_iff.mp hi) l k hw hu
  · intro i l hr hw
    obtain ⟨hi, hreads⟩ := (hexec.reads i l).mp hr
    exact hexec.own i hi l l hw (h.in_place i (hperm.mem_iff.mpr hi) l hreads hw)
  · intro i j l hij hw hr
    obtain ⟨hi, hj⟩ := hmem hij
    exact hbefore i j hij ⟨l, Or.inl ⟨hw, hr⟩⟩ _ ((hexec.writes i l).mpr ⟨hi, hw⟩) _
      ((hexec.reads j l).mpr ⟨hj, hr⟩) rfl rfl
  · intro i j l hij hr hw
    obtain ⟨-, hj⟩ := hmem hij
    exact hbefore i j hij ⟨l, Or.inr (Or.inl ⟨((hexec.reads i l).mp hr).2, hw⟩)⟩ _ hr _
      ((hexec.writes j l).mpr ⟨hj, hw⟩) rfl rfl
  · intro i j l hij hw hw'
    obtain ⟨hi, hj⟩ := hmem hij
    exact hbefore i j hij ⟨l, Or.inr (Or.inr ⟨hw, hw'⟩)⟩ _ ((hexec.writes i l).mpr ⟨hi, hw⟩) _
      ((hexec.writes j l).mpr ⟨hj, hw'⟩) rfl rfl

end Run

/-- What an accepted schedule satisfies. -/
theorem replayVersionSchedule_sound {schedule : VersionSchedule} {inputs : ResolvedInput}
    {ledger : VersionLedger} {evidence : ReplayEvidence}
    (h : replayVersionSchedule schedule inputs = .ok (ledger, evidence))
    {init : Byte → Multiset (ℕ × ℕ)} (hinit : schedule.Initial init) :
    ∃ now atUs totals, Sound schedule init (replayOrder schedule.operations) now ledger ∧
      (∀ id state, ledger.states.get? id = some state →
        schedule.storageOf id = some state.storage) ∧
      checkVersionOutputs inputs.collective schedule.rankCount schedule.inputBytes schedule.outputs
        ledger atUs = .ok totals := by
  unfold replayVersionSchedule initialLedger at h
  simp only [Checked.bind_ok, Checked.pure_ok, Checked.ensure_ok] at h
  obtain ⟨_, -, _, -, start, ⟨filled, hfilled, _, -, rfl⟩, constraints, -, replay, hrun, totals,
    htotals, hresult⟩ := h
  obtain ⟨rfl, -⟩ := Prod.mk.inj hresult
  have hloaded : Loaded ([] ++ schedule.initialStates) filled :=
    Loaded.addAll _ (loaded_empty rfl rfl rfl) hfilled
  have hsound := hloaded.sound hinit
  have hperm := replayOrder_perm schedule.operations
  have hstated := (Stated.run _ hsound.stated hrun).1
  rw [List.nil_append] at hstated
  have hagree : ∀ id state, replay.ledger.states.get? id = some state →
      schedule.storageOf id = some state.storage := fun id state hs =>
    hstated.storageOf (fun op hop => hperm.mem_iff.mpr hop) hs fun op hop => hperm.mem_iff.mp hop
  obtain ⟨now, hfinal⟩ := Sound.run _
    ((replayOrder_sorted _).imp fun hle => startUs_le_of_replayLe hle) hsound
    (fun op _ => op.start_nonneg) hrun hagree
  exact ⟨now, _, totals, by simpa using hfinal, hagree, htotals⟩

/-- **Replay is sound in byte memory.** -/
theorem replay_sound_in_memory {schedule : VersionSchedule} {inputs : ResolvedInput}
    {ledger : VersionLedger} {evidence : ReplayEvidence}
    (h : replayVersionSchedule schedule inputs = .ok (ledger, evidence))
    {init : Byte → Multiset (ℕ × ℕ)} (hinit : schedule.Initial init)
    (seen : VersionOperation → Byte → Multiset (ℕ × ℕ))
    {trace : List (Trace.Event VersionOperation Byte)}
    (hexec : schedule.Execution byIdentity trace) :
    ∃ expected, schedule.Correct inputs
      (Trace.Machine.run schedule.memoryOperations ⟨init, seen⟩ trace).memory expected := by
  obtain ⟨now, atUs, totals, hsound, hagree, hcheck⟩ := replayVersionSchedule_sound h hinit
  obtain ⟨expected, hexpected, hall, hholds, hapart⟩ := checkVersionOutputs_ok hcheck
  have hserial := hsound.serial hexec
  refine ⟨expected, hexpected, ?_, ?_, ?_⟩
  · intro segment hsegment k hk hk'
    obtain ⟨o, ho, index, state, hplaced, hlow, hhigh⟩ := hholds segment hsegment k hk hk'
    refine ⟨o, ho, state.storage, hplaced.rank.symm, hagree _ _ hplaced.known,
      state.storage_rank.trans hplaced.state_rank, hlow, hhigh, ?_⟩
    rw [hserial.final, hsound.contents _ hplaced.active state hplaced.known _ (by omega)]
    -- the version's sources are those of the segment, at the right place
    have hoffset : state.logicalStart + (k - o.offsetBytes) =
        segment.logicalStart + (k - segment.start) := by
      have := hplaced.logical
      have := hplaced.start
      omega
    unfold StateVersion.meaning
    rw [hoffset, ← hplaced.sources, List.toFinset_val, state.sources_nodup.dedup]
    rfl
  · intro o ho
    obtain ⟨index, segment, state, hplaced⟩ := hall o ho
    exact ⟨segment, List.mem_of_getElem? hplaced.at_index, state.storage, hagree _ _ hplaced.known,
      hplaced.rank, hplaced.start, hplaced.stop⟩
  · refine hapart.imp_of_mem ?_
    intro a b ha hb hab hrank region region' hregion hregion'
    obtain ⟨_, _, state, hplaced⟩ := hall a ha
    obtain ⟨_, _, state', hplaced'⟩ := hall b hb
    obtain rfl : state.storage = region :=
      Option.some.inj ((hagree _ _ hplaced.known).symm.trans hregion)
    obtain rfl : state'.storage = region' :=
      Option.some.inj ((hagree _ _ hplaced'.known).symm.trans hregion')
    have := hab hrank
    unfold outputInterval Apart at this
    rw [hplaced.known, hplaced'.known] at this
    simpa using this

/-! ## Two copies in a row -/

/-- A broadcast of one byte to one rank. -/
def byteInputs : ResolvedInput where
  collective := ⟨.broadcast, "int8", none, some 0, false⟩
  rankCount := 1
  totalSizeBytes := 1
  sliceSizeBytes := 1
  maxChannels := 1
  layout := .separate
  scratchBytesPerRank := 1
  bufferSize := 4194304
  compatibilityEnabled := false
  directedLinks := []
  inputSha256 := ""
  rank_pos := Nat.one_pos
  slice_pos := Nat.one_pos
  total_pos := Nat.one_pos

/-- A buffer of one byte. -/
def oneByte (buffer : String) (kind : StorageKind) : BufferRegion :=
  ⟨0, buffer, 0, 1, kind, Nat.one_pos⟩

/-- A copy of one byte in an interval. -/
def byteCopy (id source target : String) (destination : BufferRegion) (interval : ℕ × ℕ)
    (h : interval.1 ≤ interval.2) : VersionOperation where
  operationId := id
  kind := .copy
  inputStates := [source]
  outputState := some target
  destination := some destination
  startUs := interval.1
  endUs := interval.2
  stageId := 0
  inputs_length := rfl
  inputs_nodup := by simp
  start_nonneg := Nat.cast_nonneg _
  interval := by exact_mod_cast h
  release_shape := by simp
  write_shape := by simp

/-- The byte goes to scratch at once, and from there to the output in an interval. -/
def byteFirst (stop : ℕ) : VersionOperation :=
  byteCopy "a" "x" "y" (oneByte "scratch" .scratch) (0, stop) (Nat.zero_le _)

def byteSecond (start : ℕ) : VersionOperation :=
  byteCopy "b" "y" "z" (oneByte "output" .output) (start, start) (le_refl _)

/-- The second copy starts when the first one ends, and takes no time. -/
def byteSchedule (time : ℕ) : VersionSchedule where
  rankCount := 1
  inputBytes := 1
  sliceSizeBytes := 1
  stageCount := 1
  initialStates := [⟨"x", 0, 0, 1, [0], oneByte "input" .input, 0, Nat.one_pos, rfl, rfl, by simp⟩]
  operations := [byteFirst time, byteSecond time]
  outputs := [⟨0, 0, "z"⟩]
  ids_nodup := by simp [byteFirst, byteSecond, byteCopy]
  stages := by simp [byteFirst, byteSecond, byteCopy]

/-- The input is there, and nothing else. -/
def byteMemory : Byte → Multiset (ℕ × ℕ) := fun l => if l = (0, "input", 0) then {(0, 0)} else 0

section Bytes
variable (time : ℕ)

theorem oneByte_covers {buffer : String} {kind : StorageKind} {l : Byte} :
    (oneByte buffer kind).covers l ↔ l = (0, buffer, 0) := by
  unfold BufferRegion.covers oneByte BufferRegion.byte
  simp

theorem byteSchedule_storage : (byteSchedule time).storageOf "x" = some (oneByte "input" .input) ∧
    (byteSchedule time).storageOf "y" = some (oneByte "scratch" .scratch) ∧
    (byteSchedule time).storageOf "z" = some (oneByte "output" .output) := by
  refine ⟨?_, ?_, ?_⟩ <;>
    simp [VersionSchedule.storageOf, byteSchedule, byteFirst, byteSecond, byteCopy, List.find?]

theorem byteSchedule_initial : (byteSchedule time).Initial byteMemory := by
  intro state hstate k hk
  obtain rfl := List.mem_singleton.mp hstate
  obtain rfl : k = 0 := by simpa [oneByte] using hk
  rfl

theorem byteFirst_reads {l : Byte} :
    (byteSchedule time).memoryOperations.reads (byteFirst time) l ↔ l = (0, "input", 0) := by
  show (_ ∧ _) ↔ _
  simp [byteFirst, byteCopy, (byteSchedule_storage time).1, oneByte_covers]

theorem byteSecond_reads {l : Byte} :
    (byteSchedule time).memoryOperations.reads (byteSecond time) l ↔ l = (0, "scratch", 0) := by
  show (_ ∧ _) ↔ _
  simp [byteSecond, byteCopy, (byteSchedule_storage time).2.1, oneByte_covers]

theorem byteFirst_writes {l : Byte} :
    (byteSchedule time).memoryOperations.writes (byteFirst time) l ↔ l = (0, "scratch", 0) := by
  show (∃ _, _) ↔ _
  simp [byteFirst, byteCopy, oneByte_covers]

theorem byteSecond_writes {l : Byte} :
    (byteSchedule time).memoryOperations.writes (byteSecond time) l ↔ l = (0, "output", 0) := by
  show (∃ _, _) ↔ _
  simp [byteSecond, byteCopy, oneByte_covers]

theorem byte_uses {op : VersionOperation} (hop : op ∈ (byteSchedule time).operations) {l k : Byte}
    (hw : (byteSchedule time).memoryOperations.writes op l)
    (hu : (byteSchedule time).memoryOperations.uses op l k) :
    (byteSchedule time).memoryOperations.reads op k := by
  obtain ⟨destination, hdest, hcovers⟩ := hw
  obtain ⟨destination', hdest', id, hid, region, hregion, rfl⟩ := hu
  obtain rfl : destination = destination' := Option.some.inj (hdest.symm.trans hdest')
  have hkind : op.kind ≠ .release := by
    intro hrel
    rw [(op.release_shape hrel).2] at hdest
    cases hdest
  refine ⟨hkind, id, hid, region, hregion, ?_⟩
  obtain ⟨j, hj, rfl⟩ := hcovers
  have hone : ∀ {op : VersionOperation}, op ∈ (byteSchedule time).operations →
      ∀ destination ∈ op.destination, destination.size = 1 := by
    intro op hop destination hdest
    simp only [byteSchedule, List.mem_cons, List.not_mem_nil, or_false] at hop
    rcases hop with rfl | rfl <;>
      · obtain rfl := Option.some.inj hdest
        rfl
  have hj0 : j = 0 := by
    have := hone hop destination hdest
    omega
  refine ⟨0, region.size_pos, ?_⟩
  unfold inputByte BufferRegion.byte
  simp [hj0]

/-- The accesses of the two copies. -/
def byteEvents : List (Trace.Event VersionOperation Byte) × List (Trace.Event VersionOperation Byte) :=
  ([.read (byteFirst time) (0, "input", 0), .write (byteFirst time) (0, "scratch", 0)],
    [.read (byteSecond time) (0, "scratch", 0), .write (byteSecond time) (0, "output", 0)])

theorem byteFirst_ne_byteSecond : byteFirst time ≠ byteSecond time := by
  intro h
  have := congrArg VersionOperation.operationId h
  simp [byteFirst, byteSecond, byteCopy] at this

theorem byteEvents_operation : (∀ e ∈ (byteEvents time).1, e.operation = byteFirst time) ∧
    ∀ e ∈ (byteEvents time).2, e.operation = byteSecond time := by
  refine ⟨?_, ?_⟩ <;>
    · intro e he
      simp only [byteEvents, List.mem_cons, List.not_mem_nil, or_false] at he
      rcases he with rfl | rfl <;> rfl

/-- Any order of the two that each of them keeps to itself, if it keeps the intervals. -/
theorem byteSchedule_execution {tie : VersionOperation → VersionOperation → Prop}
    {trace : List (Trace.Event VersionOperation Byte)}
    (hperm : trace.Perm ((byteEvents time).1 ++ (byteEvents time).2))
    (hfirst : Trace.Before trace (.read (byteFirst time) (0, "input", 0))
      (.write (byteFirst time) (0, "scratch", 0)))
    (hsecond : Trace.Before trace (.read (byteSecond time) (0, "scratch", 0))
      (.write (byteSecond time) (0, "output", 0)))
    (horder : (0 < time ∨ tie (byteFirst time) (byteSecond time)) →
      ∀ e ∈ (byteEvents time).1, ∀ f ∈ (byteEvents time).2, Trace.Before trace e f)
    (hback : time = 0 → ¬ tie (byteSecond time) (byteFirst time)) :
    (byteSchedule time).Execution tie trace := by
  have hne := byteFirst_ne_byteSecond time
  have hmem : ∀ e, e ∈ trace ↔ e ∈ (byteEvents time).1 ∨ e ∈ (byteEvents time).2 := by
    intro e
    rw [hperm.mem_iff, List.mem_append]
  have hops : ∀ op, op ∈ (byteSchedule time).operations ↔
      op = byteFirst time ∨ op = byteSecond time := by
    intro op
    simp [byteSchedule]
  refine ⟨?_, ?_, ?_, ?_, ?_⟩
  · rw [hperm.nodup_iff]
    simp [byteEvents, hne]
  · intro op l
    rw [hmem, hops]
    constructor
    · intro h
      simp only [byteEvents, List.mem_cons, List.not_mem_nil, or_false, Trace.Event.read.injEq,
        reduceCtorEq] at h
      rcases h with ⟨rfl, rfl⟩ | ⟨rfl, rfl⟩
      · exact ⟨Or.inl rfl, (byteFirst_reads time).mpr rfl⟩
      · exact ⟨Or.inr rfl, (byteSecond_reads time).mpr rfl⟩
    · rintro ⟨rfl | rfl, h⟩
      · rw [(byteFirst_reads time).mp h]
        exact Or.inl (by simp [byteEvents])
      · rw [(byteSecond_reads time).mp h]
        exact Or.inr (by simp [byteEvents])
  · intro op l
    rw [hmem, hops]
    constructor
    · intro h
      simp only [byteEvents, List.mem_cons, List.not_mem_nil, or_false, Trace.Event.write.injEq,
        reduceCtorEq, false_or] at h
      rcases h with ⟨rfl, rfl⟩ | ⟨rfl, rfl⟩
      · exact ⟨Or.inl rfl, (byteFirst_writes time).mpr rfl⟩
      · exact ⟨Or.inr rfl, (byteSecond_writes time).mpr rfl⟩
    · rintro ⟨rfl | rfl, h⟩
      · rw [(byteFirst_writes time).mp h]
        exact Or.inl (by simp [byteEvents])
      · rw [(byteSecond_writes time).mp h]
        exact Or.inr (by simp [byteEvents])
  · intro op hop l k hw hu
    have hr := byte_uses time hop hw hu
    rcases (hops op).mp hop with rfl | rfl
    · rw [(byteFirst_reads time).mp hr, (byteFirst_writes time).mp hw]
      exact hfirst
    · rw [(byteSecond_reads time).mp hr, (byteSecond_writes time).mp hw]
      exact hsecond
  · intro a b hab htie e he f hf hea hfb hdiff
    have hcase : ∀ e, e ∈ trace → (e.operation = byteFirst time ∧ e ∈ (byteEvents time).1) ∨
        (e.operation = byteSecond time ∧ e ∈ (byteEvents time).2) := by
      intro e he
      rcases (hmem e).mp he with h | h
      · exact Or.inl ⟨(byteEvents_operation time).1 e h, h⟩
      · exact Or.inr ⟨(byteEvents_operation time).2 e h, h⟩
    have hstart : (byteFirst time).startUs = 0 := rfl
    have hend : (byteSecond time).endUs = (time : ℚ) := rfl
    rcases hcase e he with ⟨h1, he⟩ | ⟨h1, he⟩ <;> rcases hcase f hf with ⟨h2, hf⟩ | ⟨h2, hf⟩
    · exact absurd (hea.symm.trans (h1.trans (h2.symm.trans hfb))) hdiff
    · refine horder ?_ e he f hf
      by_cases hzero : time = 0
      · refine Or.inr ?_
        rw [← h1, ← h2, hea, hfb]
        refine htie ?_
        rw [← hfb, ← hea, h1, h2, hstart, hend, hzero, Nat.cast_zero]
      · exact Or.inl (Nat.pos_of_ne_zero hzero)
    · -- the second does not come first unless the rule for ties says so
      rw [← hea, ← hfb, h1, h2, hstart, hend] at hab
      have hzero : time = 0 := by
        have : (time : ℚ) ≤ 0 := hab
        exact_mod_cast le_antisymm this (Nat.cast_nonneg _)
      refine absurd ?_ (hback hzero)
      rw [← h1, ← h2, hea, hfb]
      refine htie ?_
      rw [← hfb, ← hea, h1, h2]
      show (time : ℚ) ≤ (time : ℚ)
      exact le_refl _
    · exact absurd (hea.symm.trans (h1.trans (h2.symm.trans hfb))) hdiff

end Bytes

/-- One copy after the other. -/
theorem byteSchedule_inOrder :
    (byteSchedule 1).Execution byIdentity ((byteEvents 1).1 ++ (byteEvents 1).2) := by
  have hnodup : ((byteEvents 1).1 ++ (byteEvents 1).2).Nodup := by decide
  refine byteSchedule_execution 1 (List.Perm.refl _) ?_ ?_ ?_ (by simp)
  · exact Trace.Before.of_split hnodup (x := [_]) rfl (by simp)
  · exact Trace.Before.of_split hnodup (x := [_, _, _]) rfl (by simp)
  · intro _ e he f hf
    simp only [byteEvents, List.mem_cons, List.not_mem_nil, or_false] at he hf
    rcases hf with rfl | rfl
    · exact Trace.Before.of_split hnodup (x := [_, _]) rfl (by simpa using he)
    · refine Trace.Before.of_split hnodup (x := [_, _, _]) rfl ?_
      rcases he with rfl | rfl <;> simp

/-- The output byte holds the broadcast byte. -/
theorem replay_sound_in_memory_byte : ∃ ledger evidence expected,
    replayVersionSchedule (byteSchedule 1) byteInputs = .ok (ledger, evidence) ∧
      (byteSchedule 1).Correct byteInputs (Trace.Machine.run (byteSchedule 1).memoryOperations
        ⟨byteMemory, fun _ _ => 0⟩ ((byteEvents 1).1 ++ (byteEvents 1).2)).memory expected := by
  cases h : replayVersionSchedule (byteSchedule 1) byteInputs with
  | error fault =>
    have hok : (replayVersionSchedule (byteSchedule 1) byteInputs).isOk = true := by decide +kernel
    rw [h] at hok
    cases hok
  | ok result =>
    obtain ⟨expected, hcorrect⟩ := replay_sound_in_memory h (byteSchedule_initial 1) (fun _ _ => 0)
      byteSchedule_inOrder
    exact ⟨result.1, result.2, expected, rfl, hcorrect⟩

/-- **Simultaneous operations of no length must run in the order of the replay**: else the
second copy may read scratch before the first has written it. -/
theorem replay_needs_tie_order : ∃ trace ledger evidence,
    replayVersionSchedule (byteSchedule 0) byteInputs = .ok (ledger, evidence) ∧
    (byteSchedule 0).Initial byteMemory ∧ (byteSchedule 0).Execution (fun _ _ => False) trace ∧
    ∀ expected, ¬ (byteSchedule 0).Correct byteInputs
      (Trace.Machine.run (byteSchedule 0).memoryOperations ⟨byteMemory, fun _ _ => 0⟩ trace).memory
        expected := by
  have hnodup : ((byteEvents 0).2 ++ (byteEvents 0).1).Nodup := by decide +kernel
  cases h : replayVersionSchedule (byteSchedule 0) byteInputs with
  | error fault =>
    have hok : (replayVersionSchedule (byteSchedule 0) byteInputs).isOk = true := by decide +kernel
    rw [h] at hok
    cases hok
  | ok result =>
    refine ⟨(byteEvents 0).2 ++ (byteEvents 0).1, result.1, result.2, rfl, byteSchedule_initial 0,
      byteSchedule_execution 0 List.perm_append_comm ?_ ?_ (by simp) (by simp), ?_⟩
    · exact Trace.Before.of_split hnodup (x := [_, _, _]) rfl (by simp)
    · exact Trace.Before.of_split hnodup (x := [_]) rfl (by simp)
    · intro expected hcorrect
      have hsegments : expected = [⟨0, 0, 1, 0, {0}⟩] := by
        have := hcorrect.segments
        exact (Except.ok.inj this).symm
      obtain ⟨o, ho, region, -, hregion, -, hlow, -, hmemory⟩ := hcorrect.holds ⟨0, 0, 1, 0, {0}⟩
        (by rw [hsegments]; simp) 0 (le_refl _) (by decide)
      obtain rfl : o = ⟨0, 0, "z"⟩ := by simpa [byteSchedule] using ho
      rw [(byteSchedule_storage 0).2.2, Option.some.injEq] at hregion
      subst hregion
      revert hmemory
      decide +kernel

end VeriCCL
