import VeriCCL.LedgerIndex

/-! # What one operation of a replay does

`_store` in one statement (`Stored`), and every successful turn of the replay as one of
two effects: a version is released, or a new version is made from active ones that are
ready (`Effect`).  A version stands for one multiset of original bytes per byte of its
storage (`StateVersion.meaning`): a copy has the meaning of its source, and a reduction
the sum of its inputs' meanings. -/
namespace VeriCCL

/-- The original bytes that are summed in byte `k` of a version. -/
def StateVersion.meaning (state : StateVersion) (k : ℕ) : Multiset (ℕ × ℕ) :=
  (state.sources.map fun source => (source, state.logicalStart + k) : List (ℕ × ℕ))

/-- What `StateVersion.make` makes. -/
theorem StateVersion.make_ok {stateId : String} {rank lo hi : ℕ} {pieces : List DataRange}
    {storage : BufferRegion} {readyUs : ℚ} {state : StateVersion}
    (h : StateVersion.make stateId rank lo hi pieces storage readyUs = .ok state) :
    state.stateId = stateId ∧ state.rank = rank ∧ state.logicalStart = lo ∧ state.logicalEnd = hi ∧
      state.sources = sourcesOf pieces ∧ state.storage = storage ∧ state.readyUs = readyUs := by
  unfold StateVersion.make at h
  split at h
  · cases h
  · split at h
    · split at h
      · simp only [Checked.bind_ok, Checked.pure_ok] at h
        obtain ⟨_, -, _, -, _, -, rfl⟩ := h
        exact ⟨rfl, rfl, rfl, rfl, rfl, rfl, rfl⟩
      · cases h
    · cases h

theorem StateVersion.sources_nodup (state : StateVersion) : state.sources.Nodup :=
  state.sources_sorted.imp fun h => ne_of_lt h

theorem contributors_sources (state : StateVersion) :
    state.contributors.map (·.sourceRank) = state.sources := by
  simp [StateVersion.contributors, Function.comp_def]

/-- The sources of pieces that name each source once. -/
theorem sourcesOf_perm {pieces : List DataRange} (h : (pieces.map (·.sourceRank)).Nodup) :
    (sourcesOf pieces).Perm (pieces.map (·.sourceRank)) := by
  unfold sourcesOf
  rw [h.dedup]
  exact List.perm_insertionSort _ _

namespace VersionLedger

/-- What `readable` checks. -/
structure Readable (ledger : VersionLedger) (id : String) (atUs : ℚ) (state : StateVersion) :
    Prop where
  known : ledger.states.get? id = some state
  active : id ∈ ledger.active
  ready : state.readyUs ≤ atUs

theorem readable_ok {ledger : VersionLedger} {id : String} {atUs : ℚ} {state : StateVersion} :
    ledger.readable id atUs = .ok state ↔ ledger.Readable id atUs state := by
  unfold VersionLedger.readable VersionLedger.state
  simp only [Checked.bind_ok, Checked.pure_ok, Checked.required_ok, Checked.ensure_ok]
  constructor
  · rintro ⟨_, hknown, _, hactive, _, hready, rfl⟩
    exact ⟨hknown, hactive, hready⟩
  · rintro ⟨hknown, hactive, hready⟩
    exact ⟨state, hknown, (), hactive, (), hready, rfl⟩

/-- **What `_store` checks and does.** -/
structure Stored (ledger : VersionLedger) (state : StateVersion) (startUs endUs : ℚ)
    (readIds : List String) (ledger' : VersionLedger) : Prop where
  indexed : ledger'.Indexed
  ready : state.readyUs = endUs
  fresh : ledger.states.get? state.stateId = none
  reads : ∀ id ∈ readIds, ∃ value, ledger.Readable id startUs value ∧
    (state.storage.overlaps value.storage → state.storage = value.storage)
  /-- What is overwritten is complete and no longer read. -/
  overwrites : ∀ id ∈ ledger.active, ∀ value, ledger.states.get? id = some value →
    state.storage.overlaps value.storage →
      value.readyUs ≤ startUs ∧ ledger.readUntil id ≤ startUs
  states : ∀ id, ledger'.states.get? id =
    if state.stateId = id then some state else ledger.states.get? id
  active : ∀ id, id ∈ ledger'.active ↔ id = state.stateId ∨ (id ∈ ledger.active ∧
    ∀ value, ledger.states.get? id = some value → ¬ state.storage.overlaps value.storage)
  readUntil : ∀ id, ledger'.readUntil id =
    if id ∈ readIds then max (ledger.readUntil id) endUs else ledger.readUntil id

/-- The times of the readers after noting reads. -/
theorem readUntil_noteReads (ledger : VersionLedger) (endUs : ℚ) (reads : List StateVersion)
    (id : String) : (ledger.noteReads reads endUs).readUntil id =
      if id ∈ reads.map (·.stateId) then max (ledger.readUntil id) endUs else ledger.readUntil id := by
  induction reads generalizing ledger with
  | nil => simp [noteReads]
  | cons value reads ih =>
    have hcons : (ledger.noteReads (value :: reads) endUs).readUntil id =
        ((ledger.noteReads [value] endUs).noteReads reads endUs).readUntil id := rfl
    have hone : (ledger.noteReads [value] endUs).readUntil id =
        if value.stateId = id then max (ledger.readUntil id) endUs else ledger.readUntil id := by
      show (Dict.get? (Dict.set ledger.readerEnd value.stateId _) id).getD 0 = _
      rw [Dict.get?_set]
      split
      · rename_i hid
        subst hid
        rfl
      · rfl
    rw [hcons, ih, hone]
    by_cases hid : value.stateId = id
    · simp [hid]
    · simp [hid, Ne.symm hid]

theorem Indexed.noteReads {ledger : VersionLedger} (h : ledger.Indexed) (reads : List StateVersion)
    (endUs : ℚ) : (ledger.noteReads reads endUs).Indexed :=
  ⟨h.keyed, h.listed, h.known, h.sorted⟩

theorem Indexed.store {ledger ledger' : VersionLedger} (h : ledger.Indexed) {state : StateVersion}
    {startUs endUs : ℚ} {readIds : List String} {isInitial : Bool}
    (hstore : ledger.store state startUs endUs readIds isInitial = .ok ledger') :
    Stored ledger state startUs endUs readIds ledger' := by
  unfold VersionLedger.store at hstore
  simp only [Checked.bind_ok, Checked.pure_ok, Checked.ensure_ok] at hstore
  obtain ⟨_, -, _, ⟨-, hready⟩, _, hfresh, reads, hreads, _, -, _, hpartial, overwritten, hover, _, -,
    _, hchecks, _, -, cleared, hcleared, rfl⟩ := hstore
  rw [Checked.forM_ok] at hpartial hchecks
  have hmem := h.mem_overlapping hover
  have hrem := (h.noteReads reads endUs).removeAll overwritten hcleared
  have hnone : ledger.states.get? state.stateId = none := Dict.get?_eq_none.mpr hfresh
  have hnone' : cleared.states.get? state.stateId = none := by
    rw [hrem.states]
    exact hnone
  have hreadIds : reads.map (·.stateId) = readIds := by
    have := @Checked.mapM_map _ _ _ _ _ _ _ hreads (fun value => value.stateId) id ?_
    · simpa using this
    · intro key _ value hvalue
      exact h.keyed key value (readable_ok.mp hvalue).known
  -- what stays active does not overlap the new version
  have hfree : ∀ id ∈ cleared.active, ∀ value, cleared.states.get? id = some value →
      ¬ state.storage.overlaps value.storage := by
    intro id hid value hvalue hlap
    rw [hrem.states] at hvalue
    obtain ⟨hact, hnot⟩ := (hrem.active id).mp hid
    exact hnot ((hmem id).mpr ⟨hact, value, hvalue, hlap⟩)
  refine ⟨hrem.indexed.addActive hnone' hfree, hready, hnone, ?_, ?_, ?_, ?_, ?_⟩
  · intro id hid
    obtain ⟨value, hvalue, hok⟩ := Checked.mapM_left hreads hid
    refine ⟨value, readable_ok.mp hok, ?_⟩
    intro hlap
    have hcheck := hpartial value hvalue
    unfold checkPartial at hcheck
    rw [Checked.ensure_ok] at hcheck
    by_contra hne
    exact hcheck ⟨hlap, hne⟩
  · intro id hid value hvalue hlap
    have hcheck := hchecks id ((hmem id).mpr ⟨hid, value, hvalue, hlap⟩)
    unfold checkOverwrite noReadersAfter at hcheck
    simp only [Checked.bind_ok, Checked.required_ok, Checked.ensure_ok] at hcheck
    obtain ⟨value', hvalue', _, hdone, hquiet⟩ := hcheck
    obtain rfl : value = value' := Option.some.inj (hvalue.symm.trans hvalue')
    exact ⟨hdone, hquiet⟩
  · intro id
    show Dict.get? (Dict.set cleared.states _ _) id = _
    rw [Dict.get?_set, hrem.states]
    rfl
  · intro id
    show id ∈ insert state.stateId cleared.active ↔ _
    rw [Finset.mem_insert, hrem.active, hmem]
    refine or_congr_right (and_congr_right fun hact => ?_)
    constructor
    · intro hnot value hvalue hlap
      exact hnot ⟨hact, value, hvalue, hlap⟩
    · rintro hall ⟨-, value, hvalue, hlap⟩
      exact hall value hvalue hlap
  · intro id
    have hsame : (cleared.addActive state).readUntil id = (ledger.noteReads reads endUs).readUntil id := by
      show (cleared.readerEnd.get? id).getD 0 = _
      rw [hrem.readerEnd]
      rfl
    rw [hsame, readUntil_noteReads, hreadIds]

end VersionLedger

/-! ## The effects -/

/-- The versions an operation reads, and the version it makes. -/
structure Makes (ledger : VersionLedger) (op : VersionOperation) (result : StateVersion)
    (ledger' : VersionLedger) : Prop where
  kind : op.kind ≠ .release
  output : op.outputState = some result.stateId
  destination : op.destination = some result.storage
  stored : ledger.Stored result op.startUs op.endUs op.inputStates ledger'
  /-- The inputs are as long as the result, and it means their sum. -/
  meaning : ∀ k, result.meaning k = (op.inputStates.map fun id =>
    ((ledger.states.get? id).map fun value => value.meaning k).getD 0).sum
  size : ∀ id ∈ op.inputStates, ∀ value, ledger.states.get? id = some value →
    value.storage.size = result.storage.size

/-- **What a successful turn of the replay does.** -/
inductive Effect (ledger : VersionLedger) (op : VersionOperation) (ledger' : VersionLedger) : Prop where
  | released (id : String) (value : StateVersion) (kind : op.kind = .release)
      (readable : ledger.Readable id op.startUs value)
      (quiet : ledger.readUntil id ≤ op.startUs) (removed : ledger.Removed [id] ledger')
  | made (result : StateVersion) (makes : Makes ledger op result ledger')

section Effect
variable {ledger ledger' : VersionLedger} {op : VersionOperation}

theorem meaning_perm {a b : List ℕ} (h : a.Perm b) (start k : ℕ) :
    ((a.map fun source => (source, start + k) : List (ℕ × ℕ)) : Multiset (ℕ × ℕ)) =
      (b.map fun source => (source, start + k) : List (ℕ × ℕ)) :=
  Multiset.coe_eq_coe.mpr (h.map _)

theorem copy_makes (h : ledger.Indexed) {sourceId stateId : String} {destination : BufferRegion}
    (hkind : op.kind ≠ .release) (hin : op.inputStates = [sourceId])
    (hout : op.outputState = some stateId) (hdest : op.destination = some destination)
    (hcopy : ledger.copy sourceId stateId destination op.startUs op.endUs = .ok ledger') :
    Effect ledger op ledger' := by
  unfold VersionLedger.copy at hcopy
  simp only [Checked.bind_ok] at hcopy
  obtain ⟨source, hsource, result, hresult, hstore⟩ := hcopy
  obtain ⟨hid, -, hlo, hhi, hsources, hstorage, -⟩ := StateVersion.make_ok hresult
  have hsource := VersionLedger.readable_ok.mp hsource
  have hperm : result.sources.Perm source.sources := by
    rw [hsources, ← contributors_sources source]
    refine sourcesOf_perm ?_
    rw [contributors_sources]
    exact source.sources_nodup
  refine .made result ⟨hkind, by rw [hid, hout], by rw [hstorage, hdest], ?_, ?_, ?_⟩
  · rw [hin]
    exact h.store hstore
  · intro k
    rw [hin, List.map_singleton, List.sum_singleton, hsource.known, Option.map_some,
      Option.getD_some]
    unfold StateVersion.meaning
    rw [hlo]
    exact meaning_perm hperm _ k
  · intro id hmem value hvalue
    rw [hin, List.mem_singleton] at hmem
    subst hmem
    obtain rfl : source = value := Option.some.inj (hsource.known.symm.trans hvalue)
    rw [source.storage_size, result.storage_size, hlo, hhi]

theorem reduce_makes (h : ledger.Indexed) {leftId rightId stateId : String}
    {destination : BufferRegion} (hkind : op.kind ≠ .release)
    (hin : op.inputStates = [leftId, rightId]) (hout : op.outputState = some stateId)
    (hdest : op.destination = some destination)
    (hreduce : ledger.reduce leftId rightId stateId destination op.startUs op.endUs = .ok ledger') :
    Effect ledger op ledger' := by
  unfold VersionLedger.reduce at hreduce
  simp only [Checked.bind_ok, Checked.ensure_ok] at hreduce
  obtain ⟨left, hleft, right, hright, _, ⟨hstart, hend⟩, _, hdisjoint, _, -, result, hresult, hstore⟩ :=
    hreduce
  obtain ⟨hid, -, hlo, hhi, hsources, hstorage, -⟩ := StateVersion.make_ok hresult
  have hleft := VersionLedger.readable_ok.mp hleft
  have hright := VersionLedger.readable_ok.mp hright
  have hperm : result.sources.Perm (left.sources ++ right.sources) := by
    have hmap : (left.contributors ++ right.contributors).map (·.sourceRank) =
        left.sources ++ right.sources := by
      rw [List.map_append, contributors_sources, contributors_sources]
    rw [hsources, ← hmap]
    refine sourcesOf_perm ?_
    rw [hmap, List.nodup_append]
    refine ⟨left.sources_nodup, right.sources_nodup, ?_⟩
    rintro a ha b hb rfl
    exact hdisjoint a ha hb
  refine .made result ⟨hkind, by rw [hid, hout], by rw [hstorage, hdest], ?_, ?_, ?_⟩
  · rw [hin]
    exact h.store hstore
  · intro k
    rw [hin]
    simp only [List.map_cons, List.map_nil, List.sum_cons, List.sum_nil, add_zero, hleft.known,
      hright.known, Option.map_some, Option.getD_some]
    unfold StateVersion.meaning
    rw [hlo, meaning_perm hperm, List.map_append, ← Multiset.coe_add, ← hstart]
  · intro id hmem value hvalue
    rw [hin] at hmem
    simp only [List.mem_cons, List.not_mem_nil, or_false] at hmem
    rcases hmem with rfl | rfl
    · obtain rfl : left = value := Option.some.inj (hleft.known.symm.trans hvalue)
      rw [left.storage_size, result.storage_size, hlo, hhi]
    · obtain rfl : right = value := Option.some.inj (hright.known.symm.trans hvalue)
      rw [right.storage_size, result.storage_size, hlo, hhi, hstart, hend]

theorem writeVersion_effect (h : ledger.Indexed) {destination : BufferRegion}
    (hkind : op.kind ≠ .release) (hdest : op.destination = some destination)
    (hwrite : writeVersion ledger op destination = .ok ledger') : Effect ledger op ledger' := by
  unfold writeVersion at hwrite
  split at hwrite
  · rename_i _ left right output _ hin hout
    exact reduce_makes h hkind hin hout hdest hwrite
  · rename_i source output hin hout
    exact copy_makes h hkind hin hout hdest hwrite
  · cases hwrite

/-- **Every successful turn has one of the two effects.** -/
theorem replayBody_effect (h : ledger.Indexed) {schedule : VersionSchedule} {inputs : ResolvedInput}
    {constraints : ConstraintSet} {finished : Dict String ℚ}
    (hbody : replayBody schedule inputs constraints ⟨ledger, finished⟩ op = .ok ledger') :
    Effect ledger op ledger' := by
  unfold replayBody at hbody
  simp only [Checked.bind_ok] at hbody
  obtain ⟨_, -, states, hstates, hrun⟩ := hbody
  unfold runOperation at hrun
  split at hrun
  · rename_i hkind
    simp only [Checked.bind_ok, Checked.required_ok] at hrun
    obtain ⟨state, hstate, hrelease⟩ := hrun
    unfold VersionLedger.release VersionLedger.noReadersAfter at hrelease
    simp only [Checked.bind_ok, Checked.ensure_ok] at hrelease
    obtain ⟨value, hvalue, _, hquiet, hremove⟩ := hrelease
    exact .released state.stateId value hkind (VersionLedger.readable_ok.mp hvalue) hquiet
      (h.removeActive hremove)
  · rename_i hkind
    simp only [Checked.bind_ok, Checked.required_ok] at hrun
    obtain ⟨destination, hdest, _, -, _, -, hwrite⟩ := hrun
    exact writeVersion_effect h hkind hdest hwrite

end Effect

end VeriCCL
