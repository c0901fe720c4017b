import VeriCCL.LedgerCalls

/-! # The ledger keeps its indexes, and its calls are atomic

`ReadLedger.WellKept` is the invariant of the ledger between two calls: the index of active
regions is sorted and disjoint, every buffer has one kind, the scratch accounts are the
sums of what is active and stay within their budgets, and for each version the end of its
last reader is recorded.  Every method is atomic and keeps it (`VersionCall.atomic`): it
first looks, and once it starts to change the ledger, the invariant excludes every raise.
-/
namespace VeriCCL

open Raising (Atomic Sure)

namespace VersionLedger

/-- The scratch bytes a version takes on a rank. -/
def scratchSize (ledger : VersionLedger) (rank : ℕ) (id : String) : ℕ :=
  match ledger.states.get? id with
  | some state =>
    if state.storage.kind = .scratch ∧ state.storage.rank = rank then state.storage.size else 0
  | none => 0

/-- The scratch bytes that are active on a rank. -/
def scratchUse (ledger : VersionLedger) (rank : ℕ) : ℕ :=
  ∑ id ∈ ledger.active, ledger.scratchSize rank id

/-- **What the indexes of the ledger say about its active versions.** -/
structure Stocked (ledger : VersionLedger) : Prop where
  indexed : ledger.Indexed
  kinds : ∀ id state, ledger.states.get? id = some state →
    ledger.bufferKinds.get? state.storage.buffer = some state.storage.kind
  live : ∀ rank, (ledger.scratchLive.get? rank).getD 0 = (ledger.scratchUse rank : ℤ)
  live_known : ∀ id ∈ ledger.active, ∀ state, ledger.states.get? id = some state →
    state.storage.kind = .scratch → state.storage.rank ∈ ledger.scratchLive.keys
  budget : ∀ rank, ledger.scratchUse rank ≤ (ledger.scratchBudgets.get? rank).getD 0

section Storage
variable {ledger ledger' : VersionLedger} {id : String} {state : StateVersion}

theorem scratchSize_of_state (hstate : ledger.states.get? id = some state) (rank : ℕ) :
    ledger.scratchSize rank id =
      if state.storage.kind = .scratch ∧ state.storage.rank = rank then state.storage.size else 0 := by
  unfold scratchSize
  rw [hstate]

theorem scratchSize_congr (hstates : ledger'.states = ledger.states) (rank : ℕ) :
    ledger'.scratchSize rank = ledger.scratchSize rank := by
  funext id
  unfold scratchSize
  rw [hstates]

/-- The buffer of an active version has a list of regions. -/
theorem Indexed.regions_known (h : ledger.Indexed) (hactive : id ∈ ledger.active)
    (hstate : ledger.states.get? id = some state) :
    ledger.regions.get? state.storage.buffer = some (ledger.entries state.storage.buffer) := by
  have hmem := (h.listed state.storage.buffer state.storage.offset id).mpr
    ⟨hactive, state, hstate, rfl, rfl⟩
  unfold VersionLedger.entries at hmem ⊢
  cases hget : ledger.regions.get? state.storage.buffer with
  | some entries => rfl
  | none => simp [hget] at hmem

/-- The look-ups of `_overlapping` succeed. -/
theorem Indexed.overlapping_total (h : ledger.Indexed) (region : BufferRegion) :
    ∃ ids, ledger.overlapping region = .ok ids := by
  obtain ⟨first, hfirst⟩ : ∃ first, ledger.overlapStart region
      (bisectLeft (ledger.entries region.buffer) (region.offset, "")) = .ok first := by
    unfold overlapStart
    split
    · exact ⟨0, rfl⟩
    · rename_i hpos
      have hle : bisectLeft (ledger.entries region.buffer) (region.offset, "") ≤
          (ledger.entries region.buffer).length := (List.takeWhile_sublist _).length_le
      obtain ⟨entry, hentry⟩ : ∃ entry, (ledger.entries region.buffer)[
          bisectLeft (ledger.entries region.buffer) (region.offset, "") - 1]? = some entry :=
        ⟨_, List.getElem?_eq_getElem (by omega)⟩
      obtain ⟨-, state, hstate, -⟩ := (h.listed region.buffer entry.1 entry.2).mp
        (List.mem_of_getElem? hentry)
      simp only [Checked.bind_ok, Checked.required_ok, Checked.pure_ok, hentry]
      exact ⟨_, entry, rfl, state, hstate, rfl⟩
  unfold overlapping
  simp only [Checked.bind_ok, Checked.pure_ok]
  exact ⟨_, first, hfirst, rfl⟩

/-- The versions found overlap the region, each once. -/
theorem Indexed.overlapping_nodup (h : ledger.Indexed) {region : BufferRegion} {ids : List String}
    (hids : ledger.overlapping region = .ok ids) : ids.Nodup := by
  unfold overlapping at hids
  simp only [Checked.bind_ok, Checked.pure_ok] at hids
  obtain ⟨first, -, rfl⟩ := hids
  have hsub := (List.drop_sublist first ((ledger.entries region.buffer).take
    (bisectLeft (ledger.entries region.buffer) (region.offset + region.size, "")))).trans
      (List.take_sublist _ _)
  refine List.Pairwise.sublist (hsub.map _) ?_
  rw [List.pairwise_map]
  refine (h.increasing region.buffer).imp_of_mem ?_
  intro a b ha hb hlt heq
  obtain ⟨-, st, hst, -, hoffset⟩ := (h.listed _ a.1 a.2).mp ha
  obtain ⟨-, st', hst', -, hoffset'⟩ := (h.listed _ b.1 b.2).mp hb
  rw [heq, hst', Option.some.injEq] at hst
  subst hst
  omega

/-- One version less. -/
theorem scratchUse_erase (hstates : ledger'.states = ledger.states)
    (hactive : ledger'.active = ledger.active.erase id) (hid : id ∈ ledger.active) (rank : ℕ) :
    ledger.scratchSize rank id + ledger'.scratchUse rank = ledger.scratchUse rank := by
  unfold scratchUse
  rw [hactive, scratchSize_congr hstates]
  exact Finset.add_sum_erase _ _ hid

/-- **Removing an active version keeps the indexes.** -/
theorem Stocked.removed (h : ledger.Stocked) (hid : id ∈ ledger.active)
    (hstate : ledger.states.get? id = some state) (hrem : ledger.removeActive id = .ok ledger') :
    ledger'.Stocked := by
  have hindexed := (h.indexed.removeActive hrem).indexed
  unfold removeActive at hrem
  simp only [Checked.bind_ok, Checked.pure_ok, Checked.required_ok, Checked.ensure_ok, hstate,
    Option.some.injEq, exists_eq_left'] at hrem
  obtain ⟨entries, -, _, -, _, -, hrem⟩ := hrem
  have hstates : ledger'.states = ledger.states := by rw [← hrem]
  have hkinds : ledger'.bufferKinds = ledger.bufferKinds := by rw [← hrem]
  have hbudgets : ledger'.scratchBudgets = ledger.scratchBudgets := by rw [← hrem]
  have hactive : ledger'.active = ledger.active.erase id := by rw [← hrem]
  have hlive : ledger'.scratchLive = if state.storage.kind = .scratch then
      ledger.scratchLive.set state.storage.rank
        ((ledger.scratchLive.get? state.storage.rank).getD 0 - state.storage.size)
      else ledger.scratchLive := by rw [← hrem]
  have huse := scratchUse_erase hstates hactive hid
  refine ⟨hindexed, by rw [hstates, hkinds]; exact h.kinds, fun rank => ?_,
    fun other hother st hst hkind => ?_, fun rank => ?_⟩
  · have hone := huse rank
    rw [scratchSize_of_state hstate] at hone
    have hold := h.live rank
    rw [hlive]
    by_cases hkind : state.storage.kind = .scratch
    · simp only [hkind, if_true, true_and] at hone ⊢
      by_cases hrank : state.storage.rank = rank
      · subst hrank
        rw [if_pos rfl] at hone
        rw [Dict.get?_set_self, Option.getD_some, hold]
        omega
      · rw [if_neg hrank] at hone
        rw [Dict.get?_set_ne _ _ hrank, hold]
        omega
    · simp only [hkind, if_false, false_and] at hone ⊢
      rw [hold]
      omega
  · rw [hactive] at hother
    rw [hstates] at hst
    have hknown := h.live_known other (Finset.mem_of_mem_erase hother) st hst hkind
    rw [hlive]
    split
    · exact Dict.mem_keys_set.mpr (Or.inr hknown)
    · exact hknown
  · have hone := huse rank
    have hbudget := h.budget rank
    rw [hbudgets]
    omega

/-- One version more. -/
theorem scratchUse_addActive (hfresh : ledger.states.get? state.stateId = none)
    (hknown : ∀ id ∈ ledger.active, ∃ st, ledger.states.get? id = some st) (rank : ℕ) :
    (ledger.addActive state).scratchUse rank =
      (if state.storage.kind = .scratch ∧ state.storage.rank = rank then state.storage.size else 0) +
        ledger.scratchUse rank := by
  have hnot : state.stateId ∉ ledger.active := by
    intro hmem
    obtain ⟨st, hst⟩ := hknown _ hmem
    rw [hfresh] at hst
    cases hst
  have hstates : ∀ id, (ledger.addActive state).states.get? id =
      if state.stateId = id then some state else ledger.states.get? id :=
    fun id => Dict.get?_set _ _ _ _
  unfold scratchUse
  rw [show (ledger.addActive state).active = insert state.stateId ledger.active from rfl,
    Finset.sum_insert hnot]
  congr 1
  · exact scratchSize_of_state ((hstates state.stateId).trans (if_pos rfl)) rank
  · refine Finset.sum_congr rfl fun id hid => ?_
    unfold scratchSize
    rw [hstates, if_neg]
    rintro rfl
    exact hnot hid

/-- **A new version in free storage of its kind, within the budget, keeps the indexes.** -/
theorem Stocked.addActive (h : ledger.Stocked) (hfresh : ledger.states.get? state.stateId = none)
    (hfree : ∀ id ∈ ledger.active, ∀ st, ledger.states.get? id = some st →
      ¬ state.storage.overlaps st.storage)
    (hkind : ∀ kind ∈ ledger.bufferKinds.get? state.storage.buffer, kind = state.storage.kind)
    (hbudget : state.storage.kind = .scratch → state.storage.size +
      ledger.scratchUse state.storage.rank ≤
        (ledger.scratchBudgets.get? state.storage.rank).getD 0) :
    (ledger.addActive state).Stocked := by
  have huse := scratchUse_addActive hfresh h.indexed.known
  refine ⟨h.indexed.addActive hfresh hfree, fun id st hst => ?_, fun rank => ?_,
    fun id hid st hst hscratch => ?_, fun rank => ?_⟩
  · show (ledger.bufferKinds.set state.storage.buffer state.storage.kind).get? _ = _
    rw [show (ledger.addActive state).states.get? id = _ from Dict.get?_set _ _ _ _] at hst
    rw [Dict.get?_set]
    split at hst
    · obtain rfl := Option.some.inj hst
      rw [if_pos rfl]
    · have hold := h.kinds id st hst
      split
      · rename_i hbuffer
        rw [hkind st.storage.kind (by rw [hbuffer, hold]; rfl)]
      · exact hold
  · rw [huse]
    have hlive := h.live rank
    show (Dict.get? (if state.storage.kind = .scratch then ledger.scratchLive.set state.storage.rank
      ((ledger.scratchLive.get? state.storage.rank).getD 0 + state.storage.size)
        else ledger.scratchLive) rank).getD 0 = _
    by_cases hscratch : state.storage.kind = .scratch
    · simp only [hscratch, if_true, true_and]
      by_cases hrank : state.storage.rank = rank
      · subst hrank
        rw [if_pos rfl, Dict.get?_set_self, Option.getD_some, hlive]
        push_cast
        omega
      · rw [if_neg hrank, Dict.get?_set_ne _ _ hrank, hlive, Nat.zero_add]
    · simp only [hscratch, if_false, false_and]
      rw [hlive, Nat.zero_add]
  · show st.storage.rank ∈ Dict.keys (if state.storage.kind = .scratch then
      ledger.scratchLive.set state.storage.rank _ else ledger.scratchLive)
    rw [show (ledger.addActive state).states.get? id = _ from Dict.get?_set _ _ _ _] at hst
    split at hst
    · obtain rfl := Option.some.inj hst
      rw [if_pos hscratch]
      exact Dict.mem_keys_set.mpr (Or.inl rfl)
    · rename_i hne
      have hold : id ∈ ledger.active :=
        (Finset.mem_insert.mp hid).resolve_left fun heq => hne heq.symm
      have hknown := h.live_known id hold st hst hscratch
      split
      · exact Dict.mem_keys_set.mpr (Or.inr hknown)
      · exact hknown
  · rw [huse]
    show _ ≤ (ledger.scratchBudgets.get? rank).getD 0
    split
    · rename_i hcase
      obtain ⟨hscratch, rfl⟩ := hcase
      exact hbudget hscratch
    · rw [Nat.zero_add]
      exact h.budget rank

end Storage

end VersionLedger

namespace ReadLedger

/-- **What is recorded of the readers**: the end of a version's last reader. -/
structure Recorded (s : ReadLedger) : Prop where
  latest : ∀ id endUs, s.readerEnd.get? id = some endUs →
    ∃ key, s.readers.get? key = some (id, endUs)
  covered : ∀ key id endUs, s.readers.get? key = some (id, endUs) →
    ∃ last, s.readerEnd.get? id = some last ∧ endUs ≤ last
  nonneg : ∀ key id endUs, s.readers.get? key = some (id, endUs) → 0 ≤ endUs

/-- **The invariant of the ledger between two calls.** -/
structure WellKept (s : ReadLedger) : Prop where
  stocked : s.Stocked
  recorded : s.Recorded
  /-- Only versions that were made have read others. -/
  made : ∀ id index, .operation id index ∈ s.readers.keys → id ∈ s.states.keys

section Methods
variable {s t : ReadLedger} {state : StateVersion} {id : String}

/-! ## Single changes -/

/-- What noting a reader changes. -/
def noted (s : ReadLedger) (key : ReaderKey) (id : String) (endUs : ℚ) : ReadLedger :=
  { s with
    readers := s.readers.set key (id, endUs)
    readerEnd := s.readerEnd.set id (max (s.readUntil id) endUs) }

theorem run_note (key : ReaderKey) (endUs : ℚ) :
    (note key id endUs).run s = .ok () (s.noted key id endUs) := rfl

/-- **A new reader is counted in the end of its version.** -/
theorem Recorded.noted (h : s.Recorded) {key : ReaderKey} (hkey : key ∉ s.readers.keys) {endUs : ℚ}
    (hend : 0 ≤ endUs) : (s.noted key id endUs).Recorded := by
  have hreaders : ∀ k, (s.noted key id endUs).readers.get? k =
      if key = k then some (id, endUs) else s.readers.get? k := fun k => Dict.get?_set _ _ _ _
  have hends : ∀ x, (s.noted key id endUs).readerEnd.get? x =
      if id = x then some (max (s.readUntil id) endUs) else s.readerEnd.get? x :=
    fun x => Dict.get?_set _ _ _ _
  have hkept : ∀ {k : ReaderKey} {value : String × ℚ}, s.readers.get? k = some value →
      (s.noted key id endUs).readers.get? k = some value := by
    intro k value hk
    rw [hreaders, if_neg]
    · exact hk
    · rintro rfl
      exact hkey (Dict.get?_isSome.mp ⟨_, hk⟩)
  refine ⟨fun x last hlast => ?_, fun k x last hk => ?_, fun k x last hk => ?_⟩
  · rw [hends] at hlast
    split at hlast
    · rename_i hx
      subst hx
      obtain rfl := Option.some.inj hlast
      by_cases hle : s.readUntil id ≤ endUs
      · exact ⟨key, by rw [hreaders, if_pos rfl, max_eq_right hle]⟩
      · -- an earlier reader ends later
        obtain ⟨last, hget⟩ : ∃ last, s.readerEnd.get? id = some last := by
          rw [← Option.ne_none_iff_exists']
          intro hnone
          exact hle (by simpa [VersionLedger.readUntil, hnone] using hend)
        have huntil : s.readUntil id = last := by simp [VersionLedger.readUntil, hget]
        obtain ⟨k, hk⟩ := h.latest id last hget
        rw [max_eq_left (not_le.mp hle).le, huntil]
        exact ⟨k, hkept hk⟩
    · obtain ⟨k, hk⟩ := h.latest x last hlast
      exact ⟨k, hkept hk⟩
  · rw [hreaders] at hk
    rw [hends]
    split at hk
    · obtain ⟨rfl, rfl⟩ := Prod.mk.inj (Option.some.inj hk)
      exact ⟨_, if_pos rfl, le_max_right _ _⟩
    · obtain ⟨end', hget, hle⟩ := h.covered k x last hk
      split
      · rename_i hx
        subst hx
        refine ⟨_, rfl, hle.trans (le_max_of_le_left ?_)⟩
        simp [VersionLedger.readUntil, hget]
      · exact ⟨end', hget, hle⟩
  · rw [hreaders] at hk
    split at hk
    · obtain ⟨rfl, rfl⟩ := Prod.mk.inj (Option.some.inj hk)
      exact hend
    · exact h.nonneg k x last hk

/-- The storage does not depend on the readers. -/
theorem stocked_noted (h : s.Stocked) (key : ReaderKey) (endUs : ℚ) :
    (s.noted key id endUs).Stocked :=
  ⟨⟨h.indexed.keyed, h.indexed.listed, h.indexed.known, h.indexed.sorted⟩, h.kinds, h.live,
    h.live_known, h.budget⟩

/-- What removing a version leaves as it is. -/
structure Dropped (s : ReadLedger) (id : String) (t : ReadLedger) : Prop where
  active : t.active = s.active.erase id
  states : t.states = s.states
  kinds : t.bufferKinds = s.bufferKinds
  budgets : t.scratchBudgets = s.scratchBudgets
  readers : t.readers = s.readers
  readerEnd : t.readerEnd = s.readerEnd

/-- **An active version is removed for sure.** -/
theorem drop_sure (h : s.Stocked) (hid : id ∈ s.active) :
    Sure (drop id) s fun _ t => t.Stocked ∧ Dropped s id t := by
  obtain ⟨state, hstate⟩ := h.indexed.known id hid
  have hregions := h.indexed.regions_known hid hstate
  obtain ⟨a, b, hab, hlen⟩ := h.indexed.around hid hstate
  have hindex : bisectLeft (s.entries state.storage.buffer) (state.storage.offset, id) <
      (s.entries state.storage.buffer).length := by
    rw [← hlen, hab]
    simp
  have hremoved : s.toVersionLedger.removeActive id = .ok { s.toVersionLedger with
      regions := s.regions.set state.storage.buffer ((s.entries state.storage.buffer).eraseIdx
        (bisectLeft (s.entries state.storage.buffer) (state.storage.offset, id)))
      active := s.active.erase id
      scratchLive := if state.storage.kind = .scratch then
          s.scratchLive.set state.storage.rank
            ((s.scratchLive.get? state.storage.rank).getD 0 - state.storage.size)
        else s.scratchLive } := by
    unfold VersionLedger.removeActive
    simp only [Checked.bind_ok, Checked.pure_ok, Checked.required_ok, Checked.ensure_ok]
    exact ⟨state, hstate, _, hregions, (), hindex, (), hid, rfl⟩
  have hstocked := h.removed hid hstate hremoved
  unfold drop
  refine .asks (Checked.required_ok.mpr hstate) (.asks (Checked.required_ok.mpr hregions) ?_)
  refine .asks ((Checked.ensure_ok (u := ())).mpr hindex) (.bind (.modify (Q := fun _ t => t = _) rfl) ?_)
  rintro - _ rfl
  refine .asks ((Checked.ensure_ok (u := ())).mpr hid) (.bind (.modify (Q := fun _ t => t = _) rfl) ?_)
  rintro - _ rfl
  by_cases hkind : state.storage.kind = .scratch
  · obtain ⟨live, hlive⟩ := Dict.get?_isSome.mpr (h.live_known id hid state hstate hkind)
    rw [if_pos hkind]
    refine .asks (Checked.required_ok.mpr hlive) (.modify ⟨?_, rfl, rfl, rfl, rfl, rfl, rfl⟩)
    rw [if_pos hkind, hlive] at hstocked
    exact hstocked
  · rw [if_neg hkind]
    refine .pure ⟨?_, rfl, rfl, rfl, rfl, rfl, rfl⟩
    rw [if_neg hkind] at hstocked
    exact hstocked

theorem run_enter : (enter state).run s =
    .ok () { s with toVersionLedger := s.toVersionLedger.addActive state } := rfl

/-! ## `_store` -/

/-- A version that can be read. -/
theorem readableAt_ok {time : TimeArg} (h : s.readableAt id time = .ok state) :
    s.states.get? id = some state ∧ id ∈ s.active := by
  unfold readableAt VersionLedger.state at h
  simp only [Checked.bind_ok, Checked.required_ok, Checked.ensure_ok, Checked.pure_ok] at h
  obtain ⟨found, hfound, _, hactive, _, -, _, -, rfl⟩ := h
  exact ⟨hfound, hactive⟩

theorem timeOf_ok {time : TimeArg} {value : ℚ} (h : timeOf time = .ok value) : 0 ≤ value := by
  cases time with
  | number v =>
    simp only [timeOf, Checked.bind_ok, Checked.ensure_ok, Checked.pure_ok] at h
    obtain ⟨_, hv, rfl⟩ := h
    exact hv
  | other => cases h

/-- **What `_store` knows when it begins to change the ledger.** -/
structure Admitted (s : ReadLedger) (state : StateVersion) (overwritten : List String) : Prop where
  fresh : state.stateId ∉ s.states.keys
  kind : ∀ kind ∈ s.bufferKinds.get? state.storage.buffer, kind = state.storage.kind
  nodup : overwritten.Nodup
  overlaps : ∀ id, id ∈ overwritten ↔ id ∈ s.active ∧ ∃ value,
    s.states.get? id = some value ∧ state.storage.overlaps value.storage
  room : state.storage.kind = .scratch → s.scratchUse state.storage.rank + state.storage.size ≤
    (s.scratchBudgets.get? state.storage.rank).getD 0 +
      (overwritten.map (s.scratchSize state.storage.rank)).sum

/-- The sizes that `_store` sums are the scratch sizes of what is overwritten. -/
theorem sizes_sum (h : s.Stocked) {overwritten : List String}
    (hover : ∀ id ∈ overwritten, ∃ value, s.states.get? id = some value ∧
      state.storage.overlaps value.storage)
    (hkind : ∀ kind ∈ s.bufferKinds.get? state.storage.buffer, kind = state.storage.kind)
    (hscratch : state.storage.kind = .scratch) {sizes : List ℤ}
    (hsizes : (overwritten.mapM fun key => do
      let value ← Checked.required (s.states.get? key) (Fault.missing key)
      return (value.storage.size : ℤ)) = .ok sizes) :
    sizes.sum = ((overwritten.map (s.scratchSize state.storage.rank)).sum : ℤ) := by
  have hmap : sizes.map (fun size => size) =
      overwritten.map fun id => (s.scratchSize state.storage.rank id : ℤ) := by
    refine Checked.mapM_map hsizes fun id hid size hsize => ?_
    simp only [Checked.bind_ok, Checked.required_ok, Checked.pure_ok] at hsize
    obtain ⟨value, hvalue, rfl⟩ := hsize
    obtain ⟨value', hvalue', ⟨⟨hrank, hbuffer⟩, -⟩⟩ := hover id hid
    obtain rfl : value = value' := Option.some.inj (hvalue.symm.trans hvalue')
    have hsame : value.storage.buffer = state.storage.buffer := Prod.ext hrank.symm hbuffer.symm
    have hold := h.kinds id value hvalue
    rw [hsame] at hold
    rw [VersionLedger.scratchSize_of_state hvalue, hkind value.storage.kind (by rw [hold]; rfl),
      if_pos ⟨hscratch, hrank.symm⟩]
  rw [List.map_id'] at hmap
  rw [hmap]
  clear hsizes hmap hover
  induction overwritten with
  | nil => rfl
  | cons id overwritten ih => simp [ih]

theorem admission_ok (h : s.Stocked) {startUs : ℚ} {readIds : List String} {isInitial : Bool}
    {reads : List StateVersion} {overwritten : List String}
    (hadmission : s.admission state startUs readIds isInitial = .ok (reads, overwritten)) :
    Admitted s state overwritten := by
  unfold admission at hadmission
  simp only [Checked.bind_ok, Checked.ensure_ok, Checked.pure_ok, Prod.mk.injEq] at hadmission
  obtain ⟨_, hfresh, _, -, _, hkind, _, -, found, hover, _, -, _, -, _, hscratch, -, rfl⟩ := hadmission
  have hmem := h.indexed.mem_overlapping hover
  refine ⟨hfresh, hkind, h.indexed.overlapping_nodup hover, hmem, fun hkindScratch => ?_⟩
  unfold VersionLedger.checkScratch at hscratch
  rw [if_pos hkindScratch] at hscratch
  simp only [Checked.bind_ok, Checked.ensure_ok] at hscratch
  obtain ⟨sizes, hsizes, budget, hbudget, hle⟩ := hscratch
  have hsum := sizes_sum h (fun id hid => ((hmem id).mp hid).2) hkind hkindScratch hsizes
  rw [hsum, h.live] at hle
  rw [Option.mem_def.mp hbudget, Option.getD_some]
  have hgoal : ((s.scratchUse state.storage.rank + state.storage.size : ℕ) : ℤ) ≤
      ((budget + (found.map (s.scratchSize state.storage.rank)).sum : ℕ) : ℤ) := by
    push_cast
    push_cast at hle
    omega
  exact_mod_cast hgoal

/-- What the ledger's indexes look at beside its readers. -/
structure SameStorage (s t : ReadLedger) : Prop where
  active : t.active = s.active
  states : t.states = s.states
  kinds : t.bufferKinds = s.bufferKinds
  budgets : t.scratchBudgets = s.scratchBudgets

/-- The loop that notes the readers of a write, with the readers `l` to come. -/
structure Noting (s : ReadLedger) (stateId : String) (l : List (StateVersion × ℕ)) (t : ReadLedger) :
    Prop where
  stocked : t.Stocked
  recorded : t.Recorded
  same : SameStorage s t
  made : ∀ id index, .operation id index ∈ t.readers.keys → id ∈ s.states.keys ∨ id = stateId
  next : ∀ value ∈ l, .operation stateId value.2 ∉ t.readers.keys
  distinct : (l.map (·.2)).Nodup

/-- **The readers of a new version are noted for sure.** -/
theorem notes_sure (h : s.WellKept) (hfresh : state.stateId ∉ s.states.keys)
    (reads : List StateVersion) {endUs : ℚ} (hend : 0 ≤ endUs) :
    Sure (forM reads.zipIdx fun value => note (.operation state.stateId value.2) value.1.stateId endUs)
      s fun _ t => Noting s state.stateId [] t := by
  refine Sure.forM (Noting s state.stateId) ?_ ?_
  · intro value l t ht
    refine ⟨(), _, run_note _ _, stocked_noted ht.stocked _ _, ?_, ?_, ?_, ?_, ?_⟩
    · exact ht.recorded.noted (ht.next value List.mem_cons_self) hend
    · exact ⟨ht.same.active, ht.same.states, ht.same.kinds, ht.same.budgets⟩
    · intro id index hmem
      rcases Dict.mem_keys_set.mp hmem with heq | hmem
      · exact Or.inr (ReaderKey.operation.inj heq).1
      · exact ht.made id index hmem
    · intro other hother hmem
      obtain ⟨hnot, -⟩ := List.nodup_cons.mp ht.distinct
      rcases Dict.mem_keys_set.mp hmem with heq | hmem
      · exact hnot (List.mem_map.mpr ⟨other, hother, (ReaderKey.operation.inj heq).2⟩)
      · exact ht.next other (List.mem_cons_of_mem _ hother) hmem
    · exact (List.nodup_cons.mp ht.distinct).2
  · refine ⟨h.stocked, h.recorded, ⟨rfl, rfl, rfl, rfl⟩, fun id index hmem => Or.inl (h.made id index hmem),
      fun value _ hmem => hfresh (h.made _ _ hmem), ?_⟩
    rw [List.zipIdx_map_snd]
    exact List.nodup_range'

/-- The loop that removes what is overwritten, with `l` left to remove. -/
structure Dropping (s : ReadLedger) (overwritten l : List String) (t : ReadLedger) : Prop where
  stocked : t.Stocked
  states : t.states = s.states
  kinds : t.bufferKinds = s.bufferKinds
  budgets : t.scratchBudgets = s.scratchBudgets
  readers : t.readers = s.readers
  readerEnd : t.readerEnd = s.readerEnd
  left : l.Nodup ∧ ∀ id ∈ l, id ∈ overwritten ∧ id ∈ t.active
  active : ∀ id, id ∈ t.active ↔ id ∈ s.active ∧ (id ∈ overwritten → id ∈ l)

/-- **What is overwritten is removed for sure.** -/
theorem drops_sure (h : s.Stocked) {overwritten : List String} (hnodup : overwritten.Nodup)
    (hactive : ∀ id ∈ overwritten, id ∈ s.active) :
    Sure (forM overwritten drop) s fun _ t => Dropping s overwritten [] t := by
  refine Sure.forM (Dropping s overwritten) ?_ ?_
  · intro id l t ht
    obtain ⟨hnot, hnodup⟩ := List.nodup_cons.mp ht.left.1
    refine (drop_sure ht.stocked (ht.left.2 id List.mem_cons_self).2).mono ?_
    rintro - u ⟨hstocked, hdropped⟩
    have hmem : ∀ x, x ∈ u.active ↔ x ≠ id ∧ x ∈ t.active := fun x => by
      rw [hdropped.active, Finset.mem_erase]
    refine ⟨hstocked, hdropped.states.trans ht.states, hdropped.kinds.trans ht.kinds,
      hdropped.budgets.trans ht.budgets, hdropped.readers.trans ht.readers,
      hdropped.readerEnd.trans ht.readerEnd, ⟨hnodup, fun x hx => ?_⟩, fun x => ?_⟩
    · obtain ⟨hover, hactive⟩ := ht.left.2 x (List.mem_cons_of_mem _ hx)
      exact ⟨hover, (hmem x).mpr ⟨fun heq => hnot (heq ▸ hx), hactive⟩⟩
    · rw [hmem, ht.active x]
      constructor
      · rintro ⟨hne, hx, himp⟩
        exact ⟨hx, fun hover => (List.mem_cons.mp (himp hover)).resolve_left hne⟩
      · rintro ⟨hx, himp⟩
        refine ⟨?_, hx, fun hover => List.mem_cons_of_mem _ (himp hover)⟩
        rintro rfl
        exact hnot (himp (ht.left.2 x List.mem_cons_self).1)
  · exact ⟨h, rfl, rfl, rfl, rfl, rfl, ⟨hnodup, fun id hid => ⟨hid, hactive id hid⟩⟩,
      fun id => by simp⟩

/-- What is left on a rank when the overwritten versions are gone. -/
theorem Dropping.scratchUse {overwritten : List String} (h : Dropping s overwritten [] t)
    (hnodup : overwritten.Nodup) (hactive : ∀ id ∈ overwritten, id ∈ s.active) (rank : ℕ) :
    t.scratchUse rank + (overwritten.map (s.scratchSize rank)).sum = s.scratchUse rank := by
  have hset : t.active = s.active \ overwritten.toFinset := by
    ext id
    rw [h.active, Finset.mem_sdiff, List.mem_toFinset]
    simp
  unfold VersionLedger.scratchUse
  rw [hset, VersionLedger.scratchSize_congr h.states, ← List.sum_toFinset _ hnodup]
  exact Finset.sum_sdiff fun id hid => hactive id (List.mem_toFinset.mp hid)

/-- **`_store` is atomic and keeps the ledger.** -/
theorem storeVersion_atomic (h : s.WellKept) (start stop : TimeArg) (readIds : List String)
    (isInitial : Bool) :
    Atomic (storeVersion state start stop readIds isInitial) s fun _ t => t.WellKept := by
  unfold storeVersion
  refine .asks fun startUs _ => .asks fun endUs hend => .asks fun _ _ => .asks fun admitted hadmission => ?_
  obtain ⟨reads, overwritten⟩ := admitted
  have hadm := admission_ok h.stocked hadmission
  have hactive : ∀ id ∈ overwritten, id ∈ s.active := fun id hid => ((hadm.overlaps id).mp hid).1
  refine Sure.atomic ((notes_sure h hadm.fresh reads (timeOf_ok hend)).bind fun _ t ht => ?_)
  have hactive' : ∀ id ∈ overwritten, id ∈ t.active := fun id hid => ht.same.active ▸ hactive id hid
  refine (drops_sure ht.stocked hadm.nodup hactive').bind fun _ u hu => ?_
  have hstates : u.states = s.states := hu.states.trans ht.same.states
  have huse := hu.scratchUse hadm.nodup hactive' state.storage.rank
  refine ⟨(), _, run_enter, ?_, ?_, ?_⟩
  · refine hu.stocked.addActive ?_ (fun id hid value hvalue hlap => ?_) ?_ fun hscratch => ?_
    · rw [hstates]
      exact Dict.get?_eq_none.mpr hadm.fresh
    · -- what is still active was not overwritten
      obtain ⟨hid, hnot⟩ := (hu.active id).mp hid
      rw [hstates] at hvalue
      exact List.not_mem_nil
        (hnot ((hadm.overlaps id).mpr ⟨ht.same.active ▸ hid, value, hvalue, hlap⟩))
    · rw [hu.kinds, ht.same.kinds]
      exact hadm.kind
    · have hroom := hadm.room hscratch
      have hsame : t.scratchUse state.storage.rank = s.scratchUse state.storage.rank := by
        unfold VersionLedger.scratchUse
        rw [ht.same.active, VersionLedger.scratchSize_congr ht.same.states]
      rw [VersionLedger.scratchSize_congr ht.same.states, hsame] at huse
      rw [hu.budgets, ht.same.budgets]
      omega
  · refine ⟨fun id last hlast => ?_, fun key id last hkey => ?_, fun key id last hkey => ?_⟩
    · have hlast : u.readerEnd.get? id = some last := hlast
      rw [hu.readerEnd] at hlast
      obtain ⟨key, hkey⟩ := ht.recorded.latest id last hlast
      exact ⟨key, (congrArg (Dict.get? · key) hu.readers).trans hkey⟩
    · have hkey : u.readers.get? key = some (id, last) := hkey
      rw [hu.readers] at hkey
      obtain ⟨last', hlast', hle⟩ := ht.recorded.covered key id last hkey
      exact ⟨last', (congrArg (Dict.get? · id) hu.readerEnd).trans hlast', hle⟩
    · have hkey : u.readers.get? key = some (id, last) := hkey
      rw [hu.readers] at hkey
      exact ht.recorded.nonneg key id last hkey
  · intro id index hmem
    have hmem : .operation id index ∈ u.readers.keys := hmem
    rw [hu.readers] at hmem
    show id ∈ (u.states.set state.stateId state).keys
    rw [Dict.mem_keys_set, hstates]
    exact (ht.made id index hmem).symm

/-! ## The methods -/

theorem reserveRead_atomic (h : s.WellKept) (readerId : String) (start stop : TimeArg) :
    Atomic (reserveRead id readerId start stop) s fun _ t => t.WellKept := by
  unfold reserveRead
  refine .asks fun _ _ => .asks fun endUs hend => .asks fun _ _ => .asks fun _ _ =>
    .asks fun _ hidentity => ?_
  obtain ⟨-, hkey⟩ := Checked.ensure_ok.mp hidentity
  refine Sure.atomic ⟨(), _, run_note _ _, stocked_noted h.stocked _ _,
    h.recorded.noted hkey (timeOf_ok hend), fun x index hmem => ?_⟩
  rcases Dict.mem_keys_set.mp hmem with heq | hmem
  · cases heq
  · exact h.made x index hmem

theorem release_atomic (h : s.WellKept) (time : TimeArg) :
    Atomic (release id time) s fun _ t => t.WellKept := by
  unfold release
  refine .asks fun state hread => .asks fun _ _ => .asks fun _ _ => ?_
  refine ((drop_sure h.stocked (readableAt_ok hread).2).mono ?_).atomic
  rintro - t ⟨hstocked, hdropped⟩
  refine ⟨hstocked, ⟨?_, ?_, ?_⟩, ?_⟩
  · rw [hdropped.readerEnd, hdropped.readers]
    exact h.recorded.latest
  · rw [hdropped.readerEnd, hdropped.readers]
    exact h.recorded.covered
  · rw [hdropped.readers]
    exact h.recorded.nonneg
  · rw [hdropped.readers, hdropped.states]
    exact h.made

end Methods

end ReadLedger

/-- **Every call is atomic and keeps the ledger.** -/
theorem VersionCall.atomic {s : ReadLedger} (h : s.WellKept) (call : VersionCall) :
    Atomic call.method s fun _ t => t.WellKept := by
  cases call with
  | addInitial state => exact ReadLedger.storeVersion_atomic h _ _ _ _
  | copy sourceId stateId destination start stop =>
    refine .asks fun source _ => .asks fun result _ => ?_
    exact ReadLedger.storeVersion_atomic h _ _ _ _
  | reduce leftId rightId stateId destination start stop =>
    refine .asks fun inputs _ => .asks fun result _ => ?_
    exact ReadLedger.storeVersion_atomic h _ _ _ _
  | reserveRead stateId readerId start stop => exact ReadLedger.reserveRead_atomic h _ _ _
  | release stateId time => exact ReadLedger.release_atomic h _

theorem VersionCall.wellKept {s : ReadLedger} (h : s.WellKept) (call : VersionCall) :
    (s.after call).WellKept := by
  have hatomic := call.atomic h
  unfold Atomic at hatomic
  unfold ReadLedger.after
  cases hrun : call.method.run s with
  | ok _ t =>
    rw [hrun] at hatomic
    exact hatomic
  | error e t =>
    rw [hrun] at hatomic
    exact hatomic ▸ h

theorem ReadLedger.wellKept_fresh (scratchBudgets : Dict ℕ ℕ) :
    (ReadLedger.fresh scratchBudgets).WellKept := by
  have hnone : ∀ id, (ReadLedger.fresh scratchBudgets).states.get? id = none := fun _ => rfl
  refine ⟨⟨⟨?_, ?_, ?_, ?_⟩, ?_, ?_, ?_, ?_⟩, ⟨?_, ?_, ?_⟩, ?_⟩
  · intro id state hstate
    cases hstate
  · intro buffer offset id
    simp [ReadLedger.fresh, VersionLedger.entries]
  · intro id hid
    simp [ReadLedger.fresh] at hid
  · intro buffer
    exact List.Pairwise.nil
  · intro id state hstate
    cases hstate
  · intro rank
    rfl
  · intro id hid
    simp [ReadLedger.fresh] at hid
  · intro rank
    exact Nat.zero_le _
  · intro id last hlast
    cases hlast
  · intro key id last hkey
    cases hkey
  · intro key id last hkey
    cases hkey
  · intro id index hmem
    simp [ReadLedger.fresh, Dict.keys] at hmem

/-- **Every state of a ledger is well kept.** -/
theorem ReadLedger.wellKept_afterAll (scratchBudgets : Dict ℕ ℕ) (calls : List VersionCall) :
    (ReadLedger.afterAll scratchBudgets calls).WellKept := by
  have hrun : ∀ s : ReadLedger, s.WellKept → (calls.foldl ReadLedger.after s).WellKept := by
    induction calls with
    | nil => exact fun _ h => h
    | cons call calls ih => exact fun s h => ih _ (call.wellKept h)
  exact hrun _ (ReadLedger.wellKept_fresh scratchBudgets)

/-- **What the indexes of a ledger represent.** -/
structure ReadLedger.Represents (s : ReadLedger) : Prop where
  disjoint : ∀ id ∈ s.active, ∀ id' ∈ s.active, ∀ state state', s.states.get? id = some state →
    s.states.get? id' = some state' → state.storage.overlaps state'.storage → id = id'
  sorted : ∀ buffer, (s.entries buffer).Pairwise entryLt
  listed : ∀ buffer offset id, (offset, id) ∈ s.entries buffer ↔ id ∈ s.active ∧
    ∃ state, s.states.get? id = some state ∧ state.storage.buffer = buffer ∧
      state.storage.offset = offset
  oneKind : ∀ id id' state state', s.states.get? id = some state → s.states.get? id' = some state' →
    state.storage.buffer = state'.storage.buffer → state.storage.kind = state'.storage.kind
  scratchLive : ∀ rank, (s.scratchLive.get? rank).getD 0 = (s.scratchUse rank : ℤ)
  budget : ∀ rank, s.scratchUse rank ≤ (s.scratchBudgets.get? rank).getD 0
  readerEnd : ∀ id, (∀ last, s.readerEnd.get? id = some last ↔
    IsGreatest {endUs | ∃ key, s.readers.get? key = some (id, endUs)} last) ∧
    (s.readerEnd.get? id = none ↔ ∀ key endUs, s.readers.get? key ≠ some (id, endUs))
  contributors : ∀ id state, s.states.get? id = some state →
    (state.contributors.map (·.sourceRank)).Nodup
  overlapping : ∀ region, ∃ ids, s.overlapping region = .ok ids ∧ ids.Nodup ∧ ∀ id, id ∈ ids ↔
    id ∈ s.active ∧ ∃ state, s.states.get? id = some state ∧ region.overlaps state.storage

/-- The end of the last reader, as a maximum. -/
theorem ReadLedger.Recorded.isGreatest {s : ReadLedger} (h : s.Recorded) (id : String) :
    (∀ last, s.readerEnd.get? id = some last ↔
      IsGreatest {endUs | ∃ key, s.readers.get? key = some (id, endUs)} last) ∧
    (s.readerEnd.get? id = none ↔ ∀ key endUs, s.readers.get? key ≠ some (id, endUs)) := by
  have hgreatest : ∀ last, s.readerEnd.get? id = some last →
      IsGreatest {endUs | ∃ key, s.readers.get? key = some (id, endUs)} last := by
    intro last hlast
    refine ⟨h.latest id last hlast, fun endUs hend => ?_⟩
    obtain ⟨key, hkey⟩ := hend
    obtain ⟨last', hlast', hle⟩ := h.covered key id endUs hkey
    obtain rfl := Option.some.inj (hlast.symm.trans hlast')
    exact hle
  refine ⟨fun last => ⟨hgreatest last, fun hmax => ?_⟩, fun hnone key endUs hkey => ?_, fun hnone => ?_⟩
  · obtain ⟨key, hkey⟩ := hmax.1
    obtain ⟨last', hlast', -⟩ := h.covered key id last hkey
    rw [hlast', (hgreatest last' hlast').unique hmax]
  · obtain ⟨last, hlast, -⟩ := h.covered key id endUs hkey
    rw [hnone] at hlast
    cases hlast
  · by_contra hsome
    obtain ⟨last, hlast⟩ := Option.ne_none_iff_exists'.mp hsome
    obtain ⟨key, hkey⟩ := h.latest id last hlast
    exact hnone key last hkey

/-- **A well kept ledger represents its versions and readers.** -/
theorem ReadLedger.WellKept.represents {s : ReadLedger} (h : s.WellKept) : s.Represents where
  disjoint _ hid _ hid' _ _ hstate hstate' hover :=
    h.stocked.indexed.disjoint hid hid' hstate hstate' hover
  sorted buffer := (h.stocked.indexed.increasing buffer).imp Or.inl
  listed := h.stocked.indexed.listed
  oneKind id id' state state' hstate hstate' hbuffer := by
    have hkind := h.stocked.kinds id state hstate
    rw [hbuffer, h.stocked.kinds id' state' hstate'] at hkind
    exact (Option.some.inj hkind).symm
  scratchLive := h.stocked.live
  budget := h.stocked.budget
  readerEnd := h.recorded.isGreatest
  contributors _ state _ := by
    rw [contributors_sources]
    exact state.sources_nodup
  overlapping region := by
    obtain ⟨ids, hids⟩ := h.stocked.indexed.overlapping_total region
    exact ⟨ids, hids, h.stocked.indexed.overlapping_nodup hids, h.stocked.indexed.mem_overlapping hids⟩

/-- **The ledger is what its indexes say, and its calls are atomic.**  After any calls,
whether they returned or raised, the indexes represent the versions and readers; and a
call that raises then leaves everything as it was. -/
theorem versionLedger_represents (scratchBudgets : Dict ℕ ℕ) (calls : List VersionCall) :
    (ReadLedger.afterAll scratchBudgets calls).Represents ∧
    ∀ (call : VersionCall) e t,
      call.method.run (ReadLedger.afterAll scratchBudgets calls) = .error e t →
        t = ReadLedger.afterAll scratchBudgets calls := by
  have hkept := ReadLedger.wellKept_afterAll scratchBudgets calls
  refine ⟨hkept.represents, fun call e t hrun => ?_⟩
  have hatomic := call.atomic hkept
  unfold Atomic at hatomic
  rw [hrun] at hatomic
  exact hatomic

end VeriCCL
