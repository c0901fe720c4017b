import VeriCCL.VersionSchedule

/-! # The overlap index of the ledger

The entries of a buffer are its active regions, sorted and disjoint (`Indexed`).  On such
a list bisection finds exactly the active versions that a new region overlaps
(`Indexed.mem_overlapping`), and removing and adding versions keep the list so. -/
namespace VeriCCL

/-- On a sorted list, taking while is filtering. -/
theorem takeWhile_eq_filter {α : Type} {p : α → Bool} {l : List α}
    (h : l.Pairwise fun a b => p b = true → p a = true) : l.takeWhile p = l.filter p := by
  induction l with
  | nil => rfl
  | cons a l ih =>
    rw [List.pairwise_cons] at h
    by_cases ha : p a = true
    · rw [List.takeWhile_cons_of_pos ha, List.filter_cons_of_pos ha, ih h.2]
    · rw [List.takeWhile_cons_of_neg ha, List.filter_cons_of_neg ha]
      refine (List.filter_eq_nil_iff.mpr ?_).symm
      intro b hb hpb
      exact ha (h.1 b hb hpb)

namespace VersionLedger

/-- **The index lists the active regions**, sorted and disjoint. -/
structure Indexed (ledger : VersionLedger) : Prop where
  keyed : ∀ id state, ledger.states.get? id = some state → state.stateId = id
  listed : ∀ buffer offset id, (offset, id) ∈ ledger.entries buffer ↔ id ∈ ledger.active ∧
    ∃ state, ledger.states.get? id = some state ∧ state.storage.buffer = buffer ∧
      state.storage.offset = offset
  known : ∀ id ∈ ledger.active, ∃ state, ledger.states.get? id = some state
  sorted : ∀ buffer, (ledger.entries buffer).Pairwise fun a b =>
    ∀ state, ledger.states.get? a.2 = some state → a.1 + state.storage.size ≤ b.1

section Indexed
variable {ledger : VersionLedger}

theorem Indexed.increasing (h : ledger.Indexed) (buffer : BufferKey) :
    (ledger.entries buffer).Pairwise fun a b => a.1 < b.1 := by
  refine (h.sorted buffer).imp_of_mem ?_
  intro a b ha _ hab
  obtain ⟨-, state, hstate, -⟩ := (h.listed buffer a.1 a.2).mp ha
  have := hab state hstate
  have := state.storage.size_pos
  omega

/-- Nothing is smaller than the empty text. -/
theorem entryLt_empty {e : ℕ × String} {n : ℕ} : entryLt e (n, "") ↔ e.1 < n := by
  unfold entryLt
  constructor
  · rintro (h | ⟨-, h⟩)
    · exact h
    · have : ¬ e.2 < "" := by
        rw [String.lt_iff]
        simp
      exact absurd h this
  · exact Or.inl

/-- Bisection cuts the entries at a bound. -/
theorem Indexed.cut (h : ledger.Indexed) (buffer : BufferKey) (x : ℕ × String) : ∃ a b,
    ledger.entries buffer = a ++ b ∧ a.length = bisectLeft (ledger.entries buffer) x ∧
      (∀ e ∈ a, entryLt e x) ∧ ∀ e ∈ b, ¬ entryLt e x := by
  have hfilter : (ledger.entries buffer).takeWhile (fun e => decide (entryLt e x)) =
      (ledger.entries buffer).filter fun e => decide (entryLt e x) := by
    refine takeWhile_eq_filter ((h.increasing buffer).imp ?_)
    intro a b hab hb
    simp only [decide_eq_true_eq] at hb ⊢
    unfold entryLt at hb ⊢
    omega
  refine ⟨(ledger.entries buffer).takeWhile fun e => decide (entryLt e x),
    (ledger.entries buffer).dropWhile fun e => decide (entryLt e x),
    (List.takeWhile_append_dropWhile).symm, rfl, ?_, ?_⟩
  · intro e he
    rw [hfilter] at he
    simpa using (List.mem_filter.mp he).2
  · intro e he hlt
    have hmem : e ∈ (ledger.entries buffer).takeWhile fun e => decide (entryLt e x) := by
      rw [hfilter]
      exact List.mem_filter.mpr ⟨(List.dropWhile_sublist _).subset he, by simpa using hlt⟩
    -- an entry stands once in the list
    have hinc := h.increasing buffer
    rw [← @List.takeWhile_append_dropWhile _ (fun e => decide (entryLt e x))
      (ledger.entries buffer)] at hinc
    have := (List.pairwise_append.mp hinc).2.2 e hmem e he
    omega

/-- The entries that start before an offset, and the rest. -/
theorem Indexed.split (h : ledger.Indexed) (buffer : BufferKey) (n : ℕ) : ∃ a b,
    ledger.entries buffer = a ++ b ∧ a.length = bisectLeft (ledger.entries buffer) (n, "") ∧
      (∀ e ∈ a, e.1 < n) ∧ ∀ e ∈ b, n ≤ e.1 := by
  obtain ⟨a, b, hab, hlen, ha, hb⟩ := h.cut buffer (n, "")
  refine ⟨a, b, hab, hlen, fun e he => entryLt_empty.mp (ha e he), ?_⟩
  intro e he
  have := mt entryLt_empty.mpr (hb e he)
  omega

/-- Active versions do not overlap. -/
theorem Indexed.disjoint (h : ledger.Indexed) {id id' : String} (hid : id ∈ ledger.active)
    (hid' : id' ∈ ledger.active) {state state' : StateVersion}
    (hstate : ledger.states.get? id = some state) (hstate' : ledger.states.get? id' = some state')
    (hover : state.storage.overlaps state'.storage) : id = id' := by
  by_contra hne
  obtain ⟨⟨hrank, hbuf⟩, hlap⟩ := hover
  have hsame : state'.storage.buffer = state.storage.buffer := Prod.ext hrank.symm hbuf.symm
  have hmem := (h.listed _ _ _).mpr ⟨hid, state, hstate, rfl, rfl⟩
  have hmem' := (h.listed _ _ _).mpr ⟨hid', state', hstate', hsame, rfl⟩
  have hentries : (state.storage.offset, id) ≠ (state'.storage.offset, id') :=
    fun heq => hne (Prod.mk.inj heq).2
  rcases pairwise_or (h.sorted _) hmem hmem' hentries with hle | hle
  · have := hle state hstate
    simp only at this
    omega
  · have := hle state' hstate'
    simp only at this
    omega

/-- The slice that `_overlapping` returns. -/
theorem Indexed.mem_slice (h : ledger.Indexed) {region : BufferRegion} {first : ℕ}
    (hfirst : ledger.overlapStart region (bisectLeft (ledger.entries region.buffer)
      (region.offset, "")) = .ok first) (e : ℕ × String) :
    e ∈ ((ledger.entries region.buffer).take (bisectLeft (ledger.entries region.buffer)
        (region.offset + region.size, ""))).drop first ↔
      e ∈ ledger.entries region.buffer ∧ e.1 < region.offset + region.size ∧
        ∀ state, ledger.states.get? e.2 = some state → region.offset < e.1 + state.storage.size := by
  obtain ⟨a, b, hab, hlen, ha, hb⟩ := h.split region.buffer region.offset
  obtain ⟨c, d, hcd, hlen', hc, hd⟩ := h.split region.buffer (region.offset + region.size)
  have hsize := region.size_pos
  have htake : (ledger.entries region.buffer).take c.length = c := by
    rw [hcd]
    simp
  -- the entries before the start are a part of those before the end
  obtain ⟨m, hm⟩ : ∃ m, c = a ++ m := by
    rcases List.append_eq_append_iff.mp (hab.symm.trans hcd) with ⟨m, hm, -⟩ | ⟨m, hm, hm'⟩
    · exact ⟨m, hm⟩
    · cases m with
      | nil => exact ⟨[], by simpa using hm.symm⟩
      | cons x m =>
        have hx : x ∈ a := by simp [hm]
        have hx' : x ∈ d := by simp [hm']
        have := ha x hx
        have := hd x hx'
        omega
  have hbm : b = m ++ d := by
    have := hab.symm.trans hcd
    rw [hm, List.append_assoc] at this
    exact List.append_cancel_left this
  have hmem : ∀ e, e ∈ m → e ∈ ledger.entries region.buffer ∧ e.1 < region.offset + region.size ∧
      ∀ state, ledger.states.get? e.2 = some state → region.offset < e.1 + state.storage.size := by
    intro e he
    refine ⟨by rw [hcd, hm]; simp [he], hc e (by rw [hm]; simp [he]), ?_⟩
    intro state _
    have := hb e (by rw [hbm]; simp [he])
    have := state.storage.size_pos
    omega
  have hcases : ∀ e, e ∈ ledger.entries region.buffer → e.1 < region.offset + region.size →
      e ∈ a ∨ e ∈ m := by
    intro e he hlt
    rw [hcd, hm] at he
    rcases List.mem_append.mp he with he | he
    · exact List.mem_append.mp he
    · have := hd e he
      omega
  rw [← hlen', htake, hm]
  rw [← hlen] at hfirst
  unfold overlapStart at hfirst
  split at hfirst
  · -- nothing starts before the region
    rename_i hzero
    obtain rfl : a = [] := List.eq_nil_of_length_eq_zero hzero
    obtain rfl : 0 = first := Except.ok.inj hfirst
    rw [List.drop_zero, List.nil_append]
    constructor
    · exact hmem e
    · rintro ⟨he, hlt, -⟩
      rcases hcases e he hlt with h | h
      · simp at h
      · exact h
  · rename_i hpos
    simp only [Checked.bind_ok, Checked.pure_ok, Checked.required_ok] at hfirst
    obtain ⟨x, hx, state, hstate, hfirst⟩ := hfirst
    obtain ⟨a', y, rfl⟩ : ∃ a' y, a = a' ++ [y] := by
      rcases List.eq_nil_or_concat a with rfl | ⟨a', y, rfl⟩
      · simp at hpos
      · exact ⟨a', y, by simp⟩
    obtain rfl : y = x := by
      rw [hab] at hx
      simpa using hx
    have hyentry : y ∈ ledger.entries region.buffer := by rw [hab]; simp
    obtain ⟨-, state', hstate', -, hoffset⟩ := (h.listed region.buffer y.1 y.2).mp hyentry
    obtain rfl : state = state' := Option.some.inj (hstate.symm.trans hstate')
    -- the regions before the last one that starts earlier end before it
    have hearlier : ∀ e ∈ a', ∃ state, ledger.states.get? e.2 = some state ∧
        e.1 + state.storage.size ≤ region.offset := by
      intro e he
      obtain ⟨-, st, hst, -⟩ := (h.listed region.buffer e.1 e.2).mp (by rw [hab]; simp [he])
      have hsorted := h.sorted region.buffer
      rw [hab, List.append_assoc] at hsorted
      have hle := (List.pairwise_append.mp hsorted).2.2 e he y (by simp) st hst
      have := ha y (by simp)
      exact ⟨st, hst, by omega⟩
    have hnot : ∀ e ∈ a', ¬ ∀ state, ledger.states.get? e.2 = some state →
        region.offset < e.1 + state.storage.size := by
      intro e he hall
      obtain ⟨st, hst, hle⟩ := hearlier e he
      have := hall st hst
      omega
    split at hfirst
    · -- it reaches into the region
      rename_i hreach
      have hdrop : ((a' ++ [y]) ++ m).drop first = y :: m := by
        rw [← hfirst]
        simp
      rw [hdrop, List.mem_cons]
      constructor
      · rintro (rfl | he)
        · refine ⟨hyentry, by have := ha e (by simp); omega, ?_⟩
          intro st hst
          obtain rfl : st = state := Option.some.inj (hst.symm.trans hstate)
          omega
        · exact hmem e he
      · rintro ⟨he, hlt, hall⟩
        rcases hcases e he hlt with he | he
        · rcases List.mem_append.mp he with he | he
          · exact absurd hall (hnot e he)
          · exact Or.inl (List.mem_singleton.mp he)
        · exact Or.inr he
    · rename_i hreach
      have hdrop : ((a' ++ [y]) ++ m).drop first = m := by
        rw [← hfirst]
        simp
      rw [hdrop]
      constructor
      · exact hmem e
      · rintro ⟨he, hlt, hall⟩
        rcases hcases e he hlt with he | he
        · rcases List.mem_append.mp he with he | he
          · exact absurd hall (hnot e he)
          · rw [List.mem_singleton.mp he] at hall
            have := hall state hstate
            omega
        · exact he

/-- **Bisection finds the active versions that a region overlaps.** -/
theorem Indexed.mem_overlapping (h : ledger.Indexed) {region : BufferRegion} {ids : List String}
    (hids : ledger.overlapping region = .ok ids) (id : String) :
    id ∈ ids ↔ id ∈ ledger.active ∧ ∃ state, ledger.states.get? id = some state ∧
      region.overlaps state.storage := by
  unfold overlapping at hids
  simp only [Checked.bind_ok, Checked.pure_ok] at hids
  obtain ⟨first, hfirst, rfl⟩ := hids
  rw [List.mem_map]
  constructor
  · rintro ⟨e, he, rfl⟩
    obtain ⟨hentry, hlt, hall⟩ := (h.mem_slice hfirst e).mp he
    obtain ⟨hactive, state, hstate, hbuffer, hoffset⟩ := (h.listed _ e.1 e.2).mp hentry
    refine ⟨hactive, state, hstate, ?_⟩
    obtain ⟨hrank, hid⟩ := Prod.mk.inj hbuffer
    have := hall state hstate
    have := region.size_pos
    have := state.storage.size_pos
    exact ⟨⟨hrank.symm, hid.symm⟩, by omega⟩
  · rintro ⟨hactive, state, hstate, ⟨hrank, hid⟩, hover⟩
    refine ⟨(state.storage.offset, id), (h.mem_slice hfirst _).mpr ⟨?_, ?_, ?_⟩, rfl⟩
    · exact (h.listed _ _ _).mpr ⟨hactive, state, hstate, Prod.ext hrank.symm hid.symm, rfl⟩
    · show state.storage.offset < region.offset + region.size
      omega
    · intro st hst
      obtain rfl : st = state := Option.some.inj (hst.symm.trans hstate)
      show region.offset < st.storage.offset + st.storage.size
      omega

/-- The entry of an active version, and what stands around it. -/
theorem Indexed.around (h : ledger.Indexed) {id : String} {state : StateVersion}
    (hactive : id ∈ ledger.active) (hstate : ledger.states.get? id = some state) : ∃ a b,
      ledger.entries state.storage.buffer = a ++ (state.storage.offset, id) :: b ∧
      a.length = bisectLeft (ledger.entries state.storage.buffer) (state.storage.offset, id) := by
  obtain ⟨a, b, hab, hlen, ha, hb⟩ := h.cut state.storage.buffer (state.storage.offset, id)
  have hmem : (state.storage.offset, id) ∈ ledger.entries state.storage.buffer :=
    (h.listed _ _ _).mpr ⟨hactive, state, hstate, rfl, rfl⟩
  have hself : ¬ entryLt (state.storage.offset, id) (state.storage.offset, id) := by
    unfold entryLt
    simp
  have hinb : (state.storage.offset, id) ∈ b := by
    rw [hab] at hmem
    rcases List.mem_append.mp hmem with hmem | hmem
    · exact absurd (ha _ hmem) hself
    · exact hmem
  -- it is the first of the rest: what stands before it is smaller
  cases b with
  | nil => simp at hinb
  | cons x b =>
    rcases List.mem_cons.mp hinb with rfl | hinb
    · exact ⟨a, b, hab, hlen⟩
    · have hinc := h.increasing state.storage.buffer
      rw [hab] at hinc
      have hlt := (List.pairwise_cons.mp (List.pairwise_append.mp hinc).2.1).1 _ hinb
      exact absurd (Or.inl hlt) (hb x List.mem_cons_self)

theorem entries_set {buffer other : BufferKey} {entries : List (ℕ × String)}
    {ledger' : VersionLedger} (h : ledger'.regions = ledger.regions.set buffer entries) :
    ledger'.entries other = if buffer = other then entries else ledger.entries other := by
  unfold VersionLedger.entries
  rw [h, Dict.get?_set]
  split <;> rfl

/-- What removing a version changes. -/
structure Removed (ledger : VersionLedger) (ids : List String) (ledger' : VersionLedger) : Prop where
  indexed : ledger'.Indexed
  active : ∀ id, id ∈ ledger'.active ↔ id ∈ ledger.active ∧ id ∉ ids
  states : ledger'.states = ledger.states
  readerEnd : ledger'.readerEnd = ledger.readerEnd

/-- **Removing a version keeps the index.** -/
theorem Indexed.removeActive (h : ledger.Indexed) {id : String} {ledger' : VersionLedger}
    (hrem : ledger.removeActive id = .ok ledger') : Removed ledger [id] ledger' := by
  unfold VersionLedger.removeActive at hrem
  simp only [Checked.bind_ok, Checked.pure_ok, Checked.required_ok, Checked.ensure_ok] at hrem
  obtain ⟨state, hstate, entries, hentries, _, -, _, hactive, hrem⟩ := hrem
  obtain ⟨a, b, hab, hlen⟩ := h.around hactive hstate
  obtain rfl : ledger.entries state.storage.buffer = entries := by
    unfold VersionLedger.entries
    rw [hentries]
    rfl
  have herase : (ledger.entries state.storage.buffer).eraseIdx
      (bisectLeft (ledger.entries state.storage.buffer) (state.storage.offset, id)) = a ++ b := by
    rw [← hlen, hab, List.eraseIdx_append_of_length_le (le_refl _)]
    simp
  have hsub : (a ++ b).Sublist (ledger.entries state.storage.buffer) := by
    rw [hab]
    exact (List.Sublist.refl a).append (List.sublist_cons_self _ _)
  have hinc := h.increasing state.storage.buffer
  rw [hab] at hinc
  -- the version had one entry
  have honce : ∀ e ∈ a ++ b, e.2 ≠ id := by
    intro e he hid
    obtain ⟨-, st, hst, -, hoff⟩ := (h.listed _ e.1 e.2).mp (hsub.subset he)
    rw [hid, hstate, Option.some.injEq] at hst
    subst hst
    rcases List.mem_append.mp he with he | he
    · have := (List.pairwise_append.mp hinc).2.2 e he _ List.mem_cons_self
      simp only at this
      omega
    · have := (List.pairwise_cons.mp (List.pairwise_append.mp hinc).2.1).1 e he
      simp only at this
      omega
  have hstates : ledger'.states = ledger.states := by rw [← hrem]
  have hact : ledger'.active = ledger.active.erase id := by rw [← hrem]
  have hlist : ∀ buffer, ledger'.entries buffer =
      if state.storage.buffer = buffer then a ++ b else ledger.entries buffer := by
    intro buffer
    rw [← herase]
    exact entries_set (by rw [← hrem])
  refine ⟨⟨by rw [hstates]; exact h.keyed, ?_, ?_, ?_⟩, ?_, hstates, by rw [← hrem]⟩
  · intro buffer offset id'
    rw [hlist, hact, hstates, Finset.mem_erase]
    split
    · rename_i hbuffer
      subst hbuffer
      constructor
      · intro hmem
        obtain ⟨hact, hst⟩ := (h.listed _ _ _).mp (hsub.subset hmem)
        exact ⟨⟨honce _ hmem, hact⟩, hst⟩
      · rintro ⟨⟨hne, hact⟩, hst⟩
        have hmem := (h.listed _ _ _).mpr ⟨hact, hst⟩
        rw [hab] at hmem
        rcases List.mem_append.mp hmem with hmem | hmem
        · exact List.mem_append_left _ hmem
        · rcases List.mem_cons.mp hmem with heq | hmem
          · exact absurd (Prod.mk.inj heq).2 hne
          · exact List.mem_append_right _ hmem
    · rename_i hbuffer
      rw [h.listed]
      constructor
      · rintro ⟨hact, st, hst, hbuf, hoff⟩
        refine ⟨⟨?_, hact⟩, st, hst, hbuf, hoff⟩
        rintro rfl
        rw [hstate, Option.some.injEq] at hst
        exact hbuffer (hst ▸ hbuf)
      · rintro ⟨⟨-, hact⟩, hst⟩
        exact ⟨hact, hst⟩
  · intro id' hid'
    rw [hact] at hid'
    rw [hstates]
    exact h.known id' (Finset.mem_of_mem_erase hid')
  · intro buffer
    rw [hlist, hstates]
    split
    · rename_i hbuffer
      subst hbuffer
      exact (h.sorted _).sublist hsub
    · exact h.sorted buffer
  · intro id'
    rw [hact, Finset.mem_erase, List.mem_singleton]
    exact and_comm

theorem Indexed.removeAll (ids : List String) {ledger ledger' : VersionLedger} (h : ledger.Indexed)
    (hrem : ids.foldlM VersionLedger.removeActive ledger = .ok ledger') :
    Removed ledger ids ledger' := by
  induction ids generalizing ledger with
  | nil =>
    rw [List.foldlM_nil, Checked.pure_ok] at hrem
    subst hrem
    exact ⟨h, by simp, rfl, rfl⟩
  | cons id ids ih =>
    rw [List.foldlM_cons, Checked.bind_ok] at hrem
    obtain ⟨next, hnext, hrem⟩ := hrem
    have hone := h.removeActive hnext
    have hrest := ih hone.indexed hrem
    refine ⟨hrest.indexed, ?_, hrest.states.trans hone.states, hrest.readerEnd.trans hone.readerEnd⟩
    intro x
    rw [hrest.active, hone.active]
    simp only [List.mem_cons, List.not_mem_nil, or_false]
    tauto

/-- **A new version in free storage keeps the index.** -/
theorem Indexed.addActive (h : ledger.Indexed) {state : StateVersion}
    (hfresh : ledger.states.get? state.stateId = none)
    (hfree : ∀ id ∈ ledger.active, ∀ st, ledger.states.get? id = some st →
      ¬ state.storage.overlaps st.storage) : (ledger.addActive state).Indexed := by
  obtain ⟨a, b, hab, hlen, ha, hb⟩ := h.cut state.storage.buffer (state.storage.offset, state.stateId)
  have hinsert : (ledger.entries state.storage.buffer).insertIdx
      (bisectLeft (ledger.entries state.storage.buffer) (state.storage.offset, state.stateId))
      (state.storage.offset, state.stateId) = a ++ (state.storage.offset, state.stateId) :: b := by
    rw [← hlen, hab]
    clear hlen hab ha
    induction a with
    | nil => rfl
    | cons x a ih => simpa [List.insertIdx_succ_cons] using ih
  have hold : ∀ id, id ∈ ledger.active → id ≠ state.stateId := by
    rintro id hid rfl
    obtain ⟨st, hst⟩ := h.known _ hid
    rw [hfresh] at hst
    cases hst
  have hstates : ∀ id, (ledger.addActive state).states.get? id =
      if state.stateId = id then some state else ledger.states.get? id :=
    fun id => Dict.get?_set _ _ _ _
  have hentry : ∀ {buffer : BufferKey} {e : ℕ × String}, e ∈ ledger.entries buffer →
      e.2 ≠ state.stateId := fun he => hold _ ((h.listed _ _ _).mp he).1
  refine ⟨?_, ?_, ?_, ?_⟩
  · intro id st hst
    rw [hstates] at hst
    split at hst
    · rename_i hid
      rw [← Option.some.inj hst, hid]
    · exact h.keyed id st hst
  · intro buffer offset id
    rw [entries_set rfl, hinsert, hstates]
    show _ ↔ id ∈ insert state.stateId ledger.active ∧ _
    rw [Finset.mem_insert]
    have hcons : ∀ e : ℕ × String, e ∈ a ++ (state.storage.offset, state.stateId) :: b ↔
        e = (state.storage.offset, state.stateId) ∨ e ∈ ledger.entries state.storage.buffer := by
      intro e
      rw [hab]
      simp only [List.mem_append, List.mem_cons]
      tauto
    by_cases hid : state.stateId = id
    · subst hid
      rw [if_pos rfl]
      constructor
      · intro hmem
        split at hmem
        · rename_i hbuffer
          rcases (hcons _).mp hmem with heq | hmem
          · exact ⟨Or.inl rfl, state, rfl, hbuffer, (Prod.mk.inj heq).1.symm⟩
          · exact absurd rfl (hentry hmem)
        · exact absurd rfl (hentry hmem)
      · rintro ⟨-, st, hst, hbuffer, hoffset⟩
        obtain rfl := Option.some.inj hst
        rw [if_pos hbuffer, hcons, hoffset]
        exact Or.inl rfl
    · rw [if_neg hid]
      have hmem : (offset, id) ∈ (if state.storage.buffer = buffer then
          a ++ (state.storage.offset, state.stateId) :: b else ledger.entries buffer) ↔
          (offset, id) ∈ ledger.entries buffer := by
        split
        · rename_i hbuffer
          subst hbuffer
          rw [hcons]
          constructor
          · rintro (heq | hmem)
            · exact absurd (Prod.mk.inj heq).2.symm hid
            · exact hmem
          · exact Or.inr
        · rfl
      rw [hmem, h.listed]
      constructor
      · rintro ⟨hact, hst⟩
        exact ⟨Or.inr hact, hst⟩
      · rintro ⟨hact | hact, hst⟩
        · exact absurd hact.symm hid
        · exact ⟨hact, hst⟩
  · intro id hid
    rw [hstates]
    rcases Finset.mem_insert.mp hid with rfl | hid
    · exact ⟨state, by rw [if_pos rfl]⟩
    · rw [if_neg (hold id hid).symm]
      exact h.known id hid
  · intro buffer
    rw [entries_set rfl, hinsert]
    have hsorted : ∀ other, (ledger.entries other).Pairwise fun x y =>
        ∀ st, (ledger.addActive state).states.get? x.2 = some st → x.1 + st.storage.size ≤ y.1 := by
      intro other
      refine (h.sorted other).imp_of_mem ?_
      intro x y hx _ hxy st hst
      rw [hstates, if_neg (hentry hx).symm] at hst
      exact hxy st hst
    split
    · have hall := hsorted state.storage.buffer
      rw [hab, List.pairwise_append] at hall
      -- the new region does not overlap its neighbours
      have hapart : ∀ e ∈ ledger.entries state.storage.buffer, ∃ st,
          ledger.states.get? e.2 = some st ∧
          (e.1 + st.storage.size ≤ state.storage.offset ∨
            state.storage.offset + state.storage.size ≤ e.1) := by
        intro e he
        obtain ⟨hact, st, hst, hbuf, hoff⟩ := (h.listed _ e.1 e.2).mp he
        refine ⟨st, hst, ?_⟩
        have hno := hfree _ hact st hst
        have hbuf' : state.storage.rank = st.storage.rank ∧
            state.storage.bufferId = st.storage.bufferId :=
          ⟨(Prod.mk.inj hbuf).1.symm, (Prod.mk.inj hbuf).2.symm⟩
        have hgap : ¬ max state.storage.offset st.storage.offset <
            min (state.storage.offset + state.storage.size) (st.storage.offset + st.storage.size) :=
          fun hlt => hno ⟨hbuf', hlt⟩
        have := st.storage.size_pos
        have := state.storage.size_pos
        omega
      rw [List.pairwise_append, List.pairwise_cons]
      refine ⟨hall.1, ⟨?_, hall.2.1⟩, ?_⟩
      · intro e he st hst
        rw [hstates, if_pos rfl, Option.some.injEq] at hst
        subst hst
        obtain ⟨st, -, hcase⟩ := hapart e (by rw [hab]; exact List.mem_append_right _ he)
        have hge : ¬ e.1 < state.storage.offset := fun hlt => hb e he (Or.inl hlt)
        have := st.storage.size_pos
        show state.storage.offset + state.storage.size ≤ e.1
        omega
      · intro x hx y hy st hst
        rcases List.mem_cons.mp hy with rfl | hy
        · have hxmem : x ∈ ledger.entries state.storage.buffer := by
            rw [hab]
            exact List.mem_append_left _ hx
          obtain ⟨st', hst', hcase⟩ := hapart x hxmem
          rw [hstates, if_neg (hentry hxmem).symm] at hst
          obtain rfl : st = st' := Option.some.inj (hst.symm.trans hst')
          have hle : x.1 ≤ state.storage.offset := by
            rcases ha x hx with hlt | ⟨heq, -⟩
            · exact le_of_lt hlt
            · exact le_of_eq heq
          have := state.storage.size_pos
          show x.1 + st.storage.size ≤ state.storage.offset
          omega
        · exact hall.2.2 x hx y hy st hst
    · exact hsorted buffer

end Indexed

end VersionLedger

end VeriCCL
