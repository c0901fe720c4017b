import VeriCCL.PayloadLedger
import VeriCCL.Shares

/-! # Payload states conserve the contributions

The active states of a logical address are shares of its contributions (`Shares`):
reductions and consuming sends merge shares into one, and a complete state is copied.
`PayloadLedger.Sound` says this together with what the maps of the ledger record, and every
call keeps it or raises and leaves the ledger as it was (`PayloadCall.atomic`). -/
namespace VeriCCL

open Raising (Atomic Sure asks)

variable {Stage : Type}

/-! ## Identities -/

/-- The text of an identity determines its parts. -/
theorem payloadStateId_inj {rank rank' address address' version version' : ℕ}
    (h : payloadStateId rank address version = payloadStateId rank' address' version') :
    rank = rank' ∧ address = address' ∧ version = version' := by
  unfold payloadStateId at h
  have hlist := congrArg String.toList h
  have hfirst : ("-a" : String).toList = ['-', 'a'] := by decide
  have hsecond : ("-v" : String).toList = ['-', 'v'] := by decide
  simp only [String.toList_append, hfirst, hsecond, List.append_assoc, List.cons_append,
    List.nil_append, List.append_right_inj] at hlist
  obtain ⟨hrank, hrest⟩ := Identifiers.list_separator_inj (Identifiers.dash_notMem_nat _)
    (Identifiers.dash_notMem_nat _) hlist
  obtain ⟨-, hrest⟩ := List.cons.inj hrest
  obtain ⟨haddress, hrest⟩ := Identifiers.list_separator_inj (Identifiers.dash_notMem_nat _)
    (Identifiers.dash_notMem_nat _) hrest
  obtain ⟨-, hversion⟩ := List.cons.inj hrest
  exact ⟨Identifiers.nat_inj (String.ext hrank), Identifiers.nat_inj (String.ext haddress),
    Identifiers.nat_inj (String.ext hversion)⟩

theorem payloadStateId_ne (rank address version : ℕ) : payloadStateId rank address version ≠ "" := by
  intro h
  have hlength := congrArg String.length h
  simp [payloadStateId] at hlength

/-- A version that the loop ends at with turns left is free. -/
theorem freeVersion_spec (used : List String) (rank address : ℕ) {fuel version : ℕ}
    (h : payloadStateId rank address (freeVersion used rank address fuel version) ∈ used) :
    ∀ v < fuel, payloadStateId rank address (version + v) ∈ used := by
  induction fuel generalizing version with
  | zero => simp
  | succ fuel ih =>
    unfold freeVersion at h
    split at h
    · rename_i hused
      intro v hv
      cases v with
      | zero => exact hused
      | succ v =>
        have := ih h v (by omega)
        rwa [show version + 1 + v = version + (v + 1) by omega] at this
    · rename_i hfree
      exact absurd h hfree

/-- **`_new_state` finds a free identity**: more versions are tried than identities are used. -/
theorem freeVersion_free (used : List String) (rank address version : ℕ) :
    payloadStateId rank address (freeVersion used rank address (used.length + 1) version) ∉
      used := by
  intro h
  have hall := freeVersion_spec used rank address h
  have hsub : (List.range (used.length + 1)).map
      (fun v => payloadStateId rank address (version + v)) ⊆ used := by
    intro id hid
    obtain ⟨v, hv, rfl⟩ := List.mem_map.mp hid
    exact hall v (List.mem_range.mp hv)
  have hnodup : ((List.range (used.length + 1)).map
      (fun v => payloadStateId rank address (version + v))).Nodup := by
    refine List.nodup_range.map fun v w hvw => ?_
    obtain ⟨-, -, hversion⟩ := payloadStateId_inj hvw
    omega
  have hlength := (hnodup.subperm hsub).length_le
  rw [List.length_map, List.length_range] at hlength
  omega

namespace PayloadState

/-- What the constructor makes. -/
theorem make_ok {stateId : String} {version rank address : ℕ} {contributors : Finset ℕ}
    {readyTime : ℚ} {active : Bool} {paths : List (ℕ × List Stage)} {state : PayloadState Stage}
    (h : make stateId version rank address contributors readyTime active paths = .ok state) :
    state.stateId = stateId ∧ state.version = version ∧ state.rank = rank ∧
      state.logicalAddress = address ∧ state.contributors = contributors ∧
      state.active = active := by
  unfold make at h
  split at h
  · cases h
  split at h
  · cases h
  split at h
  · cases h
  split at h
  · cases h
  split at h
  · cases h
  cases h
  exact ⟨rfl, rfl, rfl, rfl, rfl, rfl⟩

/-- A contributor has exactly one member path. -/
theorem path_unique (state : PayloadState Stage) {c : ℕ} (hc : c ∈ state.contributors) :
    ∃! path, (c, path) ∈ state.memberPaths := by
  rw [← state.memberPaths_members, List.mem_toFinset] at hc
  obtain ⟨e, he, rfl⟩ := List.mem_map.mp hc
  refine ⟨e.2, he, fun path hpath => ?_⟩
  have hnodup : (state.memberPaths.map (·.1)).Nodup :=
    List.pairwise_map.mpr (state.memberPaths_sorted.imp fun hab => Nat.ne_of_lt hab)
  exact congrArg Prod.snd (List.inj_on_of_nodup_map hnodup hpath he rfl)

end PayloadState

namespace PayloadLedger

variable {ledger : PayloadLedger Stage} {state : PayloadState Stage} {id : String}

/-- The registered state of an identity, while it is active. -/
def Holds (ledger : PayloadLedger Stage) (id : String) (state : PayloadState Stage) : Prop :=
  ledger.states.get? id = some state ∧ state.active = true

/-- What the active states of an address hold of it. -/
def heldAt (ledger : PayloadLedger Stage) (address : ℕ) (id : String) (A : Finset ℕ) : Prop :=
  ∃ state, ledger.Holds id state ∧ state.logicalAddress = address ∧ state.contributors = A

theorem Holds.unique {state' : PayloadState Stage} (h : ledger.Holds id state)
    (h' : ledger.Holds id state') : state = state' :=
  Option.some.inj (h.1.symm.trans h'.1)

/-- **What the maps of the ledger record.** -/
structure Recorded (ledger : PayloadLedger Stage) : Prop where
  distinct : ledger.states.Distinct
  named : ∀ id state, ledger.states.get? id = some state → state.stateId = id
  inactive : ∀ id, id ∈ ledger.inactiveIds ↔
    ∃ state, ledger.states.get? id = some state ∧ state.active = false
  aggregates : ∀ key id, ledger.activeAggregates.get? key = some id ↔
    ∃ state, ledger.Holds id state ∧ 1 < state.contributors.card ∧ state.key = key

/-- A later ledger has the states of an earlier one; some may have become inactive. -/
def Keeps (ledger next : PayloadLedger Stage) : Prop :=
  ∀ id state, ledger.states.get? id = some state → ∃ active,
    next.states.get? id = some { state with active := active } ∧
    (active = true → state.active = true)

theorem Keeps.refl (ledger : PayloadLedger Stage) : ledger.Keeps ledger :=
  fun _ state h => ⟨state.active, h, fun ha => ha⟩

theorem Keeps.trans {next last : PayloadLedger Stage} (h : ledger.Keeps next)
    (h' : next.Keeps last) : ledger.Keeps last := by
  intro id state hstate
  obtain ⟨active, hnext, hactive⟩ := h id state hstate
  obtain ⟨active', hlast, hactive'⟩ := h' id _ hnext
  exact ⟨active', hlast, fun ha => hactive (hactive' ha)⟩

/-! ## Entering a state -/

theorem enter_get? (ledger : PayloadLedger Stage) (state : PayloadState Stage) (id : String) :
    (ledger.enter state).states.get? id =
      if state.stateId = id then some state else ledger.states.get? id := by
  unfold enter
  exact Dict.get?_set _ _ _ _

theorem holds_enter (hfresh : state.stateId ∉ ledger.states.keys) (hactive : state.active = true)
    {other : PayloadState Stage} : (ledger.enter state).Holds id other ↔
      (id = state.stateId ∧ other = state) ∨ ledger.Holds id other := by
  unfold Holds
  rw [enter_get?]
  split
  · rename_i heq
    subst heq
    have hnone : ledger.states.get? state.stateId = none := Dict.get?_eq_none.mpr hfresh
    rw [hnone]
    constructor
    · rintro ⟨h, -⟩
      exact .inl ⟨rfl, (Option.some.inj h).symm⟩
    · rintro (⟨-, rfl⟩ | ⟨h, -⟩)
      · exact ⟨rfl, hactive⟩
      · cases h
  · rename_i hne
    constructor
    · exact .inr
    · rintro (⟨rfl, -⟩ | h)
      · exact absurd rfl hne
      · exact h

theorem keeps_enter (hfresh : state.stateId ∉ ledger.states.keys) :
    ledger.Keeps (ledger.enter state) := by
  intro id other hother
  refine ⟨other.active, ?_, fun ha => ha⟩
  rw [enter_get?, if_neg]
  · exact hother
  · rintro rfl
    exact hfresh (Dict.get?_isSome.mp ⟨_, hother⟩)

/-- **A new state is recorded.** -/
theorem Recorded.enter (h : ledger.Recorded) (hfresh : state.stateId ∉ ledger.states.keys)
    (hactive : state.active = true)
    (hfree : 1 < state.contributors.card → state.key ∉ ledger.activeAggregates.keys) :
    (ledger.enter state).Recorded where
  distinct := h.distinct.set _ _
  named := by
    intro id other hother
    rw [enter_get?] at hother
    split at hother
    · rename_i heq
      cases hother
      exact heq
    · exact h.named id other hother
  inactive := by
    intro id
    have hinactive : (ledger.enter state).inactiveIds = ledger.inactiveIds := if_pos hactive
    rw [hinactive, h.inactive, enter_get?]
    split
    · rename_i heq
      subst heq
      have hnone : ledger.states.get? state.stateId = none := Dict.get?_eq_none.mpr hfresh
      simp [hnone, hactive]
    · rfl
  aggregates := by
    intro key id
    have hget : (ledger.enter state).activeAggregates.get? key =
        if 1 < state.contributors.card ∧ state.key = key then some state.stateId
        else ledger.activeAggregates.get? key := by
      unfold PayloadLedger.enter
      by_cases hcard : 1 < state.contributors.card
      · simp only [hactive, hcard, and_self, if_true, true_and]
        exact Dict.get?_set _ _ _ _
      · simp [hcard]
    rw [hget]
    split
    · rename_i hkey
      obtain ⟨hcard, rfl⟩ := hkey
      constructor
      · intro hid
        cases hid
        exact ⟨state, (holds_enter hfresh hactive).mpr (.inl ⟨rfl, rfl⟩), hcard, rfl⟩
      · rintro ⟨other, hother, hcard', hkey'⟩
        obtain ⟨rfl, -⟩ | hother := (holds_enter hfresh hactive).mp hother
        · rfl
        · exact absurd (Dict.get?_isSome.mp ⟨id, (h.aggregates state.key id).mpr
            ⟨other, hother, hcard', hkey'⟩⟩) (hfree hcard)
    · rename_i hkey
      rw [h.aggregates]
      constructor
      · rintro ⟨other, hother, hrest⟩
        exact ⟨other, (holds_enter hfresh hactive).mpr (.inr hother), hrest⟩
      · rintro ⟨other, hother, hcard', hkey'⟩
        obtain ⟨-, rfl⟩ | hother := (holds_enter hfresh hactive).mp hother
        · exact absurd ⟨hcard', hkey'⟩ hkey
        · exact ⟨other, hother, hcard', hkey'⟩

/-! ## Consuming states -/

theorem deactivate_get? (ledger : PayloadLedger Stage) (state : PayloadState Stage) (id : String) :
    (ledger.deactivate state).states.get? id =
      if state.stateId = id then some { state with active := false } else ledger.states.get? id := by
  unfold deactivate
  exact Dict.get?_set _ _ _ _

theorem holds_deactivate {other : PayloadState Stage} :
    (ledger.deactivate state).Holds id other ↔ ledger.Holds id other ∧ id ≠ state.stateId := by
  unfold Holds
  rw [deactivate_get?]
  split
  · rename_i heq
    constructor
    · rintro ⟨h, hactive⟩
      cases h
      cases hactive
    · exact fun h => absurd heq.symm h.2
  · rename_i hne
    exact ⟨fun h => ⟨h, Ne.symm hne⟩, fun h => h.1⟩

theorem keeps_deactivate (hstate : ledger.states.get? state.stateId = some state) :
    ledger.Keeps (ledger.deactivate state) := by
  intro id other hother
  rw [deactivate_get?]
  split
  · rename_i heq
    subst heq
    obtain rfl := Option.some.inj (hstate.symm.trans hother)
    exact ⟨false, rfl, fun h => by cases h⟩
  · exact ⟨other.active, hother, fun ha => ha⟩

theorem keys_deactivate (hstate : ledger.states.get? state.stateId = some state) :
    id ∈ (ledger.deactivate state).states.keys ↔ id ∈ ledger.states.keys := by
  have hmem : state.stateId ∈ ledger.states.keys := Dict.get?_isSome.mp ⟨_, hstate⟩
  unfold deactivate
  rw [Dict.mem_keys_set]
  constructor
  · rintro (rfl | h)
    · exact hmem
    · exact h
  · exact .inr

/-- **A consumed state is recorded as inactive.** -/
theorem Recorded.deactivate (h : ledger.Recorded)
    (hstate : ledger.states.get? state.stateId = some state) : (ledger.deactivate state).Recorded where
  distinct := h.distinct.set _ _
  named := by
    intro id other hother
    rw [deactivate_get?] at hother
    split at hother
    · rename_i heq
      cases hother
      exact heq
    · exact h.named id other hother
  inactive := by
    intro id
    have hinactive : (ledger.deactivate state).inactiveIds =
        insert state.stateId ledger.inactiveIds := rfl
    rw [hinactive, Finset.mem_insert, h.inactive, deactivate_get?]
    by_cases hid : state.stateId = id
    · simp [hid]
    · simp [hid, Ne.symm hid]
  aggregates := by
    intro key id
    have hget : (ledger.deactivate state).activeAggregates.get? key = some id ↔
        ledger.activeAggregates.get? key = some id ∧ id ≠ state.stateId := by
      unfold PayloadLedger.deactivate
      split
      · rename_i hkey
        rw [Dict.get?_erase]
        split
        · rename_i heq
          rw [← heq, hkey]
          simp only [reduceCtorEq, Option.some.injEq, false_iff, not_and, not_not]
          exact Eq.symm
        · rename_i hne
          constructor
          · intro hid
            refine ⟨hid, ?_⟩
            rintro rfl
            obtain ⟨other, hother, -, hkey'⟩ := (h.aggregates key _).mp hid
            obtain rfl := Option.some.inj (hstate.symm.trans hother.1)
            exact hne hkey'
          · exact And.left
      · rename_i hkey
        constructor
        · intro hid
          refine ⟨hid, ?_⟩
          rintro rfl
          obtain ⟨other, hother, -, rfl⟩ := (h.aggregates key _).mp hid
          obtain rfl := Option.some.inj (hstate.symm.trans hother.1)
          exact hkey hid
        · exact And.left
    rw [hget, h.aggregates]
    constructor
    · rintro ⟨⟨other, hother, hrest⟩, hne⟩
      exact ⟨other, holds_deactivate.mpr ⟨hother, hne⟩, hrest⟩
    · rintro ⟨other, hother, hrest⟩
      obtain ⟨hother, hne⟩ := holds_deactivate.mp hother
      exact ⟨⟨other, hother, hrest⟩, hne⟩

/-- Several states are consumed. -/
def deactivateAll (ledger : PayloadLedger Stage) (gone : List (PayloadState Stage)) :
    PayloadLedger Stage :=
  gone.foldl deactivate ledger

/-- **Consumed states** stay registered, under their identities; the others are as they were. -/
theorem Recorded.deactivateAll {gone : List (PayloadState Stage)} (h : ledger.Recorded)
    (hgone : ∀ state ∈ gone, ledger.states.get? state.stateId = some state)
    (hnodup : (gone.map (·.stateId)).Nodup) :
    (ledger.deactivateAll gone).Recorded ∧ ledger.Keeps (ledger.deactivateAll gone) ∧
      (∀ id, id ∈ (ledger.deactivateAll gone).states.keys ↔ id ∈ ledger.states.keys) ∧
      ∀ id other, (ledger.deactivateAll gone).Holds id other ↔
        ledger.Holds id other ∧ id ∉ gone.map (·.stateId) := by
  induction gone generalizing ledger with
  | nil => exact ⟨h, .refl _, fun _ => Iff.rfl, by simp [PayloadLedger.deactivateAll]⟩
  | cons state gone ih =>
    rw [List.map_cons, List.nodup_cons] at hnodup
    have hstate := hgone state List.mem_cons_self
    obtain ⟨hrecorded, hkeeps, hkeys, hholds⟩ := ih (h.deactivate hstate) (by
      intro other hother
      rw [deactivate_get?, if_neg]
      · exact hgone other (List.mem_cons_of_mem _ hother)
      · intro heq
        exact hnodup.1 (heq ▸ List.mem_map_of_mem hother)) hnodup.2
    refine ⟨hrecorded, (keeps_deactivate hstate).trans hkeeps,
      fun id => (hkeys id).trans (keys_deactivate hstate), fun id other => ?_⟩
    rw [List.map_cons, List.mem_cons, not_or, ← and_assoc, ← holds_deactivate]
    exact hholds id other

/-! ## The invariant -/

/-- **The invariant of the ledger**: its maps record the active states, and those of an
address are shares of the contributions to it. -/
structure Sound (ranks slices : ℕ) (ledger : PayloadLedger Stage) : Prop extends
    Recorded ledger where
  addressed : ∀ id state, ledger.Holds id state → state.logicalAddress < slices
  shared : ∀ address < slices,
    Shares (aggregateContributors address ranks slices) (ledger.heldAt address)

section Changes
variable {ranks slices : ℕ} {output : PayloadState Stage}

theorem newState_ok {rank address : ℕ} {contributors : Finset ℕ} {readyTime : ℚ}
    {paths : List (ℕ × List Stage)}
    (h : ledger.newState rank address contributors readyTime paths = .ok state) :
    state.stateId ∉ ledger.states.keys ∧ state.rank = rank ∧ state.logicalAddress = address ∧
      state.contributors = contributors ∧ state.active = true := by
  obtain ⟨hid, -, hrank, haddress, hcontributors, hactive⟩ := PayloadState.make_ok h
  refine ⟨?_, hrank, haddress, hcontributors, hactive⟩
  have hlength : ledger.states.keys.length = ledger.states.length := List.length_map _
  rw [hid, ← hlength]
  exact freeVersion_free _ _ _ _

/-- **Consumed states give way to their union.** -/
theorem Sound.consume (h : ledger.Sound ranks slices) {gone : List (PayloadState Stage)}
    (hgone : ∀ state ∈ gone, ledger.Holds state.stateId state ∧
      state.logicalAddress = output.logicalAddress)
    (hnodup : (gone.map (·.stateId)).Nodup) (hfresh : output.stateId ∉ ledger.states.keys)
    (hactive : output.active = true)
    (hunion : ∀ c, c ∈ output.contributors ↔ ∃ state ∈ gone, c ∈ state.contributors)
    (hpart : ∀ state ∈ gone,
      state.contributors ≠ aggregateContributors output.logicalAddress ranks slices)
    (hfree : 1 < output.contributors.card → output.key ∉
      (ledger.deactivateAll gone).activeAggregates.keys) :
    ((ledger.deactivateAll gone).enter output).Sound ranks slices ∧
      ledger.Keeps ((ledger.deactivateAll gone).enter output) := by
  obtain ⟨hrecorded, hkeeps, hkeys, hholds⟩ :=
    h.toRecorded.deactivateAll (fun state hstate => (hgone state hstate).1.1) hnodup
  have hfresh' : output.stateId ∉ (ledger.deactivateAll gone).states.keys :=
    fun hmem => hfresh ((hkeys _).mp hmem)
  have hafter : ∀ id other, ((ledger.deactivateAll gone).enter output).Holds id other ↔
      (id = output.stateId ∧ other = output) ∨
        (ledger.Holds id other ∧ id ∉ gone.map (·.stateId)) := by
    intro id other
    rw [holds_enter hfresh' hactive, hholds]
  have haddress : output.logicalAddress < slices := by
    obtain ⟨c, hc⟩ := Finset.nonempty_iff_ne_empty.mpr output.contributors_ne
    obtain ⟨state, hstate, -⟩ := (hunion c).mp hc
    rw [← (hgone state hstate).2]
    exact h.addressed _ _ (hgone state hstate).1
  refine ⟨⟨hrecorded.enter hfresh' hactive hfree, fun id other hother => ?_,
    fun address haddress' => ?_⟩, hkeeps.trans (keeps_enter hfresh')⟩
  · obtain ⟨-, rfl⟩ | ⟨hother, -⟩ := (hafter id other).mp hother
    · exact haddress
    · exact h.addressed id other hother
  · by_cases hsame : address = output.logicalAddress
    · subst hsame
      have hheld : ∀ id A,
          ((ledger.deactivateAll gone).enter output).heldAt output.logicalAddress id A ↔
            (id = output.stateId ∧ A = output.contributors) ∨
              (ledger.heldAt output.logicalAddress id A ∧ ¬ id ∈ gone.map (·.stateId)) := by
        intro id A
        constructor
        · rintro ⟨other, hother, haddr, rfl⟩
          obtain ⟨hid, rfl⟩ | ⟨hother, hstays⟩ := (hafter id other).mp hother
          · exact .inl ⟨hid, rfl⟩
          · exact .inr ⟨⟨other, hother, haddr, rfl⟩, hstays⟩
        · rintro (⟨rfl, rfl⟩ | ⟨⟨other, hother, haddr, rfl⟩, hstays⟩)
          · exact ⟨output, (hafter _ _).mpr (.inl ⟨rfl, rfl⟩), rfl, rfl⟩
          · exact ⟨other, (hafter _ _).mpr (.inr ⟨hother, hstays⟩), haddr, rfl⟩
      refine (h.shared _ haddress).merge hheld (fun c => ?_) ?_
      · rw [hunion]
        constructor
        · rintro ⟨state, hstate, hc⟩
          obtain ⟨hheld, haddr⟩ := hgone state hstate
          exact ⟨state.stateId, _, List.mem_map_of_mem hstate, ⟨state, hheld, haddr, rfl⟩, hc⟩
        · rintro ⟨id, A, hid, ⟨other, hother, -, rfl⟩, hc⟩
          obtain ⟨state, hstate, rfl⟩ := List.mem_map.mp hid
          obtain rfl := hother.unique (hgone state hstate).1
          exact ⟨other, hstate, hc⟩
      · rintro id A hid ⟨other, hother, -, rfl⟩
        obtain ⟨state, hstate, rfl⟩ := List.mem_map.mp hid
        obtain rfl := hother.unique (hgone state hstate).1
        exact hpart _ hstate
    · refine (h.shared address haddress').congr fun id A => ?_
      constructor
      · rintro ⟨other, hother, haddr, rfl⟩
        obtain ⟨-, rfl⟩ | ⟨hother, -⟩ := (hafter id other).mp hother
        · exact absurd haddr.symm hsame
        · exact ⟨other, hother, haddr, rfl⟩
      · rintro ⟨other, hother, haddr, rfl⟩
        refine ⟨other, (hafter id other).mpr (.inr ⟨hother, fun hid => ?_⟩), haddr, rfl⟩
        obtain ⟨state, hstate, rfl⟩ := List.mem_map.mp hid
        obtain rfl := hother.unique (hgone state hstate).1
        exact hsame (haddr.symm.trans (hgone _ hstate).2)

/-- **A complete state is copied.** -/
theorem Sound.copied (h : ledger.Sound ranks slices) (hstate : ledger.Holds id state)
    (hwhole : state.contributors = aggregateContributors state.logicalAddress ranks slices)
    (hfresh : output.stateId ∉ ledger.states.keys) (hactive : output.active = true)
    (haddress : output.logicalAddress = state.logicalAddress)
    (hcontributors : output.contributors = state.contributors)
    (hfree : 1 < output.contributors.card → output.key ∉ ledger.activeAggregates.keys) :
    (ledger.enter output).Sound ranks slices := by
  have hafter : ∀ id other, (ledger.enter output).Holds id other ↔
      (id = output.stateId ∧ other = output) ∨ ledger.Holds id other :=
    fun id other => holds_enter hfresh hactive
  refine ⟨h.toRecorded.enter hfresh hactive hfree, fun id other hother => ?_,
    fun address haddress' => ?_⟩
  · obtain ⟨-, rfl⟩ | hother := (hafter id other).mp hother
    · rw [haddress]
      exact h.addressed _ _ hstate
    · exact h.addressed _ _ hother
  · by_cases hsame : address = state.logicalAddress
    · subst hsame
      have hheld : ∀ id A, (ledger.enter output).heldAt state.logicalAddress id A ↔
          (id = output.stateId ∧ A = aggregateContributors state.logicalAddress ranks slices) ∨
            ledger.heldAt state.logicalAddress id A := by
        intro id A
        constructor
        · rintro ⟨other, hother, haddr, rfl⟩
          obtain ⟨hid, rfl⟩ | hother := (hafter id other).mp hother
          · exact .inl ⟨hid, hcontributors.trans hwhole⟩
          · exact .inr ⟨other, hother, haddr, rfl⟩
        · rintro (⟨rfl, rfl⟩ | ⟨other, hother, haddr, rfl⟩)
          · exact ⟨output, (hafter _ _).mpr (.inl ⟨rfl, rfl⟩), haddress, hcontributors.trans hwhole⟩
          · exact ⟨other, (hafter _ _).mpr (.inr hother), haddr, rfl⟩
      have hself : ∀ A, ledger.heldAt state.logicalAddress id A ↔
          A = aggregateContributors state.logicalAddress ranks slices := by
        intro A
        constructor
        · rintro ⟨other, hother, -, rfl⟩
          obtain rfl := hother.unique hstate
          exact hwhole
        · rintro rfl
          exact ⟨state, hstate, rfl, hwhole⟩
      refine (h.shared _ haddress').copy ?_ hself hheld
      rintro id A ⟨other, -, -, rfl⟩
      exact other.contributors_ne
    · refine (h.shared address haddress').congr fun id A => ?_
      constructor
      · rintro ⟨other, hother, haddr, rfl⟩
        obtain ⟨-, rfl⟩ | hother := (hafter id other).mp hother
        · exact absurd (haddr.symm.trans haddress) hsame
        · exact ⟨other, hother, haddr, rfl⟩
      · rintro ⟨other, hother, haddr, rfl⟩
        exact ⟨other, (hafter id other).mpr (.inr hother), haddr, rfl⟩

/-- A place whose aggregate is consumed is free. -/
theorem Recorded.free {gone : List (PayloadState Stage)} (h : ledger.Recorded)
    (hgone : ∀ state ∈ gone, ledger.states.get? state.stateId = some state)
    (hnodup : (gone.map (·.stateId)).Nodup) {key : ℕ × ℕ}
    (havailable : ∀ existing ∈ ledger.activeAggregates.get? key, existing ∈ gone.map (·.stateId)) :
    key ∉ (ledger.deactivateAll gone).activeAggregates.keys := by
  obtain ⟨hrecorded, -, -, hholds⟩ := h.deactivateAll hgone hnodup
  intro hkey
  obtain ⟨id, hid⟩ := Dict.get?_isSome.mpr hkey
  obtain ⟨other, hother, hrest⟩ := (hrecorded.aggregates key id).mp hid
  obtain ⟨hheld, hstays⟩ := (hholds id other).mp hother
  exact hstays (havailable id ((h.aggregates key id).mpr ⟨other, hheld, hrest⟩))

end Changes

/-! ## The calls -/

/-- What a call that returns does: it registers a new state. -/
structure Registers (ranks slices : ℕ) (ledger : PayloadLedger Stage) (state : PayloadState Stage)
    (next : PayloadLedger Stage) : Prop where
  sound : next.Sound ranks slices
  keeps : ledger.Keeps next
  fresh : state.stateId ∉ ledger.states.keys
  registered : next.states.get? state.stateId = some state

theorem state_ok : ledger.state id = .ok state ↔ id ≠ "" ∧ ledger.states.get? id = some state := by
  unfold PayloadLedger.state
  simp

theorem activeState_ok : ledger.activeState id = .ok state ↔ id ≠ "" ∧ ledger.Holds id state := by
  unfold activeState Holds
  simp only [Checked.bind_ok, Checked.ensure_ok, Checked.pure_ok, state_ok]
  constructor
  · rintro ⟨_, ⟨hid, hstate⟩, -, hactive, rfl⟩
    exact ⟨hid, hstate, hactive⟩
  · rintro ⟨hid, hstate, hactive⟩
    exact ⟨state, ⟨hid, hstate⟩, ⟨⟩, hactive, rfl⟩

/-- Registering a new state at a free place does not raise. -/
theorem register_sure (hfresh : state.stateId ∉ ledger.states.keys)
    (hfree : 1 < state.contributors.card → state.key ∉ ledger.activeAggregates.keys) :
    Sure (register state) ledger fun _ next => next = ledger.enter state := by
  unfold register
  refine Sure.asks (a := ⟨⟩) (Checked.ensure_ok.mpr hfresh) ?_
  refine Sure.asks (a := ⟨⟩) (Checked.ensure_ok.mpr fun h => hfree h.2) ?_
  exact .modify rfl

section Calls
variable {ranks slices : ℕ} {left right output : PayloadState Stage}

/-- What `reduce` has found out before it changes the ledger. -/
theorem reduction_ok {leftId rightId : String} {dstRank : IntegerArg} {readyTime : NumberArg}
    (h : ledger.reduction leftId rightId dstRank readyTime = .ok (left, right, output)) :
    leftId ≠ rightId ∧ ledger.Holds leftId left ∧ ledger.Holds rightId right ∧
      left.logicalAddress = right.logicalAddress ∧ Disjoint left.contributors right.contributors ∧
      (∀ existing ∈ ledger.activeAggregates.get? output.key,
        existing ∈ [left.stateId, right.stateId]) ∧
      output.stateId ∉ ledger.states.keys ∧ output.logicalAddress = left.logicalAddress ∧
      output.contributors = left.contributors ∪ right.contributors ∧ output.active = true := by
  simp only [reduction, targetIsAvailable, Checked.bind_ok, Checked.ensure_ok, Checked.pure_ok,
    activeState_ok, Prod.mk.injEq] at h
  obtain ⟨-, hne, _, ⟨-, hleft⟩, _, ⟨-, hright⟩, dst, -, ready, -, -, haddress, -, hdisjoint, -, -, -,
    -, -, havailable, _, hnew, rfl, rfl, rfl⟩ := h
  obtain ⟨hfresh, hrank, haddress', hcontributors, hactive⟩ := newState_ok hnew
  refine ⟨hne, hleft, hright, haddress, hdisjoint, ?_, hfresh, haddress', hcontributors, hactive⟩
  rw [PayloadState.key, hrank, haddress']
  exact havailable

/-- **`reduce` is atomic** and replaces its inputs by their union. -/
theorem reduce_atomic (h : ledger.Sound ranks slices) (leftId rightId : String)
    (dstRank : IntegerArg) (readyTime : NumberArg) :
    Atomic (reduce leftId rightId dstRank readyTime) ledger (Registers ranks slices ledger) := by
  refine Atomic.asks fun inputs hinputs => ?_
  obtain ⟨left, right, output⟩ := inputs
  obtain ⟨hne, hleft, hright, haddress, hdisjoint, havailable, hfresh, haddress', hcontributors,
    hactive⟩ := reduction_ok hinputs
  have hleftId := h.named _ _ hleft.1
  have hrightId := h.named _ _ hright.1
  have hgone : ∀ state ∈ [left, right], ledger.Holds state.stateId state ∧
      state.logicalAddress = output.logicalAddress := by
    simp only [List.forall_mem_cons, hleftId, hrightId, haddress', ← haddress]
    exact ⟨⟨hleft, trivial⟩, ⟨hright, trivial⟩, by simp⟩
  have hnodup : ([left, right].map (·.stateId)).Nodup := by simp [hleftId, hrightId, hne]
  have hwithin : ∀ state ∈ [left, right], ∃ id,
      ledger.heldAt output.logicalAddress id state.contributors :=
    fun state hstate => ⟨state.stateId, state, (hgone state hstate).1, (hgone state hstate).2, rfl⟩
  have haddressed : output.logicalAddress < slices := by
    rw [haddress']
    exact h.addressed _ _ hleft
  have hpart : ∀ state ∈ [left, right],
      state.contributors ≠ aggregateContributors output.logicalAddress ranks slices := by
    obtain ⟨i, hi⟩ := hwithin left (by simp)
    obtain ⟨j, hj⟩ := hwithin right (by simp)
    simp only [List.forall_mem_cons]
    exact ⟨(h.shared _ haddressed).ne_whole hj right.contributors_ne hdisjoint,
      (h.shared _ haddressed).ne_whole hi left.contributors_ne hdisjoint.symm, by simp⟩
  have hregistered : ∀ state ∈ [left, right], ledger.states.get? state.stateId = some state :=
    fun state hstate => (hgone state hstate).1.1
  have hfree := h.toRecorded.free hregistered hnodup havailable
  obtain ⟨hsound, hkeeps⟩ := h.consume hgone hnodup hfresh hactive (by simp [hcontributors]) hpart
    fun _ => hfree
  obtain ⟨-, -, hkeys, -⟩ := h.toRecorded.deactivateAll hregistered hnodup
  refine Sure.atomic ?_
  refine (Sure.modify rfl : Sure _ _ fun _ t => t = ledger.deactivate left).bind fun _ t ht => ?_
  refine (Sure.modify rfl : Sure _ _ fun _ u => u = t.deactivate right).bind fun _ u hu => ?_
  have hafter : u = ledger.deactivateAll [left, right] := by
    rw [hu, ht]
    rfl
  subst hafter
  refine (register_sure (fun hmem => hfresh ((hkeys _).mp hmem)) fun _ => hfree).bind
    fun _ next hnext => ?_
  subst hnext
  exact .pure ⟨hsound, hkeeps, hfresh, by rw [enter_get?, if_pos rfl]⟩

/-- What `send` has found out before it changes the ledger. -/
theorem sending_ok {stateId : String} {dstRank : IntegerArg} {readyTime : NumberArg}
    {required : Finset ℕ}
    (h : ledger.sending stateId dstRank readyTime required = .ok (state, output)) :
    ledger.Holds stateId state ∧ state.contributors ⊆ required ∧
      (1 < state.contributors.card → ledger.activeAggregates.get? output.key = none) ∧
      output.stateId ∉ ledger.states.keys ∧ output.logicalAddress = state.logicalAddress ∧
      output.contributors = state.contributors ∧ output.active = true := by
  simp only [sending, targetIsAvailable, Checked.bind_ok, Checked.ensure_ok, Checked.pure_ok,
    activeState_ok, Prod.mk.injEq] at h
  obtain ⟨_, -, -, -, _, ⟨-, hstate⟩, dst, -, -, -, ready, -, -, -, -, -, -, hsub, _, havailable, _,
    hnew, rfl, rfl⟩ := h
  obtain ⟨hfresh, hrank, haddress, hcontributors, hactive⟩ := newState_ok hnew
  refine ⟨hstate, hsub, fun hcard => ?_, hfresh, haddress, hcontributors, hactive⟩
  rw [if_pos hcard, Checked.ensure_ok] at havailable
  rw [PayloadState.key, hrank, haddress]
  exact Option.eq_none_iff_forall_not_mem.mpr fun existing hmem => by
    simpa using havailable existing hmem

/-- **`send` is atomic**: a complete state is copied, any other is handed over. -/
theorem send_atomic (h : ledger.Sound ranks slices) (stateId : String) (dstRank : IntegerArg)
    (readyTime : NumberArg) {required : Finset ℕ}
    (hrequired : ∀ state, ledger.states.get? stateId = some state →
      required = aggregateContributors state.logicalAddress ranks slices) :
    Atomic (send stateId dstRank readyTime required) ledger (Registers ranks slices ledger) := by
  refine Atomic.asks fun inputs hinputs => ?_
  obtain ⟨state, output⟩ := inputs
  obtain ⟨hstate, hsub, havailable, hfresh, haddress, hcontributors, hactive⟩ :=
    sending_ok hinputs
  have hid := h.named _ _ hstate.1
  obtain rfl := hrequired state hstate.1
  refine Sure.atomic ?_
  show Sure (if _ then _ else _) _ _
  split
  · rename_i hwhole
    have hfree : 1 < output.contributors.card → output.key ∉ ledger.activeAggregates.keys :=
      fun hcard => Dict.get?_eq_none.mp (havailable (hcontributors ▸ hcard))
    refine (register_sure hfresh hfree).bind fun _ next hnext => ?_
    subst hnext
    exact .pure ⟨h.copied hstate hwhole hfresh hactive haddress hcontributors hfree,
      keeps_enter hfresh, hfresh, by rw [enter_get?, if_pos rfl]⟩
  · rename_i hpart
    have hgone : ∀ other ∈ [state], ledger.Holds other.stateId other ∧
        other.logicalAddress = output.logicalAddress := by
      simp only [List.forall_mem_cons, hid, haddress]
      exact ⟨⟨hstate, trivial⟩, by simp⟩
    have hnodup : ([state].map (·.stateId)).Nodup := by simp
    have hregistered : ∀ other ∈ [state], ledger.states.get? other.stateId = some other :=
      fun other hother => (hgone other hother).1.1
    have hfree : 1 < output.contributors.card →
        output.key ∉ (ledger.deactivateAll [state]).activeAggregates.keys := by
      intro hcard
      refine h.toRecorded.free hregistered hnodup fun existing hmem => ?_
      rw [havailable (hcontributors ▸ hcard)] at hmem
      cases hmem
    obtain ⟨hsound, hkeeps⟩ := h.consume hgone hnodup hfresh hactive (by simp [hcontributors])
      (by simpa [haddress] using hpart) hfree
    obtain ⟨-, -, hkeys, -⟩ := h.toRecorded.deactivateAll hregistered hnodup
    refine (Sure.modify rfl : Sure _ _ fun _ t => t = ledger.deactivate state).bind fun _ t ht => ?_
    subst ht
    refine (Sure.modify rfl : Sure _ _ fun _ u => u = { ledger.deactivate state with
      incompleteOutboundCounts := (ledger.deactivate state).incompleteOutboundCounts.set
        stateId 1 }).bind fun _ u hu => ?_
    subst hu
    refine Sure.bind (register_sure (fun hmem => hfresh ((hkeys _).mp hmem)) hfree)
      fun _ next hnext => ?_
    subst hnext
    -- the counts are no part of what is recorded
    refine .pure ⟨⟨⟨hsound.distinct, hsound.named, hsound.inactive, hsound.aggregates⟩,
      hsound.addressed, hsound.shared⟩, hkeeps, hfresh, ?_⟩
    rw [enter_get?, if_pos rfl]

theorem mergeLocal_atomic (h : ledger.Sound ranks slices) (stateId localStateId : String)
    (readyTime : NumberArg) :
    Atomic (mergeLocal stateId localStateId readyTime) ledger (Registers ranks slices ledger) :=
  Atomic.asks fun _ _ => reduce_atomic h _ _ _ _

end Calls

end PayloadLedger

/-- A call as its callers make it: a send names all contributions to its state's address. -/
def PayloadCall.Proper (ranks slices : ℕ) (ledger : PayloadLedger Stage) : PayloadCall → Prop
  | .send stateId _ _ required => ∀ state, ledger.states.get? stateId = some state →
      required = aggregateContributors state.logicalAddress ranks slices
  | .reduce .. => True
  | .mergeLocal .. => True

theorem PayloadCall.atomic {ranks slices : ℕ} {ledger : PayloadLedger Stage}
    (h : ledger.Sound ranks slices) {call : PayloadCall} (hproper : call.Proper ranks slices ledger) :
    Atomic call.method ledger (ledger.Registers ranks slices) := by
  cases call with
  | reduce leftId rightId dstRank readyTime =>
    exact PayloadLedger.reduce_atomic h leftId rightId dstRank readyTime
  | send stateId dstRank readyTime required =>
    exact PayloadLedger.send_atomic h stateId dstRank readyTime hproper
  | mergeLocal stateId localStateId readyTime =>
    exact PayloadLedger.mergeLocal_atomic h stateId localStateId readyTime

namespace PayloadLedger

variable {ranks slices : ℕ} {ledger : PayloadLedger Stage}

/-! ## The initial states -/

/-- The initial state of a rank and an address. -/
structure Initial (slices rank address : ℕ) (state : PayloadState Stage) : Prop where
  stateId : state.stateId = payloadStateId rank address 0
  logicalAddress : state.logicalAddress = address
  contributors : state.contributors = {rank * slices + address}
  active : state.active = true

/-- The initial states: one of every rank and address. -/
structure InitialStates (ranks slices : ℕ) (states : List (PayloadState Stage)) : Prop where
  nodup : (states.map (·.stateId)).Nodup
  placed : ∀ state ∈ states, ∃ rank < ranks, ∃ address < slices, Initial slices rank address state
  every : ∀ rank < ranks, ∀ address < slices, ∃ state ∈ states, Initial slices rank address state

theorem initialPayloadStates_total (hranks : 0 < ranks) (hslices : 0 < slices) :
    ∃ states : List (PayloadState Stage),
      initialPayloadStates (.integer ranks) (.integer slices) = .ok states ∧
      InitialStates ranks slices states := by
  have hmake : ∀ place ∈ List.range ranks ×ˢ List.range slices, ∃ state : PayloadState Stage,
      PayloadState.make (payloadStateId place.1 place.2 0) 0 place.1
        ((place.1 * slices + place.2) % slices) {place.1 * slices + place.2} 0 true
        [(place.1 * slices + place.2, [])] = .ok state := by
    intro place _
    unfold PayloadState.make
    rw [dif_neg (payloadStateId_ne _ _ _), dif_neg (Finset.singleton_ne_empty _),
      dif_neg (by simp), dif_neg (by simp), dif_neg (by simp)]
    exact ⟨_, rfl⟩
  obtain ⟨states, hstates⟩ := Checked.mapM_total hmake
  have hinitial : ∀ place ∈ List.range ranks ×ˢ List.range slices, ∀ state : PayloadState Stage,
      PayloadState.make (payloadStateId place.1 place.2 0) 0 place.1
        ((place.1 * slices + place.2) % slices) {place.1 * slices + place.2} 0 true
        [(place.1 * slices + place.2, [])] = .ok state →
      Initial slices place.1 place.2 state := by
    intro place hplace state hstate
    obtain ⟨-, haddress⟩ := List.pair_mem_product.mp hplace
    obtain ⟨hid, -, -, hlogical, hcontributors, hactive⟩ := PayloadState.make_ok hstate
    rw [Nat.mul_add_mod_of_lt (List.mem_range.mp haddress)] at hlogical
    exact ⟨hid, hlogical, hcontributors, hactive⟩
  refine ⟨states, ?_, ?_, fun state hstate => ?_, fun rank hrank address haddress => ?_⟩
  · simp only [initialPayloadStates, integerOf, Checked.bind_ok, Checked.ensure_ok, Checked.pure_ok]
    exact ⟨ranks, ⟨⟨⟩, by exact_mod_cast hranks, rfl⟩, slices, ⟨⟨⟩, by exact_mod_cast hslices, rfl⟩,
      hstates⟩
  · rw [Checked.mapM_map hstates fun place hplace state hstate =>
      (hinitial place hplace state hstate).stateId]
    refine (List.nodup_range.product List.nodup_range).map fun a b hab => ?_
    obtain ⟨hrank, haddress, -⟩ := payloadStateId_inj hab
    exact Prod.ext hrank haddress
  · obtain ⟨place, hplace, hmade⟩ := Checked.mapM_right hstates hstate
    obtain ⟨hrank, haddress⟩ := List.pair_mem_product.mp hplace
    exact ⟨place.1, List.mem_range.mp hrank, place.2, List.mem_range.mp haddress,
      hinitial place hplace state hmade⟩
  · have hplace : (rank, address) ∈ List.range ranks ×ˢ List.range slices :=
      List.pair_mem_product.mpr ⟨List.mem_range.mpr hrank, List.mem_range.mpr haddress⟩
    obtain ⟨state, hstate, hmade⟩ := Checked.mapM_left hstates hplace
    exact ⟨state, hstate, hinitial _ hplace state hmade⟩

/-- The ledger after the first of the initial states. -/
structure Registered (states rest : List (PayloadState Stage)) (ledger : PayloadLedger Stage) :
    Prop where
  recorded : ledger.Recorded
  keys : ∀ id ∈ ledger.states.keys, id ∉ rest.map (·.stateId)
  holds : ∀ id state, ledger.Holds id state ↔ id = state.stateId ∧ state ∈ states ∧ state ∉ rest

theorem Registered.next {states rest : List (PayloadState Stage)} {state : PayloadState Stage}
    (hinitial : InitialStates ranks slices states) (hsub : state ∈ states)
    (hnodup : ((state :: rest).map (·.stateId)).Nodup)
    (h : Registered states (state :: rest) ledger) :
    Sure (register state) ledger fun _ next => Registered states rest next := by
  obtain ⟨rank, -, address, -, hstate⟩ := hinitial.placed state hsub
  have hsingle : ¬ 1 < state.contributors.card := by
    rw [hstate.contributors, Finset.card_singleton]
    omega
  have hfresh : state.stateId ∉ ledger.states.keys := by
    intro hmem
    exact h.keys _ hmem (by simp)
  rw [List.map_cons, List.nodup_cons] at hnodup
  have hout : state ∉ rest := fun hmem => hnodup.1 (List.mem_map_of_mem hmem)
  refine (register_sure hfresh fun hcard => absurd hcard hsingle).mono fun _ next hnext => ?_
  subst hnext
  refine ⟨h.recorded.enter hfresh hstate.active fun hcard => absurd hcard hsingle,
    fun id hid => ?_, fun id other => ?_⟩
  · rw [PayloadLedger.enter, Dict.mem_keys_set] at hid
    obtain rfl | hid := hid
    · exact hnodup.1
    · exact fun hmem => h.keys id hid (List.mem_cons_of_mem _ hmem)
  · rw [holds_enter hfresh hstate.active, h.holds, List.mem_cons, not_or]
    constructor
    · rintro (⟨rfl, rfl⟩ | ⟨hid, hother, -, hrest⟩)
      · exact ⟨rfl, hsub, hout⟩
      · exact ⟨hid, hother, hrest⟩
    · rintro ⟨hid, hother, hrest⟩
      by_cases heq : other = state
      · exact .inl ⟨heq ▸ hid, heq⟩
      · exact .inr ⟨hid, hother, heq, hrest⟩

/-- Once all initial states are registered, the ledger is sound. -/
theorem Registered.sound {states : List (PayloadState Stage)}
    (hinitial : InitialStates ranks slices states) (h : Registered states [] ledger) :
    ledger.Sound ranks slices := by
  have hholds : ∀ id state, ledger.Holds id state ↔ id = state.stateId ∧ state ∈ states := by
    intro id state
    rw [h.holds]
    simp
  refine ⟨h.recorded, fun id state hstate => ?_, fun address haddress => ⟨?_, ?_, ?_⟩⟩
  · obtain ⟨_, -, address, haddress, hplaced⟩ := hinitial.placed state ((hholds id state).mp hstate).2
    rw [hplaced.logicalAddress]
    exact haddress
  · rintro id A ⟨state, hstate, rfl, rfl⟩
    obtain ⟨rank, hrank, address, -, hplaced⟩ :=
      hinitial.placed state ((hholds id state).mp hstate).2
    rw [hplaced.contributors, hplaced.logicalAddress, Finset.singleton_subset_iff]
    exact Finset.mem_image_of_mem _ (Finset.mem_range.mpr hrank)
  · intro c hc
    obtain ⟨rank, hrank, rfl⟩ := Finset.mem_image.mp hc
    obtain ⟨state, hstate, hplaced⟩ := hinitial.every rank (Finset.mem_range.mp hrank) address haddress
    refine ⟨state.stateId, state.contributors,
      ⟨state, (hholds _ _).mpr ⟨rfl, hstate⟩, hplaced.logicalAddress, rfl⟩, ?_⟩
    rw [hplaced.contributors]
    exact Finset.mem_singleton_self _
  · rintro i j A B hij ⟨state, hstate, rfl, rfl⟩ ⟨other, hother, hsame, rfl⟩
    obtain ⟨rfl, hmem⟩ := (hholds i state).mp hstate
    obtain ⟨rfl, hmem'⟩ := (hholds j other).mp hother
    obtain ⟨rank, -, address, -, hplaced⟩ := hinitial.placed state hmem
    obtain ⟨rank', -, address', -, hplaced'⟩ := hinitial.placed other hmem'
    rw [hplaced.logicalAddress, hplaced'.logicalAddress] at hsame
    subst hsame
    left
    rw [hplaced.contributors, hplaced'.contributors, Finset.disjoint_singleton]
    intro heq
    have hranks : rank = rank' :=
      Nat.eq_of_mul_eq_mul_right (by omega) (Nat.add_right_cancel heq)
    exact hij (by rw [hplaced.stateId, hplaced'.stateId, hranks])

/-- **The ledger of the initial states** is sound. -/
theorem start_sound (hranks : 0 < ranks) (hslices : 0 < slices) :
    ∃ first : PayloadLedger Stage, start (.integer ranks) (.integer slices) = .ok first ∧
      first.Sound ranks slices := by
  obtain ⟨states, hstates, hinitial⟩ : ∃ states : List (PayloadState Stage),
      initialPayloadStates (.integer ranks) (.integer slices) = .ok states ∧
        InitialStates ranks slices states := initialPayloadStates_total hranks hslices
  have hempty : Registered states states ({} : PayloadLedger Stage) :=
    ⟨⟨Dict.distinct_nil, by simp, by simp, by simp [Holds]⟩, by simp [Dict.keys], by simp [Holds]⟩
  obtain ⟨⟨⟩, first, hrun, -, hregistered⟩ := Sure.forM
    (fun rest t => rest <:+ states ∧ Registered states rest t)
    (fun state rest t ht => by
      obtain ⟨hsuffix, ht⟩ := ht
      refine (ht.next hinitial (hsuffix.subset List.mem_cons_self)
        (hinitial.nodup.sublist (hsuffix.sublist.map _))).mono fun _ next hnext => ?_
      exact ⟨(List.suffix_cons _ _).trans hsuffix, hnext⟩) ⟨List.suffix_refl _, hempty⟩
  refine ⟨first, ?_, hregistered.sound hinitial⟩
  simp [start, hstates, hrun]

/-! ## Runs -/

/-- **What a ledger conserves.** -/
structure Conserved (ranks slices : ℕ) (ledger : PayloadLedger Stage) : Prop where
  union : ∀ address < slices, ∀ c, c ∈ aggregateContributors address ranks slices ↔
    ∃ id state, ledger.Holds id state ∧ state.logicalAddress = address ∧ c ∈ state.contributors
  addressed : ∀ id state, ledger.Holds id state → state.logicalAddress < slices
  apart : ∀ id id' state state', id ≠ id' → ledger.Holds id state → ledger.Holds id' state' →
    state.logicalAddress = state'.logicalAddress →
    Disjoint state.contributors state'.contributors ∨
      (state.contributors = aggregateContributors state.logicalAddress ranks slices ∧
        state'.contributors = aggregateContributors state.logicalAddress ranks slices)
  single : ∀ id id' state state', ledger.Holds id state → ledger.Holds id' state' →
    1 < state.contributors.card → 1 < state'.contributors.card → state.key = state'.key → id = id'
  aggregates : ∀ key id, ledger.activeAggregates.get? key = some id ↔
    ∃ state, ledger.Holds id state ∧ 1 < state.contributors.card ∧ state.key = key
  unique : ledger.states.Distinct
  named : ∀ id state, ledger.states.get? id = some state → state.stateId = id
  paths : ∀ id state, ledger.Holds id state → ∀ c ∈ state.contributors,
    ∃! path, (c, path) ∈ state.memberPaths

theorem Sound.conserved (h : ledger.Sound ranks slices) : ledger.Conserved ranks slices where
  union := by
    intro address haddress c
    constructor
    · intro hc
      obtain ⟨id, A, ⟨state, hstate, haddr, rfl⟩, hcA⟩ := (h.shared address haddress).covered c hc
      exact ⟨id, state, hstate, haddr, hcA⟩
    · rintro ⟨id, state, hstate, haddr, hc⟩
      exact (h.shared address haddress).within id _ ⟨state, hstate, haddr, rfl⟩ hc
  addressed := h.addressed
  apart := by
    intro id id' state state' hne hstate hstate' hsame
    exact (h.shared _ (h.addressed id state hstate)).apart id id' _ _ hne
      ⟨state, hstate, rfl, rfl⟩ ⟨state', hstate', hsame.symm, rfl⟩
  single := by
    intro id id' state state' hstate hstate' hcard hcard' hkey
    have hid := (h.aggregates state.key id).mpr ⟨state, hstate, hcard, rfl⟩
    have hid' := (h.aggregates state.key id').mpr ⟨state', hstate', hcard', hkey.symm⟩
    exact Option.some.inj (hid.symm.trans hid')
  aggregates := h.aggregates
  unique := h.distinct
  named := h.named
  paths := fun _ state _ _ hc => state.path_unique hc

end PayloadLedger

/-- A run of calls from one ledger to another; calls may return or raise. -/
inductive PayloadRun (ranks slices : ℕ) (first : PayloadLedger Stage) : PayloadLedger Stage → Prop
  | refl : PayloadRun ranks slices first first
  | call {ledger : PayloadLedger Stage} (call : PayloadCall)
      (run : PayloadRun ranks slices first ledger) (proper : call.Proper ranks slices ledger) :
      PayloadRun ranks slices first (ledger.after call)

section Runs
variable {ranks slices : ℕ} {first ledger : PayloadLedger Stage}

theorem PayloadCall.after_sound (h : ledger.Sound ranks slices) {call : PayloadCall}
    (hproper : call.Proper ranks slices ledger) :
    (ledger.after call).Sound ranks slices ∧ ledger.Keeps (ledger.after call) := by
  have hatomic := PayloadCall.atomic h hproper
  unfold Atomic at hatomic
  unfold PayloadLedger.after
  cases hrun : (call.method.run ledger : EStateM.Result _ _ (PayloadState Stage)) with
  | ok state next =>
    rw [hrun] at hatomic
    exact ⟨hatomic.sound, hatomic.keeps⟩
  | error fault next =>
    rw [hrun] at hatomic
    obtain rfl : next = ledger := hatomic
    exact ⟨h, .refl _⟩

theorem PayloadRun.sound (hrun : PayloadRun ranks slices first ledger)
    (h : first.Sound ranks slices) : ledger.Sound ranks slices ∧ first.Keeps ledger := by
  induction hrun with
  | refl => exact ⟨h, .refl _⟩
  | call call _ hproper ih =>
    obtain ⟨hsound, hkeeps⟩ := PayloadCall.after_sound ih.1 hproper
    exact ⟨hsound, ih.2.trans hkeeps⟩

/-- **The ledger conserves the contributions** over every run of calls; a call that raises
changes nothing, and one that returns registers a new state under an identity that was
never used. -/
theorem payload_conserved (hranks : 0 < ranks) (hslices : 0 < slices) :
    ∃ first : PayloadLedger Stage,
      PayloadLedger.start (.integer ranks) (.integer slices) = .ok first ∧
      ∀ ledger, PayloadRun ranks slices first ledger → ledger.Conserved ranks slices ∧
        (∀ later, PayloadRun ranks slices ledger later → ledger.Keeps later) ∧
        ∀ call : PayloadCall, call.Proper ranks slices ledger →
          (∀ fault next, call.method.run ledger = .error fault next → next = ledger) ∧
          ∀ state next, call.method.run ledger = .ok state next →
            state.stateId ∉ ledger.states.keys ∧ next.states.get? state.stateId = some state := by
  obtain ⟨first, hstart, hfirst⟩ := PayloadLedger.start_sound hranks hslices
  refine ⟨first, hstart, fun ledger hrun => ?_⟩
  obtain ⟨hsound, -⟩ := hrun.sound hfirst
  refine ⟨hsound.conserved, fun later hlater => (hlater.sound hsound).2, fun call hproper => ?_⟩
  have hatomic := PayloadCall.atomic hsound hproper
  unfold Atomic at hatomic
  refine ⟨fun fault next hcall => ?_, fun state next hcall => ?_⟩
  · rw [hcall] at hatomic
    exact hatomic
  · rw [hcall] at hatomic
    exact ⟨hatomic.fresh, hatomic.registered⟩

/-- Two ranks and one slice. -/
theorem payload_conserved_pair : ∃ first : PayloadLedger Unit,
    PayloadLedger.start (.integer 2) (.integer 1) = .ok first ∧ first.Conserved 2 1 := by
  obtain ⟨first, hstart, hall⟩ : ∃ first : PayloadLedger Unit, _ ∧ _ :=
    payload_conserved (by decide : 0 < 2) (by decide : 0 < 1)
  exact ⟨first, hstart, (hall first .refl).1⟩

end Runs

end VeriCCL
