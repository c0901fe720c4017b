import VeriCCL.ReplayEffect
import VeriCCL.Trace

/-! # Replay against byte memory

The operations of a schedule as reads and writes of single bytes: a copy moves each byte
of its source, a reduction adds the two bytes at the same place.  The replay checks along
one sequence only, in the order of the start times.  `Sound` is what it establishes: the
active versions hold their meaning when the operations run one after the other, and
operations that touch a common byte, one of them writing it, do not overlap in time. -/
namespace VeriCCL

/-- A byte of a buffer: rank, buffer and offset. -/
abbrev Byte := ℕ × String × ℕ

/-- Byte `k` of a region. -/
def BufferRegion.byte (region : BufferRegion) (k : ℕ) : Byte :=
  (region.rank, region.bufferId, region.offset + k)

/-- The byte belongs to the region. -/
def BufferRegion.covers (region : BufferRegion) (l : Byte) : Prop :=
  ∃ k < region.size, l = region.byte k

theorem BufferRegion.overlaps_of_covers {a b : BufferRegion} {l : Byte} (ha : a.covers l)
    (hb : b.covers l) : a.overlaps b := by
  obtain ⟨k, hk, rfl⟩ := ha
  obtain ⟨j, hj, heq⟩ := hb
  unfold BufferRegion.byte at heq
  simp only [Prod.mk.injEq] at heq
  exact ⟨⟨heq.1, heq.2.1⟩, by omega⟩

theorem BufferRegion.byte_inj {region : BufferRegion} {j k : ℕ}
    (h : region.byte j = region.byte k) : j = k := by
  unfold BufferRegion.byte at h
  simp only [Prod.mk.injEq, true_and] at h
  omega

/-- Where a state of the schedule is stored. -/
def VersionSchedule.storageOf (schedule : VersionSchedule) (id : String) : Option BufferRegion :=
  ((schedule.initialStates.find? fun state => state.stateId = id).map (·.storage)).or
    ((schedule.operations.find? fun op => op.outputState = some id).bind (·.destination))

/-- The byte of an input that byte `l` of the destination is made from. -/
def inputByte (destination source : BufferRegion) (l : Byte) : Byte :=
  source.byte (l.2.2 - destination.offset)

/-- The operations of a schedule, on bytes. -/
def VersionSchedule.memoryOperations (schedule : VersionSchedule) :
    Trace.Operations VersionOperation Byte (Multiset (ℕ × ℕ)) where
  reads op l := op.kind ≠ .release ∧ ∃ id ∈ op.inputStates, ∃ region ∈ schedule.storageOf id,
    region.covers l
  writes op l := ∃ destination ∈ op.destination, destination.covers l
  uses op l k := ∃ destination ∈ op.destination, ∃ id ∈ op.inputStates,
    ∃ region ∈ schedule.storageOf id, k = inputByte destination region l
  value op m l := (op.inputStates.map fun id => ((op.destination.bind fun destination =>
    (schedule.storageOf id).map fun region => m (inputByte destination region l)).getD 0)).sum
  value_congr := by
    intro op l m m' h
    congr 1
    refine List.map_congr_left fun id hid => ?_
    cases hdest : op.destination with
    | none => rfl
    | some destination =>
      cases hregion : schedule.storageOf id with
      | none => rfl
      | some region =>
        exact h _ ⟨destination, hdest, id, hid, region, hregion, rfl⟩

/-- One of them writes a byte that the other touches. -/
def VersionSchedule.Conflict (schedule : VersionSchedule) (i j : VersionOperation) : Prop :=
  ∃ l, (schedule.memoryOperations.writes i l ∧ schedule.memoryOperations.reads j l) ∨
    (schedule.memoryOperations.reads i l ∧ schedule.memoryOperations.writes j l) ∨
    (schedule.memoryOperations.writes i l ∧ schedule.memoryOperations.writes j l)

/-! ## The states of a replay -/

/-- The states there are, and where they come from. -/
structure Stated (schedule : VersionSchedule) (done : List VersionOperation)
    (ledger : VersionLedger) : Prop where
  indexed : ledger.Indexed
  initial : ∀ state ∈ schedule.initialStates, ledger.states.get? state.stateId = some state
  made : ∀ op ∈ done, op.kind ≠ .release → ∃ state, op.outputState = some state.stateId ∧
    op.destination = some state.storage ∧ ledger.states.get? state.stateId = some state ∧
    state.readyUs = op.endUs
  origin : ∀ id state, ledger.states.get? id = some state → state ∈ schedule.initialStates ∨
    ∃ op ∈ done, op.kind ≠ .release ∧ op.outputState = some id

/-- States are never forgotten. -/
def Extends (ledger ledger' : VersionLedger) : Prop :=
  ∀ id state, ledger.states.get? id = some state → ledger'.states.get? id = some state

theorem Effect.extends {ledger ledger' : VersionLedger} {op : VersionOperation}
    (h : Effect ledger op ledger') : Extends ledger ledger' := by
  intro id state hstate
  cases h with
  | released id' value _ _ _ hremoved =>
    rw [hremoved.states]
    exact hstate
  | made result hmakes =>
    rw [hmakes.stored.states, if_neg, hstate]
    rintro rfl
    rw [hmakes.stored.fresh] at hstate
    cases hstate

theorem Stated.effect {schedule : VersionSchedule} {done : List VersionOperation}
    {ledger ledger' : VersionLedger} {op : VersionOperation} (h : Stated schedule done ledger)
    (heffect : Effect ledger op ledger') : Stated schedule (done ++ [op]) ledger' := by
  have hext := heffect.extends
  have hold : ∀ x ∈ done, x.kind ≠ .release → ∃ state, x.outputState = some state.stateId ∧
      x.destination = some state.storage ∧ ledger'.states.get? state.stateId = some state ∧
      state.readyUs = x.endUs := by
    intro x hx hk
    obtain ⟨state, hout, hdest, hget, hready⟩ := h.made x hx hk
    exact ⟨state, hout, hdest, hext _ _ hget, hready⟩
  cases heffect with
  | released id value hkind hreadable hquiet hremoved =>
    refine ⟨hremoved.indexed, fun state hs => hext _ _ (h.initial state hs), ?_, ?_⟩
    · intro x hx hk
      rcases List.mem_append.mp hx with hx | hx
      · exact hold x hx hk
      · rw [List.mem_singleton.mp hx] at hk
        exact absurd hkind hk
    · intro id' state hstate
      rw [hremoved.states] at hstate
      rcases h.origin id' state hstate with hs | ⟨x, hx, hrest⟩
      · exact Or.inl hs
      · exact Or.inr ⟨x, List.mem_append_left _ hx, hrest⟩
  | made result hmakes =>
    have hnew : ledger'.states.get? result.stateId = some result := by
      rw [hmakes.stored.states, if_pos rfl]
    refine ⟨hmakes.stored.indexed, fun state hs => hext _ _ (h.initial state hs), ?_, ?_⟩
    · intro x hx hk
      rcases List.mem_append.mp hx with hx | hx
      · exact hold x hx hk
      · rw [List.mem_singleton.mp hx]
        exact ⟨result, hmakes.output, hmakes.destination, hnew, hmakes.stored.ready⟩
    · intro id' state hstate
      rw [hmakes.stored.states] at hstate
      split at hstate
      · rename_i hid
        refine Or.inr ⟨op, List.mem_append_right _ (List.mem_singleton_self _), hmakes.kind, ?_⟩
        rw [hmakes.output, hid]
      · rcases h.origin id' state hstate with hs | ⟨x, hx, hrest⟩
        · exact Or.inl hs
        · exact Or.inr ⟨x, List.mem_append_left _ hx, hrest⟩

/-- **The ledger agrees with the schedule on where a state is.** -/
theorem Stated.storageOf {schedule : VersionSchedule} {done : List VersionOperation}
    {ledger : VersionLedger} (h : Stated schedule done ledger)
    (hall : ∀ op ∈ schedule.operations, op ∈ done) {id : String} {state : StateVersion}
    (hstate : ledger.states.get? id = some state) (hdone : ∀ op ∈ done, op ∈ schedule.operations) :
    schedule.storageOf id = some state.storage := by
  unfold VersionSchedule.storageOf
  cases hfind : schedule.initialStates.find? fun state => state.stateId = id with
  | some first =>
    have hid : first.stateId = id := by simpa using List.find?_some hfind
    have hget := h.initial first (List.mem_of_find?_eq_some hfind)
    rw [hid, hstate, Option.some.injEq] at hget
    rw [hget]
    rfl
  | none =>
    rcases h.origin id state hstate with hinit | ⟨op, hop, hkind, hout⟩
    · have hkey := h.indexed.keyed id state hstate
      have := List.find?_eq_none.mp hfind state hinit
      exact absurd (by simpa using hkey) this
    · cases hfind' : schedule.operations.find? fun op => op.outputState = some id with
      | none =>
        have := List.find?_eq_none.mp hfind' op (hdone op hop)
        exact absurd (by simpa using hout) this
      | some first =>
        have hout' : first.outputState = some id := by simpa using List.find?_some hfind'
        have hmem := List.mem_of_find?_eq_some hfind'
        have hkind' : first.kind ≠ .release := by
          intro hrel
          rw [(first.release_shape hrel).1] at hout'
          cases hout'
        obtain ⟨st, hst, hdest, hget, -⟩ := h.made first (hall first hmem) hkind'
        rw [hout', Option.some.injEq] at hst
        rw [← hst, hstate, Option.some.injEq] at hget
        rw [hget]
        exact hdest

/-! ## What the replay establishes -/

/-- **What a replay has checked so far**, up to the start of its last operation. -/
structure Sound (schedule : VersionSchedule) (init : Byte → Multiset (ℕ × ℕ))
    (done : List VersionOperation) (now : ℚ) (ledger : VersionLedger) : Prop where
  stated : Stated schedule done ledger
  /-- An active version is noted as read until the end of each of its readers. -/
  used : ∀ op ∈ done, op.kind ≠ .release → ∀ id ∈ op.inputStates, ∃ state,
    ledger.states.get? id = some state ∧ (id ∈ ledger.active → op.endUs ≤ ledger.readUntil id)
  /-- A version that is no longer active is complete, and its readers have ended, but for
  the one that replaced it in place. -/
  closed : ∀ id state, ledger.states.get? id = some state → id ∉ ledger.active →
    state.readyUs ≤ now ∧ ∀ op ∈ done, op.kind ≠ .release → id ∈ op.inputStates →
      op.endUs ≤ now ∨ op.destination = some state.storage
  /-- The active versions hold what they mean. -/
  contents : ∀ id ∈ ledger.active, ∀ state, ledger.states.get? id = some state →
    ∀ k < state.storage.size,
      schedule.memoryOperations.sequence init done (state.storage.byte k) = state.meaning k
  /-- An operation that writes where it reads replaces each byte by what it makes of it. -/
  in_place : ∀ op ∈ done, ∀ l, schedule.memoryOperations.reads op l →
    schedule.memoryOperations.writes op l → schedule.memoryOperations.uses op l l
  /-- Conflicting operations do not overlap in time. -/
  apart : done.Pairwise fun i j => schedule.Conflict i j → i.endUs ≤ j.startUs

section Turn
variable {schedule : VersionSchedule} {init : Byte → Multiset (ℕ × ℕ)}
  {done : List VersionOperation} {now : ℚ} {ledger ledger' : VersionLedger} {op : VersionOperation}
  {result : StateVersion}

/-- What a new version overlaps was complete when it started. -/
theorem Sound.complete_before (h : Sound schedule init done now ledger) (hnow : now ≤ op.startUs)
    (hmakes : Makes ledger op result ledger') {id : String} {state : StateVersion}
    (hstate : ledger.states.get? id = some state) (hover : result.storage.overlaps state.storage) :
    state.readyUs ≤ op.startUs := by
  by_cases hact : id ∈ ledger.active
  · exact (hmakes.stored.overwrites id hact state hstate hover).1
  · exact (h.closed id state hstate hact).1.trans hnow

/-- What a new version overlaps was no longer read. -/
theorem Sound.read_before (h : Sound schedule init done now ledger) (hnow : now ≤ op.startUs)
    (hmakes : Makes ledger op result ledger') {x : VersionOperation} (hx : x ∈ done)
    (hkind : x.kind ≠ .release) {id : String} (hid : id ∈ x.inputStates) {state : StateVersion}
    (hstate : ledger.states.get? id = some state) (hover : result.storage.overlaps state.storage) :
    x.endUs ≤ op.startUs := by
  by_cases hact : id ∈ ledger.active
  · obtain ⟨-, -, huntil⟩ := h.used x hx hkind id hid
    exact (huntil hact).trans (hmakes.stored.overwrites id hact state hstate hover).2
  · rcases (h.closed id state hstate hact).2 x hx hkind hid with hend | hplace
    · exact hend.trans hnow
    · -- the reader wrote in place: its own version is overlapped as well
      obtain ⟨made, -, hdest, hget, hready⟩ := h.stated.made x hx hkind
      have hsame : made.storage = state.storage := Option.some.inj (hdest.symm.trans hplace)
      rw [← hready]
      exact h.complete_before hnow hmakes hget (hsame ▸ hover)

/-- **A new operation does not overlap earlier ones it conflicts with.** -/
theorem Sound.apart_new (h : Sound schedule init done now ledger) (hnow : now ≤ op.startUs)
    (hmakes : Makes ledger op result ledger')
    (hagree : ∀ id state, ledger.states.get? id = some state →
      schedule.storageOf id = some state.storage) {x : VersionOperation} (hx : x ∈ done)
    (hconflict : schedule.Conflict x op) : x.endUs ≤ op.startUs := by
  have hwrote : ∀ {l : Byte}, schedule.memoryOperations.writes x l → ∃ made : StateVersion,
      made.storage.covers l ∧ ledger.states.get? made.stateId = some made ∧
        made.readyUs = x.endUs := by
    rintro l ⟨destination, hdest, hcovers⟩
    have hkind : x.kind ≠ .release := by
      intro hrel
      rw [(x.release_shape hrel).2] at hdest
      cases hdest
    obtain ⟨made, -, hdest', hget, hready⟩ := h.stated.made x hx hkind
    obtain rfl : destination = made.storage := Option.some.inj (hdest.symm.trans hdest')
    exact ⟨made, hcovers, hget, hready⟩
  have hwrites : ∀ {l : Byte}, schedule.memoryOperations.writes op l → result.storage.covers l := by
    rintro l ⟨destination, hdest, hcovers⟩
    obtain rfl : destination = result.storage := Option.some.inj (hdest.symm.trans hmakes.destination)
    exact hcovers
  obtain ⟨l, ⟨hw, -, id, hid, region, hregion, hcovers⟩ | ⟨⟨hkind, id, hid, region, hregion, hcovers⟩, hw⟩ |
    ⟨hw, hw'⟩⟩ := hconflict
  · -- written by the earlier one, read by the new one
    obtain ⟨made, hmade, hget, hready⟩ := hwrote hw
    obtain ⟨value, hread, -⟩ := hmakes.stored.reads id hid
    obtain rfl : region = value.storage := Option.some.inj
      (hregion.symm.trans (hagree id value hread.known))
    by_cases hact : made.stateId ∈ ledger.active
    · have hsame := h.stated.indexed.disjoint hact hread.active hget hread.known
        (BufferRegion.overlaps_of_covers hmade hcovers)
      rw [hsame, hread.known, Option.some.injEq] at hget
      rw [← hready, ← hget]
      exact hread.ready
    · rw [← hready]
      exact (h.closed _ made hget hact).1.trans hnow
  · -- read by the earlier one, written by the new one
    obtain ⟨state, hstate, -⟩ := h.used x hx hkind id hid
    obtain rfl : region = state.storage := Option.some.inj
      (hregion.symm.trans (hagree id state hstate))
    exact h.read_before hnow hmakes hx hkind hid hstate
      (BufferRegion.overlaps_of_covers (hwrites hw) hcovers)
  · obtain ⟨made, hmade, hget, hready⟩ := hwrote hw
    rw [← hready]
    exact h.complete_before hnow hmakes hget (BufferRegion.overlaps_of_covers (hwrites hw') hmade)

/-- What a new version holds when the operations run one after the other. -/
theorem Sound.contents_new (h : Sound schedule init done now ledger)
    (hmakes : Makes ledger op result ledger')
    (hagree : ∀ id state, ledger.states.get? id = some state →
      schedule.storageOf id = some state.storage) {k : ℕ} (hk : k < result.storage.size) :
    schedule.memoryOperations.sequence init (done ++ [op]) (result.storage.byte k) =
      result.meaning k := by
  have hw : schedule.memoryOperations.writes op (result.storage.byte k) :=
    ⟨result.storage, hmakes.destination, k, hk, rfl⟩
  rw [Trace.sequence_concat, Trace.apply_of_writes hw, hmakes.meaning k]
  show (op.inputStates.map _).sum = _
  congr 1
  refine List.map_congr_left fun id hid => ?_
  obtain ⟨value, hread, -⟩ := hmakes.stored.reads id hid
  rw [hmakes.destination, hagree id value hread.known, hread.known]
  show schedule.memoryOperations.sequence init done (inputByte result.storage value.storage
    (result.storage.byte k)) = value.meaning k
  have hbyte : inputByte result.storage value.storage (result.storage.byte k) =
      value.storage.byte k := by
    unfold inputByte BufferRegion.byte
    simp
  rw [hbyte]
  exact h.contents id hread.active value hread.known k
    (hmakes.size id hid value hread.known ▸ hk)

/-- An operation that overwrites an input replaces exactly it. -/
theorem in_place_new (hmakes : Makes ledger op result ledger')
    (hagree : ∀ id state, ledger.states.get? id = some state →
      schedule.storageOf id = some state.storage) {l : Byte}
    (hreads : schedule.memoryOperations.reads op l)
    (hwrites : schedule.memoryOperations.writes op l) :
    schedule.memoryOperations.uses op l l := by
  obtain ⟨-, id, hid, region, hregion, hcovers⟩ := hreads
  obtain ⟨destination, hdest, hcovers'⟩ := hwrites
  obtain rfl : destination = result.storage := Option.some.inj (hdest.symm.trans hmakes.destination)
  obtain ⟨value, hread, hplace⟩ := hmakes.stored.reads id hid
  obtain rfl : region = value.storage := Option.some.inj
    (hregion.symm.trans (hagree id value hread.known))
  have hsame := hplace (BufferRegion.overlaps_of_covers hcovers' hcovers)
  refine ⟨result.storage, hdest, id, hid, value.storage, hregion, ?_⟩
  obtain ⟨k, -, rfl⟩ := hcovers'
  rw [← hsame]
  unfold inputByte BufferRegion.byte
  simp

theorem Sound.made (h : Sound schedule init done now ledger) (hnow : now ≤ op.startUs)
    (hmakes : Makes ledger op result ledger')
    (hagree : ∀ id state, ledger.states.get? id = some state →
      schedule.storageOf id = some state.storage) :
    Sound schedule init (done ++ [op]) op.startUs ledger' := by
  have hext : Extends ledger ledger' := (Effect.made result hmakes).extends
  have hold : ∀ {id : String} {state : StateVersion}, ledger.states.get? id = some state →
      id ≠ result.stateId := by
    rintro id state hstate rfl
    rw [hmakes.stored.fresh] at hstate
    cases hstate
  -- what stays active was active before, and is not overlapped
  have hactive : ∀ {id : String} {state : StateVersion}, ledger.states.get? id = some state →
      id ∈ ledger'.active → id ∈ ledger.active ∧ ¬ result.storage.overlaps state.storage := by
    intro id state hstate hact
    rcases (hmakes.stored.active id).mp hact with hid | ⟨hact, hno⟩
    · exact absurd hid (hold hstate)
    · exact ⟨hact, hno state hstate⟩
  refine ⟨h.stated.effect (.made result hmakes), ?_, ?_, ?_, ?_, ?_⟩
  · intro x hx hkind id hid
    rcases List.mem_append.mp hx with hx | hx
    · obtain ⟨state, hstate, huntil⟩ := h.used x hx hkind id hid
      refine ⟨state, hext _ _ hstate, fun hact => (huntil (hactive hstate hact).1).trans ?_⟩
      rw [hmakes.stored.readUntil]
      split
      · exact le_max_left _ _
      · exact le_refl _
    · rw [List.mem_singleton.mp hx] at hid ⊢
      obtain ⟨value, hread, -⟩ := hmakes.stored.reads id hid
      refine ⟨value, hext _ _ hread.known, fun _ => ?_⟩
      rw [hmakes.stored.readUntil, if_pos hid]
      exact le_max_right _ _
  · intro id state hstate hact
    have hne : id ≠ result.stateId := fun hid => hact ((hmakes.stored.active id).mpr (Or.inl hid))
    have hstate' : ledger.states.get? id = some state := by
      rw [hmakes.stored.states, if_neg hne.symm] at hstate
      exact hstate
    by_cases hbefore : id ∈ ledger.active
    · -- overwritten by this operation
      have hover : result.storage.overlaps state.storage := by
        by_contra hno
        refine hact ((hmakes.stored.active id).mpr (Or.inr ⟨hbefore, ?_⟩))
        intro value hvalue
        rw [hstate', Option.some.injEq] at hvalue
        exact hvalue ▸ hno
      refine ⟨h.complete_before hnow hmakes hstate' hover, ?_⟩
      intro x hx hkind hid
      rcases List.mem_append.mp hx with hx | hx
      · exact Or.inl (h.read_before hnow hmakes hx hkind hid hstate' hover)
      · rw [List.mem_singleton.mp hx] at hid ⊢
        obtain ⟨value, hread, hplace⟩ := hmakes.stored.reads id hid
        obtain rfl : state = value := Option.some.inj (hstate'.symm.trans hread.known)
        exact Or.inr (hmakes.destination.trans (congrArg some (hplace hover)))
    · obtain ⟨hready, hreaders⟩ := h.closed id state hstate' hbefore
      refine ⟨hready.trans hnow, ?_⟩
      intro x hx hkind hid
      rcases List.mem_append.mp hx with hx | hx
      · exact (hreaders x hx hkind hid).imp_left fun hend => hend.trans hnow
      · rw [List.mem_singleton.mp hx] at hid
        obtain ⟨value, hread, -⟩ := hmakes.stored.reads id hid
        exact absurd hread.active hbefore
  · intro id hact state hstate k hk
    rw [hmakes.stored.states] at hstate
    split at hstate
    · obtain rfl := Option.some.inj hstate
      exact h.contents_new hmakes hagree hk
    · obtain ⟨hbefore, hno⟩ := hactive hstate hact
      rw [Trace.sequence_concat, Trace.apply_of_not_writes]
      · exact h.contents id hbefore state hstate k hk
      · rintro ⟨destination, hdest, hcovers⟩
        obtain rfl : destination = result.storage :=
          Option.some.inj (hdest.symm.trans hmakes.destination)
        exact hno (BufferRegion.overlaps_of_covers hcovers ⟨k, hk, rfl⟩)
  · intro x hx l hreads hwrites
    rcases List.mem_append.mp hx with hx | hx
    · exact h.in_place x hx l hreads hwrites
    · rw [List.mem_singleton.mp hx] at hreads hwrites ⊢
      exact in_place_new hmakes hagree hreads hwrites
  · rw [List.pairwise_append]
    refine ⟨h.apart, List.pairwise_singleton _ _, ?_⟩
    intro x hx y hy hconflict
    obtain rfl := List.mem_singleton.mp hy
    exact h.apart_new hnow hmakes hagree hx hconflict

/-- A release writes nothing and reads nothing. -/
theorem release_quiet (hkind : op.kind = .release) (l : Byte) :
    ¬ schedule.memoryOperations.writes op l ∧ ¬ schedule.memoryOperations.reads op l := by
  constructor
  · rintro ⟨destination, hdest, -⟩
    rw [(op.release_shape hkind).2] at hdest
    cases hdest
  · rintro ⟨hno, -⟩
    exact hno hkind

theorem Sound.released (h : Sound schedule init done now ledger) (hnow : now ≤ op.startUs)
    {id : String} {value : StateVersion} (hkind : op.kind = .release)
    (hread : ledger.Readable id op.startUs value) (hquiet : ledger.readUntil id ≤ op.startUs)
    (hremoved : ledger.Removed [id] ledger') :
    Sound schedule init (done ++ [op]) op.startUs ledger' := by
  have huntil : ∀ id, ledger'.readUntil id = ledger.readUntil id := by
    intro id
    unfold VersionLedger.readUntil
    rw [hremoved.readerEnd]
  have hdone : ∀ {x : VersionOperation}, x ∈ done ++ [op] → x.kind ≠ .release → x ∈ done := by
    intro x hx hk
    rcases List.mem_append.mp hx with hx | hx
    · exact hx
    · rw [List.mem_singleton.mp hx] at hk
      exact absurd hkind hk
  refine ⟨h.stated.effect (.released id value hkind hread hquiet hremoved), ?_, ?_, ?_, ?_, ?_⟩
  · intro x hx hk id' hid'
    obtain ⟨state, hstate, hle⟩ := h.used x (hdone hx hk) hk id' hid'
    refine ⟨state, by rw [hremoved.states]; exact hstate, fun hact => ?_⟩
    rw [huntil]
    exact hle ((hremoved.active id').mp hact).1
  · intro id' state hstate hact
    rw [hremoved.states] at hstate
    by_cases hbefore : id' ∈ ledger.active
    · obtain rfl : id' = id := by
        by_contra hne
        exact hact ((hremoved.active id').mpr ⟨hbefore, by simpa using hne⟩)
      obtain rfl : value = state := Option.some.inj (hread.known.symm.trans hstate)
      refine ⟨hread.ready, ?_⟩
      intro x hx hk hid'
      obtain ⟨-, -, hle⟩ := h.used x (hdone hx hk) hk id' hid'
      exact Or.inl ((hle hbefore).trans hquiet)
    · obtain ⟨hready, hreaders⟩ := h.closed id' state hstate hbefore
      refine ⟨hready.trans hnow, ?_⟩
      intro x hx hk hid'
      exact (hreaders x (hdone hx hk) hk hid').imp_left fun hend => hend.trans hnow
  · intro id' hact state hstate k hk
    rw [hremoved.states] at hstate
    rw [Trace.sequence_concat, Trace.apply_of_not_writes (release_quiet hkind _).1]
    exact h.contents id' ((hremoved.active id').mp hact).1 state hstate k hk
  · intro x hx l hreads hwrites
    rcases List.mem_append.mp hx with hx | hx
    · exact h.in_place x hx l hreads hwrites
    · rw [List.mem_singleton.mp hx] at hwrites
      exact absurd hwrites (release_quiet hkind l).1
  · rw [List.pairwise_append]
    refine ⟨h.apart, List.pairwise_singleton _ _, ?_⟩
    intro x hx y hy hconflict
    obtain rfl := List.mem_singleton.mp hy
    obtain ⟨l, ⟨-, hr⟩ | ⟨-, hw⟩ | ⟨-, hw⟩⟩ := hconflict
    · exact absurd hr (release_quiet hkind l).2
    · exact absurd hw (release_quiet hkind l).1
    · exact absurd hw (release_quiet hkind l).1

/-- **Every turn of the replay keeps it sound.** -/
theorem Sound.effect (h : Sound schedule init done now ledger) (hnow : now ≤ op.startUs)
    (heffect : Effect ledger op ledger')
    (hagree : ∀ id state, ledger.states.get? id = some state →
      schedule.storageOf id = some state.storage) :
    Sound schedule init (done ++ [op]) op.startUs ledger' := by
  cases heffect with
  | released id value hkind hread hquiet hremoved =>
    exact h.released hnow hkind hread hquiet hremoved
  | made result hmakes => exact h.made hnow hmakes hagree

end Turn

end VeriCCL
