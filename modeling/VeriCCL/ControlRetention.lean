import VeriCCL.ControlAgreement
import Mathlib.Algebra.BigOperators.Group.Finset.Basic

/-! # Retention of control rounds

The coordinator keeps the last two decided rounds.  A rank that still waits for a round
has not called for the next one, so the round it waits for is the last decided round or
the one being collected: it is always there to be asked for again
(`ControlHistory.Truthful.next_le`).

A copy of a request may be older than that.  It may have been given up by its sender long
ago and still be read, and by then its round may be gone.  `request` refuses such a copy,
and a refusal is reported to every rank from then on.  So the session stays healthy
exactly as long as every frame is read before its round is evicted (`Timely`). -/
namespace VeriCCL

variable {P : Type}

/-- The bytes of the payloads a round holds. -/
def ControlRound.weight (codec : ControlCodec P) (round : ControlRound P) : ℕ :=
  ∑ i ∈ Finset.range round.members.length, (round.seat i).elim 0 codec.envelopeBytes

namespace ControlHistory

/-- The bytes of the payloads called for round `k`. -/
def roundBytes (codec : ControlCodec P) (h : ControlHistory P) (k : ℕ) : ℕ :=
  ∑ i ∈ Finset.range h.ranks, ((h.calls i)[k]?).elim 0 (fun call => codec.envelopeBytes call.2)

/-- All ranks call with the same phases, and the messages stay within the limits. -/
structure Uniform (codec : ControlCodec P) (h : ControlHistory P) : Prop where
  phases : ∀ i < h.ranks, ∀ j < h.ranks, ∀ k phase phase' payload payload',
    h.Called i k phase payload → h.Called j k phase' payload' → phase = phase'
  named : ∀ i < h.ranks, ∀ k phase payload, h.Called i k phase payload →
    phase ≠ "" ∧ phase.utf8ByteSize ≤ 128
  payloads : ∀ k, h.roundBytes codec k ≤ payloadLimit
  requests : ∀ message, h.Sent message → codec.requestBytes message ≤ frameLimit
  replies : ∀ reply, h.Decided reply → codec.replyBytes reply ≤ frameLimit

variable {codec : ControlCodec P} {h h' : ControlHistory P}

theorem roundBytes_mono (hext : h.Extends h') (k : ℕ) :
    h.roundBytes codec k ≤ h'.roundBytes codec k := by
  unfold roundBytes
  rw [hext.ranks]
  refine Finset.sum_le_sum fun i _ => ?_
  cases hcall : (h.calls i)[k]? with
  | none => exact Nat.zero_le _
  | some call =>
    have hcalled : h'.Called i k call.1 call.2 := Called.mono hext hcall
    unfold Called at hcalled
    rw [hcalled]

/-- What holds of a history holds of the shorter ones before it. -/
theorem Uniform.anti (hext : h.Extends h') (hu : h'.Uniform codec) : h.Uniform codec where
  phases i hi j hj k _ _ _ _ ha hb :=
    hu.phases i (hext.ranks.symm ▸ hi) j (hext.ranks.symm ▸ hj) k _ _ _ _ (ha.mono hext) (hb.mono hext)
  named i hi k _ _ hc := hu.named i (hext.ranks.symm ▸ hi) k _ _ (hc.mono hext)
  payloads k := (roundBytes_mono hext k).trans (hu.payloads k)
  requests message hs := hu.requests message (hs.mono hext)
  replies reply hd := hu.replies reply (hd.mono hext)

/-- A round weighs no more than the calls for it. -/
theorem Recorded.weight_le {k : ℕ} {round : ControlRound P} (hr : h.Recorded k round) :
    round.weight codec ≤ h.roundBytes codec k := by
  unfold ControlRound.weight roundBytes
  rw [hr.length]
  refine Finset.sum_le_sum fun i _ => ?_
  cases hseat : round.seat i with
  | none => exact Nat.zero_le _
  | some payload =>
    have hcalled := hr.member i payload (seat_some.mp hseat)
    unfold Called at hcalled
    rw [hcalled]
    exact le_rfl

/-- A new payload adds its bytes to its round. -/
theorem weight_set {round : ControlRound P} {rank : ℕ} {payload : P} (bytes : ℕ)
    (hlt : rank < round.members.length) (hseat : round.seat rank = none) :
    ({ round with bytes := bytes, members := round.members.set rank (some payload) } :
      ControlRound P).weight codec = round.weight codec + codec.envelopeBytes payload := by
  unfold ControlRound.weight
  have hmem : rank ∈ Finset.range round.members.length := Finset.mem_range.mpr hlt
  simp only [List.length_set]
  rw [← Finset.add_sum_erase _ _ hmem, ← Finset.add_sum_erase _ _ hmem, hseat]
  have hself : ({ round with bytes := bytes, members := round.members.set rank (some payload) } :
      ControlRound P).seat rank = some payload := by
    rw [seat_some, List.getElem?_set_self hlt]
  have hother : ∀ i ∈ (Finset.range round.members.length).erase rank,
      (({ round with bytes := bytes, members := round.members.set rank (some payload) } :
        ControlRound P).seat i).elim 0 codec.envelopeBytes =
      (round.seat i).elim 0 codec.envelopeBytes := by
    intro i hi
    unfold ControlRound.seat
    rw [List.getElem?_set_ne (Finset.ne_of_mem_erase hi).symm]
  rw [Finset.sum_congr rfl hother, hself]
  simp only [Option.elim]
  omega

/-- The bytes counted for a round are those of its payloads. -/
def Counted (codec : ControlCodec P) (c : Coordinator P) : Prop :=
  ∀ e ∈ c.rounds, e.2.bytes ≤ e.2.weight codec

section Coordinator
variable {c : Coordinator P}

/-- **No rank is left behind**: a round after the one a rank waits for is not decided. -/
theorem Truthful.next_le (ht : h.Truthful c) {rank k : ℕ} (hrank : rank < h.ranks)
    (hcalls : (h.calls rank).length ≤ k + 1) : c.next ≤ k + 1 := by
  by_contra hlt
  have hmem := ht.retained (k := c.next - 1) (by omega) (by omega)
  obtain ⟨round, hget⟩ := Dict.get?_isSome.mpr hmem
  obtain ⟨hrecorded, hdecided⟩ := ht.round_of hget
  obtain ⟨reply, hreply⟩ := Option.isSome_iff_exists.mp (hdecided.mpr (by omega))
  obtain ⟨hd, hseq, -⟩ := hrecorded.reply reply hreply
  obtain ⟨payload, hcalled, -⟩ := hd.member rank hrank
  have := (List.getElem?_eq_some_iff.mp hcalled).1
  omega

/-- What `check` asks of a request holds of every call whose round is not evicted. -/
theorem Truthful.check_taken (ht : h.Truthful c) (hu : h.Uniform codec) {message : ControlRequest P}
    (hsent : h.Sent message) (hle : message.sequence ≤ c.next)
    (htimely : c.next ≤ message.sequence + 2) : c.check message = .ok () := by
  have hnamed := hu.named message.rank hsent.rank _ _ _ hsent.called
  have hseq : message.sequence = c.next ∨ message.sequence < c.next ∧
      message.sequence ∈ c.rounds.keys := by
    rcases Nat.eq_or_lt_of_le hle with heq | hlt
    · exact Or.inl heq
    · exact Or.inr ⟨hlt, ht.retained hlt htimely⟩
  unfold Coordinator.check
  simp only [Checked.bind_ok, Checked.ensure_ok]
  exact ⟨(), ⟨hsent.group.trans ht.group.symm, hsent.session.trans ht.session.symm⟩, (),
    ht.ranks ▸ hsent.rank, (), hnamed, hseq⟩

theorem Counted.openRound (hcount : Counted codec c) (message : ControlRequest P) :
    Counted codec (c.openRound message).2 := by
  unfold Coordinator.openRound
  split
  · exact hcount
  · intro e he
    rcases List.mem_append.mp he with he | he
    · exact hcount e ((List.takeWhile_sublist _).mem he)
    · rcases List.mem_cons.mp he with rfl | he
      · exact Nat.zero_le _
      · exact hcount e ((List.dropWhile_sublist _).mem he)

theorem Counted.settle (hcount : Counted codec c) {k : ℕ} {round : ControlRound P}
    (hround : round.bytes ≤ round.weight codec) : Counted codec (c.settle k round) := by
  unfold Coordinator.settle
  split
  · intro e he
    rcases Dict.mem_set (List.mem_of_mem_drop he) with he | rfl
    · exact hcount e he
    · exact hround
  · intro e he
    rcases Dict.mem_set he with he | rfl
    · exact hcount e he
    · exact hround

theorem settle_fatal (k : ℕ) (round : ControlRound P) : (c.settle k round).fatal = c.fatal := by
  unfold Coordinator.settle
  split <;> rfl

/-- An answer gives no error while there is none and the replies fit. -/
theorem Truthful.answer_taken (ht : h.Truthful c) (hu : h.Uniform codec) (hfatal : c.fatal = "")
    (connection : Connection P) : (c.answer codec connection).1 = c := by
  unfold Coordinator.answer
  rw [if_neg (not_not_intro hfatal)]
  cases hget : c.rounds.get? connection.request.sequence with
  | none => rfl
  | some round =>
    cases hreply : round.reply with
    | none => simp only [hreply]
    | some reply =>
      have hfits : ¬ frameLimit < codec.replyBytes reply :=
        Nat.not_lt.mpr (hu.replies reply ((ht.round_of hget).1.reply reply hreply).1)
      simp only [hreply, if_neg hfits]

/-- The answer for a decided round that is still there is its decision. -/
theorem Truthful.answer_decision (ht : h.Truthful c) (hu : h.Uniform codec) (hfatal : c.fatal = "")
    (connection : Connection P) (hlt : connection.request.sequence < c.next)
    (hle : c.next ≤ connection.request.sequence + 2) :
    ∃ reply, h.Decided reply ∧ reply.sequence = connection.request.sequence ∧
      c.answer codec connection = (c, { connection with stage := .answered (.decision reply) }) := by
  obtain ⟨round, hget⟩ := Dict.get?_isSome.mpr (ht.retained hlt hle)
  obtain ⟨hrecorded, hdecided⟩ := ht.round_of hget
  obtain ⟨reply, hreply⟩ := Option.isSome_iff_exists.mp (hdecided.mpr hlt)
  obtain ⟨hd, hseq, -⟩ := hrecorded.reply reply hreply
  have hfits : ¬ frameLimit < codec.replyBytes reply := Nat.not_lt.mpr (hu.replies reply hd)
  refine ⟨reply, hd, hseq, ?_⟩
  unfold Coordinator.answer
  simp only [hfatal, ne_eq, not_true_eq_false, if_false, hget, hreply, if_neg hfits]

variable [DecidableEq P]

/-- A call's payload is taken by its round, and again when it comes again. -/
theorem Recorded.contribute_taken {k rank : ℕ} {round : ControlRound P} {payload : P}
    (hr : h.Recorded k round) (hrank : rank < h.ranks)
    (hcalled : h.Called rank k round.phase payload) (hbytes : round.bytes ≤ round.weight codec)
    (hlimit : h.roundBytes codec k ≤ payloadLimit) :
    ∃ round', round.contribute codec rank payload = (round', .ok ()) ∧
      round'.bytes ≤ round'.weight codec := by
  unfold ControlRound.contribute
  cases hseat : round.seat rank with
  | some present =>
    have hpresent := hr.member _ _ (seat_some.mp hseat)
    exact ⟨round, by simp [(hpresent.unique hcalled).2, Checked.ensure], hbytes⟩
  | none =>
    have hlt : rank < round.members.length := hr.length ▸ hrank
    set bytes := round.bytes + codec.envelopeBytes payload with hsum
    have hweight := @weight_set _ codec round rank payload bytes hlt hseat
    have hset : h.Recorded k { round with
        bytes := bytes
        members := round.members.set rank (some payload) } := by
      refine ⟨(List.length_set ..).trans hr.length, hr.opened, fun i p hi => ?_, hr.reply⟩
      by_cases he : rank = i
      · subst he
        rw [List.getElem?_set_self hlt] at hi
        cases hi
        exact hcalled
      · rw [List.getElem?_set_ne he] at hi
        exact hr.member i p hi
    have hle := @Recorded.weight_le _ codec _ _ _ hset
    have hfits : ¬ payloadLimit < bytes := by omega
    refine ⟨{ round with bytes := bytes, members := round.members.set rank (some payload) }, ?_, ?_⟩
    · simp only [if_neg hfits]
    · rw [hweight]
      show bytes ≤ _
      omega

/-- **A request in time is taken**, when the calls are uniform. -/
theorem Truthful.request_taken (ht : h.Truthful c) (hu : h.Uniform codec) (hcount : Counted codec c)
    {message : ControlRequest P} (hsent : h.Sent message) (hle : message.sequence ≤ c.next)
    (htimely : c.next ≤ message.sequence + 2) :
    (c.request codec message).2 = .ok () ∧ (c.request codec message).1.fatal = c.fatal ∧
      Counted codec (c.request codec message).1 := by
  have hcheck := ht.check_taken hu hsent hle htimely
  have hopening := ht.openRound hsent hcheck
  have hcount' := hcount.openRound message
  unfold Coordinator.request
  rw [hcheck]
  simp only
  generalize c.openRound message = opening at hopening hcount' ⊢
  obtain ⟨round, c'⟩ := opening
  obtain ⟨hopen, hnext, hfatal, hget⟩ := hopening
  simp only at hopen hnext hfatal hget hcount' ⊢
  obtain ⟨hrecorded, -⟩ := hopen.round_of hget
  have hphase : round.phase = message.phase := by
    obtain ⟨i, hi, payload, hcalled⟩ := hrecorded.opened
    exact hu.phases i hi _ hsent.rank _ _ _ _ _ hcalled hsent.called
  rw [if_neg (not_not_intro hphase)]
  obtain ⟨round', hresult, hround'⟩ := hrecorded.contribute_taken (hsent.rank)
    (hphase ▸ hsent.called) (hcount' _ (Dict.mem_of_get? hget)) (hu.payloads message.sequence)
  rw [hresult]
  exact ⟨rfl, (settle_fatal ..).trans hfatal, hcount'.settle hround'⟩

/-- A request whose round is evicted is refused, with an error that is not empty. -/
theorem request_stale {message : ControlRequest P} (hstale : message.sequence + 2 < c.next)
    (ht : h.Truthful c) : ∃ fault, (c.request codec message).2 = .error fault ∧ fault ≠ "" := by
  have hcheck : ∃ fault, c.check message = .error fault ∧ fault ≠ "" := by
    have hseq : ¬ (message.sequence = c.next ∨ message.sequence < c.next ∧
        message.sequence ∈ c.rounds.keys) := by
      rintro (heq | ⟨-, hmem⟩)
      · omega
      · have := (ht.key_le hmem).2
        omega
    unfold Coordinator.check Checked.ensure
    rw [if_neg hseq]
    split
    · split
      · split
        · exact ⟨_, rfl, by decide⟩
        · exact ⟨_, rfl, by decide⟩
      · exact ⟨_, rfl, by decide⟩
    · exact ⟨_, rfl, by decide⟩
  obtain ⟨fault, hfault, hne⟩ := hcheck
  refine ⟨fault, ?_, hne⟩
  unfold Coordinator.request
  rw [hfault]

end Coordinator

end ControlHistory

/-! ## Healthy runs -/

namespace ControlSystem
variable {s s' : ControlSystem P} {codec : ControlCodec P}

/-- What the coordinator holds is counted, what the ranks send is not ahead of it, and no
error has been reported. -/
structure Sound (codec : ControlCodec P) (s : ControlSystem P) : Prop where
  fatal : s.coordinator.fatal = ""
  counted : ControlHistory.Counted codec s.coordinator
  sent : ∀ connection ∈ s.connections, connection.request.sequence ≤ s.coordinator.next

/-- The frame that a step reads belongs to a round that has not been evicted. -/
def Timely (s : ControlSystem P) (action : ControlAction P) : Prop :=
  ∀ id connection, action = .visit id true → s.connections[id]? = some connection →
    connection.stage = .sent → s.coordinator.next ≤ connection.request.sequence + 2

/-- A rank is waiting for a round that has been decided: it is retained, and the rank gets
its decision by asking once more. -/
def Obtainable [DecidableEq P] (codec : ControlCodec P) (s : ControlSystem P) (rank : ℕ) : Prop :=
  (∃ round reply, s.coordinator.rounds.get? (s.callers rank).sequence = some round ∧
    round.reply = some reply) ∧
  ∃ t, s.run codec [.connect rank, .visit s.connections.length true, .deliver rank] = some t ∧
    (t.callers rank).returned.length = (s.callers rank).returned.length + 1

/-- No error has been reported, at most three rounds are held, and every rank that waits
for a decided round can still obtain it. -/
structure Healthy [DecidableEq P] (codec : ControlCodec P) (s : ControlSystem P) : Prop where
  fatal : s.coordinator.fatal = ""
  rounds : s.coordinator.rounds.length ≤ 3
  obtainable : ∀ rank call, (s.callers rank).calling = some call →
    (s.callers rank).sequence < s.coordinator.next → s.Obtainable codec rank

theorem start_sound (group session : String) (ranks : ℕ) :
    (start group session ranks).Sound codec :=
  { fatal := rfl
    counted := fun _ he => by cases he
    sent := fun _ hc => by cases hc }

/-- A rank in a call waits for the round being collected or the last one decided. -/
theorem Consistent.waiting (hs : s.Consistent) {rank : ℕ} {phase : String} {payload : P}
    (hcalling : (s.callers rank).calling = some (phase, payload)) :
    (s.callers rank).sequence ≤ s.coordinator.next ∧
      s.coordinator.next ≤ (s.callers rank).sequence + 1 := by
  have hplaced := hs.callers rank
  obtain ⟨hbroken, hrank, -⟩ := hplaced.calling phase payload hcalling
  have hlength := hplaced.calls hbroken
  rw [hcalling] at hlength
  constructor
  · rw [hplaced.sequence]
    by_contra hlt
    obtain ⟨reply, hreply⟩ : ∃ reply,
        (s.callers rank).returned[(s.callers rank).returned.length - 1]? = some reply :=
      ⟨_, List.getElem?_eq_getElem (by omega)⟩
    have := (hplaced.returned _ _ hreply).2.2
    omega
  · exact hs.coordinator.next_le hrank (le_of_eq hlength)

/-- A step that serves no client leaves the coordinator, and so its soundness, alone. -/
theorem Sound.of_coordinator (hsound : s.Sound codec) (heq : s'.coordinator = s.coordinator)
    (hsent : ∀ connection ∈ s'.connections, connection.request.sequence ≤ s.coordinator.next) :
    s'.Sound codec :=
  ⟨heq ▸ hsound.fatal, heq ▸ hsound.counted, heq ▸ hsent⟩

variable [DecidableEq P]

/-- **Serving a client in time** reports no error. -/
theorem Sound.visit (hs : s.Consistent) (hsound : s.Sound codec) (hu : s.history.Uniform codec)
    {id : ℕ} {arrived : Bool} (htimely : s.Timely (.visit id arrived))
    (hstep : s.visit codec id arrived = some s') : s'.Sound codec := by
  obtain ⟨connection, hid, rfl⟩ := visit_cases hstep
  have hcarries := hs.carries hid
  have hbefore := hsound.sent connection (List.mem_of_getElem? hid)
  have hle := (hs.coordinator.visit codec hcarries arrived).2.1
  have hrequest : (s.coordinator.visit codec connection arrived).2.request = connection.request := by
    unfold Coordinator.visit Coordinator.answer
    repeat' split
    all_goals rfl
  have hsent : ∀ c ∈ s.connections.set id (s.coordinator.visit codec connection arrived).2,
      c.request.sequence ≤ (s.coordinator.visit codec connection arrived).1.next := by
    intro c hc
    rcases List.mem_or_eq_of_mem_set hc with hc | rfl
    · exact (hsound.sent c hc).trans hle
    · rw [hrequest]
      exact hbefore.trans hle
  suffices h : (s.coordinator.visit codec connection arrived).1.fatal = "" ∧
      ControlHistory.Counted codec (s.coordinator.visit codec connection arrived).1 from
    ⟨h.1, h.2, hsent⟩
  unfold Coordinator.visit
  cases hstage : connection.stage with
  | sent =>
    cases arrived with
    | true =>
      obtain ⟨hok, hfatal, hcount⟩ := hs.coordinator.request_taken hu hsound.counted hcarries.sent
        hbefore (htimely id connection rfl hid hstage)
      have htruth := (@ControlHistory.Truthful.request _ _ _ _ codec hs.coordinator _
        hcarries.sent).1
      simp only [if_true]
      generalize s.coordinator.request codec connection.request = result at hok hfatal hcount htruth ⊢
      obtain ⟨c', outcome⟩ := result
      cases outcome with
      | error fault => cases hok
      | ok u =>
        have hfatal' : c'.fatal = "" := hfatal.trans hsound.fatal
        simp only [htruth.answer_taken hu hfatal' connection]
        exact ⟨hfatal', hcount⟩
    | false =>
      simp only [Bool.false_eq_true, if_false, hsound.fatal, ne_eq, not_true_eq_false]
      exact ⟨trivial, hsound.counted⟩
  | parsed =>
    simp only [hs.coordinator.answer_taken hu hsound.fatal connection]
    exact ⟨hsound.fatal, hsound.counted⟩
  | answered answer => exact ⟨hsound.fatal, hsound.counted⟩
  | closed => exact ⟨hsound.fatal, hsound.counted⟩

/-- A step that serves no client changes no request and adds only requests of calls under
way. -/
theorem Sound.quiet (hs : s.Consistent) (hsound : s.Sound codec) {action : ControlAction P}
    (hquiet : ∀ id arrived, action ≠ .visit id arrived) (hstep : s.step codec action = some s') :
    s'.Sound codec := by
  have hset : ∀ id connection, s.connections[id]? = some connection →
      ∀ c ∈ s.connections.set id { connection with stage := .closed },
        c.request.sequence ≤ s.coordinator.next := by
    intro id connection hid c hc
    rcases List.mem_or_eq_of_mem_set hc with hc | rfl
    · exact hsound.sent c hc
    · exact hsound.sent connection (List.mem_of_getElem? hid)
  cases action with
  | call rank phase payload =>
    replace hstep : s.call rank phase payload = some s' := hstep
    unfold ControlSystem.call at hstep
    simp only at hstep
    split at hstep
    · obtain rfl := Option.some.inj hstep
      exact hsound.of_coordinator rfl hsound.sent
    · cases hstep
  | connect rank =>
    replace hstep : s.connect codec rank = some s' := hstep
    unfold ControlSystem.connect at hstep
    simp only at hstep
    split at hstep
    · cases hstep
    · rename_i phase payload hcalling
      split at hstep
      · obtain rfl := Option.some.inj hstep
        exact hsound.of_coordinator rfl hsound.sent
      · obtain rfl := Option.some.inj hstep
        refine hsound.of_coordinator rfl fun c hc => ?_
        rcases List.mem_append.mp hc with hc | hc
        · exact hsound.sent c hc
        · obtain rfl := List.mem_singleton.mp hc
          exact (hs.waiting hcalling).1
  | abandon rank =>
    replace hstep : s.abandon rank = some s' := hstep
    unfold ControlSystem.abandon at hstep
    split at hstep
    · cases hstep
    · obtain rfl := Option.some.inj hstep
      exact hsound.of_coordinator rfl hsound.sent
  | deliver rank =>
    obtain ⟨id, _, _, connection, _, -, -, hid, -, rfl⟩ := deliver_cases hstep
    exact hsound.of_coordinator rfl (hset id connection hid)
  | expire rank =>
    replace hstep : s.expire rank = some s' := hstep
    unfold ControlSystem.expire at hstep
    split at hstep
    · cases hstep
    · obtain rfl := Option.some.inj hstep
      exact hsound.of_coordinator rfl hsound.sent
  | visit id arrived => exact absurd rfl (hquiet id arrived)
  | lose id =>
    replace hstep : s.lose id = some s' := hstep
    unfold ControlSystem.lose at hstep
    cases hid : s.connections[id]? with
    | none => simp [hid] at hstep
    | some connection =>
      simp only [hid, Option.bind_eq_bind, Option.bind_some, Option.pure_def,
        Option.some.injEq] at hstep
      subst hstep
      exact hsound.of_coordinator rfl (hset id connection hid)

/-- **A step in time** reports no error. -/
theorem Sound.step (hs : s.Consistent) (hsound : s.Sound codec) (hu : s.history.Uniform codec)
    {action : ControlAction P} (htimely : s.Timely action)
    (hstep : s.step codec action = some s') : s'.Sound codec := by
  by_cases hquiet : ∀ id arrived, action ≠ .visit id arrived
  · exact hsound.quiet hs hquiet hstep
  · simp only [not_forall, not_not] at hquiet
    obtain ⟨id, arrived, rfl⟩ := hquiet
    exact hsound.visit hs hu htimely hstep

/-- A frame read after its round was evicted is reported as an error. -/
theorem untimely_fatal (hs : s.Consistent) {action : ControlAction P} (hlate : ¬ s.Timely action)
    (hstep : s.step codec action = some s') : s'.coordinator.fatal ≠ "" := by
  unfold Timely at hlate
  simp only [not_forall, not_le] at hlate
  obtain ⟨id, connection, rfl, hid, hstage, hstale⟩ := hlate
  obtain ⟨connection', hid', rfl⟩ := visit_cases hstep
  obtain rfl : connection = connection' := Option.some.inj (hid.symm.trans hid')
  obtain ⟨fault, hfault, hne⟩ :=
    @ControlHistory.request_stale _ codec _ _ _ _ hstale hs.coordinator
  show (s.coordinator.visit codec connection true).1.fatal ≠ ""
  unfold Coordinator.visit
  simp only [hstage, if_true]
  generalize s.coordinator.request codec connection.request = result at hfault ⊢
  obtain ⟨c', outcome⟩ := result
  simp only at hfault
  subst hfault
  exact hne

/-- **A decided round can be had**: its rank asks once more, the coordinator answers, and
the rank returns. -/
theorem Consistent.obtainable (hs : s.Consistent) (hsound : s.Sound codec)
    (hu : s.history.Uniform codec) {rank : ℕ} {call : String × P}
    (hcalling : (s.callers rank).calling = some call)
    (hlt : (s.callers rank).sequence < s.coordinator.next) : s.Obtainable codec rank := by
  obtain ⟨phase, payload⟩ := call
  obtain ⟨-, hle⟩ := hs.waiting hcalling
  constructor
  · obtain ⟨round, hget⟩ := Dict.get?_isSome.mpr (hs.coordinator.retained hlt (by omega))
    obtain ⟨reply, hreply⟩ :=
      Option.isSome_iff_exists.mp ((hs.coordinator.round_of hget).2.mpr hlt)
    exact ⟨round, reply, hget, hreply⟩
  · obtain ⟨hbroken, hrank, hcalled⟩ := (hs.callers rank).calling phase payload hcalling
    have hsent : s.history.Sent (s.requestOf rank phase payload) := ⟨rfl, rfl, hrank, hcalled⟩
    -- The trial opens a connection with the request.
    have hconnect : ∃ t, s.connect codec rank = some t ∧
        t.connections = s.connections ++ [{ request := s.requestOf rank phase payload }] ∧
        t.coordinator = s.coordinator ∧
        t.callers rank = { s.callers rank with current := some s.connections.length } := by
      unfold ControlSystem.connect
      simp only [hcalling, if_neg (Nat.not_lt.mpr (hu.requests _ hsent))]
      exact ⟨_, rfl, rfl, rfl, Function.update_self ..⟩
    obtain ⟨t, ht, hconnections, hcoordinator, hcaller⟩ := hconnect
    have hid : t.connections[s.connections.length]? =
        some { request := s.requestOf rank phase payload } := by
      rw [hconnections, List.getElem?_append_right le_rfl]
      simp
    -- The coordinator reads it and answers with the decision.
    obtain ⟨hok, hfatal, -⟩ := hs.coordinator.request_taken hu hsound.counted hsent hlt.le
      (show s.coordinator.next ≤ (s.callers rank).sequence + 2 by omega)
    obtain ⟨htruth, hgrow⟩ :=
      @ControlHistory.Truthful.request _ _ _ _ codec hs.coordinator _ hsent
    have hafter : ∃ c reply, s.history.Decided reply ∧
        reply.sequence = (s.callers rank).sequence ∧
        s.coordinator.visit codec { request := s.requestOf rank phase payload } true =
          (c, { request := s.requestOf rank phase payload, stage := .answered (.decision reply) }) ∧
        c.group = s.coordinator.group ∧ c.session = s.coordinator.session ∧
        c.ranks = s.coordinator.ranks := by
      unfold Coordinator.visit
      simp only [if_true]
      generalize s.coordinator.request codec (s.requestOf rank phase payload) = result
        at hok hfatal htruth hgrow ⊢
      obtain ⟨c, outcome⟩ := result
      simp only at hok hfatal htruth hgrow
      subst hok
      have hnext : c.next ≤ (s.callers rank).sequence + 1 := by
        refine htruth.next_le hrank (le_of_eq ?_)
        have hlength := (hs.callers rank).calls hbroken
        rw [hcalling] at hlength
        exact hlength
      obtain ⟨reply, hd, hseq, hanswer⟩ := htruth.answer_decision hu (hfatal.trans hsound.fatal)
        { request := s.requestOf rank phase payload }
        (show (s.callers rank).sequence < c.next by omega)
        (show c.next ≤ (s.callers rank).sequence + 2 by omega)
      exact ⟨c, reply, hd, hseq, hanswer, htruth.group, htruth.session, htruth.ranks⟩
    obtain ⟨c, reply, hd, hseq, hvisit, hgroup, hsession, hranks⟩ := hafter
    -- The rank accepts it.
    have hphase : reply.phase = phase := by
      obtain ⟨p, hp, -⟩ := hd.member rank hrank
      rw [hseq] at hp
      exact (hp.unique hcalled).1
    set connection : Connection P :=
      { request := s.requestOf rank phase payload, stage := .answered (.decision reply) } with hconn
    set u : ControlSystem P := { t with
      coordinator := c
      connections := t.connections.set s.connections.length connection } with hu'
    have hvisited : t.visit codec s.connections.length true = some u := by
      unfold ControlSystem.visit
      simp only [hid, Option.bind_eq_bind, Option.bind_some, hcoordinator, hvisit, Option.pure_def]
      rfl
    have hucaller : u.callers rank = { s.callers rank with current := some s.connections.length } :=
      hcaller
    have huid : u.connections[s.connections.length]? = some connection := by
      show (t.connections.set s.connections.length connection)[s.connections.length]? = _
      rw [List.getElem?_set_self]
      rw [hconnections, List.length_append]
      simp
    have haccepts : u.accepts rank phase reply := by
      refine ⟨hd.group.trans hgroup.symm, hd.session.trans hsession.symm, ?_, hphase,
        hd.length.trans hranks.symm⟩
      rw [hucaller]
      exact hseq
    have hdeliver : ∃ w, u.deliver rank = some w ∧
        (w.callers rank).returned.length = (s.callers rank).returned.length + 1 := by
      unfold ControlSystem.deliver ControlSystem.listening
      simp only [hucaller, hcalling, Option.bind_eq_bind, Option.bind_some, Option.pure_def, huid,
        hconn]
      refine ⟨_, rfl, ?_⟩
      show (Function.update u.callers rank
        (u.receive rank phase (.decision reply)) rank).returned.length = _
      rw [Function.update_self]
      unfold receive
      simp only [if_pos haccepts, List.length_append, hucaller]
      rfl
    obtain ⟨w, hw, hreturned⟩ := hdeliver
    refine ⟨w, ?_, hreturned⟩
    unfold ControlSystem.run
    simp only [List.foldlM_cons, List.foldlM_nil, ControlSystem.step, ht, hvisited, hw,
      Option.bind_eq_bind, Option.bind_some, Option.pure_def]

/-- A sound state is healthy. -/
theorem Sound.healthy (hs : s.Consistent) (hsound : s.Sound codec) (hu : s.history.Uniform codec) :
    s.Healthy codec :=
  ⟨hsound.fatal, hs.coordinator.rounds_length, fun _ _ hcalling hlt =>
    hs.obtainable hsound hu hcalling hlt⟩

/-- A run in time ends in a sound state. -/
theorem Sound.run {actions : List (ControlAction P)} (hs : s.Consistent) (hsound : s.Sound codec)
    (hrun : s.run codec actions = some s') (hu : s'.history.Uniform codec)
    (htimely : ∀ done action rest, actions = done ++ action :: rest →
      ∀ t, s.run codec done = some t → t.Timely action) : s'.Sound codec := by
  induction actions generalizing s with
  | nil =>
    obtain rfl : s = s' := Option.some.inj hrun
    exact hsound
  | cons action actions ih =>
    unfold ControlSystem.run at hrun
    rw [List.foldlM_cons] at hrun
    obtain ⟨t, hstep, hrest⟩ := Option.bind_eq_some_iff.mp hrun
    obtain ⟨ht, hext, -⟩ := hs.step hstep
    obtain ⟨-, hext', -⟩ := ht.run hrest
    have hnow := htimely [] action actions rfl s rfl
    refine ih ht (hsound.step hs (hu.anti (hext.trans hext')) hnow hstep) hrest ?_
    intro done action' rest heq u hdone
    refine htimely (action :: done) action' rest (by rw [heq]; rfl) u ?_
    unfold ControlSystem.run
    rw [List.foldlM_cons]
    exact Option.bind_eq_some_iff.mpr ⟨t, hstep, hdone⟩

/-- **A session stays healthy exactly as long as its frames are read in time.**  In a run in
which all ranks call with the same phases and within the limits: every state is healthy if
and only if no step reads a frame whose round has been evicted. -/
theorem healthy_iff_timely (codec : ControlCodec P) (group session : String) (ranks : ℕ)
    (actions : List (ControlAction P)) (s : ControlSystem P)
    (hrun : (start group session ranks).run codec actions = some s)
    (hu : s.history.Uniform codec) :
    (∀ done rest, actions = done ++ rest →
      ∀ t, (start group session ranks).run codec done = some t → t.Healthy codec) ↔
    ∀ done action rest, actions = done ++ action :: rest →
      ∀ t, (start group session ranks).run codec done = some t → t.Timely action := by
  have hstart := start_consistent (P := P) group session ranks
  have hsplit : ∀ done rest, actions = done ++ rest → ∀ t,
      (start group session ranks).run codec done = some t → t.run codec rest = some s := by
    intro done rest heq t ht
    unfold ControlSystem.run at hrun ht ⊢
    rw [heq, List.foldlM_append] at hrun
    obtain ⟨t', ht', hrest⟩ := Option.bind_eq_some_iff.mp hrun
    obtain rfl : t = t' := Option.some.inj (ht.symm.trans ht')
    exact hrest
  constructor
  · intro hhealthy done action rest heq t ht
    by_contra hlate
    have hrest := hsplit done (action :: rest) heq t ht
    unfold ControlSystem.run at hrest
    rw [List.foldlM_cons] at hrest
    obtain ⟨u, hstep, -⟩ := Option.bind_eq_some_iff.mp hrest
    refine untimely_fatal (hstart.run ht).1 hlate hstep (hhealthy (done ++ [action]) rest ?_ u ?_).fatal
    · rw [heq]
      simp
    · unfold ControlSystem.run at ht ⊢
      rw [List.foldlM_append, ht]
      simp only [Option.bind_eq_bind, Option.bind_some, List.foldlM_cons, List.foldlM_nil, hstep,
        Option.pure_def]
  · intro htimely done rest heq t ht
    obtain ⟨hc, -, -⟩ := hstart.run ht
    obtain ⟨-, hext, -⟩ := hc.run (hsplit done rest heq t ht)
    have hut := hu.anti hext
    refine Sound.healthy hc ?_ hut
    refine (start_sound group session ranks).run hstart ht hut ?_
    intro done' action rest' heq' u hdone'
    exact htimely done' action (rest' ++ rest) (by rw [heq, heq']; simp) u hdone'

/-! A run of two ranks: rank 1 gives up a connection and repeats its first request; three
rounds are decided before the first copy is read. -/

/-- Both ranks call, ask, and return; their connections are `id` and `id + 1`. -/
def plainRound (phase : String) (id : ℕ) : List (ControlAction ℕ) :=
  [.call 0 phase 0, .connect 0, .call 1 phase 1, .connect 1, .visit id true, .visit (id + 1) true,
    .visit id false, .deliver 0, .deliver 1]

/-- The actions of the run. -/
def lateCopy : List (ControlAction ℕ) :=
  [.call 1 "MEMBERSHIP" 1, .connect 1, .abandon 1, .connect 1, .call 0 "MEMBERSHIP" 0, .connect 0,
    .visit 1 true, .visit 2 true, .visit 1 false, .deliver 0, .deliver 1] ++
  plainRound "INIT" 3 ++ plainRound "PREPARE_VALIDATE" 5 ++ [.visit 0 true]

/-- The state the run ends in. -/
def afterLateCopy : ControlSystem ℕ :=
  ((start "group" "session" 2).run weightless lateCopy).getD (start "group" "session" 2)

/-- The calls of either rank. -/
theorem afterLateCopy_calls : ∀ i < 2, (afterLateCopy.callers i).calls =
    [("MEMBERSHIP", i), ("INIT", i), ("PREPARE_VALIDATE", i)] := by
  decide

theorem afterLateCopy_uniform : afterLateCopy.history.Uniform weightless := by
  have hcalls : ∀ i < 2, afterLateCopy.history.calls i =
      [("MEMBERSHIP", i), ("INIT", i), ("PREPARE_VALIDATE", i)] := afterLateCopy_calls
  have hat : ∀ i < 2, ∀ k phase payload, afterLateCopy.history.Called i k phase payload →
      ["MEMBERSHIP", "INIT", "PREPARE_VALIDATE"][k]? = some phase := by
    intro i hi k phase payload hc
    unfold ControlHistory.Called at hc
    rw [hcalls i hi] at hc
    have := congrArg (Option.map Prod.fst) hc
    rwa [← List.getElem?_map] at this
  refine ⟨?_, ?_, ?_, fun _ _ => (by decide : 1 ≤ frameLimit), fun _ _ => (by decide : 1 ≤ frameLimit)⟩
  · intro i hi j hj k phase phase' payload payload' ha hb
    have := hat i hi k phase payload ha
    rw [hat j hj k phase' payload' hb] at this
    exact (Option.some.inj this).symm
  · intro i hi k phase payload hc
    have hmem := List.mem_of_getElem? (hat i hi k phase payload hc)
    have hall : ∀ name ∈ ["MEMBERSHIP", "INIT", "PREPARE_VALIDATE"],
        name ≠ "" ∧ name.utf8ByteSize ≤ 128 := by decide
    exact hall phase hmem
  · intro k
    unfold ControlHistory.roundBytes
    have hone : ∀ i ∈ Finset.range afterLateCopy.history.ranks,
        ((afterLateCopy.history.calls i)[k]?).elim 0 (fun call => weightless.envelopeBytes call.2) ≤ 1 := by
      intro i _
      cases (afterLateCopy.history.calls i)[k]? <;> simp [weightless]
    refine (Finset.sum_le_sum hone).trans ?_
    rw [Finset.sum_const, Finset.card_range]
    decide

theorem late_copy_is_fatal :
    (start "group" "session" 2).run weightless lateCopy = some afterLateCopy ∧
      afterLateCopy.history.Uniform weightless ∧
      afterLateCopy.coordinator.fatal = "control sequence is outside the retained decision boundary" ∧
      ¬ afterLateCopy.Healthy weightless :=
  ⟨rfl, afterLateCopy_uniform, rfl, fun h => absurd h.fatal (by decide)⟩

theorem healthy_iff_timely_late :
    ¬ ∀ done action rest, lateCopy = done ++ action :: rest →
      ∀ t, (start "group" "session" 2).run weightless done = some t → t.Timely action := by
  intro htimely
  have hhealthy := (healthy_iff_timely weightless "group" "session" 2 lateCopy afterLateCopy rfl
    afterLateCopy_uniform).mpr htimely lateCopy [] (List.append_nil _).symm afterLateCopy rfl
  exact absurd hhealthy.fatal (by decide)

end ControlSystem

end VeriCCL
