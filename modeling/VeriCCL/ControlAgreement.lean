import VeriCCL.ControlTransport

/-! # Agreement of control rounds

What the ranks have called so far is the history of a session (`ControlHistory`); it only
grows.  A reply is *decided* by a history when every rank has called `gather` for its
sequence with its phase, and its members are the payloads of these calls.  Two decided
replies of one sequence are the same, whoever sent or received them, so agreement is no
more than this: every round the coordinator holds, every answer under way and every
reply a rank has returned is true to the history (`ControlSystem.Consistent`). -/
namespace VeriCCL

variable {P : Type}

/-- The identity of a session and the calls its ranks have made. -/
structure ControlHistory (P : Type) where
  group : String
  session : String
  ranks : ℕ
  calls : ℕ → List (String × P)

namespace ControlHistory

/-- A later history of the same session. -/
structure Extends (h h' : ControlHistory P) : Prop where
  group : h'.group = h.group
  session : h'.session = h.session
  ranks : h'.ranks = h.ranks
  calls : ∀ rank, h.calls rank <+: h'.calls rank

theorem Extends.refl (h : ControlHistory P) : h.Extends h := ⟨rfl, rfl, rfl, fun _ => List.prefix_rfl⟩

theorem Extends.trans {h₁ h₂ h₃ : ControlHistory P} (a : h₁.Extends h₂) (b : h₂.Extends h₃) :
    h₁.Extends h₃ :=
  ⟨b.group.trans a.group, b.session.trans a.session, b.ranks.trans a.ranks,
    fun rank => (a.calls rank).trans (b.calls rank)⟩

variable (h : ControlHistory P)

/-- A call of `gather`: phase and payload of the `k`-th call of a rank. -/
def Called (rank k : ℕ) (phase : String) (payload : P) : Prop :=
  (h.calls rank)[k]? = some (phase, payload)

/-- A request carries a call of its rank. -/
structure Sent (message : ControlRequest P) : Prop where
  group : message.group = h.group
  session : message.session = h.session
  rank : message.rank < h.ranks
  called : h.Called message.rank message.sequence message.phase message.payload

/-- A reply is the decision of its round. -/
structure Decided (reply : ControlReply P) : Prop where
  group : reply.group = h.group
  session : reply.session = h.session
  length : reply.members.length = h.ranks
  member : ∀ i < h.ranks, ∃ payload, h.Called i reply.sequence reply.phase payload ∧
    reply.members[i]? = some payload

/-- What a round says is what its members called. -/
structure Recorded (k : ℕ) (round : ControlRound P) : Prop where
  length : round.members.length = h.ranks
  opened : ∃ i < h.ranks, ∃ payload, h.Called i k round.phase payload
  member : ∀ i payload, round.members[i]? = some (some payload) → h.Called i k round.phase payload
  reply : ∀ r ∈ round.reply, h.Decided r ∧ r.sequence = k ∧ r.phase = round.phase

/-- The coordinator holds the last two decided rounds and at most the one after them. -/
structure Truthful (c : Coordinator P) : Prop where
  group : c.group = h.group
  session : c.session = h.session
  ranks : c.ranks = h.ranks
  keys : ∃ extra ≤ 1, c.rounds.keys = List.range' (c.next - 2) (min c.next 2 + extra)
  recorded : ∀ e ∈ c.rounds, h.Recorded e.1 e.2
  decided : ∀ e ∈ c.rounds, e.2.reply.isSome = true ↔ e.1 < c.next

variable {h} {h' : ControlHistory P}

theorem Called.mono (hext : h.Extends h') {rank k : ℕ} {phase : String} {payload : P}
    (hc : h.Called rank k phase payload) : h'.Called rank k phase payload := by
  obtain ⟨rest, hrest⟩ := hext.calls rank
  unfold Called at hc ⊢
  rw [← hrest, List.getElem?_append_left (List.getElem?_eq_some_iff.mp hc).1, hc]

/-- The `k`-th call of a rank is one call. -/
theorem Called.unique {rank k : ℕ} {phase phase' : String} {payload payload' : P}
    (a : h.Called rank k phase payload) (b : h.Called rank k phase' payload') :
    phase = phase' ∧ payload = payload' := by
  unfold Called at a b
  rw [a] at b
  exact Prod.mk.inj (Option.some.inj b)

theorem Sent.mono (hext : h.Extends h') {message : ControlRequest P} (hs : h.Sent message) :
    h'.Sent message :=
  ⟨hs.group.trans hext.group.symm, hs.session.trans hext.session.symm, hext.ranks ▸ hs.rank,
    hs.called.mono hext⟩

theorem Decided.mono (hext : h.Extends h') {reply : ControlReply P} (hd : h.Decided reply) :
    h'.Decided reply := by
  refine ⟨hd.group.trans hext.group.symm, hd.session.trans hext.session.symm,
    hd.length.trans hext.ranks.symm, fun i hi => ?_⟩
  obtain ⟨payload, hcalled, hmember⟩ := hd.member i (hext.ranks ▸ hi)
  exact ⟨payload, hcalled.mono hext, hmember⟩

theorem Recorded.mono (hext : h.Extends h') {k : ℕ} {round : ControlRound P}
    (hr : h.Recorded k round) : h'.Recorded k round := by
  refine ⟨hr.length.trans hext.ranks.symm, ?_, fun i payload hi => (hr.member i payload hi).mono hext,
    fun r hmem => ?_⟩
  · obtain ⟨i, hi, payload, hcalled⟩ := hr.opened
    exact ⟨i, hext.ranks ▸ hi, payload, hcalled.mono hext⟩
  · obtain ⟨hd, hk, hphase⟩ := hr.reply r hmem
    exact ⟨hd.mono hext, hk, hphase⟩

theorem Truthful.mono (hext : h.Extends h') {c : Coordinator P} (ht : h.Truthful c) :
    h'.Truthful c :=
  ⟨ht.group.trans hext.group.symm, ht.session.trans hext.session.symm,
    ht.ranks.trans hext.ranks.symm, ht.keys, fun e he => (ht.recorded e he).mono hext, ht.decided⟩

/-- **One sequence has one decision.** -/
theorem Decided.unique (hpos : 0 < h.ranks) {a b : ControlReply P} (ha : h.Decided a)
    (hb : h.Decided b) (hseq : a.sequence = b.sequence) : a = b := by
  have hphase : a.phase = b.phase := by
    obtain ⟨_, hpa, -⟩ := ha.member 0 hpos
    obtain ⟨_, hpb, -⟩ := hb.member 0 hpos
    rw [hseq] at hpa
    exact (hpa.unique hpb).1
  have hmembers : a.members = b.members := by
    apply List.ext_getElem?
    intro i
    by_cases hi : i < h.ranks
    · obtain ⟨p, hpa, hma⟩ := ha.member i hi
      obtain ⟨q, hqb, hmb⟩ := hb.member i hi
      rw [hseq] at hpa
      rw [hma, hmb, (hpa.unique hqb).2]
    · have hle := Nat.le_of_not_lt hi
      rw [List.getElem?_eq_none (ha.length ▸ hle), List.getElem?_eq_none (hb.length ▸ hle)]
  cases a
  cases b
  simp only [ControlReply.mk.injEq]
  exact ⟨ha.group.trans hb.group.symm, ha.session.trans hb.session.symm, hseq, hphase, hmembers⟩

/-! ## Rounds -/

theorem seat_some {round : ControlRound P} {rank : ℕ} {payload : P} :
    round.seat rank = some payload ↔ round.members[rank]? = some (some payload) := by
  unfold ControlRound.seat
  rw [Option.join_eq_some_iff]

theorem Recorded.contribute [DecidableEq P] {codec : ControlCodec P} {k rank : ℕ}
    {round : ControlRound P} {payload : P} (hr : h.Recorded k round)
    (hcalled : h.Called rank k round.phase payload) :
    h.Recorded k (round.contribute codec rank payload).1 ∧
      (round.contribute codec rank payload).1.reply = round.reply ∧
      (round.contribute codec rank payload).1.phase = round.phase := by
  unfold ControlRound.contribute
  cases hseat : round.seat rank with
  | some present => exact ⟨hr, rfl, rfl⟩
  | none =>
    by_cases hbytes : payloadLimit < round.bytes + codec.envelopeBytes payload
    · simp only [if_pos hbytes]
      exact ⟨⟨hr.length, hr.opened, hr.member, hr.reply⟩, trivial, trivial⟩
    · simp only [if_neg hbytes]
      refine ⟨⟨(List.length_set ..).trans hr.length, hr.opened, ?_, hr.reply⟩, trivial, trivial⟩
      intro i q hi
      rw [List.getElem?_set] at hi
      by_cases he : rank = i
      · subst he
        split at hi
        · split at hi
          · cases hi
            exact hcalled
          · cases hi
        · contradiction
      · rw [if_neg he] at hi
        exact hr.member i q hi

/-- The members of a full round are the payloads it has. -/
theorem full_members {round : ControlRound P} (hfull : round.full) :
    (round.members.filterMap id).map some = round.members := by
  unfold ControlRound.full at hfull
  generalize round.members = members at hfull
  induction members with
  | nil => rfl
  | cons member members ih =>
    obtain ⟨p, rfl⟩ := Option.isSome_iff_exists.mp (hfull _ List.mem_cons_self)
    have htail := ih fun m hm => hfull m (List.mem_cons_of_mem _ hm)
    show some p :: (members.filterMap id).map some = some p :: members
    rw [htail]

/-- The decision of a full round is decided. -/
theorem Recorded.decision {c : Coordinator P} {k : ℕ} {round : ControlRound P}
    (hr : h.Recorded k round) (hgroup : c.group = h.group) (hsession : c.session = h.session)
    (hfull : round.full) : h.Decided (c.decision k round) := by
  have hall := full_members hfull
  have hlength : (round.members.filterMap id).length = h.ranks := by
    rw [← hr.length, ← hall, List.length_map, hall]
  refine ⟨hgroup, hsession, hlength, fun i hi => ?_⟩
  obtain ⟨payload, hpayload⟩ : ∃ p, (round.members.filterMap id)[i]? = some p :=
    ⟨_, List.getElem?_eq_getElem (hlength ▸ hi)⟩
  refine ⟨payload, hr.member i payload ?_, hpayload⟩
  rw [← hall, List.getElem?_map, hpayload]
  rfl

/-! ## The coordinator keeps to the history -/

section Coordinator
variable {c : Coordinator P}

theorem Truthful.sorted (ht : h.Truthful c) : c.rounds.Distinct := by
  obtain ⟨extra, -, hkeys⟩ := ht.keys
  unfold Dict.Distinct
  rw [hkeys]
  exact List.nodup_range' ..

theorem Truthful.key_le (ht : h.Truthful c) {k : ℕ} (hk : k ∈ c.rounds.keys) :
    k ≤ c.next ∧ c.next ≤ k + 2 := by
  obtain ⟨extra, hextra, hkeys⟩ := ht.keys
  rw [hkeys, List.mem_range'_1] at hk
  omega

/-- A round decided lately is still there. -/
theorem Truthful.retained (ht : h.Truthful c) {k : ℕ} (hlt : k < c.next) (hle : c.next ≤ k + 2) :
    k ∈ c.rounds.keys := by
  obtain ⟨extra, -, hkeys⟩ := ht.keys
  rw [hkeys, List.mem_range'_1]
  omega

theorem Truthful.rounds_length (ht : h.Truthful c) : c.rounds.length ≤ 3 := by
  obtain ⟨extra, hextra, hkeys⟩ := ht.keys
  have := congrArg List.length hkeys
  rw [List.length_range'] at this
  have hlength : c.rounds.keys.length = c.rounds.length := List.length_map ..
  omega

theorem Truthful.round_of (ht : h.Truthful c) {k : ℕ} {round : ControlRound P}
    (hget : c.rounds.get? k = some round) :
    h.Recorded k round ∧ (round.reply.isSome = true ↔ k < c.next) :=
  ⟨ht.recorded (k, round) (Dict.mem_of_get? hget), ht.decided (k, round) (Dict.mem_of_get? hget)⟩

/-- A round beyond all others is put at the end. -/
theorem emplace_last {rounds : Dict ℕ (ControlRound P)} {k : ℕ} {round : ControlRound P}
    (hlt : ∀ j ∈ rounds.keys, j < k) : Coordinator.emplace rounds k round = rounds ++ [(k, round)] := by
  have hall : ∀ e ∈ rounds, decide (e.1 < k) = true := fun e he =>
    decide_eq_true (hlt e.1 (Dict.mem_keys.mpr ⟨e.2, he⟩))
  have htake := @List.takeWhile_append_of_pos _ (fun e => decide (e.1 < k)) rounds [] hall
  have hdrop := @List.dropWhile_append_of_pos _ (fun e => decide (e.1 < k)) rounds [] hall
  rw [List.append_nil, List.takeWhile_nil, List.append_nil] at htake
  rw [List.append_nil, List.dropWhile_nil] at hdrop
  unfold Coordinator.emplace
  rw [htake, hdrop]

/-- What `check` has established of a request. -/
theorem check_ok {message : ControlRequest P} {u : Unit} (hok : c.check message = .ok u) :
    message.rank < c.ranks ∧
      (message.sequence = c.next ∨ message.sequence < c.next ∧ message.sequence ∈ c.rounds.keys) := by
  unfold Coordinator.check at hok
  simp only [Checked.bind_ok, Checked.ensure_ok] at hok
  obtain ⟨_, -, _, hrank, _, -, hseq⟩ := hok
  exact ⟨hrank, hseq⟩

/-- Opening a round leaves the coordinator true to the history, and the round is there. -/
theorem Truthful.openRound (ht : h.Truthful c) {message : ControlRequest P} (hsent : h.Sent message)
    {u : Unit} (hok : c.check message = .ok u) :
    h.Truthful (c.openRound message).2 ∧ (c.openRound message).2.next = c.next ∧
      (c.openRound message).2.fatal = c.fatal ∧
      (c.openRound message).2.rounds.get? message.sequence = some (c.openRound message).1 := by
  unfold Coordinator.openRound
  cases hget : c.rounds.get? message.sequence with
  | some round => exact ⟨ht, rfl, rfl, hget⟩
  | none =>
    have habsent := Dict.get?_eq_none.mp hget
    have hseq : message.sequence = c.next := by
      rcases (check_ok hok).2 with heq | ⟨-, hmem⟩
      · exact heq
      · exact absurd hmem habsent
    have hlt : ∀ j ∈ c.rounds.keys, j < message.sequence := by
      intro j hj
      have := (ht.key_le hj).1
      have hne : j ≠ message.sequence := fun he => habsent (he ▸ hj)
      omega
    simp only [emplace_last hlt]
    refine ⟨⟨ht.group, ht.session, ht.ranks, ?_, ?_, ?_⟩, trivial, trivial, ?_⟩
    · obtain ⟨extra, hextra, hkeys⟩ := ht.keys
      refine ⟨1, le_rfl, ?_⟩
      have hzero : extra = 0 := by
        by_contra hne
        refine habsent ?_
        rw [hkeys, List.mem_range'_1]
        omega
      unfold Dict.keys
      show _ = List.range' (c.next - 2) (min c.next 2 + 1)
      have hmap : c.rounds.map (·.1) = List.range' (c.next - 2) (min c.next 2) := by
        rw [hzero] at hkeys
        exact hkeys
      rw [List.map_append, ← List.range'_append_1, hmap]
      have : c.next - 2 + min c.next 2 = message.sequence := by omega
      simp [this]
    · intro e he
      rcases List.mem_append.mp he with he | he
      · exact ht.recorded e he
      · obtain rfl := List.mem_singleton.mp he
        refine ⟨by simp [ht.ranks], ⟨message.rank, hsent.rank, message.payload, hsent.called⟩, ?_,
          fun r hr => by cases hr⟩
        intro i payload hi
        rw [List.getElem?_replicate] at hi
        split at hi <;> simp at hi
    · intro e he
      rcases List.mem_append.mp he with he | he
      · exact ht.decided e he
      · obtain rfl := List.mem_singleton.mp he
        simp [hseq]
    · refine Dict.get?_of_mem ?_ (List.mem_append_right _ (List.mem_singleton_self _))
      unfold Dict.Distinct Dict.keys
      rw [List.map_append]
      refine List.nodup_append.mpr ⟨ht.sorted, by simp, fun a ha b hb => ?_⟩
      rw [List.map_singleton, List.mem_singleton] at hb
      subst hb
      intro he
      have hsame : a = message.sequence := he
      exact habsent (hsame ▸ ha)

/-- Changing a round as a member's payload does keeps the coordinator true. -/
theorem Truthful.store (ht : h.Truthful c) {k : ℕ} {round round' : ControlRound P}
    (hget : c.rounds.get? k = some round) (hrecorded : h.Recorded k round')
    (hreply : round'.reply = round.reply) :
    h.Truthful { c with rounds := c.rounds.set k round' } := by
  refine ⟨ht.group, ht.session, ht.ranks, ?_, ?_, ?_⟩
  · obtain ⟨extra, hextra, hkeys⟩ := ht.keys
    refine ⟨extra, hextra, ?_⟩
    show (c.rounds.set k round').keys = _
    rw [Dict.keys_set, if_pos (Dict.get?_isSome.mp ⟨round, hget⟩), hkeys]
  · intro e he
    rcases Dict.mem_set he with he | rfl
    · exact ht.recorded e he
    · exact hrecorded
  · intro e he
    rcases Dict.mem_set he with he | rfl
    · exact ht.decided e he
    · show round'.reply.isSome = true ↔ k < c.next
      rw [hreply]
      exact (ht.round_of hget).2

/-- After the eviction the last two decided rounds are left. -/
theorem evict_keys {rounds : Dict ℕ (ControlRound P)} {next : ℕ}
    (hkeys : rounds.keys = List.range' (next - 2) (min next 2 + 1)) :
    (Coordinator.evict rounds).keys = List.range' (next + 1 - 2) (min (next + 1) 2) := by
  have hlength : rounds.length = min next 2 + 1 := by
    have hlist := congrArg List.length hkeys
    rw [List.length_range'] at hlist
    exact (List.length_map ..).symm.trans hlist
  unfold Coordinator.evict Dict.keys
  rw [List.map_drop, show rounds.map (·.1) = rounds.keys from rfl, hkeys, hlength, List.drop_range']
  congr 1 <;> omega

/-- **Storing and deciding a round** keeps the coordinator true to the history. -/
theorem Truthful.settle (ht : h.Truthful c) {k : ℕ} {round round' : ControlRound P}
    (hget : c.rounds.get? k = some round) (hrecorded : h.Recorded k round')
    (hreply : round'.reply = round.reply) : h.Truthful (c.settle k round') := by
  unfold Coordinator.settle
  by_cases hnow : round'.reply.isNone = true ∧ round'.full
  · rw [if_pos hnow]
    have hstore := ht.store hget hrecorded hreply
    have hk : k = c.next := by
      have hdecided := (ht.round_of hget).2
      rw [← hreply] at hdecided
      have hnone : ¬ k < c.next := fun hlt => by
        have := hdecided.mpr hlt
        rw [Option.isNone_iff_eq_none.mp hnow.1] at this
        cases this
      have := (ht.key_le (Dict.get?_isSome.mp ⟨round, hget⟩)).1
      omega
    have hdecision := hrecorded.decision ht.group ht.session hnow.2
    have hkeys : (c.rounds.set k { round' with reply := some (c.decision k round') }).keys =
        List.range' (c.next - 2) (min c.next 2 + 1) := by
      obtain ⟨extra, hextra, hkeys⟩ := ht.keys
      have hmem : k ∈ c.rounds.keys := Dict.get?_isSome.mp ⟨round, hget⟩
      have hone : extra = 1 := by
        have hmem' := hmem
        rw [hkeys, List.mem_range'_1] at hmem'
        omega
      rw [Dict.keys_set, if_pos hmem, hkeys, hone]
    refine ⟨ht.group, ht.session, ht.ranks, ⟨0, by omega, ?_⟩, ?_, ?_⟩
    · show (Coordinator.evict _).keys = _
      rw [evict_keys hkeys]
      rfl
    · intro e he
      rcases Dict.mem_set (List.mem_of_mem_drop he) with he | rfl
      · exact ht.recorded e he
      · refine ⟨hrecorded.length, hrecorded.opened, hrecorded.member, fun r hr => ?_⟩
        obtain rfl := Option.mem_some_iff.mp hr
        exact ⟨hdecision, rfl, rfl⟩
    · intro e he
      have hmem := List.mem_of_mem_drop he
      have hle : e.1 < c.next + 1 := by
        have : e.1 ∈ (c.rounds.set k { round' with reply := some (c.decision k round') }).keys :=
          Dict.mem_keys.mpr ⟨e.2, hmem⟩
        rw [hkeys, List.mem_range'_1] at this
        omega
      refine ⟨fun _ => hle, fun _ => ?_⟩
      by_cases he' : e.1 = k
      · have hdistinct := ht.sorted.set k { round' with reply := some (c.decision k round') }
        have heq := Dict.get?_of_mem hdistinct (k := e.1) (v := e.2) hmem
        rw [he', Dict.get?_set_self, Option.some.injEq] at heq
        rw [← heq]
        rfl
      · rcases Dict.mem_set hmem with hmem | rfl
        · exact (ht.decided e hmem).mpr (by omega)
        · exact absurd rfl he'
  · rw [if_neg hnow]
    exact ht.store hget hrecorded hreply

theorem settle_next_le (k : ℕ) (round : ControlRound P) : c.next ≤ (c.settle k round).next := by
  unfold Coordinator.settle
  split
  · exact Nat.le_succ _
  · exact le_rfl

/-- **A request keeps the coordinator true to the history**, refused or not. -/
theorem Truthful.request [DecidableEq P] {codec : ControlCodec P} (ht : h.Truthful c)
    {message : ControlRequest P} (hsent : h.Sent message) :
    h.Truthful (c.request codec message).1 ∧ c.next ≤ (c.request codec message).1.next := by
  unfold Coordinator.request
  cases hcheck : c.check message with
  | error fault => exact ⟨ht, le_rfl⟩
  | ok u =>
    have hopening := ht.openRound hsent hcheck
    simp only
    generalize c.openRound message = opening at hopening ⊢
    obtain ⟨round, c'⟩ := opening
    obtain ⟨hopen, hnext, -, hget⟩ := hopening
    simp only at hopen hnext hget ⊢
    obtain ⟨hrecorded, -⟩ := hopen.round_of hget
    by_cases hphase : round.phase = message.phase
    · have hcalled : h.Called message.rank message.sequence round.phase message.payload :=
        hphase ▸ hsent.called
      have hcontribute := @Recorded.contribute _ _ _ codec _ _ _ _ hrecorded hcalled
      rw [if_neg (not_not_intro hphase)]
      generalize round.contribute codec message.rank message.payload = result at hcontribute ⊢
      obtain ⟨round', outcome⟩ := result
      cases outcome with
      | error fault => exact ⟨hopen.store hget hcontribute.1 hcontribute.2.1, hnext ▸ le_rfl⟩
      | ok u => exact ⟨hopen.settle hget hcontribute.1 hcontribute.2.1, hnext ▸ settle_next_le ..⟩
    · rw [if_pos hphase]
      exact ⟨hopen, hnext ▸ le_rfl⟩

/-- A change of the fatal text is no change of the rounds. -/
theorem Truthful.fail (ht : h.Truthful c) (fault : String) : h.Truthful { c with fatal := fault } :=
  ⟨ht.group, ht.session, ht.ranks, ht.keys, ht.recorded, ht.decided⟩

/-- A connection that carries a call of its rank, or the decision of the call's round. -/
structure Carries (h : ControlHistory P) (c : Coordinator P) (connection : Connection P) : Prop where
  sent : h.Sent connection.request
  answer : ∀ reply, connection.stage = .answered (.decision reply) →
    h.Decided reply ∧ reply.sequence < c.next

theorem Carries.mono {c' : Coordinator P} {connection : Connection P} (hc : Carries h c connection)
    (hext : h.Extends h') (hle : c.next ≤ c'.next) : Carries h' c' connection :=
  ⟨hc.sent.mono hext, fun reply hr =>
    ⟨(hc.answer reply hr).1.mono hext, (hc.answer reply hr).2.trans_le hle⟩⟩

/-- An answer is an error or what the history decides. -/
theorem Truthful.answer {codec : ControlCodec P} (ht : h.Truthful c) {connection : Connection P}
    (hsent : h.Sent connection.request) :
    h.Truthful (c.answer codec connection).1 ∧ c.next ≤ (c.answer codec connection).1.next ∧
      Carries h (c.answer codec connection).1 (c.answer codec connection).2 := by
  unfold Coordinator.answer
  split
  · exact ⟨ht, le_rfl, hsent, fun reply hr => by cases hr⟩
  · cases hget : c.rounds.get? connection.request.sequence with
    | none => exact ⟨ht, le_rfl, hsent, fun reply hr => by cases hr⟩
    | some round =>
      obtain ⟨hrecorded, hdecided⟩ := ht.round_of hget
      cases hreply : round.reply with
      | none =>
        simp only [hreply]
        exact ⟨ht, le_rfl, hsent, fun reply hr => by cases hr⟩
      | some reply =>
        simp only [hreply]
        split
        · exact ⟨ht.fail _, le_rfl, hsent, fun reply hr => by cases hr⟩
        · refine ⟨ht, le_rfl, hsent, fun reply' hr => ?_⟩
          obtain rfl : reply = reply' := by
            injection hr with hr
            injection hr
          obtain ⟨hd, hseq, -⟩ := hrecorded.reply reply hreply
          exact ⟨hd, hseq ▸ hdecided.mp (by rw [hreply]; rfl)⟩

/-- **Serving a client** keeps the coordinator and its connection true to the history. -/
theorem Truthful.visit [DecidableEq P] (codec : ControlCodec P) (ht : h.Truthful c)
    {connection : Connection P} (hc : Carries h c connection) (arrived : Bool) :
    h.Truthful (c.visit codec connection arrived).1 ∧
      c.next ≤ (c.visit codec connection arrived).1.next ∧
      Carries h (c.visit codec connection arrived).1 (c.visit codec connection arrived).2 := by
  unfold Coordinator.visit
  cases hstage : connection.stage with
  | sent =>
    cases arrived with
    | true =>
      have hrequest := @Truthful.request _ _ _ _ codec ht _ hc.sent
      simp only [if_true]
      generalize c.request codec connection.request = result at hrequest
      obtain ⟨c', outcome⟩ := result
      cases outcome with
      | error fault =>
        exact ⟨hrequest.1.fail fault, hrequest.2, hc.sent, fun reply hr => by cases hr⟩
      | ok u =>
        obtain ⟨htruth, hle, hcarries⟩ := @Truthful.answer _ _ _ codec hrequest.1 connection hc.sent
        exact ⟨htruth, hrequest.2.trans hle, hcarries⟩
    | false =>
      simp only [Bool.false_eq_true, if_false]
      split
      · exact ⟨ht, le_rfl, hc.sent, fun reply hr => by cases hr⟩
      · exact ⟨ht, le_rfl, hc⟩
  | parsed => exact ht.answer hc.sent
  | answered answer => exact ⟨ht, le_rfl, hc⟩
  | closed => exact ⟨ht, le_rfl, hc⟩

end Coordinator

end ControlHistory

/-! ## Runs -/

namespace ControlSystem

/-- The history of a system. -/
def history (s : ControlSystem P) : ControlHistory P where
  group := s.coordinator.group
  session := s.coordinator.session
  ranks := s.coordinator.ranks
  calls := fun rank => (s.callers rank).calls

/-- A rank is where its calls and replies say it is. -/
structure Placed (h : ControlHistory P) (next rank : ℕ) (caller : Caller P) : Prop where
  sequence : caller.sequence = caller.returned.length
  returned : ∀ k reply, caller.returned[k]? = some reply →
    h.Decided reply ∧ reply.sequence = k ∧ k < next
  calling : ∀ phase payload, caller.calling = some (phase, payload) →
    caller.broken = false ∧ rank < h.ranks ∧ h.Called rank caller.sequence phase payload
  calls : caller.broken = false →
    caller.calls.length = caller.sequence + if caller.calling.isSome then 1 else 0

/-- Everything in the system is true to its history. -/
structure Consistent (s : ControlSystem P) : Prop where
  coordinator : s.history.Truthful s.coordinator
  callers : ∀ rank, Placed s.history s.coordinator.next rank (s.callers rank)
  connections : ∀ connection ∈ s.connections,
    ControlHistory.Carries s.history s.coordinator connection

theorem Placed.mono {h h' : ControlHistory P} {next next' rank : ℕ} {caller : Caller P}
    (hp : Placed h next rank caller) (hext : h.Extends h') (hle : next ≤ next') :
    Placed h' next' rank caller := by
  refine ⟨hp.sequence, fun k reply hk => ?_, fun phase payload hc => ?_, hp.calls⟩
  · obtain ⟨hd, hseq, hlt⟩ := hp.returned k reply hk
    exact ⟨hd.mono hext, hseq, hlt.trans_le hle⟩
  · obtain ⟨hbroken, hrank, hcalled⟩ := hp.calling phase payload hc
    exact ⟨hbroken, hext.ranks ▸ hrank, hcalled.mono hext⟩

/-- A broken caller is in no call. -/
theorem Placed.fail {h : ControlHistory P} {next rank : ℕ} {caller : Caller P}
    (hp : Placed h next rank caller) : Placed h next rank caller.fail :=
  { sequence := hp.sequence
    returned := hp.returned
    calling := fun _ _ hc => by cases hc
    calls := fun hb => by cases hb }

theorem start_consistent (group session : String) (ranks : ℕ) :
    (start group session ranks : ControlSystem P).Consistent := by
  refine ⟨⟨rfl, rfl, rfl, ⟨0, by omega, rfl⟩, fun e he => ?_, fun e he => ?_⟩, fun rank => ?_,
    fun connection hc => ?_⟩
  · cases he
  · cases he
  · exact ⟨rfl, fun k reply hk => by simp [start] at hk, fun _ _ hc => by simp [start] at hc,
      fun _ => rfl⟩
  · cases hc

variable {s s' : ControlSystem P} {codec : ControlCodec P}

/-- **A change of one rank that makes no call** keeps the system consistent. -/
theorem Consistent.setCaller (hs : s.Consistent) (rank : ℕ) (caller : Caller P)
    (hcalls : caller.calls = (s.callers rank).calls)
    (hplaced : Placed s.history s.coordinator.next rank caller) :
    (s.setCaller rank caller).Consistent ∧ (s.setCaller rank caller).history = s.history := by
  have hhistory : (s.setCaller rank caller).history = s.history := by
    unfold history ControlSystem.setCaller
    congr 1
    funext q
    show (Function.update s.callers rank caller q).calls = (s.callers q).calls
    by_cases hq : q = rank
    · subst hq
      rw [Function.update_self, hcalls]
    · rw [Function.update_of_ne hq]
  refine ⟨⟨?_, fun q => ?_, fun connection hc => ?_⟩, hhistory⟩
  · rw [hhistory]
    exact hs.coordinator
  · rw [hhistory]
    show Placed _ _ q (Function.update s.callers rank caller q)
    by_cases hq : q = rank
    · subst hq
      rw [Function.update_self]
      exact hplaced
    · rw [Function.update_of_ne hq]
      exact hs.callers q
  · rw [hhistory]
    exact hs.connections connection hc

/-- Replacing a connection, or adding one, keeps the system consistent. -/
theorem Consistent.setConnections (hs : s.Consistent) {connections : List (Connection P)}
    (hc : ∀ connection ∈ connections, ControlHistory.Carries s.history s.coordinator connection) :
    ({ s with connections := connections } : ControlSystem P).Consistent :=
  ⟨hs.coordinator, hs.callers, hc⟩

theorem Consistent.carries (hs : s.Consistent) {id : ℕ} {connection : Connection P}
    (hid : s.connections[id]? = some connection) :
    ControlHistory.Carries s.history s.coordinator connection :=
  hs.connections connection (List.mem_of_getElem? hid)

/-- A call is added to the history of its rank. -/
theorem Consistent.call (hs : s.Consistent) {rank : ℕ} {phase : String} {payload : P}
    (hstep : s.call rank phase payload = some s') :
    s'.Consistent ∧ s.history.Extends s'.history ∧ s'.coordinator = s.coordinator := by
  unfold ControlSystem.call at hstep
  simp only at hstep
  split at hstep
  · rename_i hfree
    obtain rfl := Option.some.inj hstep
    set caller : Caller P := { s.callers rank with
      calls := (s.callers rank).calls ++ [(phase, payload)]
      calling := if (s.callers rank).broken then none else some (phase, payload) } with hcaller
    have hext : s.history.Extends (s.setCaller rank caller).history := by
      refine ⟨rfl, rfl, rfl, fun q => ?_⟩
      show (s.callers q).calls <+: (Function.update s.callers rank caller q).calls
      by_cases hq : q = rank
      · subst hq
        rw [Function.update_self]
        exact List.prefix_append ..
      · rw [Function.update_of_ne hq]
    refine ⟨⟨hs.coordinator.mono hext, fun q => ?_, fun connection hc =>
      (hs.connections connection hc).mono hext le_rfl⟩, hext, rfl⟩
    have hold := (hs.callers q).mono hext (le_refl s.coordinator.next)
    show Placed _ _ q (Function.update s.callers rank caller q)
    by_cases hq : q = rank
    · subst hq
      rw [Function.update_self]
      refine ⟨hold.sequence, hold.returned, fun ph p hc => ?_, fun hb => ?_⟩
      · have hbroken : (s.callers q).broken = false := by
          by_contra hne
          rw [Bool.not_eq_false] at hne
          simp [hcaller, hne] at hc
        simp only [hcaller, hbroken, Bool.false_eq_true, if_false, Option.some.injEq,
          Prod.mk.injEq] at hc
        obtain ⟨rfl, rfl⟩ := hc
        refine ⟨hbroken, hfree.1, ?_⟩
        have hlength := (hs.callers q).calls hbroken
        rw [Option.isNone_iff_eq_none.mp hfree.2] at hlength
        show (Function.update s.callers q caller q).calls[(s.callers q).sequence]? = _
        rw [Function.update_self]
        show ((s.callers q).calls ++ [(phase, payload)])[(s.callers q).sequence]? = _
        rw [List.getElem?_append_right (by simpa using hlength.le)]
        simp at hlength
        simp [hlength]
      · have hbroken : (s.callers q).broken = false := hb
        have hlength := (hs.callers q).calls hbroken
        rw [Option.isNone_iff_eq_none.mp hfree.2] at hlength
        simp [hcaller, hbroken, hlength]
    · rw [Function.update_of_ne hq]
      exact hold
  · cases hstep

/-- A trial opens a connection that carries the call of its rank. -/
theorem Consistent.connect (hs : s.Consistent) {rank : ℕ}
    (hstep : s.connect codec rank = some s') :
    s'.Consistent ∧ s'.history = s.history ∧ s'.coordinator = s.coordinator := by
  unfold ControlSystem.connect at hstep
  simp only at hstep
  have hplaced := hs.callers rank
  split at hstep
  · cases hstep
  · rename_i phase payload hcalling
    split at hstep
    · obtain rfl := Option.some.inj hstep
      obtain ⟨hc, hh⟩ := hs.setCaller rank (s.callers rank).fail rfl hplaced.fail
      exact ⟨hc, hh, rfl⟩
    · obtain rfl := Option.some.inj hstep
      have hlisten : Placed s.history s.coordinator.next rank
          { s.callers rank with current := some s.connections.length } :=
        ⟨hplaced.sequence, hplaced.returned, hplaced.calling, hplaced.calls⟩
      obtain ⟨hc, hh⟩ := hs.setCaller rank
        { s.callers rank with current := some s.connections.length } rfl hlisten
      refine ⟨hc.setConnections fun connection hmem => ?_, hh, rfl⟩
      rw [hh]
      rcases List.mem_append.mp hmem with hmem | hmem
      · exact hs.connections connection hmem
      · obtain rfl := List.mem_singleton.mp hmem
        obtain ⟨-, hrank, hcalled⟩ := hplaced.calling phase payload hcalling
        exact ⟨⟨rfl, rfl, hrank, hcalled⟩, fun reply hr => by cases hr⟩

theorem Consistent.abandon (hs : s.Consistent) {rank : ℕ} (hstep : s.abandon rank = some s') :
    s'.Consistent ∧ s'.history = s.history ∧ s'.coordinator = s.coordinator := by
  unfold ControlSystem.abandon at hstep
  have hplaced := hs.callers rank
  split at hstep
  · cases hstep
  · obtain rfl := Option.some.inj hstep
    have hquiet : Placed s.history s.coordinator.next rank { s.callers rank with current := none } :=
      ⟨hplaced.sequence, hplaced.returned, hplaced.calling, hplaced.calls⟩
    obtain ⟨hc, hh⟩ := hs.setCaller rank { s.callers rank with current := none } rfl hquiet
    exact ⟨hc, hh, rfl⟩

theorem Consistent.expire (hs : s.Consistent) {rank : ℕ} (hstep : s.expire rank = some s') :
    s'.Consistent ∧ s'.history = s.history ∧ s'.coordinator = s.coordinator := by
  unfold ControlSystem.expire at hstep
  split at hstep
  · cases hstep
  · obtain rfl := Option.some.inj hstep
    obtain ⟨hc, hh⟩ := hs.setCaller rank (s.callers rank).fail rfl (hs.callers rank).fail
    exact ⟨hc, hh, rfl⟩

/-- What `deliver` has found. -/
theorem deliver_cases {rank : ℕ} (hstep : s.deliver rank = some s') :
    ∃ id phase payload connection answer, (s.callers rank).current = some id ∧
      (s.callers rank).calling = some (phase, payload) ∧ s.connections[id]? = some connection ∧
      connection.stage = .answered answer ∧
      s' = { s.setCaller rank (s.receive rank phase answer) with
        connections := s.connections.set id { connection with stage := .closed } } := by
  unfold ControlSystem.deliver ControlSystem.listening at hstep
  cases hcurrent : (s.callers rank).current with
  | none => simp [hcurrent] at hstep
  | some id =>
    cases hcalling : (s.callers rank).calling with
    | none => simp [hcurrent, hcalling] at hstep
    | some call =>
      cases hid : s.connections[id]? with
      | none => simp [hcurrent, hcalling, hid] at hstep
      | some connection =>
        cases hstage : connection.stage with
        | answered answer =>
          simp only [hcurrent, hcalling, hid, hstage, Option.bind_eq_bind, Option.bind_some,
            Option.pure_def, Option.some.injEq] at hstep
          exact ⟨id, call.1, call.2, connection, answer, rfl, rfl, hid, hstage, hstep.symm⟩
        | sent => simp [hcurrent, hcalling, hid, hstage] at hstep
        | parsed => simp [hcurrent, hcalling, hid, hstage] at hstep
        | closed => simp [hcurrent, hcalling, hid, hstage] at hstep

/-- A rank that returns from a call has the decision of its round. -/
theorem Consistent.deliver (hs : s.Consistent) {rank : ℕ} (hstep : s.deliver rank = some s') :
    s'.Consistent ∧ s'.history = s.history ∧ s'.coordinator = s.coordinator := by
  obtain ⟨id, phase, payload, connection, answer, -, hcalling, hid, hstage, rfl⟩ :=
    deliver_cases hstep
  have hplaced := hs.callers rank
  have hcarries := hs.carries hid
  have hreceive : (s.receive rank phase answer).calls = (s.callers rank).calls ∧
      Placed s.history s.coordinator.next rank (s.receive rank phase answer) := by
    cases answer with
    | error message => exact ⟨rfl, hplaced.fail⟩
    | decision reply =>
      unfold ControlSystem.receive
      by_cases haccepts : s.accepts rank phase reply
      · simp only [if_pos haccepts]
        refine ⟨trivial, ?_, fun k r hk => ?_, fun ph p hc => ?_, fun hb => ?_⟩
        · simp [hplaced.sequence]
        · rw [List.getElem?_append] at hk
          split at hk
          · exact hplaced.returned k r hk
          · rename_i hlt
            rw [List.getElem?_singleton] at hk
            split at hk
            · rename_i hzero
              obtain rfl := Option.some.inj hk
              obtain ⟨hd, hseq⟩ := hcarries.answer _ hstage
              have hk' : reply.sequence = k := by
                rw [haccepts.2.2.1, hplaced.sequence]
                omega
              exact ⟨hd, hk', hk' ▸ hseq⟩
            · cases hk
        · cases hc
        · have hlength := hplaced.calls hb
          rw [hcalling] at hlength
          simpa using hlength
      · simp only [if_neg haccepts]
        exact ⟨rfl, hplaced.fail⟩
  obtain ⟨hc, hh⟩ := hs.setCaller rank _ hreceive.1 hreceive.2
  refine ⟨hc.setConnections fun connection' hmem => ?_, hh, rfl⟩
  rw [hh]
  rcases List.mem_or_eq_of_mem_set hmem with hmem | rfl
  · exact hs.connections connection' hmem
  · exact ⟨hcarries.sent, fun reply hr => by cases hr⟩

/-- What `visit` does to the system. -/
theorem visit_cases [DecidableEq P] {id : ℕ} {arrived : Bool}
    (hstep : s.visit codec id arrived = some s') :
    ∃ connection, s.connections[id]? = some connection ∧
      s' = { s with
        coordinator := (s.coordinator.visit codec connection arrived).1
        connections := s.connections.set id (s.coordinator.visit codec connection arrived).2 } := by
  unfold ControlSystem.visit at hstep
  cases hid : s.connections[id]? with
  | none => simp [hid] at hstep
  | some connection =>
    simp only [hid, Option.bind_eq_bind, Option.bind_some, Option.pure_def,
      Option.some.injEq] at hstep
    exact ⟨connection, rfl, hstep.symm⟩

theorem visit_identity [DecidableEq P] (codec : ControlCodec P) (c : Coordinator P) (connection : Connection P)
    (arrived : Bool) {h : ControlHistory P} (ht : h.Truthful c)
    (hc : ControlHistory.Carries h c connection) :
    (c.visit codec connection arrived).1.group = c.group ∧
      (c.visit codec connection arrived).1.session = c.session ∧
      (c.visit codec connection arrived).1.ranks = c.ranks := by
  have hv := (ht.visit codec hc arrived).1
  exact ⟨hv.group.trans ht.group.symm, hv.session.trans ht.session.symm,
    hv.ranks.trans ht.ranks.symm⟩

theorem Consistent.visit [DecidableEq P] (hs : s.Consistent) {id : ℕ} {arrived : Bool}
    (hstep : s.visit codec id arrived = some s') :
    s'.Consistent ∧ s'.history = s.history ∧ s.coordinator.next ≤ s'.coordinator.next := by
  obtain ⟨connection, hid, rfl⟩ := visit_cases hstep
  have hcarries := hs.carries hid
  obtain ⟨htruth, hle, hconnection⟩ := hs.coordinator.visit codec hcarries arrived
  obtain ⟨hgroup, hsession, hranks⟩ :=
    visit_identity codec s.coordinator connection arrived hs.coordinator hcarries
  have hhistory : ∀ connections, ({ s with
      coordinator := (s.coordinator.visit codec connection arrived).1
      connections := connections } : ControlSystem P).history = s.history := by
    intro connections
    unfold history
    simp only [hgroup, hsession, hranks]
  refine ⟨⟨?_, fun q => ?_, fun connection' hmem => ?_⟩, hhistory _, hle⟩
  · rw [hhistory]
    exact htruth
  · rw [hhistory]
    exact (hs.callers q).mono (.refl _) hle
  · rw [hhistory]
    rcases List.mem_or_eq_of_mem_set hmem with hmem | rfl
    · exact (hs.connections connection' hmem).mono (.refl _) hle
    · exact hconnection

theorem Consistent.lose (hs : s.Consistent) {id : ℕ} (hstep : s.lose id = some s') :
    s'.Consistent ∧ s'.history = s.history ∧ s'.coordinator = s.coordinator := by
  unfold ControlSystem.lose at hstep
  cases hid : s.connections[id]? with
  | none => simp [hid] at hstep
  | some connection =>
    simp only [hid, Option.bind_eq_bind, Option.bind_some, Option.pure_def,
      Option.some.injEq] at hstep
    subst hstep
    refine ⟨hs.setConnections fun connection' hmem => ?_, rfl, rfl⟩
    rcases List.mem_or_eq_of_mem_set hmem with hmem | rfl
    · exact hs.connections connection' hmem
    · exact ⟨(hs.carries hid).sent, fun reply hr => by cases hr⟩

variable [DecidableEq P]

/-- **One step** keeps the system consistent; the history grows and no decision is taken back. -/
theorem Consistent.step (hs : s.Consistent) {action : ControlAction P}
    (hstep : s.step codec action = some s') :
    s'.Consistent ∧ s.history.Extends s'.history ∧ s.coordinator.next ≤ s'.coordinator.next := by
  have hsame : s'.history = s.history → s.history.Extends s'.history := fun he => he ▸ .refl _
  cases action with
  | call rank phase payload =>
    obtain ⟨hc, hext, heq⟩ := hs.call hstep
    exact ⟨hc, hext, heq ▸ le_rfl⟩
  | connect rank =>
    obtain ⟨hc, hh, heq⟩ := hs.connect hstep
    exact ⟨hc, hsame hh, heq ▸ le_rfl⟩
  | abandon rank =>
    obtain ⟨hc, hh, heq⟩ := hs.abandon hstep
    exact ⟨hc, hsame hh, heq ▸ le_rfl⟩
  | deliver rank =>
    obtain ⟨hc, hh, heq⟩ := hs.deliver hstep
    exact ⟨hc, hsame hh, heq ▸ le_rfl⟩
  | expire rank =>
    obtain ⟨hc, hh, heq⟩ := hs.expire hstep
    exact ⟨hc, hsame hh, heq ▸ le_rfl⟩
  | visit id arrived =>
    obtain ⟨hc, hh, hle⟩ := hs.visit hstep
    exact ⟨hc, hsame hh, hle⟩
  | lose id =>
    obtain ⟨hc, hh, heq⟩ := hs.lose hstep
    exact ⟨hc, hsame hh, heq ▸ le_rfl⟩

/-- **A run** keeps the system consistent. -/
theorem Consistent.run {actions : List (ControlAction P)} (hs : s.Consistent)
    (hrun : s.run codec actions = some s') :
    s'.Consistent ∧ s.history.Extends s'.history ∧ s.coordinator.next ≤ s'.coordinator.next := by
  induction actions generalizing s with
  | nil =>
    obtain rfl : s = s' := Option.some.inj hrun
    exact ⟨hs, .refl _, le_rfl⟩
  | cons action actions ih =>
    unfold ControlSystem.run at hrun
    rw [List.foldlM_cons] at hrun
    obtain ⟨t, hstep, hrest⟩ := Option.bind_eq_some_iff.mp hrun
    obtain ⟨ht, hext, hle⟩ := hs.step hstep
    obtain ⟨hc, hext', hle'⟩ := ih ht hrest
    exact ⟨hc, hext.trans hext', hle.trans hle'⟩

/-- **Control rounds agree.**  In every run of a session: two ranks that return from their
`k`-th call return the same members, under the phase both passed, and the entry of a rank
is the payload of that rank's `k`-th call; the coordinator decides a round only when every
rank has called for it with its phase; and what it has decided no later step changes. -/
theorem control_rounds_agree (codec : ControlCodec P) (group session : String) (ranks : ℕ)
    (hpos : 0 < ranks) (actions : List (ControlAction P)) (s : ControlSystem P)
    (hrun : (start group session ranks).run codec actions = some s) :
    (∀ q < ranks, ∀ r < ranks, ∀ (k : ℕ) (a b : ControlReply P),
      (s.callers q).returned[k]? = some a → (s.callers r).returned[k]? = some b →
      a.members = b.members ∧ a.members.length = ranks ∧
      (∃ payload, (s.callers q).calls[k]? = some (a.phase, payload)) ∧
      (∃ payload, (s.callers r).calls[k]? = some (a.phase, payload)) ∧
      ∀ i < ranks, ∃ payload, (s.callers i).calls[k]? = some (a.phase, payload) ∧
        a.members[i]? = some payload) ∧
    (∀ k round reply, s.coordinator.rounds.get? k = some round → round.reply = some reply →
      ∀ i < ranks, ∃ payload, (s.callers i).calls[k]? = some (round.phase, payload) ∧
        reply.members[i]? = some payload) ∧
    ∀ later t, s.run codec later = some t → ∀ k round reply,
      s.coordinator.rounds.get? k = some round → round.reply = some reply →
      k < t.coordinator.next ∧
      ∀ round', t.coordinator.rounds.get? k = some round' → round'.reply = some reply := by
  obtain ⟨hs, hext, -⟩ := (start_consistent group session ranks).run hrun
  have hranks : s.history.ranks = ranks := hext.ranks
  refine ⟨?_, ?_, ?_⟩
  · intro q hq r hr k a b ha hb
    obtain ⟨hda, hka, -⟩ := (hs.callers q).returned k a ha
    obtain ⟨hdb, hkb, -⟩ := (hs.callers r).returned k b hb
    obtain rfl : a = b := hda.unique (hranks ▸ hpos) hdb (hka.trans hkb.symm)
    have hmember : ∀ i < ranks, ∃ payload, (s.callers i).calls[k]? = some (a.phase, payload) ∧
        a.members[i]? = some payload := by
      intro i hi
      obtain ⟨payload, hcalled, hentry⟩ := hda.member i (hranks ▸ hi)
      rw [hka] at hcalled
      exact ⟨payload, hcalled, hentry⟩
    obtain ⟨pq, hpq, -⟩ := hmember q hq
    obtain ⟨pr, hpr, -⟩ := hmember r hr
    exact ⟨rfl, hda.length.trans hranks, ⟨pq, hpq⟩, ⟨pr, hpr⟩, hmember⟩
  · intro k round reply hget hreply i hi
    obtain ⟨hd, hk, hphase⟩ := (hs.coordinator.round_of hget).1.reply reply hreply
    obtain ⟨payload, hcalled, hentry⟩ := hd.member i (hranks ▸ hi)
    rw [hk, hphase] at hcalled
    exact ⟨payload, hcalled, hentry⟩
  · intro later t hlater k round reply hget hreply
    obtain ⟨ht, hext', hle⟩ := hs.run hlater
    obtain ⟨hrecorded, hdecided⟩ := hs.coordinator.round_of hget
    have hk : k < t.coordinator.next :=
      (hdecided.mp (by rw [hreply]; rfl)).trans_le hle
    refine ⟨hk, fun round' hget' => ?_⟩
    obtain ⟨hrecorded', hdecided'⟩ := ht.coordinator.round_of hget'
    obtain ⟨reply', hreply'⟩ := Option.isSome_iff_exists.mp (hdecided'.mpr hk)
    obtain ⟨hd, hseq, -⟩ := hrecorded.reply reply hreply
    obtain ⟨hd', hseq', -⟩ := hrecorded'.reply reply' hreply'
    have hranks' : 0 < t.history.ranks := by
      rw [hext'.ranks, hranks]
      exact hpos
    rw [hreply', (hd.mono hext').unique hranks' hd' (hseq.trans hseq'.symm)]

/-! A run of two ranks: the first repeats its request, and its first copy arrives after
the round has been decided. -/

/-- Messages without weight. -/
def weightless : ControlCodec ℕ := ⟨fun _ => 1, fun _ => 1, fun _ => 1⟩

/-- The actions of the run. -/
def repeatedRequest : List (ControlAction ℕ) :=
  [.call 0 "READY" 7, .connect 0, .abandon 0, .connect 0, .call 1 "READY" 8, .connect 1,
    .visit 2 true, .visit 1 true, .visit 0 true, .deliver 0, .visit 2 false, .deliver 1]

/-- The state the run ends in. -/
def afterRepeatedRequest : ControlSystem ℕ :=
  ((start "group" "session" 2).run weightless repeatedRequest).getD (start "group" "session" 2)

theorem control_rounds_agree_repeated :
    (afterRepeatedRequest.callers 0).returned.map (·.members) = [[7, 8]] ∧
      (afterRepeatedRequest.callers 1).returned.map (·.members) = [[7, 8]] ∧
      ∀ a b, (afterRepeatedRequest.callers 0).returned[0]? = some a →
        (afterRepeatedRequest.callers 1).returned[0]? = some b → a.members = b.members :=
  ⟨rfl, rfl, fun a b ha hb => ((control_rounds_agree weightless "group" "session" 2 (by decide)
    repeatedRequest afterRepeatedRequest rfl).1 0 (by decide) 1 (by decide) 0 a b ha hb).1⟩

end ControlSystem

end VeriCCL
