import VeriCCL.BufferOwnership

/-! # What the receipts of a context say

A call leaves a receipt: its code and, for some calls, a result with the flags on which the
caller frees its buffers.  Here is what a truthful history of receipts is
(`Receipts`), and which steps of a context can write an untruthful one
(`RuntimeContext.Prudent` excludes exactly these).  In a run of the other steps every
receipt is truthful (`RuntimeContext.Kept`). -/
namespace VeriCCL

/-- The receipt of a call tells the truth: its code twice, no promise without success, and
buffers are only given back when nothing can touch them. -/
structure RuntimeReturn.Truthful (entry : RuntimeReturn) : Prop where
  coded : ∀ result ∈ entry.result, result.code = entry.code
  promised : ∀ result ∈ entry.result, result.promises = true → entry.code = .ok
  reusable : ∀ result ∈ entry.result, result.buffersReusable = true →
    entry.running = false ∧ entry.idle

/-- The receipt reports that a close released everything. -/
def RuntimeReturn.Released (entry : RuntimeReturn) : Prop :=
  entry.call = .close ∧ entry.code = .ok ∧
    ∃ result ∈ entry.result, result.resourcesReleased = true

/-- A truthful history: every receipt is truthful, after an unresolved call only `close` is
accepted, and the end comes after a close that released everything. -/
structure Receipts (history : List RuntimeEvent) : Prop where
  truthful : ∀ entry, .returned entry ∈ history → entry.Truthful
  unresolved : ∀ before entry after call, history = before ++ .returned entry :: after →
    entry.code = .unresolved → .accepted call ∈ after → call.isClose = true
  destroyed : ∀ before after, history = before ++ .destroyed :: after →
    ∃ entry, .returned entry ∈ before ∧ entry.Released

/-- This is `release`. -/
def RuntimeCall.isRelease : RuntimeCall → Bool
  | .release => true
  | _ => false

/-! ## How a history grows -/

theorem Receipts.nil : Receipts [] where
  truthful := by simp
  unresolved := by simp
  destroyed := by simp

/-- A call is accepted: `close`, or any other when no call was left unresolved. -/
theorem Receipts.accepted {history : List RuntimeEvent} (h : Receipts history)
    {call : RuntimeCall}
    (allowed : call.isClose = true ∨
      ∀ entry, .returned entry ∈ history → entry.code ≠ .unresolved) :
    Receipts (history ++ [.accepted call]) where
  truthful entry hentry := by
    apply h.truthful
    simpa using hentry
  unresolved before entry after other hsplit hcode hother := by
    rcases split_snoc hsplit with ⟨rfl, -, -⟩ | ⟨rest, rfl, rfl⟩
    · simp at hother
    · rcases List.mem_append.mp hother with hother | hother
      · exact h.unresolved before entry rest other rfl hcode hother
      · obtain rfl : other = call := by simpa using hother
        rcases allowed with hclose | hnone
        · exact hclose
        · exact absurd hcode (hnone entry (by simp))
  destroyed before after hsplit := by
    rcases split_snoc hsplit with ⟨-, hwrong, -⟩ | ⟨rest, -, rfl⟩
    · cases hwrong
    · exact h.destroyed before rest rfl

/-- A call returns with a truthful receipt. -/
theorem Receipts.returned {history : List RuntimeEvent} (h : Receipts history)
    {entry : RuntimeReturn} (honest : entry.Truthful) :
    Receipts (history ++ [.returned entry]) where
  truthful other hother := by
    rcases List.mem_append.mp hother with hother | hother
    · exact h.truthful other hother
    · obtain rfl : other = entry := by simpa using hother
      exact honest
  unresolved before other after call hsplit hcode hcall := by
    rcases split_snoc hsplit with ⟨rfl, -, -⟩ | ⟨rest, rfl, rfl⟩
    · simp at hcall
    · apply h.unresolved before other rest call rfl hcode
      simpa using hcall
  destroyed before after hsplit := by
    rcases split_snoc hsplit with ⟨-, hwrong, -⟩ | ⟨rest, -, rfl⟩
    · cases hwrong
    · exact h.destroyed before rest rfl

/-- The context is destroyed after a close that released everything. -/
theorem Receipts.ended {history : List RuntimeEvent} (h : Receipts history)
    {entry : RuntimeReturn} (hentry : .returned entry ∈ history) (released : entry.Released) :
    Receipts (history ++ [.destroyed]) where
  truthful other hother := by
    apply h.truthful
    simpa using hother
  unresolved before other after call hsplit hcode hcall := by
    rcases split_snoc hsplit with ⟨rfl, -, -⟩ | ⟨rest, rfl, rfl⟩
    · simp at hcall
    · apply h.unresolved before other rest call rfl hcode
      simpa using hcall
  destroyed before after hsplit := by
    rcases split_snoc hsplit with ⟨-, -, rfl⟩ | ⟨rest, -, rfl⟩
    · exact ⟨entry, hentry, released⟩
    · exact h.destroyed before rest rfl

/-! ## The steps that keep receipts truthful -/

namespace RuntimeContext

/-- The steps after which every receipt is truthful.  The others are: a refusal of arguments
that leaves a result which says something else; a call whose wait expired and whose job was
done all the same before the call looked; a second close while the worker of the first one
is still about; giving up on a job that never had a worker; destroying a context that was
closed behind the back of its caller. -/
def Prudent (c : RuntimeContext) : RuntimeAction → Prop
  | .refuse call old => call.hasResult = true → old.code = .invalid ∧ old.promises = false
  | .enter .close _ => c.closed = true → c.worker.isNone = true
  | .drainExpired => c.worker.isSome = true
  | .collect =>
    match c.stage with
    | .collecting call .unresolved true => c.jobDone = true → ∀ job ∈ c.job,
        call.hasResult = true → job.code ≠ .unresolved → call.isRelease = true ∧ job.code ≠ .ok
    | _ => True
  | .destroy => c.abandoned = false
  | _ => True

instance (c : RuntimeContext) (action : RuntimeAction) : Decidable (c.Prudent action) :=
  match action with
  | .refuse call old =>
    inferInstanceAs (Decidable (call.hasResult = true → old.code = .invalid ∧ old.promises = false))
  | .enter .close _ => inferInstanceAs (Decidable (c.closed = true → c.worker.isNone = true))
  | .drainExpired => inferInstanceAs (Decidable (c.worker.isSome = true))
  | .collect =>
    match hstage : c.stage with
    | .collecting call .unresolved true =>
      decidable_of_iff (c.jobDone = true → ∀ job ∈ c.job, call.hasResult = true →
        job.code ≠ .unresolved → call.isRelease = true ∧ job.code ≠ .ok) (by rw [Prudent, hstage])
    | .collecting _ .unresolved false | .collecting _ .ok _ | .collecting _ .invalid _
    | .collecting _ .busy _ | .collecting _ .timeout _ | .collecting _ .failed _
    | .collecting _ .closed _ | .idle | .draining | .waiting _ | .expired _ =>
      isTrue (by rw [Prudent, hstage]; trivial)
  | .destroy => inferInstanceAs (Decidable (c.abandoned = false))
  | .enter .init _ | .enter (.prepare _) _ | .enter (.execute _ _) _ | .enter (.traceControl _) _
  | .enter .release _ | .drained _ | .woken | .expire | .giveUp | .ask | .hear _ | .work _ _
  | .finish | .complete => isTrue trivial

/-- Every step of a run is careful. -/
def CarefulRun (c : RuntimeContext) : List RuntimeAction → Prop
  | [] => True
  | action :: actions => c.Prudent action ∧
      match c.step action with
      | none => True
      | some d => d.CarefulRun actions

/-- A run can be checked. -/
def decideCarefulRun : (c : RuntimeContext) → (actions : List RuntimeAction) →
    Decidable (c.CarefulRun actions)
  | _, [] => isTrue trivial
  | c, action :: actions =>
    match hstep : c.step action with
    | none => decidable_of_iff (c.Prudent action) (by simp [CarefulRun, hstep])
    | some d =>
      have := decideCarefulRun d actions
      decidable_of_iff (c.Prudent action ∧ d.CarefulRun actions) (by simp [CarefulRun, hstep])

instance (c : RuntimeContext) (actions : List RuntimeAction) : Decidable (c.CarefulRun actions) :=
  decideCarefulRun c actions

/-! ## Careful runs -/

/-- What careful steps keep as well: an unfinished close is watched or marked, a context that
is closed was reported or is marked, and the history is truthful. -/
structure Kept (c : RuntimeContext) : Prop extends Held c where
  closer : ∀ position, c.worker = some position → position.closing = true →
    c.abandoned = true ∨ c.stage.watchingClose = true
  reported : c.closed = true → c.abandoned = true ∨
    (∃ entry, .returned entry ∈ c.history ∧ entry.Released) ∨ c.stage.watchingClose = true ∨
    c.stage = .collecting .close .ok true ∧ c.jobDone = true
  doubted : ∀ entry, .returned entry ∈ c.history → entry.code = .unresolved → c.uncertain = true
  receipts : Receipts c.history

theorem fresh_kept (rank : ℕ) (config : GroupConfig) : (fresh rank config).Kept where
  toHeld := fresh_held rank config
  closer := by simp [fresh]
  reported := by simp [fresh]
  doubted := by simp [fresh]
  receipts := Receipts.nil

variable {c d : RuntimeContext}

/-- A turn of the worker writes no receipt. -/
theorem Kept.turned (h : c.Kept) (t : Turned c d) : d.Kept where
  toHeld := t.held
  closer position hposition hclosing := by
    obtain ⟨old, hold, hclosing⟩ := t.closing position hposition hclosing
    rw [t.abandoned, t.stage]
    exact h.closer old hold hclosing
  reported hclosed := by
    rw [t.abandoned, t.stage, t.history]
    rcases t.closed hclosed with hclosed | ⟨old, hold, hclosing⟩
    · exact (h.reported hclosed).imp id (.imp id (.imp id (.imp id t.done)))
    · -- Only a close closes, and then the call either still waits or has gone away.
      rcases h.closer old hold hclosing with habandoned | hwatching
      · exact .inl habandoned
      · exact .inr (.inr (.inl hwatching))
  doubted entry hentry hcode := t.uncertain (h.doubted entry (t.history ▸ hentry) hcode)
  receipts := t.history ▸ h.receipts

/-- The call goes to another stage. -/
theorem Kept.restage (h : c.Kept) {stage : RuntimeStage}
    (held : ({ c with stage := stage } : RuntimeContext).Held)
    (closer : c.stage.watchingClose = true → ∀ position, c.worker = some position →
      position.closing = true → c.abandoned = true ∨ stage.watchingClose = true)
    (reported : c.closed = true → c.stage.watchingClose = true ∨
        c.stage = .collecting .close .ok true ∧ c.jobDone = true →
      c.abandoned = true ∨ stage.watchingClose = true ∨
        stage = .collecting .close .ok true ∧ c.jobDone = true) :
    ({ c with stage := stage } : RuntimeContext).Kept where
  toHeld := held
  closer position hposition hclosing := by
    rcases h.closer position hposition hclosing with habandoned | hwatching
    · exact .inl habandoned
    · exact closer hwatching position hposition hclosing
  reported hclosed := by
    rcases h.reported hclosed with habandoned | hentry | hwatching
    · exact .inl habandoned
    · exact .inr (.inl hentry)
    · exact (reported hclosed hwatching).imp id .inr
  doubted := h.doubted
  receipts := h.receipts

/-- A call between its waits, with nothing submitted, goes to another such stage. -/
theorem Kept.refuse (h : c.Kept) (hfree : c.stage.Free) {stage : RuntimeStage}
    (hstage : ∀ call code, stage ≠ .collecting call code true)
    (settled : ∀ call submitted, stage = .collecting call .unresolved submitted →
      c.uncertain = true) : ({ c with stage := stage } : RuntimeContext).Kept := by
  obtain ⟨hwatching, hclose, hcollecting⟩ := hfree
  refine h.restage (h.toHeld.refuse hwatching hstage settled) ?_ ?_
  · intro hwait
    simp [hclose] at hwait
  · rintro - (hwait | ⟨hwait, -⟩)
    · simp [hclose] at hwait
    · exact absurd hwait (hcollecting _ _)

/-- What the caller has in hand does not matter to its receipts. -/
theorem Kept.caller (h : c.Kept) (opened handle gone : Bool) :
    ({ c with opened := opened, handle := handle, gone := gone } : RuntimeContext).Kept where
  toHeld := h.toHeld.caller opened handle gone c.abandoned c.history
  closer := h.closer
  reported := h.reported
  doubted := h.doubted
  receipts := h.receipts

/-- **A call is submitted**; when it gets a worker, that is in the history. -/
theorem Kept.submit (h : c.Kept) (hfree : c.stage.Free) {call : RuntimeCall}
    (alone : call.isClose = true → c.closed = false → c.worker = none) (spawned : Bool) :
    (c.submit call spawned).Kept := by
  have hheld := h.toHeld.submit hfree.1 alone spawned
  revert hheld
  unfold RuntimeContext.submit
  split_ifs with hclosed hbusy huncertain hspawned <;> intro hheld
  · exact h.refuse hfree (by simp) (by simp)
  · exact h.refuse hfree (by simp) (by simp)
  · exact h.refuse hfree (by simp) fun _ _ _ => huncertain.1
  all_goals
    rw [Bool.not_eq_true] at hclosed
    obtain ⟨hnone, hcertain⟩ :=
      h.toHeld.unattended hfree.1 (fun hclose => alone hclose hclosed) huncertain
    refine ⟨hheld, ?_, fun hwrong => ?_, ?_, ?_⟩
  · intro position hposition hclosing
    cases hposition
    right
    cases call with
    | close => rfl
    | _ => cases hclosing
  · simp [hclosed] at hwrong
  · intro entry hentry hcode
    apply h.doubted entry _ hcode
    simpa using hentry
  · refine h.receipts.accepted (hcertain.imp id fun hcertain entry hentry hcode => ?_)
    have := h.doubted entry hentry hcode
    simp [hcertain] at this
  · intro position hposition
    simp [hnone] at hposition
  · simp [hclosed] at hwrong
  · exact h.doubted
  · exact h.receipts

/-- The receipt that a call leaves. -/
def receipt (c : RuntimeContext) (call : RuntimeCall) (code : VericclCode)
    (result : Option VericclResult) : RuntimeReturn where
  call := call
  code := code
  result := result
  running := c.worker.isSome
  idle := ∀ stream, ¬ c.pending stream

/-- **A call returns** with a truthful receipt; a close that says that everything is released
has no worker left. -/
theorem Kept.leave (h : c.Kept) {call : RuntimeCall} {code : VericclCode}
    {result : Option VericclResult} (hwatching : c.stage.watching = false)
    (hclose : c.stage.watchingClose = false) (honest : (c.receipt call code result).Truthful)
    (unresolved : code = .unresolved → c.uncertain = true)
    (released : call.isClose = true → (result.map (·.resourcesReleased)).getD false = true →
      c.worker = none)
    (reported : c.stage = .collecting .close .ok true ∧ c.jobDone = true → c.closed = true →
      (c.receipt call code result).Released) :
    (c.leave call code result).Kept where
  toHeld := h.toHeld.leave hwatching call code result
  closer position hposition hclosing := by
    rcases h.closer position hposition hclosing with habandoned | hwait
    · left
      by_contra hnot
      -- A close that left nothing behind is the only one that takes the mark away.
      have hpromise : call.isClose = true ∧
          (result.map (·.resourcesReleased)).getD false = true := by
        simpa [RuntimeContext.leave, habandoned] using hnot
      have hnone := released hpromise.1 hpromise.2
      have hsome : c.worker = some position := hposition
      simp [hnone] at hsome
    · simp [hclose] at hwait
  reported hclosed := by
    have hold : ∀ entry, .returned entry ∈ c.history →
        .returned entry ∈ (c.leave call code result).history :=
      fun entry hentry => List.mem_append_left _ hentry
    have hnew : .returned (c.receipt call code result) ∈ (c.leave call code result).history :=
      List.mem_append_right _ List.mem_cons_self
    rcases h.reported hclosed with habandoned | ⟨entry, hentry, hreleased⟩ | hwait | hwait
    · by_cases hpromise : call.isClose = true ∧
        (result.map (·.resourcesReleased)).getD false = true
      · -- The receipt itself says that everything is released.
        refine .inr (.inl ⟨_, hnew, ?_⟩)
        obtain ⟨hcall, hgetD⟩ := hpromise
        cases result with
        | none => cases hgetD
        | some result =>
          refine ⟨?_, honest.promised result rfl (releases_promises hgetD), result, rfl, hgetD⟩
          cases call with
          | close => rfl
          | _ => cases hcall
      · left
        simpa [RuntimeContext.leave, habandoned, -not_and, not_and_or] using hpromise
    · exact .inr (.inl ⟨entry, hold entry hentry, hreleased⟩)
    · simp [hclose] at hwait
    · exact .inr (.inl ⟨_, hnew, reported hwait hclosed⟩)
  doubted entry hentry hcode := by
    rcases List.mem_append.mp hentry with hentry | hentry
    · exact h.doubted entry hentry hcode
    · obtain rfl : entry = c.receipt call code result := by simpa [receipt] using hentry
      exact unresolved hcode
  receipts := h.receipts.returned honest

/-- A receipt that promises nothing is truthful when it has its code. -/
theorem truthful_receipt {call : RuntimeCall} {code : VericclCode}
    {result : Option VericclResult}
    (hresult : ∀ r ∈ result, r.code = code ∧ r.promises = false) :
    (c.receipt call code result).Truthful where
  coded r hr := (hresult r hr).1
  promised r hr hpromises := by simp [(hresult r hr).2] at hpromises
  reusable r hr hreusable := by
    have hpromises := reusable_promises hreusable
    simp [(hresult r hr).2] at hpromises

/-- A call that comes to its end with nothing promised. -/
theorem Kept.leaveEmpty (h : c.Kept) {call : RuntimeCall} {code : VericclCode}
    {result : Option VericclResult} (hfree : c.stage.Free)
    (hresult : ∀ r ∈ result, r.code = code ∧ r.promises = false)
    (unresolved : code = .unresolved → c.uncertain = true) : (c.leave call code result).Kept := by
  refine h.leave hfree.1 hfree.2.1 (truthful_receipt hresult) unresolved ?_ ?_
  · intro _ hreleased
    cases result with
    | none => cases hreleased
    | some r =>
      have hpromises : r.promises = true := releases_promises hreleased
      simp [(hresult r rfl).2] at hpromises
  · rintro ⟨hstage, -⟩
    exact absurd hstage (hfree.2.2 _ _)

theorem free_idle : RuntimeStage.Free .idle := ⟨rfl, rfl, by simp⟩

theorem free_draining : RuntimeStage.Free .draining := ⟨rfl, rfl, by simp⟩

theorem refuse_kept (h : c.Kept) {call : RuntimeCall} {old : VericclResult}
    (careful : c.Prudent (.refuse call old)) (hd : c.refuse call old = some d) : d.Kept := by
  unfold RuntimeContext.refuse at hd
  split at hd
  next hstage =>
    cases hd
    refine h.leaveEmpty (hstage ▸ free_idle) ?_ (by simp)
    intro r hr
    split at hr
    next hresult =>
      cases hr
      exact careful hresult
    next => cases hr
  · cases hd

theorem enter_kept (h : c.Kept) {call : RuntimeCall} {spawned : Bool}
    (careful : c.Prudent (.enter call spawned)) (hd : c.enter call spawned = some d) : d.Kept := by
  unfold enter at hd
  split at hd
  next hstage =>
    split at hd
    · have hopened := h.caller true c.handle c.gone
      have hfree : RuntimeStage.Free c.stage := hstage ▸ free_idle
      unfold entered at hd
      cases call with
      | close =>
        simp only at hd
        split_ifs at hd with hclosed hjob <;> cases hd
        · -- The context is closed: the receipt is written again.
          have hnone : c.worker = none := Option.isNone_iff_eq_none.mp (careful hclosed)
          have hguard := (h.closed hclosed).1
          refine hopened.leave hfree.1 hfree.2.1 ?_ (by simp) (fun _ _ => hnone) ?_
          · refine ⟨?_, ?_, ?_⟩
            · rintro _ ⟨⟩
              rfl
            · rintro _ ⟨⟩ -
              rfl
            · rintro _ ⟨⟩ -
              exact ⟨by simp [receipt, hnone], h.clear hguard⟩
          · rintro ⟨hwrong, -⟩
            exact absurd hwrong (hfree.2.2 _ _)
        · exact hopened.refuse hfree (by simp) (by simp)
        · refine hopened.submit hfree (fun _ _ => ?_) spawned
          by_contra hworker
          obtain ⟨job, hsome, -⟩ := h.working hworker
          simp [hsome] at hjob
      | _ =>
        cases hd
        exact hopened.submit hfree (fun hclose => by cases hclose) spawned
    · cases hd
  · cases hd

theorem drained_kept (h : c.Kept) {spawned : Bool} (hd : c.drained spawned = some d) :
    d.Kept := by
  unfold drained at hd
  split at hd
  next hstage =>
    split_ifs at hd with hdone
    cases hd
    obtain ⟨job, hjob, hdone⟩ := jobDone_iff.mp hdone
    exact h.submit (hstage ▸ free_draining) (fun _ _ => h.alone hjob hdone) spawned
  · cases hd

theorem drainExpired_kept (h : c.Kept) (careful : c.Prudent .drainExpired)
    (hd : c.drainExpired = some d) : d.Kept := by
  unfold drainExpired at hd
  split at hd
  next hstage =>
    split_ifs at hd with hdone
    cases hd
    refine h.leaveEmpty (hstage ▸ free_draining) ?_ fun _ => ?_
    · rintro r ⟨⟩
      exact ⟨rfl, rfl⟩
    · rcases h.watched (Option.isSome_iff_ne_none.mp careful) with huncertain | hwait
      · exact huncertain
      · simp [hstage, RuntimeStage.watching] at hwait
  · cases hd

theorem woken_kept (h : c.Kept) (hd : c.woken = some d) : d.Kept := by
  have hstep : c.step .woken = some d := hd
  have hheld := h.toHeld.step hstep
  unfold woken at hd
  split at hd
  next call job hstage hjob =>
    split_ifs at hd with hdone
    cases hd
    have hnone := h.alone hjob hdone
    refine h.restage hheld ?_ ?_
    · intro _ position hposition
      simp [hnone] at hposition
    · rintro hclosed (hwait | ⟨hwait, -⟩)
      · -- The job of a close that closed has the code `OK`.
        obtain ⟨-, other, hother, hreleased⟩ := h.closed hclosed
        obtain rfl : job = other := by simpa [hjob] using hother
        have hcall : call = .close := by
          rw [hstage] at hwait
          exact RuntimeCall.close_of_isClose hwait
        rcases h.promised job hjob (releases_promises hreleased) with hend | ⟨hcode, -⟩
        · simp [hnone] at hend
        · exact .inr (.inr ⟨by rw [hcall, hcode], jobDone_iff.mpr ⟨job, hjob, hdone⟩⟩)
      · simp [hstage] at hwait
  · cases hd

theorem expire_kept (h : c.Kept) (hd : c.expire = some d) : d.Kept := by
  have hstep : c.step .expire = some d := hd
  have hheld := h.toHeld.step hstep
  unfold expire at hd
  split at hd
  next call hstage =>
    split_ifs at hd
    cases hd
    refine h.restage hheld ?_ ?_
    · intro hclose position _ _
      rw [hstage] at hclose
      exact .inr hclose
    · rintro - (hwait | ⟨hwait, -⟩)
      · rw [hstage] at hwait
        exact .inr (.inl hwait)
      · simp [hstage] at hwait
  · cases hd

/-- The wait of the call is given up: the context becomes uncertain, and a close that may
still happen is marked. -/
theorem giveUp_kept (h : c.Kept) (hd : c.giveUp = some d) : d.Kept := by
  have hstep : c.step .giveUp = some d := hd
  have hheld := h.toHeld.step hstep
  unfold giveUp at hd
  split at hd
  next call hstage =>
    cases hd
    refine ⟨hheld, ?_, ?_, fun _ _ _ => rfl, h.receipts⟩
    · intro position hposition hclosing
      rcases h.closer position hposition hclosing with habandoned | hwait
      · exact .inl (by simp [habandoned])
      · have hclose : call.isClose = true := by
          simpa [hstage, RuntimeStage.watchingClose] using hwait
        exact .inl (by simp [hclose])
    · intro hclosed
      rcases h.reported hclosed with habandoned | hentry | hwait | ⟨hwait, -⟩
      · exact .inl (by simp [habandoned])
      · exact .inr (.inl hentry)
      · have hclose : call.isClose = true := by
          simpa [hstage, RuntimeStage.watchingClose] using hwait
        exact .inl (by simp [hclose])
      · simp [hstage] at hwait
  · cases hd

/-- A call that was submitted reads the job it submitted. -/
theorem collect_truthful (h : c.Kept) {call : RuntimeCall} {code : VericclCode}
    {submitted : Bool} (hstage : c.stage = .collecting call code submitted)
    (careful : c.Prudent .collect) :
    (c.receipt call code (c.resultOf call code submitted)).Truthful := by
  by_cases hread : submitted = true ∧ c.jobDone = true
  · obtain ⟨rfl, hdone⟩ := hread
    obtain ⟨job, hjob, hdone'⟩ := jobDone_iff.mp hdone
    have hnone := h.alone hjob hdone'
    have hcoded := h.coded job hjob (.inr hdone')
    have hpromised : job.result.promises = true → job.code = .ok := by
      intro hpromises
      rcases h.promised job hjob hpromises with hend | ⟨hcode, -⟩
      · simp [hnone] at hend
      · exact hcode
    have hreusable : job.result.buffersReusable = true →
        c.worker.isSome = false ∧ ∀ stream, ¬ c.pending stream :=
      fun hflag => ⟨by simp [hnone], h.reusable job hjob hflag⟩
    -- The code that was decided is the code of the job, but for a release left unresolved.
    have hsame : call.hasResult = true → job.code = code ∨
        call.isRelease = true ∧ code = .unresolved ∧ job.code ≠ .ok := by
      intro hresult
      rcases h.collected call code hstage with rfl | ⟨-, hcode⟩
      · by_cases hunresolved : job.code = .unresolved
        · exact .inl hunresolved
        · rw [Prudent, hstage] at careful
          obtain ⟨hcall, hfailed⟩ := careful hdone job hjob hresult hunresolved
          exact .inr ⟨hcall, rfl, hfailed⟩
      · exact .inl (hcode job hjob hdone')
    cases call with
    | execute stream refused | close =>
      have hcode : job.code = code := by simpa [RuntimeCall.isRelease] using hsame rfl
      simp only [resultOf, hdone, hjob, and_self, if_true, Option.map_some, Option.getD_some]
      refine ⟨?_, ?_, ?_⟩
      · rintro r ⟨⟩
        exact hcoded.trans hcode
      · rintro r ⟨⟩ hpromises
        exact hcode.symm.trans (hpromised hpromises)
      · rintro r ⟨⟩ hflag
        exact hreusable hflag
    | release =>
      simp only [resultOf, hdone, hjob, and_self, if_true, Option.map_some, Option.getD_some]
      refine ⟨?_, ?_, ?_⟩
      · rintro r ⟨⟩
        rfl
      · rintro r ⟨⟩ hpromises
        have hok := hpromised hpromises
        rcases hsame rfl with hcode | ⟨-, -, hfailed⟩
        · exact hcode.symm.trans hok
        · exact absurd hok hfailed
      · rintro r ⟨⟩ hflag
        exact hreusable hflag
    | _ => exact truthful_receipt (by simp [resultOf])
  · -- Nothing was submitted, or the job is not done: the call writes its own result.
    apply truthful_receipt
    intro r hr
    cases call with
    | execute stream refused | close | release =>
      simp only [resultOf, hread, if_false, Option.getD_none] at hr
      cases hr
      exact ⟨rfl, rfl⟩
    | _ => cases hr

theorem collect_kept (h : c.Kept) (careful : c.Prudent .collect) (hd : c.collect = some d) :
    d.Kept := by
  unfold collect at hd
  split at hd
  next call code submitted hstage =>
    have honest := collect_truthful h hstage careful
    obtain ⟨handle, hhandle⟩ := c.takeHandle_eq call code submitted
    rw [hhandle] at hd
    cases hd
    refine (h.caller c.opened handle c.gone).leave ?_ ?_ honest ?_ ?_ ?_
    · simp [hstage, RuntimeStage.watching]
    · simp [hstage, RuntimeStage.watchingClose]
    · rintro rfl
      exact h.settled call submitted hstage
    · intro hclose hreleased
      obtain rfl := RuntimeCall.close_of_isClose hclose
      by_cases hread : submitted = true ∧ c.jobDone = true
      · obtain ⟨job, hjob, hdone⟩ := jobDone_iff.mp hread.2
        exact h.alone hjob hdone
      · have hread' : ¬ (submitted = true ∧
            ({ c with handle := handle } : RuntimeContext).jobDone = true) := hread
        simp [resultOf, hread'] at hreleased
    · rintro ⟨hsame, hdone⟩ hclosed
      have hsame : c.stage = .collecting .close .ok true := hsame
      rw [hstage] at hsame
      injection hsame with hcall hcode hsubmitted
      subst hcall hcode hsubmitted
      obtain ⟨-, job, hjob, hreleased⟩ := h.closed hclosed
      have hdone : c.jobDone = true := hdone
      have hresult : c.resultOf .close .ok true = some job.result := by
        simp [resultOf, hdone, hjob]
      exact ⟨rfl, rfl, job.result, hresult, hreleased⟩
  · cases hd

theorem destroy_kept (h : c.Kept) (careful : c.Prudent .destroy) (hd : c.destroy = some d) :
    d.Kept := by
  have hstep : c.step .destroy = some d := hd
  have hheld := h.toHeld.step hstep
  unfold destroy at hd
  split at hd
  next hstage =>
    split_ifs at hd with hend
    cases hd
    obtain ⟨-, hclosed, -⟩ := hend
    -- A close that nobody gave up on has reported.
    obtain ⟨entry, hentry, hreleased⟩ :
        ∃ entry, .returned entry ∈ c.history ∧ entry.Released := by
      rcases h.reported hclosed with habandoned | hentry | hwait | ⟨hwait, -⟩
      · have hnot : c.abandoned = false := careful
        simp [hnot] at habandoned
      · exact hentry
      · simp [hstage, RuntimeStage.watchingClose] at hwait
      · simp [hstage] at hwait
    refine ⟨hheld, h.closer, fun _ => ?_, ?_, h.receipts.ended hentry hreleased⟩
    · exact .inr (.inl ⟨entry, List.mem_append_left _ hentry, hreleased⟩)
    · intro other hother hcode
      apply h.doubted other _ hcode
      simpa using hother
  · cases hd

/-! ## Runs -/

/-- **Every careful step keeps what must be kept.** -/
theorem step_kept (h : c.Kept) {action : RuntimeAction} (careful : c.Prudent action)
    (hd : c.step action = some d) : d.Kept := by
  cases action with
  | refuse call old => exact refuse_kept h careful hd
  | enter call spawned => exact enter_kept h careful hd
  | drained spawned => exact drained_kept h hd
  | drainExpired => exact drainExpired_kept h careful hd
  | woken => exact woken_kept h hd
  | expire => exact expire_kept h hd
  | giveUp => exact giveUp_kept h hd
  | collect => exact collect_kept h careful hd
  | destroy => exact destroy_kept h careful hd
  | ask => exact h.turned (ask_turned h.toHeld hd)
  | hear reply => exact h.turned (hear_turned h.toHeld hd)
  | work outcome touched => exact h.turned (work_turned h.toHeld hd)
  | finish => exact h.turned (finish_turned h.toHeld hd)
  | complete => exact h.turned (complete_turned h.toHeld hd)

/-- **Every careful run keeps what must be kept.** -/
theorem run_kept {actions : List RuntimeAction} (h : c.Kept) (careful : c.CarefulRun actions)
    (hrun : c.run actions = some d) : d.Kept := by
  induction actions generalizing c with
  | nil =>
    cases hrun
    exact h
  | cons action actions ih =>
    rw [run, List.foldlM_cons] at hrun
    cases hstep : c.step action with
    | none => simp [hstep] at hrun
    | some next =>
      rw [hstep] at hrun
      obtain ⟨hone, hrest⟩ := careful
      rw [hstep] at hrest
      exact ih (step_kept h hone hstep) hrest hrun

/-- A careful run from a new context leaves truthful receipts, and while a call is unresolved
nothing but a close gets a worker. -/
theorem receipts_of_careful (rank : ℕ) (config : GroupConfig) (actions : List RuntimeAction)
    (d : RuntimeContext) (careful : (fresh rank config).CarefulRun actions)
    (hrun : (fresh rank config).run actions = some d) : Receipts d.history :=
  (run_kept (fresh_kept rank config) careful hrun).receipts

/-! ### A lone rank -/

/-- The group of the example, with one rank. -/
def loneGroup : GroupConfig := ⟨"group", 1, []⟩

/-- The schedule of the example. -/
def loneManifest : WorkManifest := ⟨"version", "contract", 0⟩

/-- A lone rank asks and hears itself. -/
def echo (payload : ControlPayload) : List RuntimeAction := [.ask, .hear (.ok [payload])]

/-- The worker ends, and then the call returns. -/
def endsInTime : List RuntimeAction := [.finish, .complete, .woken, .collect]

/-- The wait of the call expires, and its worker ends before the call looks again. -/
def endsLate : List RuntimeAction := [.expire, .finish, .complete, .giveUp, .collect]

/-- `init` and `prepare`. -/
def lonePrepared : List RuntimeAction :=
  [.enter .init true] ++ echo [("rank", .number 0), ("ranks", .number 1)] ++
    echo [("config", .config loneGroup)] ++ endsInTime ++
  [.enter (.prepare (.ok loneManifest)) true] ++
    echo [("error", .null), ("version", .text "version"), ("contract", .text "contract")] ++
    [.work none false] ++ echo [("error", .null)] ++ [.work none false] ++
    echo [("uid", .text communicatorId)] ++ [.work none false, .work none false] ++
    echo [("error", .null), ("version", .text "version"), ("contract", .text "contract")] ++
    [.work none false] ++ endsInTime

/-- The identity of the first request. -/
def loneIdentity : ControlPayload :=
  [("request", .number 1), ("attempt", .number 0), ("version", .text "version"),
    ("contract", .text "contract")]

/-- The worker of `execute` on the stream 7, up to its end. -/
def loneExecuted : List RuntimeAction :=
  [.enter (.execute 7 none) true, .work none false, .work none false] ++
    echo (loneIdentity ++ [("error", .null)]) ++ [.work none false] ++
    echo loneIdentity ++ echo loneIdentity ++ [.work none false] ++
    echo loneIdentity ++ echo loneIdentity ++
    [.work none false, .work none false, .work none false] ++
    echo (loneIdentity ++ [("error", .text ""), ("gpu_completed", .flag true)]) ++
    [.work none false] ++ echo (loneIdentity ++ [("error", .null)]) ++ [.work none false] ++
    echo (loneIdentity ++ [("error", .null)]) ++ [.work none false]

/-- `close` and `destroy`. -/
def loneDestroyed : List RuntimeAction :=
  [.enter .close true, .drained true, .work none false, .work none false, .work none false,
    .work none false, .work none false, .work none false] ++ endsInTime ++ [.destroy]

/-- A lone rank that executes once in time and then goes. -/
theorem receipts_of_careful_lone : ∃ d,
    (fresh 0 loneGroup).run (lonePrepared ++ loneExecuted ++ endsInTime ++ loneDestroyed) = some d ∧
      Receipts d.history := by
  have hrun : ((fresh 0 loneGroup).run
      (lonePrepared ++ loneExecuted ++ endsInTime ++ loneDestroyed)).isSome = true := by
    decide +kernel
  refine ⟨_, (Option.some_get hrun).symm, ?_⟩
  exact receipts_of_careful 0 loneGroup _ _ (by decide +kernel) (Option.some_get hrun).symm

/-- **A late receipt**: the public wait expires just before the worker ends, so the call
returns `VERICCL_UNRESOLVED` with a result that says `VERICCL_OK` and gives the buffers back. -/
theorem late_receipt_untruthful :
    ¬ ∀ (rank : ℕ) (config : GroupConfig) (actions : List RuntimeAction) (d : RuntimeContext),
      (fresh rank config).run actions = some d → Receipts d.history := by
  intro hall
  have hlate : ((fresh 0 loneGroup).run (lonePrepared ++ loneExecuted ++ endsLate)).any
      (fun d => d.history.any fun
        | .returned entry => decide (entry.code = .unresolved) &&
            entry.result.any fun r => r.buffersReusable && decide (r.code = .ok)
        | _ => false) = true := by
    decide +kernel
  obtain ⟨d, hd, hevent⟩ := (Option.any_eq_true _ _).mp hlate
  obtain ⟨event, hmem, hevent⟩ := List.any_eq_true.mp hevent
  cases event with
  | returned entry =>
    simp only [Bool.and_eq_true, decide_eq_true_eq] at hevent
    obtain ⟨r, hr, hflag⟩ := (Option.any_eq_true _ _).mp hevent.2
    simp only [Bool.and_eq_true, decide_eq_true_eq] at hflag
    have hok := ((hall 0 loneGroup _ d hd).truthful entry hmem).promised r hr
      (reusable_promises hflag.1)
    rw [hevent.1] at hok
    cases hok
  | accepted call => cases hevent
  | destroyed => cases hevent

end RuntimeContext

end VeriCCL
