import VeriCCL.RuntimeContext

/-! # Who owns the caller's buffers

What holds of a context between any two of its steps (`RuntimeContext.Held`): work that may
still be on a stream is work on the stream that the guard holds; a guard is held only with
the buffers retained; and buffers are retained only while an execution runs, or with the
context uncertain, so that it accepts nothing but `close`.  A turn of the worker
(`RuntimeContext.Turned`) keeps this and leaves alone what belongs to the call. -/
namespace VeriCCL

/-- The result promises something to the caller. -/
def VericclResult.promises (result : VericclResult) : Bool :=
  result.outputValid || result.buffersReusable || result.resourcesReleased

/-- The points of `execute_until`. -/
def RuntimePoint.executing : RuntimePoint → Bool
  | .check _ _ | .inspect _ | .requestPrepare _ _ | .activate _ _ | .executeReady _ _
  | .executeAck _ _ | .commit _ _ | .start _ _ | .startAck _ _ | .launch _ _ | .waitEvent _
  | .elapsed _ | .outcome _ _ | .evidence _ | .completionEvidence _ _ | .releaseGuard _
  | .completionRelease _ _ | .succeed _ => true
  | _ => false

/-- The points of `close_until`. -/
def RuntimePoint.closing : RuntimePoint → Bool
  | .closeBegin | .stopWait | .stopAbort | .closeComm | .closeEvents | .closeDeadline
  | .closeGuard | .closeDone => true
  | _ => false

/-- What the guard holds at a point: until the launch the stream of the call, from its
release on nothing, and nothing outside of an execution and a close. -/
def RuntimePoint.Holds (guard : Option ℕ) : RuntimePoint → Prop
  | .inspect stream | .requestPrepare stream none | .activate stream _ | .executeReady stream _
  | .executeAck stream _ | .commit stream _ | .start stream _ | .startAck stream _
  | .launch stream _ => guard = some stream
  | .requestPrepare _ (some _) | .waitEvent _ | .elapsed _ | .outcome _ _ | .evidence _
  | .completionEvidence _ _ | .releaseGuard _ | .completionRelease _ (some _)
  | .closeBegin | .stopWait | .stopAbort | .closeComm | .closeEvents | .closeDeadline
  | .closeGuard => True
  | _ => guard = none

namespace RuntimePosition

/-- The point of an operation that the worker is at. -/
def point? : RuntimePosition → Option RuntimePoint
  | .at point | .asked point => some point
  | _ => none

/-- The operation has not ended. -/
def running : RuntimePosition → Bool
  | .completing => false
  | _ => true

/-- Buffers may be retained without the context being uncertain. -/
def holding : RuntimePosition → Bool
  | .at point | .asked point => point.executing
  | .finishing failure => failure.isSome
  | .completing => false

/-- The worker is inside of a close. -/
def closing : RuntimePosition → Bool
  | .at point | .asked point => point.closing
  | _ => false

end RuntimePosition

/-- The call waits for its worker. -/
def RuntimeStage.watching : RuntimeStage → Bool
  | .waiting _ | .expired _ => true
  | _ => false

/-- The call is a close that waits for its worker. -/
def RuntimeStage.watchingClose : RuntimeStage → Bool
  | .waiting call | .expired call => call.isClose
  | _ => false

/-- No call waits for a worker. -/
def RuntimeStage.Free (stage : RuntimeStage) : Prop :=
  stage.watching = false ∧ stage.watchingClose = false ∧
    ∀ call code, stage ≠ .collecting call code true

theorem RuntimeCall.close_of_isClose {call : RuntimeCall} (h : call.isClose = true) :
    call = .close := by
  cases call with
  | close => rfl
  | _ => cases h

namespace RuntimeContext

/-- A context as `vericcl_init` makes it. -/
def fresh (rank : ℕ) (config : GroupConfig) : RuntimeContext := { rank := rank, config := config }

/-- What the worker and the call keep. -/
structure Held (c : RuntimeContext) : Prop where
  -- the streams
  pending : ∀ stream, c.pending stream → c.guard = some stream
  retained : c.guard ≠ none → c.buffersRetained = true
  unsettled : c.buffersRetained = true ∨ c.requestActive = true →
    c.uncertain = true ∨ ∃ position, c.worker = some position ∧ position.holding = true
  holds : ∀ position point, c.worker = some position → position.point? = some point →
    point.Holds c.guard
  -- the worker
  busy : c.busy = (c.worker.map (·.running)).getD false
  working : c.worker ≠ none → ∃ job, c.job = some job ∧ job.done = false
  watched : c.worker ≠ none → c.uncertain = true ∨ c.stage.watching = true
  -- the job
  promised : ∀ job ∈ c.job, job.result.promises = true →
    c.worker = some (.finishing none) ∨
      job.code = .ok ∧ (c.worker = none ∨ c.worker = some .completing)
  reusable : ∀ job ∈ c.job, job.result.buffersReusable = true → ∀ stream, ¬ c.pending stream
  coded : ∀ job ∈ c.job, c.worker = some .completing ∨ job.done = true → job.result.code = job.code
  doubt : ∀ job ∈ c.job, job.code = .unresolved → c.uncertain = true
  -- the call
  settled : ∀ call submitted, c.stage = .collecting call .unresolved submitted → c.uncertain = true
  collected : ∀ call code, c.stage = .collecting call code true → code = .unresolved ∨
    c.worker = none ∧ ∀ job ∈ c.job, job.done = true → job.code = code
  -- the end
  closed : c.closed = true → c.guard = none ∧ ∃ job, c.job = some job ∧
    job.result.resourcesReleased = true

theorem fresh_held (rank : ℕ) (config : GroupConfig) : (fresh rank config).Held := by
  constructor <;> simp [fresh]

variable {c d : RuntimeContext}

theorem jobDone_iff : c.jobDone = true ↔ ∃ job, c.job = some job ∧ job.done = true := by
  unfold jobDone
  cases c.job <;> simp

/-- A job that is done has no worker. -/
theorem Held.alone (h : c.Held) {job : RuntimeJob} (hjob : c.job = some job)
    (hdone : job.done = true) : c.worker = none := by
  by_contra hworker
  obtain ⟨other, hother, hrunning⟩ := h.working hworker
  obtain rfl : job = other := by simpa [hjob] using hother
  simp [hdone] at hrunning

/-- A worker that has not ended its operation has promised nothing. -/
theorem Held.quiet (h : c.Held) {position : RuntimePosition} {point : RuntimePoint}
    (hw : c.worker = some position) (hp : position.point? = some point) :
    ∀ job ∈ c.job, job.result.promises = false := by
  intro job hjob
  by_contra hpromises
  rw [Bool.not_eq_false] at hpromises
  rcases h.promised job hjob hpromises with hend | ⟨-, hnone | hend⟩ <;> rw [hw] at *
  · cases hend
    cases hp
  · cases hnone
  · cases hend
    cases hp

theorem releases_promises {result : VericclResult} (h : result.resourcesReleased = true) :
    result.promises = true := by simp [VericclResult.promises, h]

theorem reusable_promises {result : VericclResult} (h : result.buffersReusable = true) :
    result.promises = true := by simp [VericclResult.promises, h]

/-- A worker inside of an operation has not closed the context. -/
theorem Held.unclosed (h : c.Held) {position : RuntimePosition} {point : RuntimePoint}
    (hw : c.worker = some position) (hp : position.point? = some point) : c.closed = false := by
  by_contra hclosed
  rw [Bool.not_eq_false] at hclosed
  obtain ⟨-, job, hjob, hreleased⟩ := h.closed hclosed
  have hquiet := h.quiet hw hp job hjob
  rw [releases_promises hreleased] at hquiet
  cases hquiet

/-! ## A turn of the worker -/

/-- The worker leaves alone what belongs to the call. -/
structure Framed (c d : RuntimeContext) : Prop where
  stage : d.stage = c.stage
  busy : d.busy = c.busy
  abandoned : d.abandoned = c.abandoned
  history : d.history = c.history
  uncertain : c.uncertain = true → d.uncertain = true
  job : ∀ old, c.job = some old → ∃ job, d.job = some job ∧ job.done = old.done ∧ job.code = old.code
  noJob : c.job = none → d.job = none

/-- Every job after a turn comes from the job before. -/
theorem Framed.origin (f : Framed c d) {job : RuntimeJob} (hjob : d.job = some job) :
    ∃ old, c.job = some old ∧ job.done = old.done ∧ job.code = old.code := by
  cases hold : c.job with
  | none =>
    have := f.noJob hold
    simp [hjob] at this
  | some old =>
    obtain ⟨other, hother, hdone, hcode⟩ := f.job old hold
    obtain rfl : job = other := by simpa [hjob] using hother
    exact ⟨old, rfl, hdone, hcode⟩

/-- A turn of the worker keeps what must be kept when it minds the guard and the promises. -/
theorem Held.turn {old new : RuntimePosition} {point : RuntimePoint} (h : c.Held)
    (hw : c.worker = some old) (hold : old.point? = some point)
    (hd : d.worker = some new) (hnew : new.running = true) (f : Framed c d)
    (pending : ∀ stream, d.pending stream → d.guard = some stream)
    (retained : d.guard ≠ none → d.buffersRetained = true)
    (unsettled : d.buffersRetained = true ∨ d.requestActive = true →
      d.uncertain = true ∨ new.holding = true)
    (holds : ∀ next, new.point? = some next → next.Holds d.guard)
    (promised : ∀ job ∈ d.job, job.result.promises = true → new = .finishing none)
    (reusable : ∀ job ∈ d.job, job.result.buffersReusable = true → ∀ stream, ¬ d.pending stream)
    (closed : d.closed = true → d.guard = none ∧ ∃ job, d.job = some job ∧
      job.result.resourcesReleased = true) : d.Held where
  pending := pending
  retained := retained
  unsettled hsome := (unsettled hsome).imp id fun hholding => ⟨new, hd, hholding⟩
  holds position next hposition hnext := by
    obtain rfl : new = position := by simpa [hd] using hposition
    exact holds next hnext
  busy := by
    have hrunning : old.running = true := by
      cases old with
      | completing => cases hold
      | _ => rfl
    rw [f.busy, h.busy, hw, hd]
    simp [hnew, hrunning]
  working _ := by
    obtain ⟨job, hjob, hdone⟩ := h.working (by simp [hw])
    obtain ⟨job', hjob', hdone', -⟩ := f.job job hjob
    exact ⟨job', hjob', hdone'.trans hdone⟩
  watched _ := by
    rw [f.stage]
    exact (h.watched (by simp [hw])).imp f.uncertain id
  promised job hjob hpromises := by
    left
    rw [hd, promised job hjob hpromises]
  reusable := reusable
  coded job hjob hend := by
    exfalso
    obtain ⟨before, hbefore, hdone, -⟩ := f.origin hjob
    rcases hend with hend | hend
    · obtain rfl : new = .completing := by simpa [hd] using hend
      cases hnew
    · have := h.alone hbefore (hdone ▸ hend)
      simp [hw] at this
  doubt job hjob hcode := by
    obtain ⟨before, hbefore, -, hsame⟩ := f.origin hjob
    exact f.uncertain (h.doubt before hbefore (hsame ▸ hcode))
  settled call submitted hstage := f.uncertain (h.settled call submitted (f.stage ▸ hstage))
  collected call code hstage := by
    rcases h.collected call code (f.stage ▸ hstage) with hcode | ⟨hnone, -⟩
    · exact .inl hcode
    · simp [hw] at hnone
  closed := closed

/-- **What a turn of the worker does to a context**: it keeps what must be kept, leaves alone
what belongs to the call, and only a close gets into a close and closes. -/
structure Turned (c d : RuntimeContext) : Prop where
  held : d.Held
  stage : d.stage = c.stage
  abandoned : d.abandoned = c.abandoned
  history : d.history = c.history
  uncertain : c.uncertain = true → d.uncertain = true
  done : c.jobDone = true → d.jobDone = true
  closing : ∀ position, d.worker = some position → position.closing = true →
    ∃ old, c.worker = some old ∧ old.closing = true
  closed : d.closed = true → c.closed = true ∨ ∃ old, c.worker = some old ∧ old.closing = true

/-- What of a context the ownership of the buffers rests on. -/
structure Ownership where
  stage : RuntimeStage
  busy : Bool
  abandoned : Bool
  history : List RuntimeEvent
  uncertain : Bool
  job : Option RuntimeJob
  closed : Bool
  pending : ℕ → Prop
  guard : Option ℕ
  buffersRetained : Bool
  requestActive : Bool

/-- The ownership of a context. -/
def owned (c : RuntimeContext) : Ownership where
  stage := c.stage
  busy := c.busy
  abandoned := c.abandoned
  history := c.history
  uncertain := c.uncertain
  job := c.job
  closed := c.closed
  pending := c.pending
  guard := c.guard
  buffersRetained := c.buffersRetained
  requestActive := c.requestActive

/-- A turn inside of an operation minds the guard, and promises nothing. -/
structure Minds (point : RuntimePoint) (c d : RuntimeContext) : Prop where
  framed : Framed c d
  pending : ∀ stream, d.pending stream → d.guard = some stream
  retained : d.guard ≠ none → d.buffersRetained = true
  unsettled : d.buffersRetained = true ∨ d.requestActive = true →
    d.uncertain = true ∨ point.executing = true
  quiet : ∀ job ∈ d.job, job.result.promises = false
  unclosed : d.closed = false

theorem framed_refl (c : RuntimeContext) : Framed c c where
  stage := rfl
  busy := rfl
  abandoned := rfl
  history := rfl
  uncertain := id
  job old hold := ⟨old, hold, rfl, rfl⟩
  noJob := id

/-- What the ownership does not rest on may change. -/
theorem Minds.same {point : RuntimePoint} {e : RuntimeContext} (m : Minds point c d)
    (same : e.owned = d.owned) : Minds point c e := by
  have hjob : e.job = d.job := congrArg Ownership.job same
  have huncertain : e.uncertain = d.uncertain := congrArg Ownership.uncertain same
  have hguard : e.guard = d.guard := congrArg Ownership.guard same
  have hretained : e.buffersRetained = d.buffersRetained := congrArg Ownership.buffersRetained same
  constructor
  · constructor
    · exact (congrArg Ownership.stage same).trans m.framed.stage
    · exact (congrArg Ownership.busy same).trans m.framed.busy
    · exact (congrArg Ownership.abandoned same).trans m.framed.abandoned
    · exact (congrArg Ownership.history same).trans m.framed.history
    · exact fun h => huncertain ▸ m.framed.uncertain h
    · exact hjob ▸ m.framed.job
    · exact hjob ▸ m.framed.noJob
  · rw [hguard, show e.pending = d.pending from congrArg Ownership.pending same]
    exact m.pending
  · rw [hguard, hretained]
    exact m.retained
  · rw [hretained, huncertain,
      show e.requestActive = d.requestActive from congrArg Ownership.requestActive same]
    exact m.unsettled
  · exact hjob ▸ m.quiet
  · exact (congrArg Ownership.closed same).trans m.unclosed

/-- The worker writes down something that is no promise. -/
theorem Framed.jobs (f : Framed c d) {g : RuntimeJob → RuntimeJob}
    (hdone : ∀ job, (g job).done = job.done) (hcode : ∀ job, (g job).code = job.code) :
    Framed c { d with job := d.job.map g } where
  stage := f.stage
  busy := f.busy
  abandoned := f.abandoned
  history := f.history
  uncertain := f.uncertain
  job old hold := by
    obtain ⟨job, hjob, hd, hc⟩ := f.job old hold
    exact ⟨g job, by simp [hjob], (hdone job).trans hd, (hcode job).trans hc⟩
  noJob hnone := by simp [f.noJob hnone]

theorem Minds.jobs {point : RuntimePoint} (m : Minds point c d) {g : RuntimeJob → RuntimeJob}
    (hdone : ∀ job, (g job).done = job.done) (hcode : ∀ job, (g job).code = job.code)
    (hpromises : ∀ job, (g job).result.promises = job.result.promises) :
    Minds point c { d with job := d.job.map g } where
  framed := m.framed.jobs hdone hcode
  pending := m.pending
  retained := m.retained
  unsettled := m.unsettled
  quiet job hjob := by
    obtain ⟨old, hold, rfl⟩ := Option.map_eq_some_iff.mp hjob
    rw [hpromises]
    exact m.quiet old hold
  unclosed := m.unclosed

/-- The context becomes uncertain. -/
theorem Minds.doubtful {point : RuntimePoint} (m : Minds point c d) :
    Minds point c { d with uncertain := true } where
  framed := ⟨m.framed.stage, m.framed.busy, m.framed.abandoned, m.framed.history, fun _ => rfl,
    m.framed.job, m.framed.noJob⟩
  pending := m.pending
  retained := m.retained
  unsettled _ := .inl rfl
  quiet := m.quiet
  unclosed := m.unclosed

/-- A stream is seen idle. -/
theorem Minds.seenIdle {point : RuntimePoint} (m : Minds point c d) (stream : ℕ) :
    Minds point c (d.seenIdle stream) where
  framed := ⟨m.framed.stage, m.framed.busy, m.framed.abandoned, m.framed.history,
    m.framed.uncertain, m.framed.job, m.framed.noJob⟩
  pending other hother := m.pending other hother.2
  retained := m.retained
  unsettled := m.unsettled
  quiet := m.quiet
  unclosed := m.unclosed

/-- The stream of the guard is seen idle and the guard goes. -/
theorem Minds.unguarded {point : RuntimePoint} (m : Minds point c d) :
    Minds point c { d.seenIdle (d.guard.getD 0) with guard := none } where
  framed := ⟨m.framed.stage, m.framed.busy, m.framed.abandoned, m.framed.history,
    m.framed.uncertain, m.framed.job, m.framed.noJob⟩
  pending other hother := by
    -- Work is left on the stream of the guard only, and that one is idle.
    have hguard := m.pending other hother.2
    exact absurd (by simp [hguard]) hother.1
  retained hguard := absurd rfl hguard
  unsettled := m.unsettled
  quiet := m.quiet
  unclosed := m.unclosed

section Turns

variable {position : RuntimePosition} {point : RuntimePoint}

/-- A worker that has done nothing yet has minded everything. -/
theorem Held.minds (h : c.Held) (hw : c.worker = some position)
    (hp : position.point? = some point) : Minds point c c where
  framed := framed_refl c
  pending := h.pending
  retained := h.retained
  unsettled hsome := by
    refine (h.unsettled hsome).imp id ?_
    rintro ⟨other, hother, hholding⟩
    obtain rfl : position = other := by simpa [hw] using hother
    cases position <;> cases hp <;> exact hholding
  quiet := h.quiet hw hp
  unclosed := h.unclosed hw hp

/-- A worker that is about has a job that is not done. -/
theorem Held.undone (h : c.Held) (hw : c.worker = some position) : c.jobDone = false := by
  by_contra hdone
  rw [Bool.not_eq_false] at hdone
  obtain ⟨job, hjob, hdone⟩ := jobDone_iff.mp hdone
  have hnone := h.alone hjob hdone
  simp [hw] at hnone

/-- A turn that minds everything, wherever the worker goes. -/
theorem Minds.turn (m : Minds point c d) (h : c.Held) (hw : c.worker = some position)
    (hp : position.point? = some point) {new : RuntimePosition} (running : new.running = true)
    (holding : point.executing = true → new.holding = true)
    (holds : ∀ next, new.point? = some next → next.Holds d.guard)
    (closing : new.closing = true → position.closing = true) :
    Turned c { d with worker := some new } where
  held := by
    refine h.turn hw hp rfl running ?_ m.pending m.retained ?_ holds ?_ ?_ ?_
    · exact ⟨m.framed.stage, m.framed.busy, m.framed.abandoned, m.framed.history,
        m.framed.uncertain, m.framed.job, m.framed.noJob⟩
    · exact fun hsome => (m.unsettled hsome).imp id holding
    · intro job hjob hpromises
      rw [m.quiet job hjob] at hpromises
      cases hpromises
    · intro job hjob hreusable
      have hquiet := m.quiet job hjob
      rw [reusable_promises hreusable] at hquiet
      cases hquiet
    · intro hclosed
      have hopen : d.closed = true := hclosed
      rw [m.unclosed] at hopen
      cases hopen
  stage := m.framed.stage
  abandoned := m.framed.abandoned
  history := m.framed.history
  uncertain := m.framed.uncertain
  done hdone := by
    rw [h.undone hw] at hdone
    cases hdone
  closing other hother hclosing := by
    obtain rfl : new = other := by simpa using hother
    exact ⟨position, hw, closing hclosing⟩
  closed hclosed := by
    have hopen : d.closed = true := hclosed
    rw [m.unclosed] at hopen
    cases hopen

/-- The worker goes to the next point of its operation. -/
theorem Minds.goto {e : RuntimeContext} {next : RuntimePoint} (m : Minds point c d) (h : c.Held)
    (hw : c.worker = some position) (hp : position.point? = some point)
    (same : e.owned = d.owned) (holds : next.Holds e.guard)
    (executing : next.executing = point.executing) (closing : next.closing = point.closing) :
    Turned c (Turn.goto e next).taken := by
  have hclosing : position.closing = point.closing := by
    cases position <;> cases hp <;> rfl
  refine (m.same same).turn h hw hp rfl executing.trans ?_ ?_
  · intro other hother
    obtain rfl : next = other := by simpa [RuntimePosition.point?] using hother
    exact holds
  · exact fun hnext => hclosing.trans (closing.symm.trans hnext)

/-- The operation fails. -/
theorem Minds.throw {e : RuntimeContext} (m : Minds point c d) (h : c.Held)
    (hw : c.worker = some position) (hp : position.point? = some point)
    (same : e.owned = d.owned) (failure : RuntimeFailure) :
    Turned c (Turn.throw e failure).taken :=
  (m.same same).turn h hw hp rfl (fun _ => rfl) (fun _ hnext => nomatch hnext)
    (fun hclosing => nomatch hclosing)

/-- The operation succeeds; the last point may have promised something. -/
theorem Held.succeeds (h : c.Held) (hw : c.worker = some position)
    (hp : position.point? = some point) (f : Framed c d)
    (guard : d.guard = none) (pending : ∀ stream, ¬ d.pending stream)
    (settled : d.buffersRetained = true ∨ d.requestActive = true → d.uncertain = true)
    (closed : d.closed = true → point.closing = true ∧ ∃ job, d.job = some job ∧
      job.result.resourcesReleased = true) : Turned c (Turn.finish d).taken where
  held := by
    refine h.turn hw hp rfl rfl ?_ ?_ ?_ ?_ ?_ ?_ ?_ ?_
    · exact ⟨f.stage, f.busy, f.abandoned, f.history, f.uncertain, f.job, f.noJob⟩
    · exact fun stream hstream => absurd hstream (pending stream)
    · exact fun hguard => absurd guard hguard
    · exact fun hsome => .inl (settled hsome)
    · intro other hother
      cases hother
    · exact fun _ _ _ => rfl
    · exact fun _ _ _ => pending
    · exact fun hclosed => ⟨guard, (closed hclosed).2⟩
  stage := f.stage
  abandoned := f.abandoned
  history := f.history
  uncertain := f.uncertain
  done hdone := by
    rw [h.undone hw] at hdone
    cases hdone
  closing other hother hclosing := by
    cases hother
    cases hclosing
  closed hclosed := by
    right
    refine ⟨position, hw, ?_⟩
    have hclosing : position.closing = point.closing := by
      cases position <;> cases hp <;> rfl
    exact hclosing.trans (closed hclosed).1

end Turns

/-! ## The points of an operation -/

section Points

variable {position : RuntimePosition} {point : RuntimePoint}

/-- Nothing is reported with an error when the ranks are unanimous. -/
theorem unanimous_clean {values : List ControlPayload} {keys : List String}
    (h : unanimous values keys = .ok ()) {value : ControlPayload} (hvalue : value ∈ values) :
    Dict.get? value "error" = none ∨ Dict.get? value "error" = some .null := by
  have hone := Checked.forM_ok.mp h value hvalue
  cases herror : Dict.get? value "error" with
  | none => exact .inl rfl
  | some error =>
    simp only [herror] at hone
    cases error with
    | null => exact .inr rfl
    | _ => simp at hone

/-- A rank whose own payload has an error is not unanimous with the others. -/
theorem unanimous_error {values : List ControlPayload} {keys : List String}
    {request : ℕ} {error : String} (hown : c.identity request ++ [("error", .text error)] ∈ values) :
    unanimous values keys ≠ .ok () := by
  intro h
  have hclean := unanimous_clean h hown
  simp [identity, Dict.get?] at hclean

/-- Outside of an execution nothing is retained unless the context is uncertain. -/
theorem Held.unheld (h : c.Held) (hw : c.worker = some position)
    (hp : position.point? = some point) (hpoint : point.executing = false) :
    c.buffersRetained = true ∨ c.requestActive = true → c.uncertain = true := by
  intro hsome
  rcases (h.minds hw hp).unsettled hsome with huncertain | hexecuting
  · exact huncertain
  · rw [hpoint] at hexecuting
    cases hexecuting

/-- Without a guard no work is left. -/
theorem Held.clear (h : c.Held) (hguard : c.guard = none) (stream : ℕ) : ¬ c.pending stream := by
  intro hstream
  have := h.pending stream hstream
  rw [hguard] at this
  cases this

/-- A check passes, or the operation fails. -/
theorem after_turned {check : Except RuntimeFailure Unit} {next : Turn}
    (failed : ∀ failure, Turned c (Turn.throw d failure).taken)
    (passed : check = .ok () → Turned c next.taken) :
    Turned c (Turn.after d check next).taken := by
  cases check with
  | error failure => exact failed failure
  | ok _ => exact passed rfl

/-- A call of a device or a file succeeds, or the operation fails. -/
theorem unless_turned {outcome : Option RuntimeFailure} {next : Turn}
    (failed : ∀ failure, Turned c (Turn.throw d failure).taken) (passed : Turned c next.taken) :
    Turned c (Turn.unless outcome d next).taken := by
  cases outcome with
  | some failure => exact failed failure
  | none => exact passed

/-- What is destroyed was not there, or is destroyed, or the operation fails. -/
theorem destroying_turned {held : Bool} {outcome : Option RuntimeFailure} {next : Turn}
    (failed : ∀ failure,
      Turned c (Turn.throw (d.setVersion fun v => { v with releaseFailed := true }) failure).taken)
    (passed : Turned c next.taken) : Turned c (destroying held outcome d next).taken := by
  cases held with
  | false => exact passed
  | true =>
    cases outcome with
    | some failure => exact failed failure
    | none => exact passed

/-- **The answers of the other ranks**: a rank that reported an error goes no further, since
its own payload is among the answers. -/
theorem answer_turned (h : c.Held) (hw : c.worker = some position)
    (hp : position.point? = some point) {phase : String} {payload : ControlPayload}
    (hasks : c.exchange point = some (phase, payload))
    {reply : Except RuntimeFailure (List ControlPayload)}
    (own : ∀ values, reply = .ok values → payload ∈ values) :
    Turned c (c.answer point reply).taken := by
  have m := h.minds hw hp
  have hholds := h.holds position point hw hp
  cases reply with
  | error failure =>
    have m := m.same (e := { c with transport := c.transport.map fun _ => true }) rfl
    cases point with
    | start stream request | startAck stream request => exact m.goto h hw hp rfl trivial rfl rfl
    | _ => exact m.throw h hw hp rfl failure
  | ok values =>
    have hown := own values rfl
    cases point with
    | membership =>
      refine after_turned (m.throw h hw hp rfl) fun _ => ?_
      exact m.goto h hw hp rfl hholds rfl rfl
    | configure =>
      refine after_turned (m.throw h hw hp rfl) fun _ => ?_
      exact h.succeeds hw hp m.framed hholds (h.clear hholds) (h.unheld hw hp rfl)
        fun hclosed => by simp [m.unclosed] at hclosed
    | validate parsed =>
      refine after_turned (m.throw h hw hp rfl) fun _ => ?_
      cases hversion : c.version with
      | none => exact m.goto h hw hp rfl hholds rfl rfl
      | some version =>
        simp only
        split
        · exact m.throw h hw hp rfl _
        · have f := m.framed.jobs (g := fun job => { job with version := true })
            (fun _ => rfl) fun _ => rfl
          exact h.succeeds hw hp ⟨rfl, rfl, rfl, rfl, id, f.job, f.noJob⟩ hholds
            (h.clear hholds) (h.unheld hw hp rfl) fun hclosed => by simp [m.unclosed] at hclosed
    | admission spec error =>
      exact after_turned (m.throw h hw hp rfl) fun _ => m.goto h hw hp rfl hholds rfl rfl
    | identify => exact after_turned (m.throw h hw hp rfl) fun _ => m.goto h hw hp rfl hholds rfl rfl
    | ready error =>
      simp only [answer]
      split
      · exact m.doubtful.throw h hw hp rfl _
      · exact m.goto h hw hp rfl hholds rfl rfl
    | requestPrepare stream error =>
      refine after_turned (m.throw h hw hp rfl) fun hunanimous => ?_
      cases error with
      | some error =>
        cases hasks
        exact absurd hunanimous (unanimous_error hown)
      | none => exact m.goto h hw hp rfl hholds rfl rfl
    | executeReady stream request | executeAck stream request =>
      exact after_turned (m.throw h hw hp rfl) fun _ => m.goto h hw hp rfl hholds rfl rfl
    | start stream request | startAck stream request =>
      simp only [answer]
      split
      · exact m.goto h hw hp rfl trivial rfl rfl
      · exact m.goto h hw hp rfl hholds rfl rfl
    | outcome request error =>
      exact after_turned (m.throw h hw hp rfl) fun _ => m.goto h hw hp rfl trivial rfl rfl
    | completionEvidence request error =>
      exact after_turned (m.throw h hw hp rfl) fun _ => m.goto h hw hp rfl trivial rfl rfl
    | completionRelease request error =>
      refine after_turned (m.throw h hw hp rfl) fun hunanimous => ?_
      cases error with
      | some error =>
        cases hasks
        exact absurd hunanimous (unanimous_error hown)
      | none => exact m.goto h hw hp rfl hholds rfl rfl
    | traceAsk action => exact after_turned (m.throw h hw hp rfl) fun _ => m.goto h hw hp rfl hholds rfl rfl
    | releaseAsk => exact after_turned (m.throw h hw hp rfl) fun _ => m.goto h hw hp rfl hholds rfl rfl
    | _ => exact m.throw h hw hp rfl _

/-- **What the worker does by itself.** -/
theorem act_turned (h : c.Held) (hw : c.worker = some position)
    (hp : position.point? = some point) (outcome : Option RuntimeFailure) (touched : Bool) :
    Turned c (c.act point outcome touched).taken := by
  have m := h.minds hw hp
  have hholds := h.holds position point hw hp
  have unclosed : c.closed = true → False := fun hclosed => by simp [m.unclosed] at hclosed
  cases point with
  | reserve spec => exact m.goto h hw hp rfl hholds rfl rfl
  | adopt spec =>
    have m := m.same (e := { c with version := some { spec := spec }, versionCount := 1 }) rfl
    exact unless_turned (m.throw h hw hp rfl) (m.goto h hw hp rfl hholds rfl rfl)
  | commInit =>
    cases outcome with
    | some failure => exact m.goto h hw hp rfl hholds rfl rfl
    | none => exact m.goto h hw hp rfl hholds rfl rfl
  | residency => exact m.goto h hw hp rfl hholds rfl rfl
  | becomeReady =>
    have m' := (m.same (e := c.setVersion fun v => { v with ready := true }) rfl).jobs
      (g := fun job => { job with version := true }) (fun _ => rfl) (fun _ => rfl) fun _ => rfl
    refine unless_turned (m'.throw h hw hp rfl) ?_
    exact h.succeeds hw hp m'.framed hholds (h.clear hholds) (h.unheld hw hp rfl)
      fun hclosed => (unclosed hclosed).elim
  | check stream refused =>
    simp only [act]
    split
    · exact m.goto h hw hp rfl trivial rfl rfl
    · cases refused with
      | some error => exact m.goto h hw hp rfl trivial rfl rfl
      | none =>
        have m' : Minds (.check stream none) c
            { c with guard := some stream, buffersRetained := true } :=
          ⟨⟨rfl, rfl, rfl, rfl, id, m.framed.job, id⟩,
            fun other hother => absurd hother (h.clear hholds other), fun _ => rfl,
            fun _ => .inr rfl, m.quiet, m.unclosed⟩
        exact m'.goto h hw hp rfl rfl rfl rfl
  | inspect stream =>
    cases outcome with
    | some failure => exact m.goto h hw hp rfl trivial rfl rfl
    | none => exact (m.seenIdle stream).goto h hw hp rfl hholds rfl rfl
  | activate stream request =>
    have m' : Minds (.activate stream request) c
        { c with requestId := request, attempt := 0, requestActive := true, buffersRetained := true } :=
      ⟨⟨rfl, rfl, rfl, rfl, id, m.framed.job, id⟩, m.pending, fun _ => rfl, fun _ => .inr rfl,
        m.quiet, m.unclosed⟩
    exact m'.goto h hw hp rfl hholds rfl rfl
  | commit stream request => exact m.goto h hw hp rfl hholds rfl rfl
  | launch stream request =>
    have m' : Minds (.launch stream request) c
        { c with pending := fun other => other = stream ∨ c.pending other } :=
      ⟨⟨rfl, rfl, rfl, rfl, id, m.framed.job, id⟩,
        fun other hother => hother.elim (fun hsame => hsame ▸ hholds) (m.pending other),
        m.retained, m.unsettled, m.quiet, m.unclosed⟩
    cases outcome with
    | some failure => exact m'.goto h hw hp rfl trivial rfl rfl
    | none => exact m'.goto h hw hp rfl trivial rfl rfl
  | waitEvent request =>
    cases outcome with
    | some failure => exact m.goto h hw hp rfl trivial rfl rfl
    | none => exact m.goto h hw hp rfl trivial rfl rfl
  | elapsed request =>
    cases outcome with
    | some failure => exact m.goto h hw hp rfl trivial rfl rfl
    | none =>
      exact (m.jobs (g := fun job => { job with result := { job.result with gpuCompleted := true } })
        (fun _ => rfl) (fun _ => rfl) fun _ => rfl).goto h hw hp rfl trivial rfl rfl
  | evidence request =>
    cases outcome with
    | some failure => exact m.goto h hw hp rfl trivial rfl rfl
    | none => exact m.goto h hw hp rfl trivial rfl rfl
  | releaseGuard request =>
    cases outcome with
    | some failure => exact m.goto h hw hp rfl trivial rfl rfl
    | none => exact m.unguarded.goto h hw hp rfl rfl rfl rfl
  | succeed request =>
    refine h.succeeds hw hp ?_ hholds (h.clear hholds) ?_ fun hclosed => (unclosed hclosed).elim
    · have f := (m.framed.jobs (g := fun job =>
        { job with result := { job.result with outputValid := true, buffersReusable := true } })
        (fun _ => rfl) fun _ => rfl)
      exact ⟨rfl, rfl, rfl, rfl, id, f.job, f.noJob⟩
    · rintro (hretained | hactive)
      · cases hretained
      · cases hactive
  | traceCheck action =>
    simp only [act]
    split
    · exact m.throw h hw hp rfl _
    · exact unless_turned (m.throw h hw hp rfl) (m.goto h hw hp rfl hholds rfl rfl)
  | traceApply =>
    refine unless_turned (m.throw h hw hp rfl) ?_
    exact h.succeeds hw hp m.framed hholds (h.clear hholds) (h.unheld hw hp rfl)
      fun hclosed => (unclosed hclosed).elim
  | releaseDevice => exact unless_turned (m.throw h hw hp rfl) (m.goto h hw hp rfl hholds rfl rfl)
  | releaseComm | releaseEvents =>
    exact destroying_turned (m.doubtful.throw h hw hp rfl)
      (m.goto h hw hp rfl hholds rfl rfl)
  | releaseDone =>
    have f := (m.framed.jobs (g := fun job => { job with
      result := { job.result with resourcesReleased := true, buffersReusable := true } })
      (fun _ => rfl) fun _ => rfl)
    exact h.succeeds hw hp ⟨rfl, rfl, rfl, rfl, id, f.job, f.noJob⟩ hholds (h.clear hholds)
      (h.unheld hw hp rfl) fun hclosed => (unclosed hclosed).elim
  | closeBegin =>
    have m := m.same (e := c.mark .closing) rfl
    refine unless_turned (m.throw h hw hp rfl) ?_
    split
    · exact m.goto h hw hp rfl trivial rfl rfl
    · split_ifs
      all_goals first
        | exact m.throw h hw hp rfl _
        | exact m.goto h hw hp rfl trivial rfl rfl
  | stopWait =>
    exact unless_turned (m.throw h hw hp rfl)
      ((m.seenIdle (c.guard.getD 0)).goto h hw hp rfl trivial rfl rfl)
  | stopAbort | closeComm | closeEvents =>
    exact destroying_turned (m.throw h hw hp rfl) (m.goto h hw hp rfl trivial rfl rfl)
  | closeDeadline => exact unless_turned (m.throw h hw hp rfl) (m.goto h hw hp rfl trivial rfl rfl)
  | closeGuard =>
    cases hguard : c.guard with
    | none =>
      simp only [act, hguard]
      exact m.goto h hw hp rfl hguard rfl rfl
    | some stream =>
      simp only [act, hguard]
      have m' := m.unguarded
      rw [hguard] at m'
      exact unless_turned (m.throw h hw hp rfl) (m'.goto h hw hp rfl rfl rfl rfl)
  | closeDone =>
    -- Only here the context becomes closed, and the result says that all is released.
    have f := (m.framed.jobs (g := fun job => { job with
      result := { job.result with resourcesReleased := true, buffersReusable := true } })
      (fun _ => rfl) fun _ => rfl)
    refine h.succeeds hw hp ⟨rfl, rfl, rfl, rfl, id, f.job, f.noJob⟩ hholds (h.clear hholds) ?_ ?_
    · rintro (hretained | hactive)
      · cases hretained
      · cases hactive
    · intro _
      obtain ⟨job, hjob, -⟩ := h.working (by simp [hw])
      exact ⟨rfl, { job with
        result := { job.result with resourcesReleased := true, buffersReusable := true } },
        by simp [setResult, hjob], rfl⟩
  | _ => exact m.throw h hw hp rfl _

end Points

/-! ## The end of an operation -/

theorem codeOf_ok {failure : Option RuntimeFailure} : codeOf failure = .ok ↔ failure = none := by
  cases failure with
  | none => simp [codeOf]
  | some failure =>
    simp only [codeOf, reduceCtorEq, iff_false]
    split <;> simp

theorem codeOf_settled (failure : Option RuntimeFailure) : codeOf failure ≠ .unresolved := by
  cases failure with
  | none => simp [codeOf]
  | some failure =>
    simp only [codeOf]
    split <;> simp

theorem uncertainAfter_mono {failure : Option RuntimeFailure} (h : c.uncertain = true) :
    c.uncertainAfter failure = true := by simp [uncertainAfter, h]

/-- A failure with something retained makes the context uncertain. -/
theorem uncertainAfter_retained {failure : RuntimeFailure}
    (h : c.buffersRetained = true ∨ c.requestActive = true) :
    c.uncertainAfter (some failure) = true := by
  have hfailed : codeOf (some failure) ≠ .ok := by simp [codeOf_ok]
  rcases h with hretained | hactive
  · simp [uncertainAfter, hfailed, hretained]
  · simp [uncertainAfter, hfailed, hactive]

theorem codeAfter_unresolved {failure : Option RuntimeFailure}
    (h : c.codeAfter failure = .unresolved) : c.uncertainAfter failure = true := by
  unfold codeAfter at h
  split at h
  next hboth => exact hboth.1
  next => exact absurd h (codeOf_settled failure)

theorem codeAfter_none : c.codeAfter none = .ok := by simp [codeAfter, codeOf]

/-- The end of an operation: what is still retained makes the context uncertain. -/
theorem finish_turned (h : c.Held) (hd : c.finish = some d) : Turned c d := by
  unfold finish at hd
  split at hd
  next failure hw =>
    obtain ⟨job, hjob, hrunning⟩ := h.working (by simp [hw])
    cases hd
    refine ⟨?_, rfl, rfl, rfl, uncertainAfter_mono, ?_, ?_, .inl⟩
    · constructor
      · exact h.pending
      · exact h.retained
      · intro hsome
        left
        rcases h.unsettled hsome with huncertain | ⟨position, hposition, hholding⟩
        · exact uncertainAfter_mono huncertain
        · obtain rfl : .finishing failure = position := by simpa [hw] using hposition
          cases failure with
          | none => cases hholding
          | some failure => exact uncertainAfter_retained hsome
      · intro position point hposition hpoint
        cases hposition
        cases hpoint
      · rfl
      · exact fun _ => ⟨_, Option.map_eq_some_iff.mpr ⟨job, hjob, rfl⟩, hrunning⟩
      · exact fun _ => (h.watched (by simp [hw])).imp uncertainAfter_mono id
      · intro job' hjob' hpromises
        obtain ⟨old, hold, rfl⟩ := Option.map_eq_some_iff.mp hjob'
        right
        rcases h.promised old hold hpromises with hend | ⟨-, hend | hend⟩
        · obtain rfl : failure = none := by simpa [hw] using hend
          exact ⟨codeAfter_none, .inr rfl⟩
        · simp [hw] at hend
        · simp [hw] at hend
      · intro job' hjob' hreusable
        obtain ⟨old, hold, rfl⟩ := Option.map_eq_some_iff.mp hjob'
        exact h.reusable old hold hreusable
      · intro job' hjob' _
        obtain ⟨old, hold, rfl⟩ := Option.map_eq_some_iff.mp hjob'
        rfl
      · intro job' hjob' hcode
        obtain ⟨old, hold, rfl⟩ := Option.map_eq_some_iff.mp hjob'
        exact codeAfter_unresolved hcode
      · exact fun call submitted hstage => uncertainAfter_mono (h.settled call submitted hstage)
      · intro call code hstage
        rcases h.collected call code hstage with hcode | ⟨hnone, -⟩
        · exact .inl hcode
        · simp [hw] at hnone
      · intro hclosed
        obtain ⟨hguard, old, hold, hreleased⟩ := h.closed hclosed
        exact ⟨hguard, _, Option.map_eq_some_iff.mpr ⟨old, hold, rfl⟩, hreleased⟩
    · intro hdone
      rw [h.undone hw] at hdone
      cases hdone
    · intro position hposition hclosing
      cases hposition
      cases hclosing
  · cases hd

/-- The worker is gone, and the call may go on. -/
theorem complete_turned (h : c.Held) (hd : c.complete = some d) : Turned c d := by
  unfold complete at hd
  split at hd
  next hw =>
    obtain ⟨job, hjob, hrunning⟩ := h.working (by simp [hw])
    cases hd
    refine ⟨?_, rfl, rfl, rfl, id, ?_, ?_, .inl⟩
    · constructor
      · exact h.pending
      · exact h.retained
      · intro hsome
        rcases h.unsettled hsome with huncertain | ⟨position, hposition, hholding⟩
        · exact .inl huncertain
        · obtain rfl : .completing = position := by simpa [hw] using hposition
          cases hholding
      · intro position point hposition
        cases hposition
      · exact h.busy.trans (by simp [hw, RuntimePosition.running])
      · exact fun hworker => absurd rfl hworker
      · exact fun hworker => absurd rfl hworker
      · intro job' hjob' hpromises
        obtain ⟨old, hold, rfl⟩ := Option.map_eq_some_iff.mp hjob'
        rcases h.promised old hold hpromises with hend | ⟨hcode, -⟩
        · simp [hw] at hend
        · exact .inr ⟨hcode, .inl rfl⟩
      · intro job' hjob' hreusable
        obtain ⟨old, hold, rfl⟩ := Option.map_eq_some_iff.mp hjob'
        exact h.reusable old hold hreusable
      · intro job' hjob' _
        obtain ⟨old, hold, rfl⟩ := Option.map_eq_some_iff.mp hjob'
        exact h.coded old hold (.inl hw)
      · intro job' hjob' hcode
        obtain ⟨old, hold, rfl⟩ := Option.map_eq_some_iff.mp hjob'
        exact h.doubt old hold hcode
      · exact h.settled
      · intro call code hstage
        rcases h.collected call code hstage with hcode | ⟨hnone, -⟩
        · exact .inl hcode
        · simp [hw] at hnone
      · intro hclosed
        obtain ⟨hguard, old, hold, hreleased⟩ := h.closed hclosed
        exact ⟨hguard, _, Option.map_eq_some_iff.mpr ⟨old, hold, rfl⟩, hreleased⟩
    · exact fun _ => jobDone_iff.mpr ⟨_, Option.map_eq_some_iff.mpr ⟨job, hjob, rfl⟩, rfl⟩
    · intro position hposition
      cases hposition
  · cases hd

/-- The worker asks, or learns that there is nobody to ask. -/
theorem ask_turned (h : c.Held) (hd : c.ask = some d) : Turned c d := by
  unfold ask at hd
  split at hd
  next point hw =>
    split at hd
    · cases hd
    next phase payload hasks =>
      split_ifs at hd <;> cases hd
      · exact answer_turned h hw rfl hasks (fun values hwrong => nomatch hwrong)
      · have m := (h.minds hw rfl).same
          (e := { c with asked := c.asked ++ [(phase, payload)] }) rfl
        refine m.turn h hw rfl rfl id ?_ id
        rintro next ⟨⟩
        exact h.holds _ point hw rfl
  · cases hd

/-- The worker gets its answers, and its own payload is among them. -/
theorem hear_turned (h : c.Held) {reply : Except RuntimeFailure (List ControlPayload)}
    (hd : c.hear reply = some d) : Turned c d := by
  unfold hear at hd
  split at hd
  next point hw =>
    split at hd
    · cases hd
    next phase payload hasks =>
      split_ifs at hd with hbrings
      cases hd
      refine answer_turned h hw rfl hasks ?_
      rintro values rfl
      exact List.mem_of_getElem? hbrings.2.2
  · cases hd

theorem work_turned (h : c.Held) {outcome : Option RuntimeFailure} {touched : Bool}
    (hd : c.work outcome touched = some d) : Turned c d := by
  unfold work at hd
  split at hd
  next point hw =>
    split at hd <;> cases hd
    exact act_turned h hw rfl outcome touched
  · cases hd

/-! ## The public calls -/

/-- The call goes to another stage. -/
theorem Held.restage (h : c.Held) (stage : RuntimeStage)
    (watched : c.worker ≠ none → c.stage.watching = true →
      c.uncertain = true ∨ stage.watching = true)
    (settled : ∀ call submitted, stage = .collecting call .unresolved submitted →
      c.uncertain = true)
    (collected : ∀ call code, stage = .collecting call code true → code = .unresolved ∨
      c.worker = none ∧ ∀ job ∈ c.job, job.done = true → job.code = code) :
    ({ c with stage := stage } : RuntimeContext).Held where
  pending := h.pending
  retained := h.retained
  unsettled := h.unsettled
  holds := h.holds
  busy := h.busy
  working := h.working
  watched hworker := by
    rcases h.watched hworker with huncertain | hwatching
    · exact .inl huncertain
    · exact watched hworker hwatching
  promised := h.promised
  reusable := h.reusable
  coded := h.coded
  doubt := h.doubt
  settled := settled
  collected := collected
  closed := h.closed

/-- A call between its waits goes to a stage with nothing submitted. -/
theorem Held.refuse (h : c.Held) (hwatching : c.stage.watching = false) {s : RuntimeStage}
    (hstage : ∀ call code, s ≠ .collecting call code true)
    (settled : ∀ call submitted, s = .collecting call .unresolved submitted →
      c.uncertain = true) : ({ c with stage := s } : RuntimeContext).Held := by
  refine h.restage s (fun _ hwait => ?_) settled fun call code hsame => ?_
  · simp [hwatching] at hwait
  · exact absurd hsame (hstage call code)

/-- What the caller sees does not matter to the ownership. -/
theorem Held.caller (h : c.Held) (opened handle gone abandoned : Bool)
    (history : List RuntimeEvent) :
    ({ c with
      opened := opened
      handle := handle
      gone := gone
      abandoned := abandoned
      history := history } : RuntimeContext).Held :=
  ⟨h.pending, h.retained, h.unsettled, h.holds, h.busy, h.working, h.watched, h.promised,
    h.reusable, h.coded, h.doubt, h.settled, h.collected, h.closed⟩

/-- A context may always become uncertain. -/
theorem Held.doubted (h : c.Held) (message : String) :
    ({ c with uncertain := true, message := message } : RuntimeContext).Held :=
  ⟨h.pending, h.retained, fun _ => .inl rfl, h.holds, h.busy, h.working, fun _ => .inl rfl,
    h.promised, h.reusable, h.coded, fun _ _ _ => rfl, fun _ _ _ => rfl, h.collected, h.closed⟩

/-- **Who gets a worker**: an operation on a certain context, or a close whose previous job is
over; and then no other worker is about. -/
theorem Held.unattended (h : c.Held) (hwatching : c.stage.watching = false) {call : RuntimeCall}
    (alone : call.isClose = true → c.worker = none)
    (allowed : ¬(c.uncertain = true ∧ call.isClose = false)) :
    c.worker = none ∧ (call.isClose = true ∨ c.uncertain = false) := by
  have hcertain : call.isClose = true ∨ c.uncertain = false := by
    cases hclose : call.isClose with
    | true => exact .inl rfl
    | false => exact .inr (by simpa [hclose] using allowed)
  refine ⟨?_, hcertain⟩
  rcases hcertain with hclose | hcertain
  · exact alone hclose
  · by_contra hworker
    rcases h.watched hworker with hwrong | hwrong
    · simp [hcertain] at hwrong
    · simp [hwatching] at hwrong

/-- Without a worker a new job takes the place of the old one. -/
theorem Held.newJob (h : c.Held) (hnone : c.worker = none) (hopen : c.closed = false) :
    ({ c with job := some {} } : RuntimeContext).Held where
  pending := h.pending
  retained := h.retained
  unsettled := h.unsettled
  holds := h.holds
  busy := h.busy
  working hworker := absurd hnone hworker
  watched := h.watched
  promised job hjob hpromises := by
    cases hjob
    cases hpromises
  reusable job hjob hreusable := by
    cases hjob
    cases hreusable
  coded job hjob hend := by
    cases hjob
    rcases hend with hend | hend
    · have hsome : c.worker = some .completing := hend
      simp [hnone] at hsome
    · cases hend
  doubt job hjob hcode := by
    cases hjob
    cases hcode
  settled := h.settled
  collected call code hstage := by
    refine (h.collected call code hstage).imp id fun _ => ⟨hnone, fun job hjob hdone => ?_⟩
    cases hjob
    cases hdone
  closed hclosed := by
    have hwrong : c.closed = true := hclosed
    simp [hopen] at hwrong

/-- The worker of a call begins. -/
theorem Held.spawn (h : c.Held) (hnone : c.worker = none) (hopen : c.closed = false)
    {call : RuntimeCall} (hcertain : call.isClose = true ∨ c.uncertain = false) :
    ({ c with
      busy := true
      job := some {}
      worker := some (.at (begin call))
      stage := .waiting call } : RuntimeContext).Held := by
  have hj := h.newJob hnone hopen
  have hsettled : c.buffersRetained = true ∨ c.requestActive = true → c.uncertain = true := by
    intro hsome
    rcases h.unsettled hsome with huncertain | ⟨position, hposition, -⟩
    · exact huncertain
    · simp [hnone] at hposition
  constructor
  · exact h.pending
  · exact h.retained
  · exact fun hsome => .inl (hsettled hsome)
  · intro position point hposition hpoint
    cases hposition
    cases hpoint
    rcases hcertain with hclose | hcertain
    · obtain rfl := RuntimeCall.close_of_isClose hclose
      trivial
    · -- A certain context has no guard.
      have hguard : c.guard = none := by
        by_contra hguard
        have := hsettled (.inl (h.retained hguard))
        simp [hcertain] at this
      cases call <;> first | exact hguard | trivial
  · rfl
  · exact fun _ => ⟨{}, rfl, rfl⟩
  · exact fun _ => .inr rfl
  · intro job hjob hpromises
    cases hjob
    cases hpromises
  · exact hj.reusable
  · intro job hjob hend
    cases hjob
    rcases hend with hend | hend <;> cases hend
  · exact hj.doubt
  · intro other submitted hstage
    cases hstage
  · intro other code hstage
    cases hstage
  · exact hj.closed

/-- **A call is submitted.** -/
theorem Held.submit (h : c.Held) (hwatching : c.stage.watching = false) {call : RuntimeCall}
    (alone : call.isClose = true → c.closed = false → c.worker = none) (spawned : Bool) :
    (c.submit call spawned).Held := by
  unfold RuntimeContext.submit
  split_ifs with hclosed hbusy huncertain hspawned
  · exact h.refuse hwatching (by simp) (by simp)
  · exact h.refuse hwatching (by simp) (by simp)
  · exact h.refuse hwatching (by simp) fun _ _ _ => huncertain.1
  all_goals
    rw [Bool.not_eq_true] at hclosed
    obtain ⟨hnone, hcertain⟩ :=
      h.unattended hwatching (fun hclose => alone hclose hclosed) huncertain
  · exact (h.spawn hnone hclosed hcertain).caller _ _ _ _ _
  · refine (h.newJob hnone hclosed).restage _ (fun hworker => absurd hnone hworker) (by simp) ?_
    intro other code hstage
    refine .inr ⟨hnone, fun job hjob hdone => ?_⟩
    cases hjob
    cases hdone

/-- A call returns. -/
theorem Held.leave (h : c.Held) (hwatching : c.stage.watching = false) (call : RuntimeCall)
    (code : VericclCode) (result : Option VericclResult) : (c.leave call code result).Held :=
  (h.refuse hwatching (s := .idle) (by simp) (by simp)).caller _ _ _ _ _

theorem takeHandle_eq (call : RuntimeCall) (code : VericclCode) (submitted : Bool) :
    ∃ handle, c.takeHandle call code submitted = { c with handle := handle } := by
  cases call with
  | prepare parsed => exact ⟨_, rfl⟩
  | _ => exact ⟨c.handle, rfl⟩

/-- A close that is entered with no job before it has no worker before it. -/
theorem Held.first (h : c.Held) (hjob : ¬(c.job.isSome = true)) : c.worker = none := by
  by_contra hworker
  obtain ⟨job, hsome, -⟩ := h.working hworker
  simp [hsome] at hjob

/-- **Every step keeps what must be kept.** -/
theorem Held.step (h : c.Held) {action : RuntimeAction} (hd : c.step action = some d) :
    d.Held := by
  cases action with
  | refuse call old =>
    simp only [RuntimeContext.step, RuntimeContext.refuse] at hd
    split at hd
    next hstage =>
      cases hd
      exact h.leave (by simp [hstage, RuntimeStage.watching]) _ _ _
    · cases hd
  | enter call spawned =>
    simp only [RuntimeContext.step, enter, entered] at hd
    split at hd
    next hstage =>
      have hwatching : c.stage.watching = false := by simp [hstage, RuntimeStage.watching]
      have hopened := h.caller true c.handle c.gone c.abandoned c.history
      split at hd
      · cases call with
        | close =>
          simp only at hd
          split_ifs at hd with hclosed hjob <;> cases hd
          · exact hopened.leave hwatching _ _ _
          · exact hopened.refuse hwatching (by simp) (by simp)
          · exact hopened.submit hwatching (fun _ _ => h.first hjob) spawned
        | _ =>
          cases hd
          exact hopened.submit hwatching (fun hclose => by cases hclose) spawned
      · cases hd
    · cases hd
  | drained spawned =>
    simp only [RuntimeContext.step, drained] at hd
    split at hd
    next hstage =>
      split_ifs at hd with hdone
      cases hd
      obtain ⟨job, hjob, hdone⟩ := jobDone_iff.mp hdone
      exact h.submit (by simp [hstage, RuntimeStage.watching]) (fun _ _ => h.alone hjob hdone) spawned
    · cases hd
  | drainExpired =>
    simp only [RuntimeContext.step, drainExpired] at hd
    split at hd
    next hstage =>
      split_ifs at hd
      cases hd
      exact h.leave (by simp [hstage, RuntimeStage.watching]) _ _ _
    · cases hd
  | woken =>
    simp only [RuntimeContext.step, woken] at hd
    split at hd
    next call job hstage hjob =>
      split_ifs at hd with hdone
      cases hd
      have hnone := h.alone hjob hdone
      refine h.restage _ (fun hworker => absurd hnone hworker) ?_ ?_
      · intro other submitted hsame
        injection hsame with _ hcode _
        exact h.doubt job hjob hcode
      · intro other code hsame
        injection hsame with _ hcode _
        refine .inr ⟨hnone, fun other hother _ => ?_⟩
        obtain rfl : job = other := by simpa [hjob] using hother
        exact hcode
    · cases hd
  | expire =>
    simp only [RuntimeContext.step, RuntimeContext.expire] at hd
    split at hd
    next call hstage =>
      split_ifs at hd
      cases hd
      exact h.restage _ (fun _ _ => .inr rfl) (by simp) (by simp)
    · cases hd
  | giveUp =>
    simp only [RuntimeContext.step, giveUp] at hd
    split at hd
    next call hstage =>
      cases hd
      refine ((h.doubted _).restage _ (fun _ _ => .inl rfl) (fun _ _ _ => rfl) ?_).caller
        c.opened c.handle c.gone _ c.history
      intro other code hsame
      injection hsame with _ hcode _
      exact .inl hcode.symm
    · cases hd
  | collect =>
    simp only [RuntimeContext.step, collect] at hd
    split at hd
    next call code submitted hstage =>
      obtain ⟨handle, hhandle⟩ := c.takeHandle_eq call code submitted
      rw [hhandle] at hd
      cases hd
      exact (h.caller c.opened handle c.gone c.abandoned c.history).leave
        (by simp [hstage, RuntimeStage.watching]) _ _ _
    · cases hd
  | destroy =>
    simp only [RuntimeContext.step, destroy] at hd
    split at hd
    next hstage =>
      split_ifs at hd
      cases hd
      exact h.caller c.opened c.handle true c.abandoned _
    · cases hd
  | ask => exact (ask_turned h hd).held
  | hear reply => exact (hear_turned h hd).held
  | work outcome touched => exact (work_turned h hd).held
  | finish => exact (finish_turned h hd).held
  | complete => exact (complete_turned h hd).held

end RuntimeContext

end VeriCCL
