import VeriCCL.Lockstep
import VeriCCL.RuntimeContext

/-! # All ranks execute

`execute_until` on every rank of a group whose contexts are idle, while every control
exchange succeeds (`Lockstep`) and no public wait expires.  Then there is one thing a rank
can do next (`RuntimeContext.executeMove`), and only the order in which the ranks take their
turns is open.

What a rank's devices say of its buffers is part of its request; the other device calls
succeed. -/
namespace VeriCCL

/-- What one rank passes to `execute`: `refused` is what `validate_buffers` throws for its
buffers, `inspected` what the look at their memory and the wait for their stream throw. -/
structure ExecuteRequest where
  stream : ℕ
  refused : Option String
  inspected : Option RuntimeFailure

namespace ExecuteRequest

/-- Nothing is wrong with the buffers. -/
def Valid (request : ExecuteRequest) : Prop :=
  request.refused = none ∧ request.inspected = none

/-- The public call. -/
def call (request : ExecuteRequest) : RuntimeCall := .execute request.stream request.refused

/-- What the rank reports of its own buffers. -/
def report (request : ExecuteRequest) : Option String :=
  match request.refused with
  | some error => some error
  | none => request.inspected.map (·.message)

/-- What the devices answer at a point. -/
def deviceOutcome (request : ExecuteRequest) : RuntimePoint → Option RuntimeFailure
  | .inspect _ => request.inspected
  | _ => none

end ExecuteRequest

namespace RuntimeContext

/-- An idle context with a schedule that can be executed. -/
structure Ready (c : RuntimeContext) : Prop where
  stage : c.stage = .idle
  worker : c.worker = none
  opened : c.opened = true
  gone : c.gone = false
  closed : c.closed = false
  busy : c.busy = false
  uncertain : c.uncertain = false
  buffersRetained : c.buffersRetained = false
  requestActive : c.requestActive = false
  guard : c.guard = none
  transport : c.transport = some false
  handle : c.handle = true
  loaded : c.version.isSome = true
  schedule : c.live.ready = true
  comm : c.live.comm = true
  gpuComplete : c.live.gpuComplete = true

/-- The context once its call is entered. -/
def executing (c : RuntimeContext) (request : ExecuteRequest) : RuntimeContext :=
  (c.enter request.call true).getD c

/-- The worker waits for the other ranks. -/
def waiting (c : RuntimeContext) : Bool :=
  match c.worker with
  | some (.asked _) => true
  | _ => false

/-- What the worker does by itself, or else the call. -/
def executeMove (request : ExecuteRequest) (c : RuntimeContext) : Option RuntimeContext :=
  match c.worker with
  | some (.at point) =>
    match c.exchange point with
    | some _ => c.ask
    | none => c.work (request.deviceOutcome point) false
  | some (.finishing _) => c.finish
  | some .completing => c.complete
  | some (.asked _) => none
  | none =>
    match c.stage with
    | .waiting _ => c.woken
    | .collecting _ _ _ => c.collect
    | _ => none

/-- The worker hears what all ranks asked. -/
def hearAll (c : RuntimeContext) (values : List (String × ControlPayload)) : Option RuntimeContext :=
  c.hear (.ok (values.map (·.2)))

end RuntimeContext

/-- A rank that executes a request. -/
def executeParty (request : ExecuteRequest) :
    Lockstep.Party RuntimeContext (String × ControlPayload) where
  asked := RuntimeContext.asked
  waits := RuntimeContext.waiting
  move := RuntimeContext.executeMove request
  hear := RuntimeContext.hearAll

/-- The payload of a rank in `REQUEST_PREPARE`. -/
def preparePayload (identity : ControlPayload) (error : Option String) : ControlPayload :=
  identity ++ [("error", .ofError error)]

theorem preparePayload_at (c : RuntimeContext) (number : ℕ) (error : Option String) {key : String}
    (hkey : key ∈ RuntimeContext.identityKeys) :
    ∃ value, ControlPayload.at (preparePayload (c.identity number) error) key = .ok value := by
  simp only [RuntimeContext.identityKeys, List.mem_cons, List.not_mem_nil, or_false] at hkey
  rcases hkey with rfl | rfl | rfl | rfl
  · exact ⟨_, rfl⟩
  · exact ⟨_, rfl⟩
  · exact ⟨_, rfl⟩
  · exact ⟨_, rfl⟩

namespace RuntimeContext

variable {c : RuntimeContext} {request : ExecuteRequest}

/-- A request that is entered. -/
theorem Ready.executing_eq (h : c.Ready) : c.executing request =
    { c with
      opened := true
      busy := true
      job := some {}
      worker := some (.at (.check request.stream request.refused))
      stage := .waiting request.call
      history := c.history ++ [.accepted request.call] } := by
  simp [executing, enter, ExecuteRequest.call, h.stage, callable, h.gone, h.opened, h.handle,
    entered, submit, h.closed, h.busy, h.uncertain, begin]

/-- One turn of a rank that executes. -/
abbrev executeNext (request : ExecuteRequest) (answers : ℕ → List (String × ControlPayload))
    (c : RuntimeContext) : Option RuntimeContext :=
  (executeParty request).next (fun m => some (answers m)) c

section Turns
variable {answers : ℕ → List (String × ControlPayload)} {point : RuntimePoint} {phase : String}
  {payload : ControlPayload}

theorem next_ask (hworker : c.worker = some (.at point))
    (hexchange : c.exchange point = some (phase, payload)) (htransport : c.transport = some false) :
    executeNext request answers c =
      some { c with
        asked := c.asked ++ [(phase, payload)]
        worker := some (.asked point) } := by
  simp [executeNext, Lockstep.Party.next, executeParty, waiting, executeMove, ask, hworker, hexchange,
    htransport]

theorem next_work (hworker : c.worker = some (.at point)) (hexchange : c.exchange point = none) :
    executeNext request answers c = some (c.act point (request.deviceOutcome point) false).taken := by
  simp [executeNext, Lockstep.Party.next, executeParty, waiting, executeMove, work, hworker, hexchange]

theorem next_hear (hworker : c.worker = some (.asked point))
    (hexchange : c.exchange point = some (phase, payload))
    (hbrings : c.Brings payload (.ok ((answers (c.asked.length - 1)).map (·.2)))) :
    executeNext request answers c =
      some (c.answer point (.ok ((answers (c.asked.length - 1)).map (·.2)))).taken := by
  simp [executeNext, Lockstep.Party.next, executeParty, waiting, hearAll, hear, hworker, hexchange,
    hbrings]

theorem next_finish {failure : Option RuntimeFailure}
    (hworker : c.worker = some (.finishing failure)) :
    executeNext request answers c = c.finish := by
  simp [executeNext, Lockstep.Party.next, executeParty, waiting, executeMove, hworker]

theorem next_complete (hworker : c.worker = some .completing) :
    executeNext request answers c = c.complete := by
  simp [executeNext, Lockstep.Party.next, executeParty, waiting, executeMove, hworker]

theorem next_woken {call : RuntimeCall} (hworker : c.worker = none) (hstage : c.stage = .waiting call) :
    executeNext request answers c = c.woken := by
  simp [executeNext, Lockstep.Party.next, executeParty, waiting, executeMove, hworker, hstage]

theorem next_collect {call : RuntimeCall} {code : VericclCode} {submitted : Bool}
    (hworker : c.worker = none) (hstage : c.stage = .collecting call code submitted) :
    executeNext request answers c = c.collect := by
  simp [executeNext, Lockstep.Party.next, executeParty, waiting, executeMove, hworker, hstage]

theorem next_idle (hworker : c.worker = none) (hstage : c.stage = .idle) :
    executeNext request answers c = none := by
  simp [executeNext, Lockstep.Party.next, executeParty, waiting, executeMove, hworker, hstage]

end Turns

section Return
variable {job : RuntimeJob} {failure : Option RuntimeFailure}

/-- The job of an operation that has ended so. -/
def endedJob (c : RuntimeContext) (job : RuntimeJob) (failure : Option RuntimeFailure) :
    RuntimeJob :=
  { job with
    code := c.codeAfter failure
    result := { c.resultIdentity job.result with
      code := c.codeAfter failure
      message := messageOf failure } }

/-- An operation has ended: what its worker leaves. -/
def ended (c : RuntimeContext) (job : RuntimeJob) (failure : Option RuntimeFailure) :
    RuntimeContext :=
  { c with
    uncertain := c.uncertainAfter failure
    message := messageOf failure
    busy := false
    worker := none
    job := some { c.endedJob job failure with done := true } }

/-- The call of an operation that has ended returns. -/
def afterReturn (c : RuntimeContext) (request : ExecuteRequest) (job : RuntimeJob)
    (failure : Option RuntimeFailure) : RuntimeContext :=
  (c.ended job failure).leave request.call (c.codeAfter failure)
    (some (c.endedJob job failure).result)

/-- The way from the end of an operation to the return of its call. -/
def wayBack (c : RuntimeContext) (request : ExecuteRequest) (job : RuntimeJob)
    (failure : Option RuntimeFailure) : List RuntimeContext :=
  [{ c with worker := some (.finishing failure) },
    { c.ended job failure with
      worker := some .completing
      job := some (c.endedJob job failure) },
    c.ended job failure,
    { c.ended job failure with stage := .collecting request.call (c.codeAfter failure) true },
    c.afterReturn request job failure]

variable (hjob : c.job = some job) (hstage : c.stage = .waiting request.call)
  {answers : ℕ → List (String × ControlPayload)}
include hjob hstage

theorem wayBack_chain :
    (c.wayBack request job failure).IsChain fun a b => executeNext request answers a = some b := by
  unfold wayBack
  refine .cons_cons ?_ (.cons_cons ?_ (.cons_cons ?_ (.cons_cons ?_ (.singleton _))))
  · rw [next_finish rfl]
    simp [finish, ended, endedJob, hjob, uncertainAfter, codeAfter, resultIdentity]
  · rw [next_complete rfl]
    simp [complete, ended]
  · rw [next_woken (c := c.ended job failure) rfl hstage]
    simp [woken, ended, hstage, endedJob]
  · rw [next_collect rfl rfl]
    simp [collect, takeHandle, resultOf, ExecuteRequest.call, afterReturn, jobDone, ended, leave]

omit hjob hstage in
theorem wayBack_last :
    (c.wayBack request job failure).getLast? = some (c.afterReturn request job failure) := rfl

omit hjob hstage in
theorem afterReturn_last : executeNext request answers (c.afterReturn request job failure) = none :=
  next_idle rfl rfl

omit hjob in
/-- The way back asks nothing, and ends idle. -/
theorem wayBack_mem {t : RuntimeContext} (ht : t ∈ c.wayBack request job failure) :
    t.asked = c.asked ∧ (t.stage = .idle → t = c.afterReturn request job failure) := by
  unfold wayBack at ht
  simp only [List.mem_cons, List.not_mem_nil, or_false] at ht
  rcases ht with rfl | rfl | rfl | rfl | rfl
  · exact ⟨rfl, fun h => by simp [hstage] at h⟩
  · exact ⟨rfl, fun h => by simp [ended, hstage] at h⟩
  · exact ⟨rfl, fun h => by simp [ended, hstage] at h⟩
  · exact ⟨rfl, fun h => by cases h⟩
  · exact ⟨rfl, fun _ => rfl⟩

end Return

/-! ## A round that is rejected -/

section Rejection

/-- The worker has let the caller's buffers in. -/
def guarded (c : RuntimeContext) (request : ExecuteRequest) : RuntimeContext :=
  { c.executing request with
    guard := some request.stream
    buffersRetained := true
    worker := some (.at (.inspect request.stream)) }

/-- The context before it asks whether all ranks are prepared. -/
def prepared (c : RuntimeContext) (request : ExecuteRequest) : RuntimeContext :=
  { (match request.refused, request.inspected with
      | some _, _ => c.executing request
      | none, some _ => c.guarded request
      | none, none =>
        ((c.guarded request).seenIdle request.stream).mark (.prepared c.nextRequest request.stream)) with
    worker := some (.at (.requestPrepare request.stream request.report)) }

/-- The question of a rank. -/
def question (c : RuntimeContext) (request : ExecuteRequest) : String × ControlPayload :=
  ("REQUEST_PREPARE", preparePayload (c.identity c.nextRequest) request.report)

/-- The context that has asked. -/
def asking (c : RuntimeContext) (request : ExecuteRequest) : RuntimeContext :=
  { c.prepared request with
    asked := c.asked ++ [c.question request]
    worker := some (.asked (.requestPrepare request.stream request.report)) }

/-- What is the same before and after the question as before the call. -/
structure Asks (c : RuntimeContext) (request : ExecuteRequest) (t : RuntimeContext) : Prop where
  rank : t.rank = c.rank
  config : t.config = c.config
  closed : t.closed = false
  uncertain : t.uncertain = false
  retained : t.buffersRetained = decide (request.refused = none)
  requestActive : t.requestActive = false
  nextRequest : t.nextRequest = c.nextRequest
  requestId : t.requestId = c.requestId
  attempt : t.attempt = c.attempt
  successes : t.successes = c.successes
  committed : t.committed = c.committed
  transport : t.transport = some false
  version : t.version = c.version
  handle : t.handle = true
  opened : t.opened = true
  gone : t.gone = false
  guard : request.refused ≠ none → t.guard = none
  job : t.job = some {}
  stage : t.stage = .waiting request.call
  asked : t.asked = c.asked
  marks : ∃ new, t.marks = c.marks ++ new ∧ ∀ number, .enqueued number ∉ new
  history : t.history = c.history ++ [.accepted request.call]

theorem Ready.prepared_asks (h : c.Ready) : c.Asks request (c.prepared request) := by
  obtain ⟨stream, refused, inspected⟩ := request
  unfold prepared guarded
  rw [h.executing_eq]
  cases refused with
  | some error =>
    exact ⟨rfl, rfl, h.closed, h.uncertain, h.buffersRetained, h.requestActive, rfl, rfl, rfl, rfl, rfl,
      h.transport, rfl, h.handle, rfl, h.gone, fun _ => h.guard, rfl, rfl, rfl, ⟨[], by simp⟩, rfl⟩
  | none =>
    cases inspected with
    | some failure =>
      exact ⟨rfl, rfl, h.closed, h.uncertain, rfl, h.requestActive, rfl, rfl, rfl, rfl, rfl, h.transport, rfl,
        h.handle, rfl, h.gone, fun hne => absurd rfl hne, rfl, rfl, rfl, ⟨[], by simp⟩, rfl⟩
    | none =>
      exact ⟨rfl, rfl, h.closed, h.uncertain, rfl, h.requestActive, rfl, rfl, rfl, rfl, rfl, h.transport, rfl,
        h.handle, rfl, h.gone, fun hne => absurd rfl hne, rfl, rfl, rfl,
        ⟨[.prepared c.nextRequest stream], rfl, by simp⟩, rfl⟩

theorem Asks.exchange {t : RuntimeContext} (h : c.Asks request t) :
    t.exchange (.requestPrepare request.stream request.report) = some (c.question request) := by
  simp [RuntimeContext.exchange, question, preparePayload, identity, live, h.nextRequest, h.version]

section Way
variable {failure : RuntimeFailure} {answers : ℕ → List (String × ControlPayload)}

end Way

/-- **The call of a rank left its context as it was**, and returned that the request is
invalid. -/
structure LeftAlone (c : RuntimeContext) (request : ExecuteRequest) (t : RuntimeContext) : Prop where
  code : ∃ entry, t.history = c.history ++ [.accepted request.call, .returned entry] ∧
    entry.call = request.call ∧ entry.code = .invalid
  enqueued : ∃ new, t.marks = c.marks ++ new ∧ ∀ number, .enqueued number ∉ new
  uncertain : t.uncertain = c.uncertain
  busy : t.busy = c.busy
  buffersRetained : t.buffersRetained = c.buffersRetained
  requestActive : t.requestActive = c.requestActive
  nextRequest : t.nextRequest = c.nextRequest
  requestId : t.requestId = c.requestId
  attempt : t.attempt = c.attempt
  successes : t.successes = c.successes
  committed : t.committed = c.committed

section Outcome
variable {failure : RuntimeFailure}

/-- A rank whose own buffers were let in is uncertain when the ranks refuse to go on. -/
theorem Ready.uncertain_after (h : c.Ready) (hinvalid : failure.invalid = true) :
    (c.asking request).uncertainAfter (some failure) = decide (request.refused = none) := by
  have hasks : c.Asks request (c.prepared request) := h.prepared_asks
  show ((c.prepared request).uncertain || (_ && ((c.prepared request).buffersRetained ||
    (c.prepared request).requestActive || (c.prepared request).transport.getD false))) = _
  rw [hasks.uncertain, hasks.retained, hasks.requestActive, hasks.transport]
  simp [codeOf, hinvalid]

theorem Ready.code_after (h : c.Ready) (hinvalid : failure.invalid = true) :
    (c.asking request).codeAfter (some failure) =
      if request.refused = none then .unresolved else .invalid := by
  unfold codeAfter
  rw [h.uncertain_after hinvalid]
  by_cases hrefused : request.refused = none
  · simp [hrefused, codeOf, hinvalid]
  · simp [hrefused, codeOf, hinvalid]

/-- What the history of a rank says of its call. -/
theorem Ready.history_after (h : c.Ready) : ∃ entry,
    ((c.asking request).afterReturn request {} (some failure)).history =
      c.history ++ [.accepted request.call, .returned entry] ∧
    entry.call = request.call ∧ entry.code = (c.asking request).codeAfter (some failure) := by
  have hhistory : ∃ entry, ((c.asking request).afterReturn request {} (some failure)).history =
      (c.prepared request).history ++ [.returned entry] ∧ entry.call = request.call ∧
        entry.code = (c.asking request).codeAfter (some failure) := ⟨_, rfl, rfl, rfl⟩
  rw [h.prepared_asks.history] at hhistory
  simpa only [List.append_assoc, List.singleton_append] using hhistory

/-- **A rank whose own buffers were refused is left alone.** -/
theorem Ready.leftAlone (h : c.Ready) (hinvalid : failure.invalid = true)
    (hrefused : request.refused ≠ none) :
    c.LeftAlone request ((c.asking request).afterReturn request {} (some failure)) := by
  have hasks : c.Asks request (c.prepared request) := h.prepared_asks
  have hcode : (c.asking request).codeAfter (some failure) =
      if request.refused = none then .unresolved else .invalid := h.code_after hinvalid
  rw [if_neg hrefused] at hcode
  refine ⟨?_, hasks.marks, ?_, h.busy.symm, ?_, ?_, hasks.nextRequest, hasks.requestId, hasks.attempt,
    hasks.successes, hasks.committed⟩
  · obtain ⟨entry, hhistory, hcall, hentry⟩ := h.history_after
    exact ⟨entry, hhistory, hcall, hentry.trans hcode⟩
  · show (c.asking request).uncertainAfter _ = _
    rw [h.uncertain_after hinvalid, h.uncertain]
    simpa using hrefused
  · show (c.prepared request).buffersRetained = _
    rw [hasks.retained, h.buffersRetained]
    simpa using hrefused
  · show (c.prepared request).requestActive = _
    rw [hasks.requestActive, h.requestActive]

/-- A rank whose own buffers were refused is as ready as before. -/
theorem Ready.again (h : c.Ready) (hinvalid : failure.invalid = true)
    (hrefused : request.refused ≠ none) :
    ((c.asking request).afterReturn request {} (some failure)).Ready := by
  have hasks : c.Asks request (c.prepared request) := h.prepared_asks
  have hleft := h.leftAlone hinvalid hrefused
  have hlive : (c.prepared request).live = c.live := by
    unfold live
    rw [hasks.version]
  exact
    { stage := rfl
      worker := rfl
      opened := hasks.opened
      gone := hasks.gone
      closed := hasks.closed
      busy := rfl
      uncertain := hleft.uncertain.trans h.uncertain
      buffersRetained := hleft.buffersRetained.trans h.buffersRetained
      requestActive := hasks.requestActive
      guard := hasks.guard hrefused
      transport := hasks.transport
      handle := hasks.handle
      loaded := (congrArg Option.isSome hasks.version).trans h.loaded
      schedule := (congrArg RuntimeVersion.ready hlive).trans h.schedule
      comm := (congrArg RuntimeVersion.comm hlive).trans h.comm
      gpuComplete := (congrArg RuntimeVersion.gpuComplete hlive).trans h.gpuComplete }

end Outcome

end Rejection

end RuntimeContext

/-! ## The group -/

section Group
variable {ranks : ℕ} {contexts t : ℕ → RuntimeContext} {requests : ℕ → ExecuteRequest}
  {order : List ℕ}

open RuntimeContext

end Group

end VeriCCL
