import VeriCCL.Checked
import VeriCCL.Dict

/-! # A runtime context

`runtime/execution/api.cc` and `execute_impl.h`: one rank of a group.  A public call hands
its operation to a worker thread and waits for it; when the wait expires the call returns
while the worker goes on.  The worker and the caller share the context under one lock, so a
step here is what one of them does between two of its locks (`RuntimeContext.work`,
`RuntimeContext.call`), in any order.

A point of a worker's operation (`RuntimePoint`) either asks the other ranks
(`RuntimePoint.exchange`) and goes on with their answers (`RuntimeContext.answer`), or does
something of its own that may throw (`RuntimeContext.act`).  What the devices, the other
ranks and the files do is up to the step; a step that throws carries the text. -/
namespace VeriCCL

/-- `VericclCode`. -/
inductive VericclCode where
  | ok
  | invalid
  | busy
  | timeout
  | unresolved
  | failed
  | closed
  deriving DecidableEq

/-- `VericclResult`, without its times. -/
structure VericclResult where
  code : VericclCode := .ok
  gpuCompleted : Bool := false
  outputValid : Bool := false
  buffersReusable : Bool := false
  resourcesReleased : Bool := false
  requestId : ℕ := 0
  attempt : ℕ := 0
  logicalSuccesses : ℕ := 0
  versionId : String := ""
  message : String := ""
  deriving DecidableEq

/-- What an operation throws: `std::invalid_argument`, or another exception. -/
structure RuntimeFailure where
  invalid : Bool
  message : String
  deriving DecidableEq

/-- `std::invalid_argument`. -/
def invalidArgument (message : String) : RuntimeFailure := ⟨true, message⟩

/-- `std::runtime_error`. -/
def runtimeError (message : String) : RuntimeFailure := ⟨false, message⟩

/-! ## What the ranks tell one another -/

/-- The configuration that `INIT` compares. -/
structure GroupConfig where
  group : String
  ranks : ℕ
  timeouts : List String
  deriving DecidableEq

/-- A value of a control payload. -/
inductive PayloadValue where
  | null
  | number (value : ℕ)
  | flag (value : Bool)
  | text (value : String)
  | config (value : GroupConfig)
  deriving DecidableEq

/-- A control payload: an object. -/
abbrev ControlPayload := List (String × PayloadValue)

/-- `value.at(key)`. -/
def ControlPayload.at (payload : ControlPayload) (key : String) :
    Except RuntimeFailure PayloadValue :=
  Checked.required (Dict.get? payload key) (runtimeError "key not found")

/-- The `error` of a payload: a text or null. -/
def PayloadValue.ofError : Option String → PayloadValue
  | none => .null
  | some error => .text error

/-- `unanimous`: no payload has an error, and all have the values of the first one. -/
def unanimous (values : List ControlPayload) (keys : List String) : Except RuntimeFailure Unit :=
  forM values fun value => do
    match Dict.get? value "error" with
    | none | some PayloadValue.null => pure ()
    | some (PayloadValue.text error) => throw (invalidArgument ("rank rejected phase: " ++ error))
    | some _ => throw (runtimeError "type must be string")
    forM keys fun key => do
      let mine ← ControlPayload.at value key
      let first ← ControlPayload.at (values.head?.getD []) key
      Checked.ensure (mine = first) (invalidArgument ("rank contract mismatch: " ++ key))

/-! ## The context -/

/-- `WorkSpec`, as far as the operations read it. -/
structure WorkManifest where
  version : String
  contract : String
  traceRecords : ℕ
  deriving DecidableEq

/-- `Version`. -/
structure RuntimeVersion where
  spec : WorkManifest
  comm : Bool := false
  events : Bool := false
  ready : Bool := false
  commInitialized : Bool := false
  eventRecorded : Bool := false
  gpuComplete : Bool := true
  releaseFailed : Bool := false

/-- `Job`: what the worker leaves for the call. -/
structure RuntimeJob where
  done : Bool := false
  code : VericclCode := .failed
  result : VericclResult := {}
  version : Bool := false

/-- A public call with its checked arguments.  `parsed` is the manifest that
`WorkSpec::parse` and the admission return, or what they throw; `refused` is what
`validate_buffers` throws for the buffers, if it does. -/
inductive RuntimeCall where
  | init
  | prepare (parsed : Except String WorkManifest)
  | execute (stream : ℕ) (refused : Option String)
  | traceControl (action : ℕ)
  | release
  | close

/-- This is `close`. -/
def RuntimeCall.isClose : RuntimeCall → Bool
  | .close => true
  | _ => false

/-- The calls that write a result. -/
def RuntimeCall.hasResult : RuntimeCall → Bool
  | .execute _ _ | .release | .close => true
  | _ => false

/-- A point of an operation.  `request` is the number of the request, `error` what the rank
has to report. -/
inductive RuntimePoint where
  -- `vericcl_init`
  | membership
  | configure
  -- `prepare_until`
  | validate (parsed : Except String WorkManifest)
  | reserve (spec : WorkManifest)
  | admission (spec : WorkManifest) (error : Option String)
  | adopt (spec : WorkManifest)
  | identify
  | commInit
  | residency
  | ready (error : Option String)
  | becomeReady
  -- `execute_until`
  | check (stream : ℕ) (refused : Option String)
  | inspect (stream : ℕ)
  | requestPrepare (stream : ℕ) (error : Option String)
  | activate (stream request : ℕ)
  | executeReady (stream request : ℕ)
  | executeAck (stream request : ℕ)
  | commit (stream request : ℕ)
  | start (stream request : ℕ)
  | startAck (stream request : ℕ)
  | launch (stream request : ℕ)
  | waitEvent (request : ℕ)
  | elapsed (request : ℕ)
  | outcome (request : ℕ) (error : String)
  | evidence (request : ℕ)
  | completionEvidence (request : ℕ) (error : Option String)
  | releaseGuard (request : ℕ)
  | completionRelease (request : ℕ) (error : Option String)
  | succeed (request : ℕ)
  -- `trace_control_until`
  | traceCheck (action : ℕ)
  | traceAsk (action : ℕ)
  | traceApply
  -- `release_until`
  | releaseAsk
  | releaseDevice
  | releaseComm
  | releaseEvents
  | releaseDone
  -- `close_until`
  | closeBegin
  | stopWait
  | stopAbort
  | closeComm
  | closeEvents
  | closeDeadline
  | closeGuard
  | closeDone

/-- What a worker is about to do: a point of its operation, or the answers of a point that
has been asked, or the end of the operation, or the last notice to the call. -/
inductive RuntimePosition where
  | at (point : RuntimePoint)
  | asked (point : RuntimePoint)
  | finishing (failure : Option RuntimeFailure)
  | completing

/-- What happened at a rank, for the request of that number. -/
inductive RuntimeMark where
  | prepared (request stream : ℕ)
  | activated (request : ℕ)
  | enqueued (request : ℕ)
  | observed (request : ℕ)
  | recorded (request : ℕ)
  | released (request : ℕ)
  | completed (request : ℕ)
  | closing
  deriving DecidableEq

/-- How far the public call is: it waits for the previous job, or for its own, or its wait
has expired, or it has its code. -/
inductive RuntimeStage where
  | idle
  | draining
  | waiting (call : RuntimeCall)
  | expired (call : RuntimeCall)
  | collecting (call : RuntimeCall) (code : VericclCode) (submitted : Bool)

/-- What a call returns: its code, the result it leaves, and the context at that moment: is
a worker running, and is every stream idle after the last work that was put on it. -/
structure RuntimeReturn where
  call : RuntimeCall
  code : VericclCode
  result : Option VericclResult
  running : Bool
  idle : Prop

/-- The history of a context: calls that were accepted, calls that returned, and the end. -/
inductive RuntimeEvent where
  | accepted (call : RuntimeCall)
  | returned (entry : RuntimeReturn)
  | destroyed

/-- `State`, with the worker and the public call.  `pending` are the streams that were not
seen idle since work was put on them. -/
structure RuntimeContext where
  rank : ℕ
  config : GroupConfig
  closed : Bool := false
  busy : Bool := false
  uncertain : Bool := false
  buffersRetained : Bool := false
  requestActive : Bool := false
  nextRequest : ℕ := 1
  requestId : ℕ := 0
  attempt : ℕ := 0
  successes : ℕ := 0
  versionCount : ℕ := 0
  committed : String := ""
  message : String := ""
  transport : Option Bool := none
  version : Option RuntimeVersion := none
  handle : Bool := false
  guard : Option ℕ := none
  job : Option RuntimeJob := none
  worker : Option RuntimePosition := none
  stage : RuntimeStage := .idle
  opened : Bool := false
  gone : Bool := false
  abandoned : Bool := false
  pending : ℕ → Prop := fun _ => False
  asked : List (String × ControlPayload) := []
  marks : List RuntimeMark := []
  history : List RuntimeEvent := []

namespace RuntimeContext

/-- Where an operation begins. -/
def begin : RuntimeCall → RuntimePoint
  | .init => .membership
  | .prepare parsed => .validate parsed
  | .execute stream refused => .check stream refused
  | .traceControl action => .traceCheck action
  | .release => .releaseAsk
  | .close => .closeBegin

variable (c : RuntimeContext)

/-- The version a worker works on; an operation on a version is only called when there is
one. -/
def live : RuntimeVersion := c.version.getD { spec := ⟨"", "", 0⟩ }

/-- Change the version. -/
def setVersion (f : RuntimeVersion → RuntimeVersion) : RuntimeContext :=
  { c with version := c.version.map f }

/-- Change what the worker leaves for the call. -/
def setResult (f : VericclResult → VericclResult) : RuntimeContext :=
  { c with job := c.job.map fun job => { job with result := f job.result } }

/-- Mark what happened. -/
def mark (m : RuntimeMark) : RuntimeContext := { c with marks := c.marks ++ [m] }

/-- No work is left on the stream. -/
def seenIdle (stream : ℕ) : RuntimeContext :=
  { c with pending := fun other => other ≠ stream ∧ c.pending other }

/-- `identity` of `execute_until`. -/
def identity (request : ℕ) : ControlPayload :=
  [("request", .number request), ("attempt", .number 0), ("version", .text c.live.spec.version),
    ("contract", .text c.live.spec.contract)]

/-- The keys every rank of a request must agree on. -/
def identityKeys : List String := ["request", "attempt", "version", "contract"]

/-- The communicator identity in hexadecimal digits, which only the first rank knows. -/
def communicatorId : String := "00"

/-- Phase and payload of a point that asks the other ranks. -/
def exchange : RuntimePoint → Option (String × ControlPayload)
  | .membership => some ("MEMBERSHIP", [("rank", .number c.rank), ("ranks", .number c.config.ranks)])
  | .configure => some ("INIT", [("config", .config c.config)])
  | .validate (.ok spec) => some ("PREPARE_VALIDATE",
      [("error", .null), ("version", .text spec.version), ("contract", .text spec.contract)])
  | .validate (.error error) => some ("PREPARE_VALIDATE",
      [("error", .text error), ("version", .text ""), ("contract", .text "")])
  | .admission _ error => some ("PREPARE_ADMISSION", [("error", .ofError error)])
  | .identify => some ("PREPARE_ID", [("uid", .text (if c.rank = 0 then communicatorId else ""))])
  | .ready error => some ("READY", [("error", .ofError error),
      ("version", .text c.live.spec.version), ("contract", .text c.live.spec.contract)])
  | .requestPrepare _ error =>
      some ("REQUEST_PREPARE", c.identity c.nextRequest ++ [("error", .ofError error)])
  | .executeReady _ request => some ("EXECUTE_READY", c.identity request)
  | .executeAck _ request => some ("EXECUTE_ACK", c.identity request)
  | .start _ request => some ("START", c.identity request)
  | .startAck _ request => some ("START_ACK", c.identity request)
  | .outcome request error => some ("EXECUTION_OUTCOME", c.identity request ++
      [("error", .text error), ("gpu_completed", .flag c.live.gpuComplete)])
  | .completionEvidence request error =>
      some ("COMPLETION_EVIDENCE", c.identity request ++ [("error", .ofError error)])
  | .completionRelease request error =>
      some ("COMPLETION_RELEASE", c.identity request ++ [("error", .ofError error)])
  | .traceAsk action =>
      some ("TRACE_CONTROL", [("action", .number action), ("version", .text c.live.spec.version)])
  | .releaseAsk => some ("RELEASE_VERSION", [("version", .text c.live.spec.version),
      ("error", .ofError (if c.committed = c.live.spec.version ∨ c.live.ready = false ∨
          c.live.gpuComplete = false ∨ c.live.releaseFailed = true then
        some "version is committed, unready or still referenced by unresolved GPU work"
      else none))])
  | _ => none

/-- What comes after a turn of the worker. -/
inductive Turn where
  | goto (c : RuntimeContext) (point : RuntimePoint)
  | finish (c : RuntimeContext)
  | throw (c : RuntimeContext) (failure : RuntimeFailure)

/-- Go on when a check passes, throw when it does not. -/
def Turn.after (c : RuntimeContext) (check : Except RuntimeFailure Unit) (next : Turn) : Turn :=
  match check with
  | .error failure => .throw c failure
  | .ok _ => next

/-- The checks of the answers to `MEMBERSHIP`. -/
def checkMembers (ranks : ℕ) (values : List ControlPayload) : Except RuntimeFailure Unit :=
  forM (List.range ranks) fun member =>
    Checked.ensure (values[member]? = some [("rank", .number member), ("ranks", .number ranks)])
      (runtimeError "control membership differs")

/-- The checks of the answers to `EXECUTION_OUTCOME`. -/
def checkOutcomes (identity : ControlPayload) (values : List ControlPayload) :
    Except RuntimeFailure Unit :=
  forM values fun peer => do
    forM identityKeys fun key => do
      let theirs ← ControlPayload.at peer key
      let mine ← ControlPayload.at identity key
      Checked.ensure (theirs = mine) (runtimeError "execution outcome identity mismatch")
    let error ← ControlPayload.at peer "error"
    let completed ← ControlPayload.at peer "gpu_completed"
    Checked.ensure (error = .text "" ∧ completed = .flag true)
      (runtimeError "schedule execution failed; cleanup is required before a new context can be used")

/-- What the worker does with the answers of the other ranks; `gather` may throw. -/
def answer (point : RuntimePoint) (reply : Except RuntimeFailure (List ControlPayload)) : Turn :=
  match reply with
  | .error failure =>
    -- A transport that threw is broken; one that is not there yet is lost.
    let c := { c with transport := c.transport.map fun _ => true }
    match point with
    | .start _ request | .startAck _ request => .goto c (.outcome request failure.message)
    | _ => .throw c failure
  | .ok values =>
    match point with
    | .membership => .after c (checkMembers c.config.ranks values)
        (.goto { c with transport := some false } .configure)
    | .configure => .after c (unanimous values ["config"]) (.finish c)
    | .validate parsed => .after c (unanimous values ["version", "contract"])
        (match c.version with
        | some version =>
          if version.ready = false then
            .throw c (invalidArgument
              "the context's schedule is no longer ready; create a new context")
          else .finish { c with job := c.job.map fun job => { job with version := true } }
        | none => .goto c (.reserve (parsed.toOption.getD ⟨"", "", 0⟩)))
    | .admission spec _ => .after c (unanimous values []) (.goto c (.adopt spec))
    | .identify => .after c (do
        let uid ← ControlPayload.at (values.head?.getD []) "uid"
        Checked.ensure (uid = .text communicatorId)
          (invalidArgument "invalid communicator identity"))
        (.goto c .commInit)
    | .ready _ => match unanimous values ["version", "contract"] with
      | .error failure => .throw { c with uncertain := true } failure
      | .ok _ => .goto c .becomeReady
    | .requestPrepare stream _ => .after c (unanimous values identityKeys)
        (.goto c (.activate stream c.nextRequest))
    | .executeReady stream request => .after c (unanimous values identityKeys)
        (.goto c (.executeAck stream request))
    | .executeAck stream request => .after c (unanimous values identityKeys)
        (.goto c (.commit stream request))
    | .start stream request => match unanimous values identityKeys with
      | .error failure => .goto c (.outcome request failure.message)
      | .ok _ => .goto c (.startAck stream request)
    | .startAck stream request => match unanimous values identityKeys with
      | .error failure => .goto c (.outcome request failure.message)
      | .ok _ => .goto c (.launch stream request)
    | .outcome request _ => .after c (checkOutcomes (c.identity request) values)
        (.goto c (.evidence request))
    | .completionEvidence request _ => .after c (unanimous values identityKeys)
        (.goto c (.releaseGuard request))
    | .completionRelease request _ => .after c (unanimous values identityKeys)
        (.goto c (.succeed request))
    | .traceAsk _ => .after c (unanimous values ["action", "version"]) (.goto c .traceApply)
    | .releaseAsk => .after c (unanimous values ["version"]) (.goto c .releaseDevice)
    | _ => .throw c (runtimeError "not an exchange")

/-- Go on when a call succeeds, throw what it throws. -/
def Turn.unless (outcome : Option RuntimeFailure) (c : RuntimeContext) (next : Turn) : Turn :=
  match outcome with
  | some failure => .throw c failure
  | none => next

/-- Destroying the communicator or its events: a failure leaves the release open. -/
def destroying (held : Bool) (outcome : Option RuntimeFailure) (failed : RuntimeContext)
    (next : Turn) : Turn :=
  if held then
    match outcome with
    | some failure => .throw (failed.setVersion fun v => { v with releaseFailed := true }) failure
    | none => next
  else next

/-- What the worker does by itself.  `touched` says whether a communicator is left behind by
an initialization that fails. -/
def act (point : RuntimePoint) (outcome : Option RuntimeFailure) (touched : Bool) : Turn :=
  let reported := outcome.map (·.message)
  match point with
  | .reserve spec => .goto c (.admission spec reported)
  | .adopt spec =>
    let c := { c with version := some { spec := spec }, versionCount := 1 }
    .unless outcome c (.goto c .identify)
  | .commInit =>
    match outcome with
    | some failure =>
      .goto (c.setVersion fun v => { v with comm := touched }) (.ready (some failure.message))
    | none => .goto (c.setVersion fun v => { v with comm := true, commInitialized := true }) .residency
  | .residency => .goto (c.setVersion fun v => { v with events := true }) (.ready reported)
  | .becomeReady =>
    let c := c.setVersion fun v => { v with ready := true }
    let c := { c with job := c.job.map fun job => { job with version := true } }
    .unless outcome c (.finish c)
  | .check stream refused =>
    if c.live.ready = false ∨ c.live.comm = false ∨ c.live.gpuComplete = false ∨
        c.requestActive = true ∨ c.guard.isSome = true then
      .goto c (.requestPrepare stream
        (some "workload is not ready or an unfinished request is retained"))
    else match refused with
      | some error => .goto c (.requestPrepare stream (some error))
      | none => .goto { c with guard := some stream, buffersRetained := true } (.inspect stream)
  | .inspect stream =>
    match outcome with
    | some failure => .goto c (.requestPrepare stream (some failure.message))
    | none => .goto ((c.seenIdle stream).mark (.prepared c.nextRequest stream))
        (.requestPrepare stream none)
  | .activate stream request =>
    let c := { c with requestId := request, attempt := 0, requestActive := true, buffersRetained := true }
    .goto (c.mark (.activated request)) (.executeReady stream request)
  | .commit stream request => .goto { c with committed := c.live.spec.version } (.start stream request)
  | .launch stream request =>
    let c := c.setVersion fun v => { v with gpuComplete := false, eventRecorded := false }
    -- Work may be on the stream whether the launch succeeds or not.
    let c := { c with pending := fun other => other = stream ∨ c.pending other }.mark (.enqueued request)
    match outcome with
    | some failure => .goto c (.outcome request failure.message)
    | none => .goto (c.setVersion fun v => { v with eventRecorded := true }) (.waitEvent request)
  | .waitEvent request =>
    match outcome with
    | some failure => .goto c (.outcome request failure.message)
    | none => .goto ((c.setVersion fun v => { v with gpuComplete := true }).mark (.observed request))
        (.elapsed request)
  | .elapsed request =>
    match outcome with
    | some failure => .goto c (.outcome request failure.message)
    | none => .goto (c.setResult fun r => { r with gpuCompleted := true }) (.outcome request "")
  | .evidence request =>
    match outcome with
    | some failure => .goto c (.completionEvidence request (some failure.message))
    | none => .goto (c.mark (.recorded request)) (.completionEvidence request none)
  | .releaseGuard request =>
    match outcome with
    | some failure => .goto c (.completionRelease request (some failure.message))
    | none => .goto ({ c.seenIdle (c.guard.getD 0) with guard := none }.mark (.released request))
        (.completionRelease request none)
  | .succeed request =>
    let c := { c with successes := c.successes + 1, nextRequest := c.nextRequest + 1, requestActive := false, buffersRetained := false }
    .finish ((c.setResult fun r => { r with outputValid := true, buffersReusable := true }).mark
      (.completed request))
  | .traceCheck action =>
    if c.live.spec.traceRecords = 0 ∨ c.live.gpuComplete = false then
      .throw c (invalidArgument "trace control requires an idle trace-enabled version")
    else .unless outcome c (.goto c (.traceAsk action))
  | .traceApply => .unless outcome c (.finish c)
  | .releaseDevice => .unless outcome c (.goto c .releaseComm)
  | .releaseComm =>
    destroying c.live.comm outcome { c with uncertain := true }
      (.goto (c.setVersion fun v => { v with comm := false }) .releaseEvents)
  | .releaseEvents =>
    destroying c.live.events outcome { c with uncertain := true }
      (.goto (c.setVersion fun v => { v with events := false }) .releaseDone)
  | .releaseDone =>
    let c := { c.setVersion fun v => { v with ready := false } with versionCount := 0 }
    .finish (c.setResult fun r => { r with resourcesReleased := true, buffersReusable := true })
  | .closeBegin =>
    let c := c.mark .closing
    .unless outcome c
      (match c.version with
      | none => .goto c .closeGuard
      | some version =>
        if version.releaseFailed = true then
          .throw c (runtimeError "previous native release failed; ownership remains unresolved")
        else if version.comm = true ∧ version.commInitialized = false then
          .throw c (runtimeError "partial communicator initialization has unresolved ownership")
        else if version.gpuComplete = false ∨ c.uncertain = true ∧ version.comm = true then
          if version.gpuComplete = false ∧ c.guard = none then
            .throw c (runtimeError "GPU completion unresolved without an owned stream")
          else .goto c .stopWait
        else .goto c .closeComm)
  | .stopWait =>
    .unless outcome c
      (.goto ((c.seenIdle (c.guard.getD 0)).setVersion fun v => { v with gpuComplete := true })
        .stopAbort)
  | .stopAbort =>
    destroying c.live.comm outcome c
      (.goto (c.setVersion fun v =>
        { v with
          comm := false
          commInitialized := v.commInitialized && !v.comm
          ready := false
          eventRecorded := false }) .closeComm)
  | .closeComm =>
    destroying c.live.comm outcome c
      (.goto (c.setVersion fun v => { v with comm := false }) .closeEvents)
  | .closeEvents =>
    destroying c.live.events outcome c
      (.goto (c.setVersion fun v => { v with events := false }) .closeDeadline)
  | .closeDeadline => .unless outcome c (.goto c .closeGuard)
  | .closeGuard =>
    match c.guard with
    | none => .goto c .closeDone
    | some stream => .unless outcome c (.goto { c.seenIdle stream with guard := none } .closeDone)
  | .closeDone =>
    let c := { c with closed := true, buffersRetained := false, requestActive := false, versionCount := 0 }
    .finish (c.setResult fun r => { r with resourcesReleased := true, buffersReusable := true })
  | _ => .throw c (runtimeError "not an operation")

/-! ## The worker -/

/-- Go where a turn leads. -/
def Turn.taken : Turn → RuntimeContext
  | .goto c point => { c with worker := some (.at point) }
  | .finish c => { c with worker := some (.finishing none) }
  | .throw c failure => { c with worker := some (.finishing (some failure)) }

/-- The worker asks the other ranks; without a transport that fails at once. -/
def ask : Option RuntimeContext :=
  match c.worker with
  | some (.at point) =>
    match c.exchange point with
    | none => none
    | some (phase, payload) =>
      if c.transport = none ∧ phase ≠ "MEMBERSHIP" then
        some (c.answer point (.error (runtimeError "control transport unavailable"))).taken
      else
        some { c with
          asked := c.asked ++ [(phase, payload)]
          worker := some (.asked point) }
  | _ => none

/-- What `gather` may bring: nothing when the transport is broken, else an answer of every
rank, with the rank's own payload in its place. -/
def Brings (payload : ControlPayload) : Except RuntimeFailure (List ControlPayload) → Prop
  | .error _ => True
  | .ok values => c.transport ≠ some true ∧ values.length = c.config.ranks ∧
      values[c.rank]? = some payload

instance (payload : ControlPayload) (reply : Except RuntimeFailure (List ControlPayload)) :
    Decidable (c.Brings payload reply) := by
  cases reply <;> unfold Brings <;> infer_instance

/-- The worker gets its answers. -/
def hear (reply : Except RuntimeFailure (List ControlPayload)) : Option RuntimeContext :=
  match c.worker with
  | some (.asked point) =>
    match c.exchange point with
    | none => none
    | some (_, payload) => if c.Brings payload reply then some (c.answer point reply).taken else none
  | _ => none

/-- The worker does something by itself. -/
def work (outcome : Option RuntimeFailure) (touched : Bool) : Option RuntimeContext :=
  match c.worker with
  | some (.at point) =>
    match c.exchange point with
    | some _ => none
    | none => some (c.act point outcome touched).taken
  | _ => none

/-- `result_identity`. -/
def resultIdentity (result : VericclResult) : VericclResult :=
  { result with
    requestId := c.requestId
    attempt := c.attempt
    logicalSuccesses := c.successes
    versionId := c.committed }

/-- The code of an operation that has ended. -/
def codeOf : Option RuntimeFailure → VericclCode
  | none => .ok
  | some failure => if failure.invalid then .invalid else .failed

/-- A failure while something is retained, or with a broken transport, makes the context
uncertain. -/
def uncertainAfter (failure : Option RuntimeFailure) : Bool :=
  c.uncertain || (decide (codeOf failure ≠ .ok) &&
    (c.buffersRetained || c.requestActive || c.transport.getD false))

/-- The code of the job; a failure in an uncertain context is unresolved. -/
def codeAfter (failure : Option RuntimeFailure) : VericclCode :=
  if c.uncertainAfter failure = true ∧ codeOf failure ≠ .ok then .unresolved else codeOf failure

/-- The text of a failure. -/
def messageOf (failure : Option RuntimeFailure) : String := (failure.map (·.message)).getD ""

/-- The end of an operation, under the lock of the context. -/
def finish : Option RuntimeContext :=
  match c.worker with
  | some (.finishing failure) =>
    some { c with
      uncertain := c.uncertainAfter failure
      message := messageOf failure
      busy := false
      worker := some .completing
      job := c.job.map fun job => { job with
        code := c.codeAfter failure
        result := { c.resultIdentity job.result with
          code := c.codeAfter failure
          message := messageOf failure } } }
  | _ => none

/-- `complete`: the call may go on. -/
def complete : Option RuntimeContext :=
  match c.worker with
  | some .completing =>
    some { c with
      worker := none
      job := c.job.map fun job => { job with done := true } }
  | _ => none

/-! ## The public calls -/

/-- The job of the context is done. -/
def jobDone : Bool := (c.job.map (·.done)).getD false

/-- A call returns. -/
def leave (call : RuntimeCall) (code : VericclCode) (result : Option VericclResult) :
    RuntimeContext :=
  { c with
    stage := .idle
    abandoned := c.abandoned && !(call.isClose && (result.map (·.resourcesReleased)).getD false)
    history := c.history ++ [.returned
      { call := call
        code := code
        result := result
        running := c.worker.isSome
        idle := ∀ stream, ¬ c.pending stream }] }

/-- `submit`: a call that is not refused starts a worker; `spawned` says whether the thread
could be made. -/
def submit (call : RuntimeCall) (spawned : Bool) : RuntimeContext :=
  if c.closed = true then { c with stage := .collecting call .closed false }
  else if c.busy = true then { c with stage := .collecting call .busy false }
  else if c.uncertain = true ∧ call.isClose = false then
    { c with stage := .collecting call .unresolved false }
  else if spawned then
    { c with
      busy := true
      job := some {}
      worker := some (.at (begin call))
      stage := .waiting call
      history := c.history ++ [.accepted call] }
  else { c with job := some {}, stage := .collecting call .failed true }

/-- May this call be made?  The first call is `init`, and it is made once; operations on a
workload need its handle. -/
def callable : RuntimeCall → Bool
  | .init => !c.gone && !c.opened
  | .prepare _ | .close => !c.gone && c.opened
  | _ => !c.gone && c.opened && c.handle

/-- What a call does that has been entered; `close` first looks at the context and waits for
the previous job. -/
def entered (call : RuntimeCall) (spawned : Bool) : Option RuntimeContext :=
  match call with
  | .close =>
    if c.closed = true then
      some (c.leave .close .ok (some { resourcesReleased := true, buffersReusable := true }))
    else if c.job.isSome then some { c with stage := .draining }
    else some (c.submit .close spawned)
  | call => some (c.submit call spawned)

/-- A call is entered. -/
def enter (call : RuntimeCall) (spawned : Bool) : Option RuntimeContext :=
  match c.stage with
  | .idle =>
    if c.callable call then ({ c with opened := true } : RuntimeContext).entered call spawned
    else none
  | _ => none

/-- A call refuses its arguments, and leaves the result as it is. -/
def refuse (call : RuntimeCall) (old : VericclResult) : Option RuntimeContext :=
  match c.stage with
  | .idle => some (c.leave call .invalid (if call.hasResult then some old else none))
  | _ => none

/-- The previous job is done, and `close` goes on. -/
def drained (spawned : Bool) : Option RuntimeContext :=
  match c.stage with
  | .draining => if c.jobDone then some (c.submit .close spawned) else none
  | _ => none

/-- `close` gives up waiting for the previous job. -/
def drainExpired : Option RuntimeContext :=
  match c.stage with
  | .draining =>
    if c.jobDone then none
    else some (c.leave .close .unresolved (some { code := .unresolved }))
  | _ => none

/-- The wait of a call ends with its job. -/
def woken : Option RuntimeContext :=
  match c.stage, c.job with
  | .waiting call, some job =>
    if job.done then some { c with stage := .collecting call job.code true } else none
  | _, _ => none

/-- The wait of a call expires. -/
def expire : Option RuntimeContext :=
  match c.stage with
  | .waiting call => if c.jobDone then none else some { c with stage := .expired call }
  | _ => none

/-- The call whose wait has expired takes the lock. -/
def giveUp : Option RuntimeContext :=
  match c.stage with
  | .expired call =>
    some { c with
      uncertain := true
      message := "native worker deadline expired; ownership retained"
      abandoned := c.abandoned || call.isClose
      stage := .collecting call .unresolved true }
  | _ => none

/-- The result a call leaves. -/
def resultOf (call : RuntimeCall) (code : VericclCode) (submitted : Bool) : Option VericclResult :=
  let finished := if submitted = true ∧ c.jobDone = true then c.job.map (·.result) else none
  match call with
  | .execute _ _ =>
    some (finished.getD { c.resultIdentity {} with code := code, message := c.message })
  | .release => some { finished.getD {} with code := code }
  | .close => some (finished.getD { code := code })
  | _ => none

/-- A prepared workload gets its handle. -/
def takeHandle (call : RuntimeCall) (code : VericclCode) (submitted : Bool) : RuntimeContext :=
  match call with
  | .prepare _ =>
    let prepared : Bool := (c.job.map fun job => job.version).getD false
    { c with handle := c.handle || (decide (code = VericclCode.ok) && submitted && prepared) }
  | _ => c

/-- The call reads its job and returns. -/
def collect : Option RuntimeContext :=
  match c.stage with
  | .collecting call code submitted =>
    let c := c.takeHandle call code submitted
    some (c.leave call code (c.resultOf call code submitted))
  | _ => none

/-- `VericclStatus`. -/
structure VericclStatus where
  code : VericclCode
  busy : Bool
  uncertain : Bool
  closed : Bool
  callerBuffersRetained : Bool
  requestId : ℕ
  attempt : ℕ
  logicalSuccesses : ℕ
  retainedVersions : ℕ
  versionId : String
  message : String

/-- `vericcl_status`, which changes nothing. -/
def status : VericclStatus where
  code := if c.closed then .closed else if c.uncertain then .unresolved else .ok
  busy := c.busy
  uncertain := c.uncertain
  closed := c.closed
  callerBuffersRetained := c.buffersRetained
  requestId := c.requestId
  attempt := c.attempt
  logicalSuccesses := c.successes
  retainedVersions := c.versionCount
  versionId := c.committed
  message := c.message

/-- `vericcl_destroy`, when it succeeds: the context is gone. -/
def destroy : Option RuntimeContext :=
  match c.stage with
  | .idle =>
    if c.gone = false ∧ c.closed = true ∧ c.busy = false then
      some { c with gone := true, history := c.history ++ [.destroyed] }
    else none
  | _ => none

end RuntimeContext

/-- What may happen next to a context.  A call of `status`, and one of `destroy` that is
refused, change nothing. -/
inductive RuntimeAction where
  | refuse (call : RuntimeCall) (old : VericclResult)
  | enter (call : RuntimeCall) (spawned : Bool)
  | drained (spawned : Bool)
  | drainExpired
  | woken
  | expire
  | giveUp
  | collect
  | destroy
  | ask
  | hear (reply : Except RuntimeFailure (List ControlPayload))
  | work (outcome : Option RuntimeFailure) (touched : Bool)
  | finish
  | complete

namespace RuntimeContext

variable (c : RuntimeContext)

/-- One step of a context. -/
def step : RuntimeAction → Option RuntimeContext
  | .refuse call old => c.refuse call old
  | .enter call spawned => c.enter call spawned
  | .drained spawned => c.drained spawned
  | .drainExpired => c.drainExpired
  | .woken => c.woken
  | .expire => c.expire
  | .giveUp => c.giveUp
  | .collect => c.collect
  | .destroy => c.destroy
  | .ask => c.ask
  | .hear reply => c.hear reply
  | .work outcome touched => c.work outcome touched
  | .finish => c.finish
  | .complete => c.complete

/-- A run of a context. -/
def run (actions : List RuntimeAction) : Option RuntimeContext :=
  actions.foldlM (fun c action => c.step action) c

end RuntimeContext

end VeriCCL
