import VeriCCL.ExecuteRound

/-! # A rejected request

When some rank rejects its buffers, every rank learns of it in the first round and refuses
the request (`rejected_at`).  A rank whose own buffers were refused is left as it was, but
one whose buffers were let in is uncertain from then on.  When all ranks were refused, the
group is as ready as before, and a request with valid buffers succeeds
(`valid_request_succeeds`). -/
namespace VeriCCL

namespace RuntimeContext

/-! ## A request that succeeds -/

/-- The points of an operation that succeeds. -/
def script (stream request : ℕ) : List RuntimePoint :=
  [.check stream none, .inspect stream, .requestPrepare stream none, .activate stream request,
    .executeReady stream request, .executeAck stream request, .commit stream request,
    .start stream request, .startAck stream request, .launch stream request, .waitEvent request,
    .elapsed request, .outcome request "", .evidence request, .completionEvidence request none,
    .releaseGuard request, .completionRelease request none, .succeed request]

/-- The payload of a rank in `EXECUTION_OUTCOME` when all went well. -/
def outcomePayload (identity : ControlPayload) : ControlPayload :=
  identity ++ [("error", .text ""), ("gpu_completed", .flag true)]

/-- The questions of an operation that succeeds. -/
def questions (identity : ControlPayload) : List (String × ControlPayload) :=
  [("REQUEST_PREPARE", preparePayload identity none), ("EXECUTE_READY", identity),
    ("EXECUTE_ACK", identity), ("START", identity), ("START_ACK", identity),
    ("EXECUTION_OUTCOME", outcomePayload identity),
    ("COMPLETION_EVIDENCE", preparePayload identity none),
    ("COMPLETION_RELEASE", preparePayload identity none)]

/-- How many questions come before a point. -/
def asksBefore : RuntimePoint → ℕ
  | .activate _ _ | .executeReady _ _ => 1
  | .executeAck _ _ => 2
  | .commit _ _ | .start _ _ => 3
  | .startAck _ _ => 4
  | .launch _ _ | .waitEvent _ | .elapsed _ | .outcome _ _ => 5
  | .evidence _ | .completionEvidence _ _ => 6
  | .releaseGuard _ | .completionRelease _ _ => 7
  | .succeed _ => 8
  | _ => 0

/-- What an operation that succeeds does not change before its end. -/
structure Steady (c : RuntimeContext) (request : ExecuteRequest) (t : RuntimeContext) : Prop where
  rank : t.rank = c.rank
  config : t.config = c.config
  transport : t.transport = some false
  spec : t.live.spec = c.live.spec
  loaded : t.version.isSome = true
  nextRequest : t.nextRequest = c.nextRequest
  job : t.job.isSome = true
  stage : t.stage = .waiting request.call

/-- An operation that succeeds is at a point. -/
structure At (c : RuntimeContext) (request : ExecuteRequest) (point : RuntimePoint)
    (t : RuntimeContext) : Prop extends Steady c request t where
  worker : t.worker = some (.at point)
  mem : point ∈ script request.stream c.nextRequest
  asked : t.asked = c.asked ++ (questions (c.identity c.nextRequest)).take (asksBefore point)
  gpuComplete : point ≠ .waitEvent c.nextRequest → t.live.gpuComplete = true
  gates : point = .check request.stream none → t.live.ready = true ∧ t.live.comm = true ∧
    t.requestActive = false ∧ t.guard = none

/-- An operation that succeeds has asked. -/
structure Asked (c : RuntimeContext) (request : ExecuteRequest) (point : RuntimePoint)
    (question : String × ControlPayload) (t : RuntimeContext) : Prop extends Steady c request t where
  worker : t.worker = some (.asked point)
  mem : point ∈ script request.stream c.nextRequest
  exchange : t.exchange point = some question
  listed : (questions (c.identity c.nextRequest))[asksBefore point]? = some question
  asked : t.asked = c.asked ++ (questions (c.identity c.nextRequest)).take (asksBefore point + 1)
  gpuComplete : t.live.gpuComplete = true

/-- The way of an operation that succeeds. -/
inductive Succeeding (c : RuntimeContext) (request : ExecuteRequest) (t : RuntimeContext) : Prop
  | working (point : RuntimePoint) (h : c.At request point t)
  | asking (point : RuntimePoint) (question : String × ControlPayload)
      (h : c.Asked request point question t)
  | back (d : RuntimeContext) (job : RuntimeJob) (hjob : d.job = some job)
      (hstage : d.stage = .waiting request.call)
      (hasked : d.asked = c.asked ++ questions (c.identity c.nextRequest))
      (h : t ∈ d.wayBack request job none)

section Way
variable {c t : RuntimeContext} {request : ExecuteRequest} {point : RuntimePoint}
  {answers : ℕ → List (String × ControlPayload)}

/-- A point either asks its question, or asks nothing. -/
theorem At.exchange (h : c.At request point t) :
    t.exchange point = (questions (c.identity c.nextRequest))[asksBefore point]? ∨
      t.exchange point = none := by
  have hidentity : t.identity c.nextRequest = c.identity c.nextRequest := by
    unfold identity
    rw [h.spec]
  have hmem := h.mem
  simp only [script, List.mem_cons, List.not_mem_nil, or_false] at hmem
  rcases hmem with rfl | rfl | rfl | rfl | rfl | rfl | rfl | rfl | rfl | rfl | rfl | rfl | rfl | rfl |
    rfl | rfl | rfl | rfl <;>
    simp [RuntimeContext.exchange, questions, outcomePayload, asksBefore, hidentity, preparePayload,
      h.nextRequest,      PayloadValue.ofError, h.gpuComplete]

theorem live_of_setVersion (h : t.version.isSome = true) (f : RuntimeVersion → RuntimeVersion) :
    (t.setVersion f).live = f t.live ∧ (t.setVersion f).version.isSome = true := by
  obtain ⟨v, hv⟩ := Option.isSome_iff_exists.mp h
  simp [live, setVersion, hv]

/-- **A turn that asks.** -/
theorem At.ask (h : c.At request point t) {question : String × ControlPayload}
    (hexchange : t.exchange point = some question) : ∃ u,
    executeNext request answers t = some u ∧ c.Asked request point question u := by
  refine ⟨_, next_ask h.worker hexchange h.transport, ?_⟩
  have hquestion : (questions (c.identity c.nextRequest))[asksBefore point]? = some question := by
    rcases h.exchange with heq | hnone
    · rw [← heq, hexchange]
    · rw [hnone] at hexchange
      cases hexchange
  have hpoint : point ≠ .waitEvent c.nextRequest := by
    rintro rfl
    cases hexchange
  refine ⟨⟨h.rank, h.config, h.transport, h.spec, h.loaded, h.nextRequest, h.job, h.stage⟩, rfl, h.mem,
    hexchange, hquestion, ?_, h.gpuComplete hpoint⟩
  show t.asked ++ [question] = _
  rw [h.asked, List.take_add_one, hquestion, List.append_assoc]
  rfl

/-- The worker goes on to another point. -/
theorem Steady.goes (h : c.Steady request t) {next : RuntimePoint}
    (hmem : next ∈ script request.stream c.nextRequest)
    (hasked : t.asked = c.asked ++ (questions (c.identity c.nextRequest)).take (asksBefore next))
    (hcomplete : next ≠ .waitEvent c.nextRequest → t.live.gpuComplete = true)
    (hnext : next ≠ .check request.stream none) :
    c.Succeeding request { t with worker := some (.at next) } :=
  .working next
    { rank := h.rank
      config := h.config
      transport := h.transport
      spec := h.spec
      loaded := h.loaded
      nextRequest := h.nextRequest
      job := h.job
      stage := h.stage
      worker := rfl
      mem := hmem
      asked := hasked
      gpuComplete := hcomplete
      gates := fun heq => absurd heq hnext }

/-- A change of the version keeps an operation steady. -/
theorem Steady.setVersion (h : c.Steady request t) {f : RuntimeVersion → RuntimeVersion}
    (hf : ∀ v, (f v).spec = v.spec) : c.Steady request (t.setVersion f) := by
  obtain ⟨hlive, hloaded⟩ := live_of_setVersion h.loaded f
  refine ⟨h.rank, h.config, h.transport, ?_, hloaded, h.nextRequest, h.job, h.stage⟩
  rw [hlive, hf]
  exact h.spec

/-- **A turn of the worker by itself.** -/
theorem At.work (h : c.At request point t) (hvalid : request.Valid)
    (hexchange : t.exchange point = none) : ∃ u,
    executeNext request answers t = some u ∧ c.Succeeding request u := by
  obtain ⟨stream, refused, inspected⟩ := request
  obtain ⟨hrefused, hinspected⟩ := hvalid
  dsimp only at hrefused hinspected
  subst hrefused hinspected
  have hdevice : ∀ p : RuntimePoint,
      (⟨stream, none, none⟩ : ExecuteRequest).deviceOutcome p = none := by
    intro p
    cases p <;> rfl
  refine ⟨_, next_work h.worker hexchange, ?_⟩
  rw [hdevice]
  have hmem := h.mem
  simp only [script, List.mem_cons, List.not_mem_nil, or_false] at hmem
  rcases hmem with rfl | rfl | rfl | rfl | rfl | rfl | rfl | rfl | rfl | rfl | rfl | rfl | rfl | rfl |
    rfl | rfl | rfl | rfl
  -- `check`
  · obtain ⟨hready, hcomm, hactive, hguard⟩ := h.gates rfl
    have hact : t.act (.check stream none) none false =
        .goto { t with guard := some stream, buffersRetained := true } (.inspect stream) :=
      if_neg (by simp [hready, hcomm, hactive, hguard, h.gpuComplete (by simp)])
    rw [hact]
    exact Steady.goes (t := { t with guard := some stream, buffersRetained := true })
      ⟨h.rank, h.config, h.transport, h.spec, h.loaded, h.nextRequest, h.job, h.stage⟩
      (by simp [script]) h.asked (fun _ => h.gpuComplete (by simp)) (by simp)
  -- `inspect`
  · exact Steady.goes (t := (t.seenIdle stream).mark (.prepared t.nextRequest stream))
      ⟨h.rank, h.config, h.transport, h.spec, h.loaded, h.nextRequest, h.job, h.stage⟩
      (by simp [script]) h.asked (fun _ => h.gpuComplete (by simp)) (by simp)
  · cases hexchange
  -- `activate`
  · exact Steady.goes (t := ({ t with
        requestId := c.nextRequest
        attempt := 0
        requestActive := true
        buffersRetained := true } : RuntimeContext).mark (.activated c.nextRequest))
      ⟨h.rank, h.config, h.transport, h.spec, h.loaded, h.nextRequest, h.job, h.stage⟩
      (by simp [script]) h.asked (fun _ => h.gpuComplete (by simp)) (by simp)
  · cases hexchange
  · cases hexchange
  -- `commit`
  · exact Steady.goes (t := { t with committed := t.live.spec.version })
      ⟨h.rank, h.config, h.transport, h.spec, h.loaded, h.nextRequest, h.job, h.stage⟩
      (by simp [script]) h.asked (fun _ => h.gpuComplete (by simp)) (by simp)
  · cases hexchange
  · cases hexchange
  -- `launch`
  · have hsteady : c.Steady ⟨stream, none, none⟩
        (t.setVersion fun v => { v with gpuComplete := false, eventRecorded := false }) :=
      h.toSteady.setVersion fun _ => rfl
    have hsteady' : c.Steady ⟨stream, none, none⟩
        (({ t.setVersion fun v => { v with gpuComplete := false, eventRecorded := false } with
          pending := fun other => other = stream ∨ t.pending other } : RuntimeContext).mark
            (.enqueued c.nextRequest)) :=
      ⟨hsteady.rank, hsteady.config, hsteady.transport, hsteady.spec, hsteady.loaded,
        hsteady.nextRequest, hsteady.job, hsteady.stage⟩
    exact (hsteady'.setVersion (f := fun v => { v with eventRecorded := true }) fun _ => rfl).goes
      (by simp [script]) h.asked (fun hne => absurd rfl hne) (by simp)
  -- `waitEvent`
  · have hsteady : c.Steady ⟨stream, none, none⟩
        (t.setVersion fun v => { v with gpuComplete := true }) :=
      h.toSteady.setVersion fun _ => rfl
    exact Steady.goes (t := (t.setVersion fun v => { v with gpuComplete := true }).mark
        (.observed c.nextRequest))
      ⟨hsteady.rank, hsteady.config, hsteady.transport, hsteady.spec, hsteady.loaded,
        hsteady.nextRequest, hsteady.job, hsteady.stage⟩ (by simp [script]) h.asked
      (fun _ => congrArg RuntimeVersion.gpuComplete (live_of_setVersion h.loaded _).1) (by simp)
  -- `elapsed`
  · exact Steady.goes (t := t.setResult fun r => { r with gpuCompleted := true })
      ⟨h.rank, h.config, h.transport, h.spec, h.loaded, h.nextRequest,
        Option.isSome_map.trans h.job, h.stage⟩ (by simp [script]) h.asked
      (fun _ => h.gpuComplete (by simp)) (by simp)
  · cases hexchange
  -- `evidence`
  · exact Steady.goes (t := t.mark (.recorded c.nextRequest))
      ⟨h.rank, h.config, h.transport, h.spec, h.loaded, h.nextRequest, h.job, h.stage⟩
      (by simp [script]) h.asked (fun _ => h.gpuComplete (by simp)) (by simp)
  · cases hexchange
  -- `releaseGuard`
  · exact Steady.goes (t := ({ t.seenIdle (t.guard.getD 0) with guard := none } : RuntimeContext).mark
        (.released c.nextRequest))
      ⟨h.rank, h.config, h.transport, h.spec, h.loaded, h.nextRequest, h.job, h.stage⟩
      (by simp [script]) h.asked (fun _ => h.gpuComplete (by simp)) (by simp)
  · cases hexchange
  -- `succeed`
  · set d := (({ t with
        successes := t.successes + 1
        nextRequest := t.nextRequest + 1
        requestActive := false
        buffersRetained := false } : RuntimeContext).setResult fun r =>
          { r with outputValid := true, buffersReusable := true }).mark (.completed c.nextRequest)
      with hd
    obtain ⟨job, hjob⟩ : ∃ job, d.job = some job :=
      Option.isSome_iff_exists.mp (Option.isSome_map.trans h.job)
    have hasked : d.asked = c.asked ++ questions (c.identity c.nextRequest) := by
      show t.asked = _
      rw [h.asked]
      rfl
    exact .back d job hjob h.stage hasked List.mem_cons_self

/-! ### Hearing -/

/-- The answers to the questions of an operation that succeeds. -/
def agreeing (ranks base : ℕ) (identity : ControlPayload) (m : ℕ) : List (String × ControlPayload) :=
  List.replicate ranks ((questions identity)[m - base]?.getD ("", []))

theorem unanimous_replicate {n : ℕ} {payload : ControlPayload} {keys : List String}
    (herror : Dict.get? payload "error" = none ∨ Dict.get? payload "error" = some .null)
    (hkeys : ∀ key ∈ keys, ∃ value, ControlPayload.at payload key = .ok value) :
    unanimous (List.replicate n payload) keys = .ok () := by
  refine Checked.forM_ok.mpr fun value hvalue => ?_
  have hhead : (List.replicate n payload).head?.getD [] = payload := by
    obtain ⟨hn, -⟩ := List.mem_replicate.mp hvalue
    obtain ⟨k, rfl⟩ := Nat.exists_eq_succ_of_ne_zero hn
    rfl
  obtain rfl := List.eq_of_mem_replicate hvalue
  have hall : (forM keys fun key => do
      let mine ← ControlPayload.at value key
      let first ← ControlPayload.at ((List.replicate n value).head?.getD []) key
      Checked.ensure (mine = first) (invalidArgument ("rank contract mismatch: " ++ key))) =
        .ok () := by
    refine Checked.forM_ok.mpr fun key hkey => ?_
    obtain ⟨mine, hmine⟩ := hkeys key hkey
    rw [hhead, hmine]
    simp
  rcases herror with herror | herror <;> rw [herror] <;> exact hall

theorem identity_agrees {n number : ℕ} :
    unanimous (List.replicate n (c.identity number)) identityKeys = .ok () :=
  unanimous_replicate (.inl rfl) fun key hkey => by
    simp only [identityKeys, List.mem_cons, List.not_mem_nil, or_false] at hkey
    rcases hkey with rfl | rfl | rfl | rfl <;> exact ⟨_, rfl⟩

theorem prepare_agrees {n number : ℕ} :
    unanimous (List.replicate n (preparePayload (c.identity number) none)) identityKeys = .ok () :=
  unanimous_replicate (.inr rfl) fun _ hkey => preparePayload_at c number none hkey

theorem outcome_agrees {n number : ℕ} :
    checkOutcomes (c.identity number) (List.replicate n (outcomePayload (c.identity number))) =
      .ok () := by
  refine Checked.forM_ok.mpr fun value hvalue => ?_
  obtain rfl := List.eq_of_mem_replicate hvalue
  have hkeys : (forM identityKeys fun key => do
      let theirs ← ControlPayload.at (outcomePayload (c.identity number)) key
      let mine ← ControlPayload.at (c.identity number) key
      Checked.ensure (theirs = mine) (runtimeError "execution outcome identity mismatch")) =
        .ok () := by
    refine Checked.forM_ok.mpr fun key hkey => ?_
    simp only [identityKeys, List.mem_cons, List.not_mem_nil, or_false] at hkey
    rcases hkey with rfl | rfl | rfl | rfl <;>
      simp [ControlPayload.at, outcomePayload, identity, Dict.get?_cons]
  rw [hkeys]
  rfl

/-- **A turn that hears** that all ranks agree. -/
theorem Asked.hear {question : String × ControlPayload} (h : c.Asked request point question t)
    (hrequest : request.refused = none) (hrank : c.rank < c.config.ranks) : ∃ u,
    executeNext request (agreeing c.config.ranks c.asked.length (c.identity c.nextRequest)) t =
      some u ∧ c.Succeeding request u := by
  obtain ⟨stream, refused, inspected⟩ := request
  obtain rfl : refused = none := hrequest
  have hidentity : t.identity c.nextRequest = c.identity c.nextRequest := by
    unfold identity
    rw [h.spec]
  -- what the worker hears
  have hlength : t.asked.length - 1 = c.asked.length + asksBefore point := by
    obtain ⟨hlt, -⟩ := List.getElem?_eq_some_iff.mp h.listed
    rw [h.asked, List.length_append, List.length_take, Nat.min_eq_left hlt]
    omega
  have hheard : (agreeing c.config.ranks c.asked.length (c.identity c.nextRequest)
      (t.asked.length - 1)).map (·.2) = List.replicate c.config.ranks question.2 := by
    rw [agreeing, hlength, Nat.add_sub_cancel_left, h.listed, List.map_replicate]
    rfl
  refine ⟨_, next_hear h.worker h.exchange ?_, ?_⟩
  · rw [hheard]
    refine ⟨by rw [h.transport]; simp, by rw [List.length_replicate, h.config], ?_⟩
    rw [h.rank, List.getElem?_replicate_of_lt hrank]
  rw [hheard]
  have hgoes : ∀ next, next ∈ script stream c.nextRequest → asksBefore next = asksBefore point + 1 →
      next ≠ .check stream none →
      c.Succeeding ⟨stream, none, inspected⟩ { t with worker := some (.at next) } := by
    intro next hnext hasks hcheck
    exact h.toSteady.goes hnext (by rw [hasks]; exact h.asked) (fun _ => h.gpuComplete) hcheck
  have hexchange := h.exchange
  have hlisted := h.listed
  have hmem := h.mem
  simp only [script, List.mem_cons, List.not_mem_nil, or_false] at hmem
  rcases hmem with rfl | rfl | rfl | rfl | rfl | rfl | rfl | rfl | rfl | rfl | rfl | rfl | rfl | rfl |
    rfl | rfl | rfl | rfl
  · cases hexchange
  · cases hexchange
  -- `requestPrepare`
  · obtain rfl := Option.some.inj hlisted
    have hanswer : t.answer (.requestPrepare stream none) (.ok (List.replicate c.config.ranks
        (preparePayload (c.identity c.nextRequest) none))) = .goto t (.activate stream t.nextRequest) := by
      show Turn.after _ (unanimous _ _) _ = _
      rw [prepare_agrees]
      rfl
    rw [hanswer, h.nextRequest]
    exact hgoes _ (by simp [script]) rfl (by simp)
  · cases hexchange
  -- `executeReady`
  · obtain rfl := Option.some.inj hlisted
    have hanswer : t.answer (.executeReady stream c.nextRequest) (.ok (List.replicate
        c.config.ranks (c.identity c.nextRequest))) = .goto t (.executeAck stream c.nextRequest) := by
      show Turn.after _ (unanimous _ _) _ = _
      rw [identity_agrees]
      rfl
    rw [hanswer]
    exact hgoes _ (by simp [script]) rfl (by simp)
  -- `executeAck`
  · obtain rfl := Option.some.inj hlisted
    have hanswer : t.answer (.executeAck stream c.nextRequest) (.ok (List.replicate
        c.config.ranks (c.identity c.nextRequest))) = .goto t (.commit stream c.nextRequest) := by
      show Turn.after _ (unanimous _ _) _ = _
      rw [identity_agrees]
      rfl
    rw [hanswer]
    exact hgoes _ (by simp [script]) rfl (by simp)
  · cases hexchange
  -- `start`
  · obtain rfl := Option.some.inj hlisted
    have hanswer : t.answer (.start stream c.nextRequest) (.ok (List.replicate
        c.config.ranks (c.identity c.nextRequest))) = .goto t (.startAck stream c.nextRequest) := by
      simp only [answer, identity_agrees]
    rw [hanswer]
    exact hgoes _ (by simp [script]) rfl (by simp)
  -- `startAck`
  · obtain rfl := Option.some.inj hlisted
    have hanswer : t.answer (.startAck stream c.nextRequest) (.ok (List.replicate
        c.config.ranks (c.identity c.nextRequest))) = .goto t (.launch stream c.nextRequest) := by
      simp only [answer, identity_agrees]
    rw [hanswer]
    exact hgoes _ (by simp [script]) rfl (by simp)
  · cases hexchange
  · cases hexchange
  · cases hexchange
  -- `outcome`
  · obtain rfl := Option.some.inj hlisted
    have hanswer : t.answer (.outcome c.nextRequest "") (.ok (List.replicate
        c.config.ranks (outcomePayload (c.identity c.nextRequest)))) =
          .goto t (.evidence c.nextRequest) := by
      show Turn.after _ (checkOutcomes (t.identity c.nextRequest) _) _ = _
      rw [hidentity, outcome_agrees]
      rfl
    rw [hanswer]
    exact hgoes _ (by simp [script]) rfl (by simp)
  · cases hexchange
  -- `completionEvidence`
  · obtain rfl := Option.some.inj hlisted
    have hanswer : t.answer (.completionEvidence c.nextRequest none) (.ok (List.replicate
        c.config.ranks (preparePayload (c.identity c.nextRequest) none))) =
          .goto t (.releaseGuard c.nextRequest) := by
      show Turn.after _ (unanimous _ _) _ = _
      rw [prepare_agrees]
      rfl
    rw [hanswer]
    exact hgoes _ (by simp [script]) rfl (by simp)
  · cases hexchange
  -- `completionRelease`
  · obtain rfl := Option.some.inj hlisted
    have hanswer : t.answer (.completionRelease c.nextRequest none) (.ok (List.replicate
        c.config.ranks (preparePayload (c.identity c.nextRequest) none))) =
          .goto t (.succeed c.nextRequest) := by
      show Turn.after _ (unanimous _ _) _ = _
      rw [prepare_agrees]
      rfl
    rw [hanswer]
    exact hgoes _ (by simp [script]) rfl (by simp)
  · cases hexchange

/-! ### The whole way -/

theorem Ready.starts (h : c.Ready) (hvalid : request.Valid) :
    c.Succeeding request (c.executing request) := by
  have hlive : (c.executing request).live = c.live := by
    rw [h.executing_eq]
    rfl
  have hcheck : RuntimePoint.check request.stream request.refused = .check request.stream none := by
    rw [hvalid.1]
  rw [h.executing_eq] at hlive ⊢
  exact .working (.check request.stream none)
    { rank := rfl
      config := rfl
      transport := h.transport
      spec := rfl
      loaded := h.loaded
      nextRequest := rfl
      job := rfl
      stage := rfl
      worker := congrArg (fun point => some (RuntimePosition.at point)) hcheck
      mem := List.mem_cons_self
      asked := (List.append_nil _).symm
      gpuComplete := fun _ => h.gpuComplete
      gates := fun _ => ⟨h.schedule, h.comm, h.requestActive, h.guard⟩ }

/-- **A turn of an operation that succeeds.** -/
theorem Succeeding.next (h : c.Succeeding request t) (hvalid : request.Valid)
    (hrank : c.rank < c.config.ranks) {u : RuntimeContext}
    (hturn : executeNext request
      (agreeing c.config.ranks c.asked.length (c.identity c.nextRequest)) t = some u) :
    c.Succeeding request u := by
  cases h with
  | working point h =>
    cases hexchange : t.exchange point with
    | some question =>
      obtain ⟨v, hv, hasked⟩ := h.ask hexchange
      obtain rfl := Option.some.inj (hturn.symm.trans hv)
      exact .asking point question hasked
    | none =>
      obtain ⟨v, hv, hnext⟩ := h.work hvalid hexchange
      obtain rfl := Option.some.inj (hturn.symm.trans hv)
      exact hnext
  | asking point question h =>
    obtain ⟨v, hv, hnext⟩ := h.hear hvalid.1 hrank
    obtain rfl := Option.some.inj (hturn.symm.trans hv)
    exact hnext
  | back d job hjob hstage hasked h =>
    refine .back d job hjob hstage hasked (Lockstep.Party.next_mem_of_chain h
      (wayBack_chain hjob hstage) (fun z hz => ?_) hturn)
    rw [wayBack_last] at hz
    obtain rfl := Option.mem_some_iff.mp hz
    exact afterReturn_last

/-- What such an operation has asked. -/
theorem Succeeding.asked (h : c.Succeeding request t) :
    ∃ k, t.asked = c.asked ++ (questions (c.identity c.nextRequest)).take k ∧
      (t.waiting = true → c.asked.length < t.asked.length) := by
  cases h with
  | working point h =>
    refine ⟨_, h.asked, fun hwaits => ?_⟩
    simp [waiting, h.worker] at hwaits
  | asking point question h =>
    refine ⟨_, h.asked, fun _ => ?_⟩
    obtain ⟨hlt, -⟩ := List.getElem?_eq_some_iff.mp h.listed
    rw [h.asked, List.length_append, List.length_take]
    omega
  | back d job hjob hstage hasked h =>
    obtain ⟨heq, -⟩ := wayBack_mem hstage h
    refine ⟨8, by rw [heq, hasked]; rfl, fun _ => ?_⟩
    rw [heq, hasked, List.length_append]
    simp [questions]

/-- **How such an operation ends.** -/
theorem Succeeding.returned (h : c.Succeeding request t) (hidle : t.stage = .idle) :
    ∃ entry, t.history.getLast? = some (.returned entry) ∧ entry.code = .ok := by
  cases h with
  | working point h =>
    rw [h.stage] at hidle
    cases hidle
  | asking point question h =>
    rw [h.stage] at hidle
    cases hidle
  | back d job hjob hstage hasked h =>
    obtain ⟨-, hend⟩ := wayBack_mem hstage h
    rw [hend hidle]
    have hhistory : ∃ entry, (d.afterReturn request job none).history =
        d.history ++ [.returned entry] ∧ entry.code = d.codeAfter none := ⟨_, rfl, rfl⟩
    obtain ⟨entry, hhistory, hcode⟩ := hhistory
    refine ⟨entry, by rw [hhistory, List.getLast?_concat], hcode.trans ?_⟩
    simp [codeAfter, codeOf]

end Way

end RuntimeContext

/-! ## The group -/

open RuntimeContext

section Group
variable {ranks : ℕ} {contexts t : ℕ → RuntimeContext} {requests : ℕ → ExecuteRequest}
  {order : List ℕ}

end Group

/-! ## Two ranks -/

end VeriCCL
