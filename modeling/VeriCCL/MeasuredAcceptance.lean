import VeriCCL.StatisticalLedger

/-! # Measured acceptance

`verification/online/acceptance.py`: `compare_measured` reserves an attempt, launches the
incumbent (side `A`) and the candidate (side `B`) in the planned orders, round by round, and
decides on the first round in which both are stable.  Anything that goes wrong in between ends
the attempt without acceptance.

The launches are a parameter, as is the coefficient of variation.  The decision is modelled;
the records that are appended to the ledger on the way are those of `LedgerFile.append`. -/
namespace VeriCCL

/-- `SemanticError`, and any other exception of a launch. -/
inductive MeasureFault where
  | semantic (message : String)
  | launch (message : String)
  deriving DecidableEq

inductive PairSide where
  | a
  | b
  deriving DecidableEq

/-- The sides of a pair, in order. -/
def PairOrder.sides : PairOrder → List PairSide
  | .ab => [.a, .b]
  | .ba => [.b, .a]

/-- `LaunchRequest`. -/
structure LaunchRequest where
  launchId : String
  attemptIndex : ℕ
  roundIndex : ℕ
  pairIndex : ℕ
  side : PairSide
  warmup : ℕ := 5
  timed : ℕ := 20
  traceEnabled : Bool := false
  deriving DecidableEq

/-- `LaunchSample`. -/
structure LaunchSample where
  timeUs : ℚ
  correct : Bool
  gpuReleased : Bool
  traceEnabled : Bool
  launchId : String
  driverKind : String
  runtimeIdentity : String := "unspecified"
  gpuWorkQuiescent : Bool := false
  resourcesRetained : Bool := false
  deriving DecidableEq

/-- What `compare_measured` uses of `AcceptanceContext`, and the coefficient of variation. -/
structure AcceptanceContext where
  driver : Option (String → LaunchRequest → Except MeasureFault LaunchSample)
  allowTestSamples : Bool := false
  cv : List ℚ → ℚ

/-- The states of a comparison. -/
inductive MeasureStatus where
  | accepted
  | noMeasuredGain
  | unstable
  | measurementFailed
  deriving DecidableEq

/-- `MeasuredDecision`. -/
structure MeasuredDecision where
  status : MeasureStatus
  accepted : Bool := false
  attemptIndex : ℕ
  alpha : ℚ
  pairCount : ℕ
  selectedRound : Option ℕ := none
  wins : Option ℕ := none
  pValue : Option ℚ := none
  medianGain : Option ℚ := none
  deriving DecidableEq

/-- The name of a side. -/
def PairSide.name : PairSide → String
  | .a => "A"
  | .b => "B"

/-- The identity of a launch. -/
def launchName (plan : AttemptPlan) (round pair : ℕ) (side : PairSide) : String :=
  "attempt-" ++ toString plan.attemptIndex ++ "-round-" ++ toString round ++ "-pair-" ++
    toString pair ++ "-" ++ side.name

/-- `_validate_sample`. -/
def validateSample (context : AcceptanceContext) (request : LaunchRequest) (sample : LaunchSample) :
    Except MeasureFault Unit := do
  Checked.ensure (0 < sample.timeUs)
    (.semantic "performance launch did not return a finite positive sample")
  Checked.ensure (sample.correct = true ∧
      (sample.gpuReleased = true ∨ sample.driverKind = "native_msccl_live" ∧
        sample.gpuWorkQuiescent = true ∧ sample.resourcesRetained = true) ∧
      sample.traceEnabled = false ∧ sample.launchId = request.launchId)
    (.semantic "performance sample has incorrect data, unresolved GPU work, trace overhead or wrong identity")
  Checked.ensure (sample.driverKind ∈ ["native_msccl", "native_msccl_live", "nccl_tests"] ∨
      context.allowTestSamples = true ∧ sample.driverKind = "unit_fixture")
    (.semantic "formal measurement requires a native driver")
  Checked.ensure (sample.runtimeIdentity ≠ "" ∧
      ¬ (sample.runtimeIdentity = "unspecified" ∧ sample.driverKind ≠ "unit_fixture"))
    (.semantic "performance sample has no runtime identity")

/-- What a round has measured so far: the times of the two sides, pair by pair, and the
runtime identity, which has to be the same in the whole comparison. -/
structure RoundState where
  identity : Option (String × String) := none
  a : List ℚ := []
  b : List ℚ := []
  deriving DecidableEq

namespace AcceptanceContext
variable (context : AcceptanceContext) (plan : AttemptPlan)

/-- One launch. -/
def launch (round pair : ℕ) (s : RoundState) (side : PairSide) : Except MeasureFault RoundState := do
  let driver ← Checked.required context.driver
    (.semantic "enabled measured acceptance requires a launch driver")
  let request : LaunchRequest := {
    launchId := launchName plan round pair side
    attemptIndex := plan.attemptIndex
    roundIndex := round
    pairIndex := pair
    side := side
    warmup := plan.warmup
    timed := plan.timed }
  let sample ← driver (if side = .a then plan.incumbent else plan.candidate) request
  validateSample context request sample
  Checked.ensure (∀ identity ∈ s.identity, identity = (sample.runtimeIdentity, sample.driverKind))
    (.semantic "runtime identity changed during paired comparison")
  return {
    identity := some (sample.runtimeIdentity, sample.driverKind)
    a := if side = .a then s.a ++ [sample.timeUs] else s.a
    b := if side = .a then s.b else s.b ++ [sample.timeUs] }

/-- Both launches of a pair. -/
def launchPair (round : ℕ) (s : RoundState) (e : PairOrder × ℕ) : Except MeasureFault RoundState :=
  e.1.sides.foldlM (context.launch plan round e.2) s

/-- One round, with fresh groups. -/
def launchRound (round : ℕ) (orders : List PairOrder) (identity : Option (String × String)) :
    Except MeasureFault RoundState :=
  (orders.zipIdx 1).foldlM (context.launchPair plan round) { identity := identity }

/-- Both sides of a round are stable. -/
def stable (s : RoundState) : Prop := context.cv s.a ≤ plan.maxCv ∧ context.cv s.b ≤ plan.maxCv

instance (s : RoundState) : Decidable (context.stable plan s) := inferInstanceAs (Decidable (_ ∧ _))

/-- The loop over the rounds: the first stable one, with what it measured. -/
def selectRound : List (List PairOrder × ℕ) → Option (String × String) →
    Except MeasureFault (Option (ℕ × RoundState))
  | [], _ => .ok none
  | (orders, round) :: rest, identity => do
    let s ← context.launchRound plan round orders identity
    if context.stable plan s then return some (round, s) else selectRound rest s.identity

/-- The first stable round of an attempt. -/
def selected : Except MeasureFault (Option (ℕ × RoundState)) := do
  Checked.ensure (context.driver.isSome = true)
    (.semantic "enabled measured acceptance requires a launch driver")
  context.selectRound plan (plan.orders.zipIdx 1) none

end AcceptanceContext

/-- The relative gain of each pair. -/
def RoundState.gains (s : RoundState) : List ℚ := (s.a.zip s.b).map fun e => (e.1 - e.2) / e.1

/-- `statistics.median`. -/
def median (values : List ℚ) : ℚ :=
  let sorted := values.insertionSort (· ≤ ·)
  let half := sorted.length / 2
  if sorted.length % 2 = 1 then sorted.getD half 0
  else (sorted.getD (half - 1) 0 + sorted.getD half 0) / 2

/-- `_binomial_fraction`. -/
def binomialFraction (wins pairs : ℕ) : Except MeasureFault ℚ := do
  Checked.ensure (1 ≤ pairs ∧ wins ≤ pairs) (.semantic "invalid win count or pair count")
  return BinomialTest.tail wins pairs

/-- The pairs of a round in which the candidate won. -/
def RoundState.winCount (s : RoundState) (plan : AttemptPlan) : ℕ :=
  s.gains.countP (fun gain => plan.minimumGain < gain)

/-- The decision on a stable round. -/
def decideRound (plan : AttemptPlan) (round : ℕ) (s : RoundState) :
    Except MeasureFault MeasuredDecision := do
  let wins := s.winCount plan
  let fraction ← binomialFraction wins plan.pairCount
  let accepted := plan.minimumGain < median s.gains ∧ fraction ≤ plan.alpha
  return {
    status := if accepted then .accepted else .noMeasuredGain
    accepted := accepted
    attemptIndex := plan.attemptIndex
    alpha := plan.alpha
    pairCount := plan.pairCount
    selectedRound := some round
    wins := some wins
    pValue := some fraction
    medianGain := some (median s.gains) }

/-- A decision without a stable round. -/
def undecided (plan : AttemptPlan) (status : MeasureStatus) : MeasuredDecision where
  status := status
  attemptIndex := plan.attemptIndex
  alpha := plan.alpha
  pairCount := plan.pairCount

/-- `compare_measured`, once the attempt has been reserved. -/
def AcceptanceContext.measure (context : AcceptanceContext) (plan : AttemptPlan) : MeasuredDecision :=
  match context.selected plan with
  | .ok (some (round, s)) =>
    match decideRound plan round s with
    | .ok decision => decision
    | .error _ => undecided plan .measurementFailed
  | .ok none => undecided plan .unstable
  | .error _ => undecided plan .measurementFailed

/-! ## The first stable round -/

namespace AcceptanceContext
variable {context : AcceptanceContext} {plan : AttemptPlan}

/-- Rounds that were measured and were not stable. -/
inductive Unstable (context : AcceptanceContext) (plan : AttemptPlan) :
    List (List PairOrder × ℕ) → Option (String × String) → Option (String × String) → Prop
  | nil (identity : Option (String × String)) : Unstable context plan [] identity identity
  | cons {orders : List PairOrder} {round : ℕ} {rest : List (List PairOrder × ℕ)}
      {identity last : Option (String × String)} {s : RoundState}
      (h : context.launchRound plan round orders identity = .ok s) (hunstable : ¬ context.stable plan s)
      (hrest : Unstable context plan rest s.identity last) :
      Unstable context plan ((orders, round) :: rest) identity last

/-- **Only the first stable round is selected.** -/
theorem selectRound_first {rounds : List (List PairOrder × ℕ)} {identity : Option (String × String)}
    {round : ℕ} {s : RoundState} (h : context.selectRound plan rounds identity = .ok (some (round, s))) :
    ∃ before orders after last, rounds = before ++ (orders, round) :: after ∧
      Unstable context plan before identity last ∧
      context.launchRound plan round orders last = .ok s ∧ context.stable plan s := by
  induction rounds generalizing identity with
  | nil => cases h
  | cons e rounds ih =>
    obtain ⟨orders, r⟩ := e
    rw [selectRound, Checked.bind_ok] at h
    obtain ⟨t, ht, h⟩ := h
    by_cases hstable : context.stable plan t
    · rw [if_pos hstable, Checked.pure_ok] at h
      cases h
      exact ⟨[], orders, rounds, identity, rfl, .nil _, ht, hstable⟩
    · rw [if_neg hstable] at h
      obtain ⟨before, orders', after, last, rfl, hunstable, hlaunch, hs⟩ := ih h
      exact ⟨(orders, r) :: before, orders', after, last, rfl, .cons ht hstable hunstable, hlaunch, hs⟩

/-- A launch adds one time to the group of its side. -/
theorem launch_lengths {round pair : ℕ} {s t : RoundState} {side : PairSide}
    (h : context.launch plan round pair s side = .ok t) :
    t.a.length = s.a.length + (if side = .a then 1 else 0) ∧
      t.b.length = s.b.length + (if side = .b then 1 else 0) := by
  simp only [launch, Checked.bind_ok, Checked.pure_ok] at h
  obtain ⟨_, _, sample, _, _, _, _, _, rfl⟩ := h
  cases side <;> simp

theorem launchPair_lengths {round : ℕ} {s t : RoundState} {e : PairOrder × ℕ}
    (h : context.launchPair plan round s e = .ok t) :
    t.a.length = s.a.length + 1 ∧ t.b.length = s.b.length + 1 := by
  obtain ⟨order, pair⟩ := e
  cases order <;>
  · simp only [launchPair, PairOrder.sides, List.foldlM_cons, List.foldlM_nil, Checked.bind_ok,
      Checked.pure_ok] at h
    obtain ⟨u, hu, v, hv, rfl⟩ := h
    have h1 := launch_lengths hu
    have h2 := launch_lengths hv
    simp only [reduceCtorEq, if_true, if_false] at h1 h2
    omega

theorem launchPairs_lengths {round : ℕ} {l : List (PairOrder × ℕ)} {s t : RoundState}
    (h : l.foldlM (context.launchPair plan round) s = .ok t) :
    t.a.length = s.a.length + l.length ∧ t.b.length = s.b.length + l.length := by
  induction l generalizing s with
  | nil =>
    obtain rfl := Checked.pure_ok.mp h
    exact ⟨rfl, rfl⟩
  | cons e l ih =>
    rw [List.foldlM_cons, Checked.bind_ok] at h
    obtain ⟨u, hu, h⟩ := h
    have h1 := launchPair_lengths hu
    have h2 := ih h
    rw [List.length_cons]
    omega

/-- A round measures as many pairs as it plans. -/
theorem launchRound_gains {round : ℕ} {orders : List PairOrder} {identity : Option (String × String)}
    {s : RoundState} (h : context.launchRound plan round orders identity = .ok s) :
    s.gains.length = orders.length := by
  obtain ⟨ha, hb⟩ := launchPairs_lengths h
  rw [RoundState.gains, List.length_map, List.length_zip, ha, hb, List.length_zipIdx]
  simp

end AcceptanceContext

/-! ## Acceptance is a passed sign test -/

/-- The wins and losses of a round. -/
def RoundState.signs (s : RoundState) (plan : AttemptPlan) : BinomialTest.Signs plan.pairCount :=
  fun i => decide (plan.minimumGain < s.gains.getD i 0)

/-- Counting in a list is counting its places. -/
theorem card_filter_getD (l : List ℚ) (p : ℚ → Prop) [DecidablePred p] :
    (Finset.univ.filter fun i : Fin l.length => p (l.getD i 0)).card = l.countP (fun x => p x) := by
  induction l with
  | nil => rfl
  | cons x l ih =>
    rw [List.countP_cons, ← ih]
    show (Finset.univ.filter fun i : Fin (l.length + 1) => p ((x :: l).getD i 0)).card = _
    rw [Fin.card_filter_univ_succ]
    by_cases hx : p x <;> simp [hx]

theorem RoundState.wins_signs {s : RoundState} {plan : AttemptPlan}
    (h : s.gains.length = plan.pairCount) : BinomialTest.wins (s.signs plan) = s.winCount plan := by
  have hcount := card_filter_getD s.gains (fun gain => plan.minimumGain < gain)
  rw [BinomialTest.wins, winCount, ← hcount]
  simp only [RoundState.signs, decide_eq_true_eq]
  refine Finset.card_equiv (finCongr h.symm) fun i => ?_
  rw [Finset.mem_filter, Finset.mem_filter]
  exact and_congr_left fun _ => iff_of_true (Finset.mem_univ _) (Finset.mem_univ _)

/-- The wins and losses on which an attempt is decided, if it has a stable round. -/
def AcceptanceContext.signs (context : AcceptanceContext) (plan : AttemptPlan) :
    Option (BinomialTest.Signs plan.pairCount) :=
  match context.selected plan with
  | .ok (some (_, s)) => some (s.signs plan)
  | _ => none

namespace AcceptanceContext
variable {context : AcceptanceContext} {plan : AttemptPlan}

/-- What a selected round is. -/
theorem selected_ok {round : ℕ} {s : RoundState} (h : context.selected plan = .ok (some (round, s))) :
    ∃ before orders after last, plan.orders.zipIdx 1 = before ++ (orders, round) :: after ∧
      Unstable context plan before none last ∧
      context.launchRound plan round orders last = .ok s ∧ context.stable plan s := by
  simp only [selected, Checked.bind_ok] at h
  obtain ⟨_, _, h⟩ := h
  exact selectRound_first h

/-- **An accepted attempt passed its sign test** on its first stable round. -/
theorem accepted_passes (horders : ∀ order ∈ plan.orders, order.length = plan.pairCount)
    (h : (context.measure plan).accepted = true) :
    ∃ (round : ℕ) (s : RoundState), context.selected plan = .ok (some (round, s)) ∧
      s.gains.length = plan.pairCount ∧ context.signs plan = some (s.signs plan) ∧
      BinomialTest.Passes plan.alpha (s.signs plan) := by
  unfold measure at h
  split at h
  · rename_i round s hs
    obtain ⟨before, orders, after, last, hsplit, -, hlaunch, -⟩ := selected_ok hs
    have hmem : orders ∈ plan.orders := by
      have hzip : (orders, round) ∈ plan.orders.zipIdx 1 :=
        hsplit ▸ List.mem_append_right before List.mem_cons_self
      exact List.fst_mem_of_mem_zipIdx hzip
    have hlen : s.gains.length = plan.pairCount :=
      (launchRound_gains hlaunch).trans (horders orders hmem)
    refine ⟨round, s, hs, hlen, by rw [signs, hs], ?_⟩
    split at h
    · rename_i decision hdecision
      simp only [decideRound, binomialFraction, Checked.bind_ok, Checked.ensure_ok,
        Checked.pure_ok] at hdecision
      obtain ⟨_, ⟨_, _, rfl⟩, rfl⟩ := hdecision
      show BinomialTest.tail (BinomialTest.wins (s.signs plan)) plan.pairCount ≤ plan.alpha
      rw [RoundState.wins_signs hlen]
      exact (of_decide_eq_true h).2
    · cases h
  · cases h
  · cases h

end AcceptanceContext
end VeriCCL
