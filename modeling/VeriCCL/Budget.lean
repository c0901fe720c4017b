import VeriCCL.Checked
import VeriCCL.Dict
import Mathlib.Data.Rat.Defs

/-! # Task budgets

`execution/budget.py`: one `BudgetManager` hands out leases on the wall time of each
stage and on the processors shared by the models that run under a stage.  Every call
holds the manager's lock from its first to its last line, so a run is a sequence of
calls; only an acquirer that waits for a slot gives the lock up in the middle, and it
stands in `Budget.waiting` between its turns.

Times are rationals.  A call reads the clock itself, and what it reads is part of the
call.  A lease is named by its place in the manager's list, where it stays for good. -/
namespace VeriCCL

/-- `SemanticError`, the two kinds of it that the manager raises, and `KeyError`. -/
inductive BudgetFault where
  | semantic (message : String)
  | exhausted (message : String)
  | busy (message : String)
  | missing (key : String)
  deriving DecidableEq

/-- The limits a manager is built with: for each stage the time per round and in total,
and the limits all stages share.  `cpuBudget` is already capped by the processors the
process may use.  The constructor checks that all are positive. -/
structure BudgetLimits where
  stageLimits : Dict String (ℚ × ℚ)
  cpuBudget : ℕ
  perModelTimeout : ℚ
  maxThreadsPerModel : ℕ := 12
  maxParallelModels : ℕ := 1
  cleanupReserve : ℚ
  maxTuningRounds : ℕ
  maxRunWall : Option ℚ := none
  stages_distinct : stageLimits.Distinct := by decide
  stages_pos : ∀ e ∈ stageLimits, 0 < e.2.1 ∧ 0 < e.2.2 := by decide
  cpu_pos : 0 < cpuBudget := by decide
  timeout_pos : 0 < perModelTimeout := by decide
  threads_pos : 0 < maxThreadsPerModel := by decide
  parallel_pos : 0 < maxParallelModels := by decide
  reserve_pos : 0 < cleanupReserve := by decide
  wall_pos : ∀ wall ∈ maxRunWall, 0 < wall := by decide

/-- `BudgetLease`. -/
structure BudgetLease where
  stage : String
  startedAt : ℚ
  deadline : ℚ
  workDeadline : ℚ
  model : Bool := false
  threads : ℕ := 0
  parent : Option ℕ := none
  closed : Bool := false
  cleanupConfirmed : Bool := false
  unresolved : Bool := false
  deriving DecidableEq

/-- A model lease that is not closed. -/
def BudgetLease.openModel (lease : BudgetLease) : Bool := lease.model && !lease.closed

/-- A root lease that is not closed. -/
def BudgetLease.openRoot (lease : BudgetLease) : Bool := !lease.model && !lease.closed

/-- `BudgetManager`.  The accounts are total functions that stay zero away from the
configured stages. -/
structure BudgetManager where
  limits : BudgetLimits
  startedAt : ℚ
  consumed : String → ℚ := fun _ => 0
  modelWork : String → ℚ := fun _ => 0
  roundConsumed : String → ℚ := fun _ => 0
  startedRounds : ℕ := 0
  elapsedBeforeResume : ℚ := 0
  cpuInUse : ℤ := 0
  leases : List BudgetLease := []
  cancelled : Bool := false

/-- What an account charges more, at one stage. -/
def charge (account : String → ℚ) (stage : String) (amount : ℚ) : String → ℚ :=
  Function.update account stage (account stage + amount)

@[simp] theorem charge_self (account : String → ℚ) (stage : String) (amount : ℚ) :
    charge account stage amount stage = account stage + amount := Function.update_self ..

theorem le_charge (account : String → ℚ) (stage : String) {amount : ℚ} (h : 0 ≤ amount)
    (key : String) : account key ≤ charge account stage amount key := by
  by_cases hkey : key = stage
  · subst hkey
    rw [charge_self]
    exact le_add_of_nonneg_right h
  · exact le_of_eq (Function.update_of_ne hkey _ _).symm

/-- `dict.update`: the entries of a dictionary replace those of an account. -/
def restored (account : String → ℚ) (entries : Dict String ℚ) : String → ℚ :=
  fun key => (entries.get? key).getD (account key)

/-- The arguments of `restore_usage`. -/
structure Usage where
  consumed : Dict String ℚ
  startedRounds : ℕ
  elapsedWall : ℚ
  modelWork : Dict String ℚ := []
  roundConsumed : Dict String ℚ := []
  deriving DecidableEq

/-- A call of `acquire` for model work that has passed the checks before the loop. -/
structure ModelRequest where
  stage : String
  parent : ℕ
  requested : ℕ
  deriving DecidableEq

namespace BudgetManager

/-- `_global_deadline`; `none` is infinite. -/
def globalDeadline (s : BudgetManager) : Option ℚ :=
  s.limits.maxRunWall.map fun wall => s.startedAt + wall - s.elapsedBeforeResume

/-- The smaller of a time and a deadline that may be infinite. -/
def before (time : ℚ) : Option ℚ → ℚ
  | none => time
  | some deadline => min time deadline

theorem before_le (time : ℚ) (deadline : Option ℚ) : before time deadline ≤ time := by
  cases deadline with
  | none => exact le_refl time
  | some d => exact min_le_left time d

theorem before_le_deadline (time d : ℚ) : before time (some d) ≤ d := min_le_right time d

/-- Of one stage: the limits per round and in total. -/
def limitsOf (s : BudgetManager) (stage : String) : Option (ℚ × ℚ) := s.limits.stageLimits.get? stage

/-- What is left of a stage's time in this round. -/
def roundLeft (s : BudgetManager) (stage : String) : ℚ :=
  ((s.limitsOf stage).map (·.1)).getD 0 - s.roundConsumed stage

/-- What is left of a stage's time in total. -/
def totalLeft (s : BudgetManager) (stage : String) : ℚ :=
  ((s.limitsOf stage).map (·.2)).getD 0 - s.consumed stage

/-- `effective CPU quota` of one model. -/
def threadLimit (s : BudgetManager) : ℕ := min s.limits.maxThreadsPerModel s.limits.cpuBudget

/-- The model leases that are not closed. -/
def openModels (s : BudgetManager) : List BudgetLease := s.leases.filter (·.openModel)

/-- `acquire` without `model`: a root lease on a stage. -/
def acquireRoot (s : BudgetManager) (stage : String) (parent : Option ℕ) (now : ℚ) :
    Except BudgetFault BudgetManager := do
  Checked.ensure ((s.limitsOf stage).isSome = true)
    (.semantic ("stage has no configured budget: " ++ stage))
  Checked.ensure (s.cancelled = false) (.exhausted "task cancelled")
  Checked.ensure (parent = none ∧ ∀ item ∈ s.leases, ¬ (item.openRoot = true ∧ item.stage = stage))
    (.busy "a stage already has an active root lease")
  let deadline := before (now + min (s.roundLeft stage) (s.totalLeft stage)) s.globalDeadline
  let workDeadline := deadline - s.limits.cleanupReserve
  Checked.ensure (¬ workDeadline ≤ now) (.exhausted (stage ++ " budget exhausted"))
  return { s with leases := s.leases ++ [{
    stage := stage, startedAt := now, deadline := deadline, workDeadline := workDeadline }] }

/-- `acquire` with `model`, up to the loop. -/
def requestModel (s : BudgetManager) (stage : String) (parent : Option ℕ) (threads : Option ℤ) :
    Except BudgetFault ModelRequest := do
  Checked.ensure ((s.limitsOf stage).isSome = true)
    (.semantic ("stage has no configured budget: " ++ stage))
  Checked.ensure (s.cancelled = false) (.exhausted "task cancelled")
  let index ← Checked.required parent
    (.semantic "model work needs the matching active parent stage lease")
  let item ← Checked.required s.leases[index]?
    (.semantic "model work needs the matching active parent stage lease")
  Checked.ensure (item.model = false ∧ item.stage = stage)
    (.semantic "model work needs the matching active parent stage lease")
  Checked.ensure (∀ n ∈ threads, 1 ≤ n) (.semantic "requested threads must be a positive integer")
  let requested := (threads.map Int.toNat).getD s.threadLimit
  Checked.ensure (requested ≤ s.threadLimit)
    (.semantic "model thread request exceeds its effective CPU quota")
  return ⟨stage, index, requested⟩

/-- `parent.check()` at a reading of the clock. -/
def checkLease (s : BudgetManager) (index : ℕ) (now : ℚ) : Except BudgetFault BudgetLease := do
  let lease ← Checked.required s.leases[index]? (.semantic "unknown budget lease")
  Checked.ensure (s.cancelled = false ∧ lease.closed = false ∧ ¬ max 0 (lease.workDeadline - now) ≤ 0)
    (.exhausted "budget cancelled, closed or exhausted")
  return lease

/-- There is a slot for the request. -/
def slotFree (s : BudgetManager) (request : ModelRequest) : Prop :=
  s.openModels.length < s.limits.maxParallelModels ∧ s.cpuInUse + request.requested ≤ s.limits.cpuBudget

instance (s : BudgetManager) (request : ModelRequest) : Decidable (s.slotFree request) :=
  inferInstanceAs (Decidable (_ ∧ _))

/-- The lease of a model. -/
def modelLease (s : BudgetManager) (request : ModelRequest) (parent : BudgetLease) (now : ℚ) :
    BudgetLease :=
  let deadline := min (now + s.limits.perModelTimeout) parent.deadline
  { stage := request.stage
    startedAt := now
    deadline := deadline
    workDeadline := min (deadline - s.limits.cleanupReserve) parent.workDeadline
    model := true
    threads := request.requested
    parent := some request.parent }

/-- After the loop. -/
def grantModel (s : BudgetManager) (request : ModelRequest) (parent : BudgetLease) (now : ℚ) :
    Except BudgetFault BudgetManager := do
  let lease := s.modelLease request parent now
  Checked.ensure (¬ lease.workDeadline ≤ now)
    (.exhausted "insufficient model budget after cleanup reservation")
  return { s with
    cpuInUse := s.cpuInUse + request.requested
    leases := s.leases ++ [lease] }

/-- One turn of the loop in `acquire`: the new state, or `none` when the caller has to wait. -/
def attemptModel (s : BudgetManager) (request : ModelRequest) (checked now : ℚ) :
    Except BudgetFault (Option BudgetManager) := do
  let parent ← s.checkLease request.parent checked
  if s.slotFree request then return some (← s.grantModel request parent now) else return none

/-- A child of a lease that is not closed. -/
def openChild (s : BudgetManager) (index : ℕ) : Prop :=
  ∃ item ∈ s.leases, item.closed = false ∧ item.parent = some index

instance (s : BudgetManager) (index : ℕ) : Decidable (s.openChild index) :=
  inferInstanceAs (Decidable (∃ item ∈ s.leases, item.closed = false ∧ item.parent = some index))

/-- The time a lease has been held. -/
def elapsed (lease : BudgetLease) (now : ℚ) : ℚ := max 0 (now - lease.startedAt)

/-- The last lines of `_close`: the lease gives back what it holds. -/
def settle (s : BudgetManager) (index : ℕ) (lease : BudgetLease) (now : ℚ) : BudgetManager :=
  let leases := s.leases.set index
    { lease with closed := true, cleanupConfirmed := true, unresolved := false }
  if lease.model then
    { s with
      leases := leases
      cpuInUse := s.cpuInUse - lease.threads
      modelWork := charge s.modelWork lease.stage (elapsed lease now) }
  else
    { s with
      leases := leases
      consumed := charge s.consumed lease.stage (elapsed lease now)
      roundConsumed := charge s.roundConsumed lease.stage (elapsed lease now) }

/-- `_close`. -/
def close (s : BudgetManager) (index : ℕ) (cleanupConfirmed : Bool) (now : ℚ) :
    Except BudgetFault BudgetManager := do
  let lease ← Checked.required s.leases[index]? (.semantic "unknown budget lease")
  if lease.closed then return s
  else if cleanupConfirmed = false then
    return { s with leases := s.leases.set index { lease with unresolved := true } }
  else
    Checked.ensure (¬ s.openChild index) (.busy "child work has not acknowledged exit")
    return s.settle index lease now

/-- `start_tuning_round`. -/
def startTuningRound (s : BudgetManager) (now : ℚ) : Except BudgetFault BudgetManager := do
  Checked.ensure (s.cancelled = false ∧ s.startedRounds < s.limits.maxTuningRounds)
    (.exhausted "task cancelled or tuning round limit reached")
  Checked.ensure (∀ deadline ∈ s.globalDeadline, ¬ deadline - s.limits.cleanupReserve ≤ now)
    (.exhausted "task wall budget exhausted")
  forM s.limits.stageLimits fun e =>
    Checked.ensure (e.1 = "initial" ∨ ¬ e.2.2 - s.consumed e.1 ≤ s.limits.cleanupReserve)
      (.exhausted (e.1 ++ " cumulative budget exhausted"))
  return { s with roundConsumed := fun _ => 0, startedRounds := s.startedRounds + 1 }

/-- `cancel`. -/
def cancel (s : BudgetManager) : BudgetManager := { s with cancelled := true }

/-- The entries are of configured stages and not below the account. -/
def noRefund (s : BudgetManager) (account : String → ℚ) (entries : Dict String ℚ) : Prop :=
  ∀ e ∈ entries, (s.limitsOf e.1).isSome = true ∧ account e.1 ≤ e.2

instance (s : BudgetManager) (account : String → ℚ) (entries : Dict String ℚ) :
    Decidable (s.noRefund account entries) :=
  inferInstanceAs (Decidable (∀ e ∈ entries, _ ∧ _))

/-- The last lines of `restore_usage`. -/
def takeOver (s : BudgetManager) (usage : Usage) : BudgetManager :=
  { s with
    roundConsumed := restored s.roundConsumed usage.roundConsumed
    modelWork := restored s.modelWork usage.modelWork
    consumed := restored s.consumed usage.consumed
    startedRounds := usage.startedRounds
    elapsedBeforeResume := usage.elapsedWall }

/-- `restore_usage`. -/
def restoreUsage (s : BudgetManager) (usage : Usage) : Except BudgetFault BudgetManager := do
  Checked.ensure (∀ item ∈ s.leases, item.closed = true)
    (.semantic "cannot restore usage while owned work is active")
  Checked.ensure (∀ e ∈ usage.consumed, (s.limitsOf e.1).isSome = true)
    (.semantic "unknown restored budget stage")
  Checked.ensure (s.startedRounds ≤ usage.startedRounds ∧ s.elapsedBeforeResume ≤ usage.elapsedWall)
    (.semantic "restored usage cannot refund rounds or wall time")
  Checked.ensure (s.noRefund s.consumed usage.consumed)
    (.semantic "restored usage cannot refund consumed stage time")
  Checked.ensure (∀ e ∈ usage.modelWork, (s.limitsOf e.1).isSome = true)
    (.semantic "unknown restored model-work stage")
  Checked.ensure (s.noRefund s.modelWork usage.modelWork)
    (.semantic "restored usage cannot refund consumed model time")
  Checked.ensure (s.noRefund s.roundConsumed usage.roundConsumed)
    (.semantic "restored usage cannot refund the current round")
  return s.takeOver usage

end BudgetManager

/-! ## Runs -/

/-- A manager, and the acquirers that wait for a slot. -/
structure Budget where
  manager : BudgetManager
  waiting : List ModelRequest := []

/-- A call, with what it reads from the clock. -/
inductive BudgetCall where
  | acquireRoot (stage : String) (parent : Option ℕ) (now : ℚ)
  | acquireModel (stage : String) (parent : Option ℕ) (threads : Option ℤ) (wait : Bool)
      (checked now : ℚ)
  /-- A waiting acquirer takes another turn. -/
  | wake (waiter : ℕ) (checked now : ℚ)
  | close (lease : ℕ) (cleanupConfirmed : Bool) (now : ℚ)
  | startTuningRound (now : ℚ)
  | cancel
  | restoreUsage (usage : Usage)

namespace Budget

/-- The manager after a call; one that raised leaves it as it was. -/
def settled (s : Budget) (result : Except BudgetFault BudgetManager) : Budget :=
  match result with
  | .ok manager => { s with manager := manager }
  | .error _ => s

/-- A turn of an acquirer: it gets its lease, waits on, or its call raises. -/
def turn (s : Budget) (request : ModelRequest) (wait : Bool) (checked now : ℚ) : Budget :=
  match s.manager.attemptModel request checked now with
  | .ok (some manager) => { s with manager := manager }
  | .ok none => if wait then { s with waiting := s.waiting ++ [request] } else s
  | .error _ => s

/-- One call. -/
def step (s : Budget) : BudgetCall → Budget
  | .acquireRoot stage parent now => s.settled (s.manager.acquireRoot stage parent now)
  | .acquireModel stage parent threads wait checked now =>
    match s.manager.requestModel stage parent threads with
    | .ok request => s.turn request wait checked now
    | .error _ => s
  | .wake waiter checked now =>
    match s.waiting[waiter]? with
    | some request => { s with waiting := s.waiting.eraseIdx waiter }.turn request true checked now
    | none => s
  | .close lease cleanupConfirmed now => s.settled (s.manager.close lease cleanupConfirmed now)
  | .startTuningRound now => s.settled (s.manager.startTuningRound now)
  | .cancel => { s with manager := s.manager.cancel }
  | .restoreUsage usage => s.settled (s.manager.restoreUsage usage)

/-- A whole run. -/
def run (s : Budget) (calls : List BudgetCall) : Budget := calls.foldl step s

end Budget

/-- `BudgetManager.__init__`, at a reading of the clock. -/
def BudgetManager.init (limits : BudgetLimits) (now : ℚ) : BudgetManager where
  limits := limits
  startedAt := now

end VeriCCL
