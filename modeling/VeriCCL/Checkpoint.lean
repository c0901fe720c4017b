import VeriCCL.BudgetOwnership

/-! # Budgets across checkpoints

`workflow_state.py`: `save_checkpoint` writes what the budget manager has used, and
`restore_checkpoint` builds a new manager and charges it with that use, with what the
open leases ran since, and with the time the task was down.

Several readings of the clock go into one checkpoint.  `snapshot` reads it for the wall
time and once for each open lease; after it has returned, `save_checkpoint` reads the
clock again (`saved`), and only the time from then on counts as downtime.  So the time
between a reading of the snapshot and `saved` is charged to nobody, unless something else
makes up for it.  `Prompt` says exactly when it does not matter. -/
namespace VeriCCL

/-- An open lease as `snapshot` records it. -/
structure ActiveLease where
  stage : String
  model : Bool
  threads : ℕ
  unresolved : Bool
  startedAt : ℚ
  deadline : ℚ
  elapsed : ℚ
  deriving DecidableEq

/-- The result of `snapshot`. -/
structure Snapshot where
  consumed : Dict String ℚ
  modelWork : Dict String ℚ
  roundConsumed : Dict String ℚ
  startedRounds : ℕ
  cpuInUse : ℤ
  elapsedWall : ℚ
  activeLeases : List ActiveLease
  deriving DecidableEq

/-- What the clocks show when a checkpoint is taken: for the wall time, for each lease by
its place, and after the snapshot. -/
structure Readings where
  wall : ℚ
  lease : ℕ → ℚ
  saved : ℚ
  savedWall : ℚ
  bootId : String

/-- The part of a checkpoint's state that concerns budgets. -/
structure Checkpoint where
  budgets : Snapshot
  savedMonotonic : ℚ
  savedWall : ℚ
  bootId : String
  deriving DecidableEq

/-- What the clocks show at a restart: when the new manager is built, and when the downtime
is taken. -/
structure Restart where
  startedAt : ℚ
  monotonic : ℚ
  wall : ℚ
  bootId : String
  deriving DecidableEq

namespace BudgetManager

/-- The configured stages with their values in an account. -/
def entries (s : BudgetManager) (account : String → ℚ) : Dict String ℚ :=
  s.limits.stageLimits.map fun e => (e.1, account e.1)

/-- The record of an open lease and its place. -/
def activeLease (r : Readings) (e : BudgetLease × ℕ) : ActiveLease where
  stage := e.1.stage
  model := e.1.model
  threads := e.1.threads
  unresolved := e.1.unresolved
  startedAt := e.1.startedAt
  deadline := e.1.deadline
  elapsed := elapsed e.1 (r.lease e.2)

/-- `snapshot`. -/
def snapshot (s : BudgetManager) (r : Readings) : Snapshot where
  consumed := s.entries s.consumed
  modelWork := s.entries s.modelWork
  roundConsumed := s.entries s.roundConsumed
  startedRounds := s.startedRounds
  cpuInUse := s.cpuInUse
  elapsedWall := s.elapsedBeforeResume + max 0 (r.wall - s.startedAt)
  activeLeases := (s.leases.zipIdx.filter fun e => !e.1.closed).map (activeLease r)

/-- `save_checkpoint`, as far as budgets go. -/
def saveCheckpoint (s : BudgetManager) (r : Readings) : Checkpoint :=
  ⟨s.snapshot r, r.saved, r.savedWall, r.bootId⟩

end BudgetManager

namespace Checkpoint

/-- The time since the checkpoint; the wall clock is asked after a reboot. -/
def downtime (c : Checkpoint) (restart : Restart) : ℚ :=
  if restart.bootId = c.bootId then restart.monotonic - c.savedMonotonic
  else restart.wall - c.savedWall

/-- `target[stage] += amount`. -/
def addTo (target : Dict String ℚ) (stage : String) (amount : ℚ) :
    Except BudgetFault (Dict String ℚ) := do
  let value ← Checked.required (target.get? stage) (.missing stage)
  return target.set stage (value + amount)

/-- What a lease that was open at the checkpoint is charged. -/
def leaseCharge (c : Checkpoint) (down : ℚ) (item : ActiveLease) : ℚ :=
  item.elapsed + min down (max 0 (item.deadline - c.savedMonotonic))

/-- One turn of the loop over the open leases. -/
def chargeLease (c : Checkpoint) (down : ℚ) (usage : Usage) (item : ActiveLease) :
    Except BudgetFault Usage := do
  if item.model then
    return { usage with modelWork := ← addTo usage.modelWork item.stage (c.leaseCharge down item) }
  else
    let consumed ← addTo usage.consumed item.stage (c.leaseCharge down item)
    return { usage with
      consumed := consumed
      roundConsumed := usage.roundConsumed.set item.stage
        ((usage.roundConsumed.get? item.stage).getD 0 + c.leaseCharge down item) }

/-- The last part of `restore_checkpoint`: the manager the task goes on with. -/
def restore (limits : BudgetLimits) (c : Checkpoint) (restart : Restart) :
    Except BudgetFault BudgetManager := do
  let down := c.downtime restart
  Checked.ensure (¬ down < 0) (.semantic "resume clock regressed; elapsed budget cannot be established")
  let usage ← c.budgets.activeLeases.foldlM (c.chargeLease down) {
    consumed := c.budgets.consumed
    startedRounds := c.budgets.startedRounds
    elapsedWall := c.budgets.elapsedWall + down
    modelWork := c.budgets.modelWork
    roundConsumed := c.budgets.roundConsumed }
  (BudgetManager.init limits restart.startedAt).restoreUsage usage

end Checkpoint

/-! ## What is charged -/

/-- An account after a list of charges. -/
def chargeAll (account : String → ℚ) (charges : List (String × ℚ)) : String → ℚ :=
  charges.foldl (fun account e => charge account e.1 e.2) account

theorem chargeAll_apply (account : String → ℚ) (charges : List (String × ℚ)) (key : String) :
    chargeAll account charges key =
      account key + ((charges.filter fun e => e.1 = key).map (·.2)).sum := by
  induction charges generalizing account with
  | nil => simp [chargeAll]
  | cons e charges ih =>
    show chargeAll (charge account e.1 e.2) charges key = _
    rw [ih, List.filter_cons]
    by_cases h : e.1 = key
    · subst h
      simp [add_assoc]
    · simp [h, charge, Function.update_of_ne (Ne.symm h)]

/-- Charges that are not negative do not lower an account. -/
theorem le_chargeAll (account : String → ℚ) {charges : List (String × ℚ)}
    (h : ∀ e ∈ charges, 0 ≤ e.2) (key : String) : account key ≤ chargeAll account charges key := by
  rw [chargeAll_apply]
  refine le_add_of_nonneg_right (List.sum_nonneg ?_)
  intro x hx
  obtain ⟨e, he, rfl⟩ := List.mem_map.mp hx
  exact h e (List.mem_of_mem_filter he)

namespace BudgetManager

variable {s : BudgetManager}

/-- A dictionary that holds an account: one entry for each configured stage. -/
structure Books (limits : BudgetLimits) (d : Dict String ℚ) (account : String → ℚ) : Prop where
  distinct : d.Distinct
  get : ∀ key, d.get? key = if (limits.stageLimits.get? key).isSome then some (account key) else none

theorem books_entries (s : BudgetManager) (account : String → ℚ) :
    Books s.limits (s.entries account) account := by
  constructor
  · have hkeys : (s.entries account).keys = s.limits.stageLimits.keys := by
      simp [entries, Dict.keys]
    rw [Dict.Distinct, hkeys]
    exact s.limits.stages_distinct
  · intro key
    unfold entries
    induction s.limits.stageLimits with
    | nil => rfl
    | cons e l ih =>
      rw [List.map_cons, Dict.get?_cons, Dict.get?_cons]
      by_cases h : e.1 = key
      · simp [h]
      · simpa [h] using ih

variable {limits : BudgetLimits} {d : Dict String ℚ} {account : String → ℚ} {stage : String}

theorem Books.set (h : Books limits d account) (hstage : (limits.stageLimits.get? stage).isSome = true)
    (amount : ℚ) : Books limits (d.set stage (account stage + amount)) (charge account stage amount) := by
  refine ⟨h.distinct.set _ _, ?_⟩
  intro key
  rw [Dict.get?_set, h.get key]
  by_cases hkey : stage = key
  · subst hkey
    rw [if_pos rfl, if_pos hstage, charge_self]
  · rw [if_neg hkey, charge, Function.update_of_ne (Ne.symm hkey)]

theorem Books.addTo (h : Books limits d account)
    (hstage : (limits.stageLimits.get? stage).isSome = true) (amount : ℚ) :
    ∃ d', Checkpoint.addTo d stage amount = .ok d' ∧ Books limits d' (charge account stage amount) := by
  refine ⟨_, ?_, h.set hstage amount⟩
  simp [Checkpoint.addTo, h.get stage, hstage]

/-- The account that a new manager takes over from its books. -/
theorem Books.restored (h : Books limits d account) (hzero : ∀ key,
    (limits.stageLimits.get? key).isSome = false → account key = 0) :
    VeriCCL.restored (fun _ => 0) d = account := by
  funext key
  unfold VeriCCL.restored
  rw [h.get key]
  by_cases hkey : (limits.stageLimits.get? key).isSome = true
  · rw [if_pos hkey, Option.getD_some]
  · rw [if_neg hkey, Option.getD_none, hzero key (Bool.eq_false_of_not_eq_true hkey)]

/-- Books that are nowhere negative pass the checks of a new manager. -/
theorem Books.noRefund (h : Books limits d account) (hpos : ∀ key, 0 ≤ account key) (now : ℚ) :
    (init limits now).noRefund (fun _ => 0) d := by
  rintro ⟨key, value⟩ he
  have hget := Dict.get?_of_mem h.distinct he
  rw [h.get key] at hget
  by_cases hkey : (limits.stageLimits.get? key).isSome = true
  · rw [if_pos hkey, Option.some.injEq] at hget
    exact ⟨hkey, hget ▸ hpos key⟩
  · rw [if_neg hkey] at hget
    cases hget

end BudgetManager

namespace Checkpoint
open BudgetManager

/-- The charges of one kind of the open leases. -/
def charges (c : Checkpoint) (down : ℚ) (model : Bool) : List ActiveLease → List (String × ℚ)
  | [] => []
  | item :: rest =>
    if item.model = model then (item.stage, c.leaseCharge down item) :: charges c down model rest
    else charges c down model rest

/-- The books of a usage record. -/
structure Holds (limits : BudgetLimits) (usage : Usage) (consumed modelWork roundConsumed : String → ℚ) :
    Prop where
  consumed : Books limits usage.consumed consumed
  modelWork : Books limits usage.modelWork modelWork
  roundConsumed : Books limits usage.roundConsumed roundConsumed

/-- **The loop over the open leases** charges each of them to its stage. -/
theorem chargeLeases_ok (c : Checkpoint) (down : ℚ) {limits : BudgetLimits} {items : List ActiveLease}
    (hstages : ∀ item ∈ items, (limits.stageLimits.get? item.stage).isSome = true) {usage : Usage}
    {consumed modelWork roundConsumed : String → ℚ}
    (h : Holds limits usage consumed modelWork roundConsumed) :
    ∃ usage', items.foldlM (c.chargeLease down) usage = .ok usage' ∧
      Holds limits usage' (chargeAll consumed (c.charges down false items))
        (chargeAll modelWork (c.charges down true items))
        (chargeAll roundConsumed (c.charges down false items)) ∧
      usage'.startedRounds = usage.startedRounds ∧ usage'.elapsedWall = usage.elapsedWall := by
  induction items generalizing usage consumed modelWork roundConsumed with
  | nil => exact ⟨usage, rfl, h, rfl, rfl⟩
  | cons item items ih =>
    have hstage := hstages item List.mem_cons_self
    have hrest := fun i hi => hstages i (List.mem_cons_of_mem item hi)
    cases hmodel : item.model with
    | true =>
      obtain ⟨d', hd', hbooks⟩ := h.modelWork.addTo hstage (c.leaseCharge down item)
      have hnext : Holds limits { usage with modelWork := d' } consumed
          (charge modelWork item.stage (c.leaseCharge down item)) roundConsumed :=
        ⟨h.consumed, hbooks, h.roundConsumed⟩
      obtain ⟨usage', hrun, hholds, hrounds, hwall⟩ := ih hrest hnext
      refine ⟨usage', ?_, ?_, hrounds, hwall⟩
      · rw [List.foldlM_cons, Checked.bind_ok]
        exact ⟨_, by simp [chargeLease, hmodel, hd'], hrun⟩
      · simpa [charges, hmodel, chargeAll] using hholds
    | false =>
      obtain ⟨d', hd', hbooks⟩ := h.consumed.addTo hstage (c.leaseCharge down item)
      have hround : (usage.roundConsumed.get? item.stage).getD 0 = roundConsumed item.stage := by
        rw [h.roundConsumed.get, if_pos hstage, Option.getD_some]
      have hnext : Holds limits
          { usage with
            consumed := d'
            roundConsumed := usage.roundConsumed.set item.stage
              (roundConsumed item.stage + c.leaseCharge down item) }
          (charge consumed item.stage (c.leaseCharge down item)) modelWork
          (charge roundConsumed item.stage (c.leaseCharge down item)) :=
        ⟨hbooks, h.modelWork, h.roundConsumed.set hstage _⟩
      obtain ⟨usage', hrun, hholds, hrounds, hwall⟩ := ih hrest hnext
      refine ⟨usage', ?_, ?_, hrounds, hwall⟩
      · rw [List.foldlM_cons, Checked.bind_ok]
        exact ⟨_, by simp [chargeLease, hmodel, hd', hround], hrun⟩
      · simpa [charges, hmodel, chargeAll] using hholds

end Checkpoint

namespace BudgetManager

variable {s s' : BudgetManager}

/-- The accounts are not negative and are kept for configured stages only, and every lease
is of a configured stage. -/
structure Accounted (s : BudgetManager) : Prop where
  consumed : ∀ key, 0 ≤ s.consumed key
  modelWork : ∀ key, 0 ≤ s.modelWork key
  roundConsumed : ∀ key, 0 ≤ s.roundConsumed key
  elapsed : 0 ≤ s.elapsedBeforeResume
  absent : ∀ key, (s.limitsOf key).isSome = false →
    s.consumed key = 0 ∧ s.modelWork key = 0 ∧ s.roundConsumed key = 0
  staged : ∀ item ∈ s.leases, (s.limitsOf item.stage).isSome = true

theorem accounted_init (limits : BudgetLimits) (now : ℚ) : (init limits now).Accounted where
  consumed := fun _ => le_refl _
  modelWork := fun _ => le_refl _
  roundConsumed := fun _ => le_refl _
  elapsed := le_refl _
  absent := fun _ _ => ⟨rfl, rfl, rfl⟩
  staged := fun _ h => absurd h List.not_mem_nil

theorem charge_nonneg {account : String → ℚ} (h : ∀ key, 0 ≤ account key) (stage : String) {x : ℚ}
    (hx : 0 ≤ x) (key : String) : 0 ≤ charge account stage x key :=
  (h key).trans (le_charge account stage hx key)

theorem charge_absent {account : String → ℚ} {stage key : String} {x : ℚ} (h : account key = 0)
    (hne : key ≠ stage) : charge account stage x key = 0 := by
  rw [charge, Function.update_of_ne hne, h]

theorem restored_nonneg {account : String → ℚ} {d : Dict String ℚ} (h : ∀ key, 0 ≤ account key)
    (hd : s.noRefund account d) (key : String) : 0 ≤ VeriCCL.restored account d key :=
  (h key).trans (le_restored hd key)

theorem restored_absent {account : String → ℚ} {d : Dict String ℚ} {key : String}
    (h : account key = 0) (hd : s.noRefund account d) (hkey : (s.limitsOf key).isSome = false) :
    VeriCCL.restored account d key = 0 := by
  unfold VeriCCL.restored
  cases hget : d.get? key with
  | none => exact h
  | some value =>
    rw [(hd _ (Dict.mem_of_get? hget)).1] at hkey
    cases hkey

/-- A lease of a stage without limits is never granted. -/
theorem acquireRoot_staged {stage : String} {parent : Option ℕ} {now : ℚ}
    (h : s.acquireRoot stage parent now = .ok s') :
    ∃ lease : BudgetLease, s' = { s with leases := s.leases ++ [lease] } ∧
      (s.limitsOf lease.stage).isSome = true := by
  simp only [acquireRoot, Checked.bind_ok, Checked.ensure_ok, Checked.pure_ok] at h
  obtain ⟨_, hstage, _, _, _, _, _, _, rfl⟩ := h
  exact ⟨_, rfl, hstage⟩

theorem Accounted.grant {lease : BudgetLease} (acc : s.Accounted)
    (h : (s.limitsOf lease.stage).isSome = true) (cpu : ℤ) :
    ({ s with cpuInUse := cpu, leases := s.leases ++ [lease] } : BudgetManager).Accounted := by
  refine ⟨acc.consumed, acc.modelWork, acc.roundConsumed, acc.elapsed, acc.absent, ?_⟩
  intro item hitem
  rcases List.mem_append.mp hitem with hitem | hitem
  · exact acc.staged item hitem
  · rw [List.mem_singleton.mp hitem]
    exact h

theorem Accounted.settle {i : ℕ} {lease : BudgetLease} {now : ℚ} (acc : s.Accounted)
    (h : s.leases[i]? = some lease) : (s.settle i lease now).Accounted := by
  have hstage := acc.staged lease (List.mem_of_getElem? h)
  have hne : ∀ key, (s.limitsOf key).isSome = false → key ≠ lease.stage := by
    rintro key hkey rfl
    rw [hstage] at hkey
    cases hkey
  have hleases : ∀ item ∈ (s.settle i lease now).leases, (s.limitsOf item.stage).isSome = true := by
    intro item hitem
    rw [settle_leases] at hitem
    rcases List.mem_or_eq_of_mem_set hitem with hitem | rfl
    · exact acc.staged item hitem
    · exact hstage
  have hpos := elapsed_nonneg lease now
  cases hmodel : lease.model with
  | true =>
    simp only [BudgetManager.settle, hmodel, if_true] at hleases ⊢
    refine ⟨acc.consumed, charge_nonneg acc.modelWork _ hpos, acc.roundConsumed, acc.elapsed, ?_, hleases⟩
    intro key hkey
    obtain ⟨h1, h2, h3⟩ := acc.absent key hkey
    exact ⟨h1, charge_absent h2 (hne key hkey), h3⟩
  | false =>
    simp only [BudgetManager.settle, hmodel, Bool.false_eq_true, if_false] at hleases ⊢
    refine ⟨charge_nonneg acc.consumed _ hpos, acc.modelWork, charge_nonneg acc.roundConsumed _ hpos,
      acc.elapsed, ?_, hleases⟩
    intro key hkey
    obtain ⟨h1, h2, h3⟩ := acc.absent key hkey
    exact ⟨charge_absent h1 (hne key hkey), h2, charge_absent h3 (hne key hkey)⟩

theorem Accounted.restoreUsage {usage : Usage} (acc : s.Accounted)
    (h : s.restoreUsage usage = .ok s') : s'.Accounted := by
  obtain ⟨rfl, -, hwall, hconsumed, hmodel, hround⟩ := restoreUsage_ok h
  refine ⟨restored_nonneg acc.consumed hconsumed, restored_nonneg acc.modelWork hmodel,
    restored_nonneg acc.roundConsumed hround, acc.elapsed.trans hwall, ?_, acc.staged⟩
  intro key hkey
  obtain ⟨h1, h2, h3⟩ := acc.absent key hkey
  exact ⟨restored_absent h1 hconsumed hkey, restored_absent h2 hmodel hkey,
    restored_absent h3 hround hkey⟩

end BudgetManager

namespace Budget.Move
open BudgetManager

variable {s s' : BudgetManager} {call : BudgetCall}

theorem accounted (h : Move s call s') (acc : s.Accounted) : s'.Accounted := by
  cases h with
  | idle => exact acc
  | root h =>
    obtain ⟨lease, rfl, hstage⟩ := acquireRoot_staged h
    exact acc.grant hstage _
  | model hcall hpending h =>
    obtain ⟨lease, rfl, fits, hopen, -⟩ := attemptModel_ok hpending h
    obtain ⟨p, parent, -, hparent, -, hstage, -⟩ := fits.child hopen
    exact acc.grant (hstage ▸ acc.staged parent (List.mem_of_getElem? hparent)) _
  | close h =>
    obtain ⟨lease, hlease, ⟨_, rfl⟩ | ⟨_, _, rfl⟩ | ⟨_, _, _, rfl⟩⟩ := close_ok h
    · exact acc
    · refine ⟨acc.consumed, acc.modelWork, acc.roundConsumed, acc.elapsed, acc.absent, ?_⟩
      intro item hitem
      rcases List.mem_or_eq_of_mem_set hitem with hitem | rfl
      · exact acc.staged item hitem
      · exact acc.staged lease (List.mem_of_getElem? hlease)
    · exact acc.settle hlease
  | round h =>
    obtain ⟨_, rfl⟩ := startTuningRound_ok h
    refine ⟨acc.consumed, acc.modelWork, fun _ => le_refl _, acc.elapsed, ?_, acc.staged⟩
    intro key hkey
    obtain ⟨h1, h2, _⟩ := acc.absent key hkey
    exact ⟨h1, h2, rfl⟩
  | cancel => exact ⟨acc.consumed, acc.modelWork, acc.roundConsumed, acc.elapsed, acc.absent, acc.staged⟩
  | restore h => exact acc.restoreUsage h

theorem elapsed_le (h : Move s call s') : s.elapsedBeforeResume ≤ s'.elapsedBeforeResume := by
  cases h with
  | idle => exact le_refl _
  | root h =>
    obtain ⟨lease, rfl, -⟩ := acquireRoot_ok h
    exact le_refl _
  | model hcall hpending h =>
    obtain ⟨lease, rfl, -⟩ := attemptModel_ok hpending h
    exact le_refl _
  | close h =>
    obtain ⟨lease, -, ⟨_, rfl⟩ | ⟨_, _, rfl⟩ | ⟨_, _, _, rfl⟩⟩ := close_ok h
    · exact le_refl _
    · exact le_refl _
    · unfold settle
      by_cases hmodel : lease.model = true <;> simp [hmodel]
  | round h =>
    obtain ⟨_, rfl⟩ := startTuningRound_ok h
    exact le_refl _
  | cancel => exact le_refl _
  | restore h =>
    obtain ⟨rfl, -, hwall, -⟩ := restoreUsage_ok h
    exact hwall

end Budget.Move

/-! ## The restored manager -/

namespace BudgetManager

variable {s : BudgetManager}

/-- The root leases that are not closed, with their places. -/
def openRoots (s : BudgetManager) : List (BudgetLease × ℕ) :=
  s.leases.zipIdx.filter fun e => e.1.openRoot

/-- What the lease of an open root is charged at a restart. -/
def restartCharge (r : Readings) (down : ℚ) (e : BudgetLease × ℕ) : ℚ :=
  elapsed e.1 (r.lease e.2) + min down (max 0 (e.1.deadline - r.saved))

/-- The loop of `restore_checkpoint` charges the open root leases of the snapshot. -/
theorem charges_roots (s : BudgetManager) (r : Readings) (down : ℚ) :
    (s.saveCheckpoint r).charges down false (s.snapshot r).activeLeases =
      s.openRoots.map fun e => (e.1.stage, restartCharge r down e) := by
  simp only [snapshot, openRoots]
  generalize s.leases.zipIdx = l
  induction l with
  | nil => rfl
  | cons e l ih =>
    rw [List.filter_cons, List.filter_cons]
    have hroot : e.1.openRoot = (!e.1.model && !e.1.closed) := rfl
    have hactive : (activeLease r e).model = e.1.model := rfl
    cases hclosed : e.1.closed with
    | true => simpa [hroot, hclosed] using ih
    | false =>
      cases hmodel : e.1.model with
      | true => simpa [hroot, hclosed, hmodel, Checkpoint.charges, hactive] using ih
      | false =>
        simp only [hroot, hclosed, hmodel, Bool.not_false, Bool.and_self, if_true, List.map_cons,
          Checkpoint.charges, hactive, ih]
        rfl

theorem mem_charges {c : Checkpoint} {down : ℚ} {model : Bool} {items : List ActiveLease}
    {e : String × ℚ} (h : e ∈ c.charges down model items) :
    ∃ item ∈ items, e = (item.stage, c.leaseCharge down item) := by
  induction items with
  | nil => exact absurd h List.not_mem_nil
  | cons item items ih =>
    unfold Checkpoint.charges at h
    split at h
    · rcases List.mem_cons.mp h with rfl | h
      · exact ⟨item, List.mem_cons_self, rfl⟩
      · obtain ⟨other, hother, rfl⟩ := ih h
        exact ⟨other, List.mem_cons_of_mem item hother, rfl⟩
    · obtain ⟨other, hother, rfl⟩ := ih h
      exact ⟨other, List.mem_cons_of_mem item hother, rfl⟩

/-- The books of a new manager, once the loop has charged the open leases: nowhere negative
and nothing at a stage without limits. -/
theorem charged_account (acc : s.Accounted) (r : Readings) {down : ℚ} (hdown : 0 ≤ down)
    {account : String → ℚ} (hpos : ∀ key, 0 ≤ account key)
    (habsent : ∀ key, (s.limitsOf key).isSome = false → account key = 0) (model : Bool) (key : String) :
    0 ≤ chargeAll account ((s.saveCheckpoint r).charges down model (s.snapshot r).activeLeases) key ∧
    ((s.limitsOf key).isSome = false →
      chargeAll account ((s.saveCheckpoint r).charges down model (s.snapshot r).activeLeases) key = 0) := by
  constructor
  · refine (hpos key).trans (le_chargeAll account ?_ key)
    intro e he
    obtain ⟨item, hitem, rfl⟩ := mem_charges he
    obtain ⟨lease, -, rfl⟩ := List.mem_map.mp hitem
    exact add_nonneg (elapsed_nonneg _ _) (le_min hdown (le_max_left _ _))
  · intro hkey
    rw [chargeAll_apply, habsent key hkey, zero_add]
    have hnone : ((s.saveCheckpoint r).charges down model (s.snapshot r).activeLeases).filter
        (fun e => e.1 = key) = [] := by
      rw [List.filter_eq_nil_iff]
      intro e he heq
      obtain ⟨item, hitem, rfl⟩ := mem_charges he
      obtain ⟨lease, hlease, rfl⟩ := List.mem_map.mp hitem
      have hstage := acc.staged lease.1 (List.fst_mem_of_mem_zipIdx (List.mem_of_mem_filter hlease))
      rw [show lease.1.stage = key from of_decide_eq_true heq, hkey] at hstage
      cases hstage
    rw [hnone, List.map_nil, List.sum_nil]

/-- **Restoring always succeeds**, and charges the open leases and the downtime. -/
theorem restore_ok (acc : s.Accounted) (r : Readings) (restart : Restart)
    (hdown : 0 ≤ (s.saveCheckpoint r).downtime restart) :
    ∃ m, (s.saveCheckpoint r).restore s.limits restart = .ok m ∧ m.limits = s.limits ∧
      m.startedAt = restart.startedAt ∧ m.leases = [] ∧ m.startedRounds = s.startedRounds ∧
      m.elapsedBeforeResume = s.elapsedBeforeResume + max 0 (r.wall - s.startedAt) +
        (s.saveCheckpoint r).downtime restart ∧
      m.consumed = chargeAll s.consumed (s.openRoots.map fun e =>
        (e.1.stage, restartCharge r ((s.saveCheckpoint r).downtime restart) e)) ∧
      m.roundConsumed = chargeAll s.roundConsumed (s.openRoots.map fun e =>
        (e.1.stage, restartCharge r ((s.saveCheckpoint r).downtime restart) e)) ∧
      (∀ key, s.modelWork key ≤ m.modelWork key) ∧ m.cpuInUse = 0 := by
  have hstages : ∀ item ∈ (s.snapshot r).activeLeases,
      (s.limits.stageLimits.get? item.stage).isSome = true := by
    intro item hitem
    obtain ⟨e, he, rfl⟩ := List.mem_map.mp hitem
    exact acc.staged e.1 (List.fst_mem_of_mem_zipIdx (List.mem_of_mem_filter he))
  have hholds : Checkpoint.Holds s.limits
      { consumed := (s.snapshot r).consumed
        startedRounds := (s.snapshot r).startedRounds
        elapsedWall := (s.snapshot r).elapsedWall + (s.saveCheckpoint r).downtime restart
        modelWork := (s.snapshot r).modelWork
        roundConsumed := (s.snapshot r).roundConsumed } s.consumed s.modelWork s.roundConsumed :=
    ⟨books_entries s _, books_entries s _, books_entries s _⟩
  obtain ⟨usage, hrun, hafter, hrounds, hwall⟩ :=
    Checkpoint.chargeLeases_ok (s.saveCheckpoint r) ((s.saveCheckpoint r).downtime restart) hstages hholds
  have hc := charged_account acc r hdown acc.consumed (fun key h => (acc.absent key h).1) false
  have hm := charged_account acc r hdown acc.modelWork (fun key h => (acc.absent key h).2.1) true
  have hr := charged_account acc r hdown acc.roundConsumed (fun key h => (acc.absent key h).2.2) false
  have hrounds' : usage.startedRounds = s.startedRounds := hrounds
  have hwall' : usage.elapsedWall = s.elapsedBeforeResume + max 0 (r.wall - s.startedAt) +
      (s.saveCheckpoint r).downtime restart := hwall
  have hwallpos : 0 ≤ usage.elapsedWall := by
    rw [hwall']
    exact add_nonneg (add_nonneg acc.elapsed (le_max_left _ _)) hdown
  have hrestore : (init s.limits restart.startedAt).restoreUsage usage =
      .ok ((init s.limits restart.startedAt).takeOver usage) := by
    have h1 := hafter.consumed.noRefund (fun key => (hc key).1) restart.startedAt
    have h2 := hafter.modelWork.noRefund (fun key => (hm key).1) restart.startedAt
    have h3 := hafter.roundConsumed.noRefund (fun key => (hr key).1) restart.startedAt
    simp only [restoreUsage, Checked.bind_ok, Checked.ensure_ok, Checked.pure_ok]
    exact ⟨(), fun _ h => absurd h List.not_mem_nil, (), fun e he => (h1 e he).1, (),
      ⟨Nat.zero_le _, hwallpos⟩, (), h1, (), fun e he => (h2 e he).1, (), h2, (), h3, trivial⟩
  refine ⟨(init s.limits restart.startedAt).takeOver usage, ?_, rfl, rfl, rfl, hrounds', hwall',
    ?_, ?_, ?_, rfl⟩
  · simp only [Checkpoint.restore, Checked.bind_ok, Checked.ensure_ok]
    exact ⟨(), not_lt.mpr hdown, usage, hrun, hrestore⟩
  · rw [← charges_roots]
    exact hafter.consumed.restored fun key hkey => (hc key).2 hkey
  · rw [← charges_roots]
    exact hafter.roundConsumed.restored fun key hkey => (hr key).2 hkey
  · intro key
    show s.modelWork key ≤ VeriCCL.restored (fun _ => 0) usage.modelWork key
    rw [hafter.modelWork.restored fun key hkey => (hm key).2 hkey]
    refine le_chargeAll _ ?_ key
    intro e he
    obtain ⟨item, hitem, rfl⟩ := mem_charges he
    obtain ⟨lease, -, rfl⟩ := List.mem_map.mp hitem
    exact add_nonneg (elapsed_nonneg _ _) (le_min hdown (le_max_left _ _))

end BudgetManager

/-! ## Refunds -/

namespace BudgetManager

variable {s : BudgetManager}

/-- The readings of a checkpoint are not before what they measure from, and the clock is
read last for `saved`. -/
structure Taken (s : BudgetManager) (r : Readings) : Prop where
  wall : s.startedAt ≤ r.wall
  lease : ∀ (i : ℕ) (lease : BudgetLease), s.leases[i]? = some lease → lease.startedAt ≤ r.lease i
  saved : ∀ i, r.lease i ≤ r.saved

end BudgetManager

/-- A task over its restarts: its budget, and the real time from the task's first start to
the start of the present manager. -/
structure Task where
  before : ℚ
  budget : Budget

namespace Task
open BudgetManager

/-- The manager at work. -/
def manager (task : Task) : BudgetManager := task.budget.manager

/-- The checkpoint a task takes. -/
def checkpoint (task : Task) (r : Readings) : Checkpoint := task.manager.saveCheckpoint r

/-- The time from the first start of the task to a restart from its checkpoint. -/
def elapsedAt (task : Task) (r : Readings) (restart : Restart) : ℚ :=
  task.before + (r.saved - task.manager.startedAt) + (task.checkpoint r).downtime restart

/-- The task after a restart. -/
def resumed (task : Task) (r : Readings) (restart : Restart) (m : BudgetManager) : Task where
  before := task.elapsedAt r restart - (restart.monotonic - restart.startedAt)
  budget := ⟨m, []⟩

/-- A task goes on by a call, or by a restart from a checkpoint. -/
inductive Step (limits : BudgetLimits) : Task → Task → Prop
  | call (task : Task) (call : BudgetCall) : Step limits task ⟨task.before, task.budget.step call⟩
  | resume (task : Task) {r : Readings} {restart : Restart} {m : BudgetManager}
      (taken : task.manager.Taken r) (down : 0 ≤ (task.checkpoint r).downtime restart)
      (restore : (task.checkpoint r).restore limits restart = .ok m) :
      Step limits task (task.resumed r restart m)

/-- The states a task may reach. -/
def Reachable (limits : BudgetLimits) (task : Task) : Prop :=
  ∃ now, Relation.ReflTransGen (Step limits) ⟨0, Budget.start limits now⟩ task

/-- What holds of every task. -/
structure Inv (limits : BudgetLimits) (task : Task) : Prop where
  budget : task.budget.Inv
  accounted : task.manager.Accounted
  limits_eq : task.manager.limits = limits

/-- The accounts of one manager carry over to a later one. -/
structure Carries (s s' : BudgetManager) : Prop where
  consumed : ∀ key, s.consumed key ≤ s'.consumed key
  modelWork : ∀ key, s.modelWork key ≤ s'.modelWork key
  rounds : s.startedRounds ≤ s'.startedRounds
  elapsed : s.elapsedBeforeResume ≤ s'.elapsedBeforeResume

theorem Carries.trans {a b c : BudgetManager} (h : Carries a b) (h' : Carries b c) : Carries a c :=
  ⟨fun key => (h.consumed key).trans (h'.consumed key),
    fun key => (h.modelWork key).trans (h'.modelWork key), h.rounds.trans h'.rounds,
    h.elapsed.trans h'.elapsed⟩

variable {limits : BudgetLimits} {task task' : Task}

theorem owned_of_leases_nil {m : BudgetManager} (hleases : m.leases = []) (hcpu : m.cpuInUse = 0) :
    m.Owned := by
  have hopen : m.openModels = [] := by simp [openModels, hleases]
  refine ⟨?_, ?_, ?_, ?_, ?_, ?_⟩
  · rw [hopen, hcpu]
    rfl
  · rw [hcpu]
    omega
  · rw [hopen]
    exact Nat.zero_le _
  · intro i j a b ha
    simp [hleases] at ha
  · intro i child h
    simp [hleases] at h
  · intro item h
    simp [hleases] at h

theorem carries_move {s s' : BudgetManager} {call : BudgetCall} (h : Budget.Move s call s') :
    Carries s s' := by
  refine ⟨fun key => (h.accounts_le key).1, fun key => (h.accounts_le key).2, ?_, h.elapsed_le⟩
  rcases h.rounds with heq | ⟨_, _, heq, _⟩ | ⟨_, _, heq, hle⟩
  · exact heq.ge
  · omega
  · omega

/-- **A restart carries every account over**, and the new manager owns nothing yet. -/
theorem resume_carries (inv : Inv limits task) {r : Readings} {restart : Restart} {m : BudgetManager}
    (down : 0 ≤ (task.checkpoint r).downtime restart)
    (restore : (task.checkpoint r).restore limits restart = .ok m) :
    Carries task.manager m ∧ Inv limits (task.resumed r restart m) := by
  obtain ⟨m', hm', hlimits, -, hleases, hrounds, helapsed, hconsumed, hround, hmodel, hcpu⟩ :=
    restore_ok inv.accounted r restart down
  rw [inv.limits_eq] at hm' hlimits
  obtain rfl : m = m' := Except.ok.inj (restore.symm.trans hm')
  have hcharges : ∀ e ∈ task.manager.openRoots.map (fun e =>
      (e.1.stage, restartCharge r ((task.checkpoint r).downtime restart) e)), 0 ≤ e.2 := by
    intro e he
    obtain ⟨a, -, rfl⟩ := List.mem_map.mp he
    exact add_nonneg (elapsed_nonneg _ _) (le_min down (le_max_left _ _))
  have hcarries : Carries task.manager m := by
    refine ⟨fun key => ?_, hmodel, hrounds.ge, ?_⟩
    · rw [hconsumed]
      exact le_chargeAll _ hcharges key
    · have hpos : 0 ≤ max 0 (r.wall - task.manager.startedAt) := le_max_left _ _
      rw [helapsed]
      have hd : 0 ≤ (task.manager.saveCheckpoint r).downtime restart := down
      linarith
  refine ⟨hcarries, ⟨owned_of_leases_nil hleases hcpu, fun _ h => absurd h List.not_mem_nil⟩, ?_, hlimits⟩
  obtain ⟨usage, hrestored⟩ : ∃ usage, (init limits restart.startedAt).restoreUsage usage = .ok m := by
    simp only [Checkpoint.restore, Checked.bind_ok] at restore
    obtain ⟨_, _, usage, _, h⟩ := restore
    exact ⟨usage, h⟩
  exact (accounted_init limits restart.startedAt).restoreUsage hrestored

theorem step_inv (inv : Inv limits task) (h : Step limits task task') :
    Inv limits task' ∧ Carries task.manager task'.manager := by
  cases h with
  | call call =>
    have hmove := (Budget.step_move inv.budget.2 call).1
    exact ⟨⟨Budget.inv_step inv.budget call, hmove.accounted inv.accounted,
      hmove.limits_eq.trans inv.limits_eq⟩, carries_move hmove⟩
  | resume taken down restore =>
    obtain ⟨hcarries, hinv⟩ := resume_carries inv down restore
    exact ⟨hinv, hcarries⟩

theorem run_inv (inv : Inv limits task) (h : Relation.ReflTransGen (Step limits) task task') :
    Inv limits task' ∧ Carries task.manager task'.manager := by
  induction h with
  | refl => exact ⟨inv, ⟨fun _ => le_refl _, fun _ => le_refl _, le_refl _, le_refl _⟩⟩
  | tail _ hstep ih =>
    obtain ⟨hinv, hcarries⟩ := step_inv ih.1 hstep
    exact ⟨hinv, ih.2.trans hcarries⟩

theorem Reachable.inv (h : Reachable limits task) : Inv limits task := by
  obtain ⟨now, hrun⟩ := h
  have hstart : Inv limits ⟨0, Budget.start limits now⟩ :=
    ⟨Budget.inv_start limits now, accounted_init limits now, rfl⟩
  exact (run_inv hstart hrun).1

/-- A checkpoint of it: the snapshot reads the clock at one, and `saved` is two. -/
def late : Readings := ⟨1, fun _ => 1, 2, 2, "boot"⟩

end Task
end VeriCCL
