import VeriCCL.Budget

/-! # Ownership of budgets

What a manager's counters say about its leases (`BudgetManager.Owned`) is kept by every
call, and so holds along every run, whatever the clock shows and however the calls of
several threads are interleaved.

A call changes the list of leases in three ways only: it appends a lease that is granted,
it marks one as unresolved, or it closes one.  The counters are compared with the leases
through `List.filter`, so each of the three is a lemma about a list that is split at the
lease it changes (`split_at`). -/
namespace VeriCCL
namespace BudgetManager

variable {s s' : BudgetManager} {i : ℕ} {lease : BudgetLease} {now : ℚ}

/-- The ownership invariant. -/
structure Owned (s : BudgetManager) : Prop where
  cpu : s.cpuInUse = ((s.openModels.map (·.threads)).sum : ℕ)
  cpu_le : s.cpuInUse ≤ s.limits.cpuBudget
  models_le : s.openModels.length ≤ s.limits.maxParallelModels
  roots : ∀ (i j : ℕ) (a b : BudgetLease), s.leases[i]? = some a → s.leases[j]? = some b →
    a.openRoot = true → b.openRoot = true → a.stage = b.stage → i = j
  children : ∀ (i : ℕ) (child : BudgetLease), s.leases[i]? = some child → child.openModel = true →
    ∃ (p : ℕ) (parent : BudgetLease), child.parent = some p ∧ s.leases[p]? = some parent ∧
      parent.openRoot = true ∧ parent.stage = child.stage ∧ child.deadline ≤ parent.deadline ∧
      child.workDeadline ≤ parent.workDeadline
  reserve : ∀ item ∈ s.leases, item.workDeadline ≤ item.deadline - s.limits.cleanupReserve

/-- A list is split at each of its places. -/
theorem split_at {α : Type} {l : List α} {i : ℕ} {a : α} (h : l[i]? = some a) :
    ∃ l₁ l₂, l = l₁ ++ a :: l₂ ∧ ∀ b, l.set i b = l₁ ++ b :: l₂ := by
  obtain ⟨hi, rfl⟩ := List.getElem?_eq_some_iff.mp h
  refine ⟨l.take i, l.drop (i + 1), ?_, ?_⟩
  · rw [List.getElem_cons_drop, List.take_append_drop]
  · intro b
    rw [List.set_eq_take_append_cons_drop, if_pos hi]

theorem owned_init (limits : BudgetLimits) (now : ℚ) : (init limits now).Owned where
  cpu := rfl
  cpu_le := by
    show (0 : ℤ) ≤ limits.cpuBudget
    omega
  models_le := Nat.zero_le _
  roots := by
    intro i j a b ha
    simp [init] at ha
  children := by
    intro i child h
    simp [init] at h
  reserve := by
    intro item h
    simp [init] at h

/-! ## Granting -/

/-- A place of the longer list is one of the list, or the last one. -/
theorem getElem?_concat {l : List BudgetLease} {a b : BudgetLease} {j : ℕ}
    (h : (l ++ [a])[j]? = some b) : l[j]? = some b ∨ j = l.length ∧ b = a := by
  rcases Nat.lt_trichotomy j l.length with hj | rfl | hj
  · rw [List.getElem?_append_left hj] at h
    exact Or.inl h
  · rw [List.getElem?_append_right (le_refl _), Nat.sub_self] at h
    exact Or.inr ⟨rfl, (Option.some.inj h).symm⟩
  · rw [List.getElem?_append_right hj.le] at h
    obtain ⟨k, hk⟩ : ∃ k, j - l.length = k + 1 := ⟨j - l.length - 1, by omega⟩
    rw [hk] at h
    simp at h

theorem getElem?_concat_of {l : List BudgetLease} {a b : BudgetLease} {j : ℕ}
    (h : l[j]? = some b) : (l ++ [a])[j]? = some b := by
  rw [List.getElem?_append_left (List.getElem?_eq_some_iff.mp h).1, h]

/-- What a granted lease has to satisfy. -/
structure Fits (s : BudgetManager) (lease : BudgetLease) : Prop where
  root : lease.openRoot = true → ∀ item ∈ s.leases, ¬ (item.openRoot = true ∧ item.stage = lease.stage)
  child : lease.openModel = true → ∃ (p : ℕ) (parent : BudgetLease), lease.parent = some p ∧
    s.leases[p]? = some parent ∧ parent.openRoot = true ∧ parent.stage = lease.stage ∧
    lease.deadline ≤ parent.deadline ∧ lease.workDeadline ≤ parent.workDeadline
  reserve : lease.workDeadline ≤ lease.deadline - s.limits.cleanupReserve

/-- The processors a lease holds. -/
def held (lease : BudgetLease) : ℕ := if lease.openModel then lease.threads else 0

theorem openModels_threads (s : BudgetManager) :
    (s.openModels.map (·.threads)).sum = (s.leases.map held).sum := by
  unfold openModels
  induction s.leases with
  | nil => rfl
  | cons a l ih =>
    rw [List.filter_cons, List.map_cons, List.sum_cons, ← ih]
    by_cases h : a.openModel = true
    · rw [if_pos h, List.map_cons, List.sum_cons, held, if_pos h]
    · rw [if_neg h, held, if_neg h, Nat.zero_add]

/-- A lease that fits, with its processors counted, keeps the invariant. -/
theorem Owned.grant (own : s.Owned) (fits : s.Fits lease) (hleases : s'.leases = s.leases ++ [lease])
    (hlimits : s'.limits = s.limits) (hcpu : s'.cpuInUse = s.cpuInUse + held lease)
    (hle : s'.cpuInUse ≤ s.limits.cpuBudget)
    (hmodels : lease.openModel = true → s.openModels.length < s.limits.maxParallelModels) :
    s'.Owned where
  cpu := by
    have hold := own.cpu
    rw [openModels_threads] at hold
    rw [openModels_threads, hcpu, hold, hleases, List.map_append, List.sum_append]
    simp
  cpu_le := hlimits ▸ hle
  models_le := by
    have hold := own.models_le
    simp only [openModels] at hold hmodels ⊢
    rw [hleases, hlimits, List.filter_append, List.length_append]
    by_cases h : lease.openModel = true
    · have hnew := hmodels h
      rw [List.filter_cons_of_pos h, List.filter_nil, List.length_singleton]
      omega
    · rw [List.filter_cons_of_neg h, List.filter_nil, List.length_nil]
      omega
  roots := by
    intro i j a b hi hj ha hb hstage
    rw [hleases] at hi hj
    rcases getElem?_concat hi with hi' | ⟨rfl, rfl⟩ <;>
      rcases getElem?_concat hj with hj' | ⟨rfl, rfl⟩
    · exact own.roots i j a b hi' hj' ha hb hstage
    · exact absurd ⟨ha, hstage⟩ (fits.root hb a (List.mem_of_getElem? hi'))
    · exact absurd ⟨hb, hstage.symm⟩ (fits.root ha b (List.mem_of_getElem? hj'))
    · rfl
  children := by
    intro i child hi hchild
    rw [hleases] at hi ⊢
    rcases getElem?_concat hi with hi | ⟨rfl, rfl⟩
    · obtain ⟨p, parent, hp, hparent, rest⟩ := own.children i child hi hchild
      exact ⟨p, parent, hp, getElem?_concat_of hparent, rest⟩
    · obtain ⟨p, parent, hp, hparent, rest⟩ := fits.child hchild
      exact ⟨p, parent, hp, getElem?_concat_of hparent, rest⟩
  reserve := by
    intro item hitem
    rw [hleases] at hitem
    rw [hlimits]
    rcases List.mem_append.mp hitem with hitem | hitem
    · exact own.reserve item hitem
    · obtain rfl := List.mem_singleton.mp hitem
      exact fits.reserve

/-- **Root grants.**  The lease that `acquire` appends for a stage. -/
theorem acquireRoot_ok {stage : String} {parent : Option ℕ}
    (h : s.acquireRoot stage parent now = .ok s') :
    ∃ lease : BudgetLease, s' = { s with leases := s.leases ++ [lease] } ∧ s.Fits lease ∧
      lease.openRoot = true ∧ lease.startedAt = now ∧
      lease.deadline - now ≤ s.roundLeft lease.stage ∧ lease.deadline - now ≤ s.totalLeft lease.stage ∧
      (∀ wall ∈ s.globalDeadline, lease.deadline ≤ wall) ∧
      lease.workDeadline = lease.deadline - s.limits.cleanupReserve ∧ now < lease.workDeadline := by
  simp only [acquireRoot, Checked.bind_ok, Checked.ensure_ok, Checked.pure_ok] at h
  obtain ⟨_, _, _, _, _, ⟨_, hfree⟩, _, hlate, rfl⟩ := h
  have hlen : before (now + min (s.roundLeft stage) (s.totalLeft stage)) s.globalDeadline - now ≤
      min (s.roundLeft stage) (s.totalLeft stage) := by
    have := before_le (now + min (s.roundLeft stage) (s.totalLeft stage)) s.globalDeadline
    linarith
  refine ⟨_, rfl, ⟨fun _ => hfree, ?_, le_refl _⟩, rfl, rfl, ?_, ?_, ?_, rfl, not_le.mp hlate⟩
  · intro hmodel
    exact absurd hmodel Bool.false_ne_true
  · exact hlen.trans (min_le_left _ _)
  · exact hlen.trans (min_le_right _ _)
  · intro wall hwall
    rw [Option.mem_def] at hwall
    rw [hwall]
    exact before_le_deadline _ wall

/-! ## Model work -/

/-- What stays true of a request that waits: its parent is a root lease of its stage. -/
def Pending (s : BudgetManager) (request : ModelRequest) : Prop :=
  ∃ parent : BudgetLease, s.leases[request.parent]? = some parent ∧ parent.model = false ∧
    parent.stage = request.stage

theorem requestModel_ok {stage : String} {parent : Option ℕ} {threads : Option ℤ}
    {request : ModelRequest} (h : s.requestModel stage parent threads = .ok request) :
    s.Pending request := by
  simp only [requestModel, Checked.bind_ok, Checked.ensure_ok, Checked.pure_ok,
    Checked.required_ok] at h
  obtain ⟨_, _, _, _, index, _, item, hitem, _, ⟨hmodel, hstage⟩, _, _, _, _, rfl⟩ := h
  exact ⟨item, hitem, hmodel, hstage⟩

/-- **Model grants.**  The parent was checked under the same lock, so it is open. -/
theorem attemptModel_ok {request : ModelRequest} {checked : ℚ} (hpending : s.Pending request)
    (h : s.attemptModel request checked now = .ok (some s')) :
    ∃ lease : BudgetLease,
      s' = { s with cpuInUse := s.cpuInUse + lease.threads, leases := s.leases ++ [lease] } ∧
      s.Fits lease ∧ lease.openModel = true ∧
      s.openModels.length < s.limits.maxParallelModels ∧
      s.cpuInUse + lease.threads ≤ s.limits.cpuBudget := by
  simp only [attemptModel, Checked.bind_ok] at h
  obtain ⟨parent, hparent, h⟩ := h
  simp only [checkLease, Checked.bind_ok, Checked.ensure_ok, Checked.pure_ok,
    Checked.required_ok] at hparent
  obtain ⟨item, hitem, _, ⟨_, hopen, _⟩, rfl⟩ := hparent
  obtain ⟨other, hother, hmodel, hstage⟩ := hpending
  obtain rfl : item = other := Option.some.inj (hitem.symm.trans hother)
  by_cases hslot : s.slotFree request
  · rw [if_pos hslot] at h
    simp only [grantModel, Checked.bind_ok, Checked.ensure_ok, Checked.pure_ok,
      Option.some.injEq] at h
    obtain ⟨_, ⟨_, _, rfl⟩, rfl⟩ := h
    refine ⟨s.modelLease request item now, rfl, ?_, rfl, hslot⟩
    · refine ⟨?_, ?_, min_le_left _ _⟩
      · intro hroot
        exact absurd hroot Bool.false_ne_true
      · intro _
        exact ⟨request.parent, item, rfl, hitem, by simp [BudgetLease.openRoot, hmodel, hopen],
          hstage, min_le_right _ _, min_le_right _ _⟩
  · rw [if_neg hslot] at h
    simp at h

/-! ## Closing -/

/-- The fields of a lease that never change. -/
def SameLease (a b : BudgetLease) : Prop :=
  a.stage = b.stage ∧ a.startedAt = b.startedAt ∧ a.deadline = b.deadline ∧
    a.workDeadline = b.workDeadline ∧ a.model = b.model ∧ a.threads = b.threads ∧ a.parent = b.parent

/-- The leases after a change of one of them, place by place. -/
theorem getElem?_set_of {l : List BudgetLease} {a b c : BudgetLease} {j : ℕ} (h : l[i]? = some a)
    (hj : (l.set i b)[j]? = some c) : j = i ∧ c = b ∨ j ≠ i ∧ l[j]? = some c := by
  by_cases hji : j = i
  · subst hji
    rw [List.getElem?_set_self (List.getElem?_eq_some_iff.mp h).1] at hj
    exact Or.inl ⟨rfl, (Option.some.inj hj).symm⟩
  · rw [List.getElem?_set_ne (Ne.symm hji)] at hj
    exact Or.inr ⟨hji, hj⟩

/-- A lease is replaced by itself with other marks.  It may become closed, with its
processors given back, when no child of it is open. -/
theorem Owned.replace (own : s.Owned) {a b : BudgetLease} (h : s.leases[i]? = some a)
    (same : SameLease a b) (hclosed : a.closed = true → b.closed = true)
    (hchild : b.closed = true → a.closed = true ∨ ¬ s.openChild i)
    (hleases : s'.leases = s.leases.set i b) (hlimits : s'.limits = s.limits)
    (hcpu : s'.cpuInUse + held a = s.cpuInUse + held b) : s'.Owned := by
  obtain ⟨hstage, hstart, hdeadline, hwork, hmodel, hthreads, hparent⟩ := same
  have hroot : b.openRoot = true → a.openRoot = true := by
    simp only [BudgetLease.openRoot, hmodel]
    cases hb : b.closed <;> cases ha : a.closed <;> simp_all
  have hopen : b.openModel = true → a.openModel = true := by
    simp only [BudgetLease.openModel, hmodel]
    cases hb : b.closed <;> cases ha : a.closed <;> simp_all
  obtain ⟨l₁, l₂, hl, hset⟩ := split_at h
  have hheld : held b ≤ held a := by
    unfold held
    by_cases hb : b.openModel = true
    · rw [if_pos hb, if_pos (hopen hb), hthreads]
    · rw [if_neg hb]
      exact Nat.zero_le _
  refine ⟨?_, ?_, ?_, ?_, ?_, ?_⟩
  · have hold := own.cpu
    rw [openModels_threads, hl, List.map_append, List.map_cons, List.sum_append, List.sum_cons] at hold
    rw [openModels_threads, hleases, hset, List.map_append, List.map_cons, List.sum_append,
      List.sum_cons]
    omega
  · have := own.cpu_le
    rw [hlimits]
    omega
  · have hold := own.models_le
    unfold openModels at hold ⊢
    rw [hl, List.filter_append, List.length_append, List.filter_cons] at hold
    rw [hleases, hset, hlimits, List.filter_append, List.length_append, List.filter_cons]
    by_cases hb : b.openModel = true
    · rw [if_pos (hopen hb), List.length_cons] at hold
      rw [if_pos hb, List.length_cons]
      exact hold
    · rw [if_neg hb]
      split at hold
      · rw [List.length_cons] at hold
        omega
      · exact hold
  · intro j k c d hj hk hc hd hcd
    rw [hleases] at hj hk
    rcases getElem?_set_of h hj with ⟨rfl, rfl⟩ | ⟨_, hj'⟩ <;>
      rcases getElem?_set_of h hk with ⟨rfl, rfl⟩ | ⟨_, hk'⟩
    · rfl
    · exact own.roots _ k a d h hk' (hroot hc) hd (hstage.trans hcd)
    · exact own.roots j _ c a hj' h hc (hroot hd) (hcd.trans hstage.symm)
    · exact own.roots j k c d hj' hk' hc hd hcd
  · intro j child hj hopenchild
    -- the child before the change, and its parent
    have hbefore : ∃ old : BudgetLease, s.leases[j]? = some old ∧ SameLease old child ∧
        old.openModel = true := by
      rw [hleases] at hj
      rcases getElem?_set_of h hj with ⟨rfl, rfl⟩ | ⟨_, hj⟩
      · exact ⟨a, h, ⟨hstage, hstart, hdeadline, hwork, hmodel, hthreads, hparent⟩, hopen hopenchild⟩
      · exact ⟨child, hj, ⟨rfl, rfl, rfl, rfl, rfl, rfl, rfl⟩, hopenchild⟩
    obtain ⟨old, hold, ⟨hs, -, hd, hw, -, -, hp⟩, holdopen⟩ := hbefore
    obtain ⟨p, parent, hpar, hget, hr, hst, hdl, hwd⟩ := own.children j old hold holdopen
    rw [hp] at hpar
    rw [hs] at hst
    rw [hd] at hdl
    rw [hw] at hwd
    by_cases hpi : p = i
    · subst hpi
      obtain rfl : a = parent := Option.some.inj (h.symm.trans hget)
      have hanot : a.closed = false := by
        simp only [BudgetLease.openRoot, Bool.and_eq_true, Bool.not_eq_true'] at hr
        exact hr.2
      have hbnot : b.closed = false := by
        by_contra hb
        rcases hchild (Bool.eq_true_of_not_eq_false hb) with ha | hno
        · rw [hanot] at ha
          exact Bool.false_ne_true ha
        · refine hno ⟨old, List.mem_of_getElem? hold, ?_, hp.trans hpar⟩
          simp only [BudgetLease.openModel, Bool.and_eq_true, Bool.not_eq_true'] at holdopen
          exact holdopen.2
      refine ⟨p, b, hpar, ?_, ?_, hstage ▸ hst, hdeadline ▸ hdl, hwork ▸ hwd⟩
      · rw [hleases, List.getElem?_set_self (List.getElem?_eq_some_iff.mp h).1]
      · simp only [BudgetLease.openRoot, hmodel, hbnot, hanot] at hr ⊢
        exact hr
    · refine ⟨p, parent, hpar, ?_, hr, hst, hdl, hwd⟩
      rw [hleases, List.getElem?_set_ne (Ne.symm hpi), hget]
  · intro item hitem
    rw [hlimits]
    obtain ⟨j, hj⟩ := List.mem_iff_getElem?.mp hitem
    rw [hleases] at hj
    rcases getElem?_set_of h hj with ⟨rfl, rfl⟩ | ⟨_, hj⟩
    · rw [← hwork, ← hdeadline]
      exact own.reserve a (List.mem_of_getElem? h)
    · exact own.reserve item (List.mem_of_getElem? hj)

/-- **Closing.**  A call of `_close` that returns left the manager alone (the lease was
closed before), marked the lease as unresolved, or gave back what it held. -/
theorem close_ok {cleanupConfirmed : Bool} (h : s.close i cleanupConfirmed now = .ok s') :
    ∃ lease : BudgetLease, s.leases[i]? = some lease ∧
      (lease.closed = true ∧ s' = s ∨
        lease.closed = false ∧ cleanupConfirmed = false ∧
          s' = { s with leases := s.leases.set i { lease with unresolved := true } } ∨
        lease.closed = false ∧ cleanupConfirmed = true ∧ ¬ s.openChild i ∧
          s' = s.settle i lease now) := by
  simp only [close, Checked.bind_ok, Checked.required_ok] at h
  obtain ⟨lease, hlease, h⟩ := h
  refine ⟨lease, hlease, ?_⟩
  by_cases hclosed : lease.closed = true
  · rw [if_pos hclosed, Checked.pure_ok] at h
    exact Or.inl ⟨hclosed, h.symm⟩
  · rw [if_neg hclosed] at h
    have hopen : lease.closed = false := Bool.eq_false_of_not_eq_true hclosed
    by_cases hconfirmed : cleanupConfirmed = false
    · rw [if_pos hconfirmed, Checked.pure_ok] at h
      exact Or.inr (Or.inl ⟨hopen, hconfirmed, h.symm⟩)
    · rw [if_neg hconfirmed] at h
      simp only [Checked.bind_ok, Checked.ensure_ok, Checked.pure_ok] at h
      obtain ⟨_, hchild, rfl⟩ := h
      exact Or.inr (Or.inr ⟨hopen, Bool.eq_true_of_not_eq_false hconfirmed, hchild, rfl⟩)

/-- The lease after `_close`. -/
def closedLease (lease : BudgetLease) : BudgetLease :=
  { lease with closed := true, cleanupConfirmed := true, unresolved := false }

@[simp] theorem settle_leases : (s.settle i lease now).leases = s.leases.set i (closedLease lease) := by
  unfold settle
  by_cases h : lease.model = true <;> simp [h, closedLease]

@[simp] theorem settle_limits : (s.settle i lease now).limits = s.limits := by
  unfold settle
  by_cases h : lease.model = true <;> simp [h]

@[simp] theorem settle_startedRounds :
    (s.settle i lease now).startedRounds = s.startedRounds := by
  unfold settle
  by_cases h : lease.model = true <;> simp [h]

theorem settle_cpu (hopen : lease.closed = false) :
    (s.settle i lease now).cpuInUse + held lease = s.cpuInUse := by
  unfold settle held BudgetLease.openModel
  by_cases h : lease.model = true <;> simp [h, hopen]

theorem elapsed_nonneg (lease : BudgetLease) (now : ℚ) : 0 ≤ elapsed lease now := le_max_left _ _

theorem settle_consumed (key : String) : s.consumed key ≤ (s.settle i lease now).consumed key := by
  unfold settle
  by_cases h : lease.model = true
  · rw [if_pos h]
  · rw [if_neg h]
    exact le_charge _ _ (elapsed_nonneg _ _) key

theorem settle_modelWork (key : String) : s.modelWork key ≤ (s.settle i lease now).modelWork key := by
  unfold settle
  by_cases h : lease.model = true
  · rw [if_pos h]
    exact le_charge _ _ (elapsed_nonneg _ _) key
  · rw [if_neg h]

theorem Owned.close (own : s.Owned) {cleanupConfirmed : Bool}
    (h : s.close i cleanupConfirmed now = .ok s') : s'.Owned := by
  obtain ⟨lease, hlease, ⟨_, rfl⟩ | ⟨hopen, _, rfl⟩ | ⟨hopen, _, hchild, rfl⟩⟩ := close_ok h
  · exact own
  · refine own.replace (b := { lease with unresolved := true }) hlease
      ⟨rfl, rfl, rfl, rfl, rfl, rfl, rfl⟩ id ?_ rfl rfl rfl
    intro hclosed
    exact Or.inl hclosed
  · refine own.replace (b := closedLease lease) hlease ⟨rfl, rfl, rfl, rfl, rfl, rfl, rfl⟩
      (fun _ => rfl) (fun _ => Or.inr hchild) settle_leases settle_limits ?_
    rw [settle_cpu hopen]
    simp [held, closedLease, BudgetLease.openModel]

/-! ## Rounds and restored usage -/

theorem startTuningRound_ok (h : s.startTuningRound now = .ok s') :
    s.startedRounds < s.limits.maxTuningRounds ∧
      s' = { s with roundConsumed := fun _ => 0, startedRounds := s.startedRounds + 1 } := by
  simp only [startTuningRound, Checked.bind_ok, Checked.ensure_ok, Checked.pure_ok] at h
  obtain ⟨_, ⟨_, hrounds⟩, _, _, _, _, rfl⟩ := h
  exact ⟨hrounds, rfl⟩

/-- What a call of `restore_usage` that returns has checked and set. -/
theorem restoreUsage_ok {usage : Usage} (h : s.restoreUsage usage = .ok s') :
    s' = s.takeOver usage ∧
    s.startedRounds ≤ usage.startedRounds ∧ s.elapsedBeforeResume ≤ usage.elapsedWall ∧
    s.noRefund s.consumed usage.consumed ∧ s.noRefund s.modelWork usage.modelWork ∧
    s.noRefund s.roundConsumed usage.roundConsumed := by
  simp only [restoreUsage, Checked.bind_ok, Checked.ensure_ok, Checked.pure_ok] at h
  obtain ⟨_, _, _, _, _, ⟨hrounds, hwall⟩, _, hconsumed, _, _, _, hmodel, _, hround, rfl⟩ := h
  exact ⟨rfl, hrounds, hwall, hconsumed, hmodel, hround⟩

/-- Restored entries do not lower an account. -/
theorem le_restored {account : String → ℚ} {entries : Dict String ℚ}
    (h : s.noRefund account entries) (key : String) : account key ≤ restored account entries key := by
  unfold restored
  cases hget : entries.get? key with
  | none => exact le_refl _
  | some value => exact (h _ (Dict.mem_of_get? hget)).2

end BudgetManager

/-! ## Runs -/

namespace Budget
open BudgetManager

/-- The invariant of a run: what is owned, and that every waiting request still has its
parent. -/
def Inv (s : Budget) : Prop := s.manager.Owned ∧ ∀ request ∈ s.waiting, s.manager.Pending request

/-- What one call may do to the manager. -/
inductive Move (s : BudgetManager) : BudgetCall → BudgetManager → Prop
  | idle (call : BudgetCall) : Move s call s
  | root {stage : String} {parent : Option ℕ} {now : ℚ} {s' : BudgetManager}
      (h : s.acquireRoot stage parent now = .ok s') : Move s (.acquireRoot stage parent now) s'
  | model {call : BudgetCall} {request : ModelRequest} {checked now : ℚ} {s' : BudgetManager}
      (hcall : (∃ stage parent threads wait, call = .acquireModel stage parent threads wait checked now) ∨
        ∃ waiter, call = .wake waiter checked now)
      (hpending : s.Pending request) (h : s.attemptModel request checked now = .ok (some s')) :
      Move s call s'
  | close {i : ℕ} {cleanupConfirmed : Bool} {now : ℚ} {s' : BudgetManager}
      (h : s.close i cleanupConfirmed now = .ok s') : Move s (.close i cleanupConfirmed now) s'
  | round {now : ℚ} {s' : BudgetManager} (h : s.startTuningRound now = .ok s') :
      Move s (.startTuningRound now) s'
  | cancel : Move s .cancel s.cancel
  | restore {usage : Usage} {s' : BudgetManager} (h : s.restoreUsage usage = .ok s') :
      Move s (.restoreUsage usage) s'

namespace Move
variable {s s' : BudgetManager} {call : BudgetCall}

/-- What is owned stays owned. -/
theorem owned (h : Move s call s') (own : s.Owned) : s'.Owned := by
  cases h with
  | idle => exact own
  | root h =>
    obtain ⟨lease, rfl, fits, hroot, -⟩ := acquireRoot_ok h
    have hmodel : lease.openModel = false := by
      simp only [BudgetLease.openRoot, Bool.and_eq_true, Bool.not_eq_true'] at hroot
      simp [BudgetLease.openModel, hroot.1]
    refine own.grant fits rfl rfl ?_ own.cpu_le ?_
    · simp [held, hmodel]
    · intro hopen
      rw [hmodel] at hopen
      exact absurd hopen Bool.false_ne_true
  | model hcall hpending h =>
    obtain ⟨lease, rfl, fits, hopen, hslots, hcpu⟩ := attemptModel_ok hpending h
    refine own.grant fits rfl rfl ?_ hcpu fun _ => hslots
    simp [held, hopen]
  | close h => exact own.close h
  | round h =>
    obtain ⟨_, rfl⟩ := startTuningRound_ok h
    exact ⟨own.cpu, own.cpu_le, own.models_le, own.roots, own.children, own.reserve⟩
  | cancel => exact ⟨own.cpu, own.cpu_le, own.models_le, own.roots, own.children, own.reserve⟩
  | restore h =>
    obtain ⟨rfl, -⟩ := restoreUsage_ok h
    exact ⟨own.cpu, own.cpu_le, own.models_le, own.roots, own.children, own.reserve⟩

/-- The leases after a move: one more, one marked, one closed, or the same. -/
theorem leases (h : Move s call s') :
    s'.leases = s.leases ∨
    (∃ lease, s'.leases = s.leases ++ [lease] ∧ lease.closed = false) ∨
    (∃ i now lease, call = .close i false now ∧ s.leases[i]? = some lease ∧
      s'.leases = s.leases.set i { lease with unresolved := true }) ∨
    ∃ i now lease, call = .close i true now ∧ s.leases[i]? = some lease ∧ lease.closed = false ∧
      s'.leases = s.leases.set i (closedLease lease) := by
  cases h with
  | idle => exact Or.inl rfl
  | root h =>
    obtain ⟨lease, rfl, -, hroot, -⟩ := acquireRoot_ok h
    simp only [BudgetLease.openRoot, Bool.and_eq_true, Bool.not_eq_true'] at hroot
    exact Or.inr (Or.inl ⟨lease, rfl, hroot.2⟩)
  | model hcall hpending h =>
    obtain ⟨lease, rfl, -, hopen, -⟩ := attemptModel_ok hpending h
    simp only [BudgetLease.openModel, Bool.and_eq_true, Bool.not_eq_true'] at hopen
    exact Or.inr (Or.inl ⟨lease, rfl, hopen.2⟩)
  | close h =>
    obtain ⟨lease, hlease, ⟨_, rfl⟩ | ⟨_, rfl, rfl⟩ | ⟨hopen, rfl, _, rfl⟩⟩ := close_ok h
    · exact Or.inl rfl
    · exact Or.inr (Or.inr (Or.inl ⟨_, _, lease, rfl, hlease, rfl⟩))
    · exact Or.inr (Or.inr (Or.inr ⟨_, _, lease, rfl, hlease, hopen, settle_leases⟩))
  | round h =>
    obtain ⟨_, rfl⟩ := startTuningRound_ok h
    exact Or.inl rfl
  | cancel => exact Or.inl rfl
  | restore h =>
    obtain ⟨rfl, -⟩ := restoreUsage_ok h
    exact Or.inl rfl

/-- A lease stays in its place, as it was granted, and open until its cleanup is
confirmed. -/
theorem kept (h : Move s call s') {i : ℕ} {lease : BudgetLease} (hlease : s.leases[i]? = some lease) :
    ∃ after : BudgetLease, s'.leases[i]? = some after ∧ SameLease lease after ∧
      (lease.closed = false → after.closed = false ∨ ∃ now, call = .close i true now) := by
  have hsame : ∀ a : BudgetLease, SameLease a a := fun a => ⟨rfl, rfl, rfl, rfl, rfl, rfl, rfl⟩
  have hi := (List.getElem?_eq_some_iff.mp hlease).1
  rcases h.leases with heq | ⟨granted, heq, -⟩ | ⟨j, now, item, rfl, hitem, heq⟩ |
      ⟨j, now, item, rfl, hitem, -, heq⟩
  · exact ⟨lease, heq ▸ hlease, hsame lease, Or.inl⟩
  · exact ⟨lease, heq ▸ getElem?_concat_of hlease, hsame lease, Or.inl⟩
  · by_cases hij : j = i
    · subst hij
      obtain rfl : lease = item := Option.some.inj (hlease.symm.trans hitem)
      refine ⟨{ lease with unresolved := true }, ?_, hsame lease, Or.inl⟩
      rw [heq, List.getElem?_set_self hi]
    · refine ⟨lease, ?_, hsame lease, Or.inl⟩
      rw [heq, List.getElem?_set_ne hij, hlease]
  · by_cases hij : j = i
    · subst hij
      obtain rfl : lease = item := Option.some.inj (hlease.symm.trans hitem)
      refine ⟨closedLease lease, ?_, hsame lease, fun _ => Or.inr ⟨now, rfl⟩⟩
      rw [heq, List.getElem?_set_self hi]
    · refine ⟨lease, ?_, hsame lease, Or.inl⟩
      rw [heq, List.getElem?_set_ne hij, hlease]

/-- A request that waits keeps its parent. -/
theorem pending (h : Move s call s') {request : ModelRequest} (hpending : s.Pending request) :
    s'.Pending request := by
  obtain ⟨parent, hparent, hmodel, hstage⟩ := hpending
  obtain ⟨after, hafter, ⟨hstage', -, -, -, hmodel', -⟩, -⟩ := h.kept hparent
  exact ⟨after, hafter, hmodel' ▸ hmodel, hstage' ▸ hstage⟩

/-- A call that closes without confirmation leaves every counter alone. -/
theorem unconfirmed (h : Move s call s') {i : ℕ} {now : ℚ} (hcall : call = .close i false now) :
    s'.cpuInUse = s.cpuInUse ∧ s'.consumed = s.consumed ∧ s'.roundConsumed = s.roundConsumed ∧
      s'.modelWork = s.modelWork := by
  cases h with
  | idle => exact ⟨rfl, rfl, rfl, rfl⟩
  | root h => cases hcall
  | model hmodel hpending h =>
    rcases hmodel with ⟨stage, parent, threads, wait, rfl⟩ | ⟨waiter, rfl⟩ <;> cases hcall
  | close h =>
    obtain ⟨lease, -, ⟨_, rfl⟩ | ⟨_, _, rfl⟩ | ⟨_, hconfirmed, _, _⟩⟩ := close_ok h
    · exact ⟨rfl, rfl, rfl, rfl⟩
    · exact ⟨rfl, rfl, rfl, rfl⟩
    · cases hcall
      exact absurd hconfirmed Bool.false_ne_true
  | round h => cases hcall
  | cancel => cases hcall
  | restore h => cases hcall

theorem limits_eq (h : Move s call s') : s'.limits = s.limits := by
  cases h with
  | idle => rfl
  | root h =>
    obtain ⟨lease, rfl, -⟩ := acquireRoot_ok h
    rfl
  | model hcall hpending h =>
    obtain ⟨lease, rfl, -⟩ := attemptModel_ok hpending h
    rfl
  | close h =>
    obtain ⟨lease, -, ⟨_, rfl⟩ | ⟨_, _, rfl⟩ | ⟨_, _, _, rfl⟩⟩ := close_ok h
    · rfl
    · rfl
    · exact settle_limits
  | round h =>
    obtain ⟨_, rfl⟩ := startTuningRound_ok h
    rfl
  | cancel => rfl
  | restore h =>
    obtain ⟨rfl, -⟩ := restoreUsage_ok h
    rfl

/-- The accounts of a stage's total and of model work never shrink. -/
theorem accounts_le (h : Move s call s') (key : String) :
    s.consumed key ≤ s'.consumed key ∧ s.modelWork key ≤ s'.modelWork key := by
  cases h with
  | idle => exact ⟨le_refl _, le_refl _⟩
  | root h =>
    obtain ⟨lease, rfl, -⟩ := acquireRoot_ok h
    exact ⟨le_refl _, le_refl _⟩
  | model hcall hpending h =>
    obtain ⟨lease, rfl, -⟩ := attemptModel_ok hpending h
    exact ⟨le_refl _, le_refl _⟩
  | close h =>
    obtain ⟨lease, -, ⟨_, rfl⟩ | ⟨_, _, rfl⟩ | ⟨_, _, _, rfl⟩⟩ := close_ok h
    · exact ⟨le_refl _, le_refl _⟩
    · exact ⟨le_refl _, le_refl _⟩
    · exact ⟨settle_consumed key, settle_modelWork key⟩
  | round h =>
    obtain ⟨_, rfl⟩ := startTuningRound_ok h
    exact ⟨le_refl _, le_refl _⟩
  | cancel => exact ⟨le_refl _, le_refl _⟩
  | restore h =>
    obtain ⟨rfl, -, -, hconsumed, hmodel, -⟩ := restoreUsage_ok h
    exact ⟨le_restored hconsumed key, le_restored hmodel key⟩

/-- Rounds are counted by `start_tuning_round`, one at a time and up to the limit, and
taken over by `restore_usage`. -/
theorem rounds (h : Move s call s') :
    s'.startedRounds = s.startedRounds ∨
    (∃ now, call = .startTuningRound now ∧ s'.startedRounds = s.startedRounds + 1 ∧
      s'.startedRounds ≤ s.limits.maxTuningRounds) ∨
    ∃ usage, call = .restoreUsage usage ∧ s'.startedRounds = usage.startedRounds ∧
      s.startedRounds ≤ usage.startedRounds := by
  cases h with
  | idle => exact Or.inl rfl
  | root h =>
    obtain ⟨lease, rfl, -⟩ := acquireRoot_ok h
    exact Or.inl rfl
  | model hcall hpending h =>
    obtain ⟨lease, rfl, -⟩ := attemptModel_ok hpending h
    exact Or.inl rfl
  | close h =>
    obtain ⟨lease, -, ⟨_, rfl⟩ | ⟨_, _, rfl⟩ | ⟨_, _, _, rfl⟩⟩ := close_ok h
    · exact Or.inl rfl
    · exact Or.inl rfl
    · exact Or.inl settle_startedRounds
  | round h =>
    obtain ⟨hlt, rfl⟩ := startTuningRound_ok h
    exact Or.inr (Or.inl ⟨_, rfl, rfl, hlt⟩)
  | cancel => exact Or.inl rfl
  | restore h =>
    obtain ⟨rfl, hrounds, -⟩ := restoreUsage_ok h
    exact Or.inr (Or.inr ⟨_, rfl, rfl, hrounds⟩)

/-- A lease that is appended and is no model's is within every limit of its stage. -/
theorem root_grant (h : Move s call s') {lease : BudgetLease}
    (hleases : s'.leases = s.leases ++ [lease]) (hmodel : lease.model = false) :
    lease.deadline - lease.startedAt ≤ s.roundLeft lease.stage ∧
    lease.deadline - lease.startedAt ≤ s.totalLeft lease.stage ∧
    (∀ wall ∈ s.globalDeadline, lease.deadline ≤ wall) ∧
    lease.workDeadline = lease.deadline - s.limits.cleanupReserve := by
  have hgrown : s'.leases.length = s.leases.length + 1 := by
    rw [hleases, List.length_append, List.length_singleton]
  cases h with
  | idle => omega
  | root h =>
    obtain ⟨granted, rfl, -, -, rfl, hround, htotal, hwall, hwork, -⟩ := acquireRoot_ok h
    obtain rfl : granted = lease := by simpa using hleases
    exact ⟨hround, htotal, hwall, hwork⟩
  | model hcall hpending h =>
    obtain ⟨granted, rfl, -, hopen, -⟩ := attemptModel_ok hpending h
    obtain rfl : granted = lease := by simpa using hleases
    simp [BudgetLease.openModel, hmodel] at hopen
  | close h =>
    obtain ⟨granted, -, ⟨_, rfl⟩ | ⟨_, _, rfl⟩ | ⟨_, _, _, rfl⟩⟩ := close_ok h
    · omega
    · simp at hgrown
    · simp at hgrown
  | round h =>
    obtain ⟨_, rfl⟩ := startTuningRound_ok h
    simp at hgrown
  | cancel => simp [BudgetManager.cancel] at hgrown
  | restore h =>
    obtain ⟨rfl, -⟩ := restoreUsage_ok h
    simp [takeOver] at hgrown

end Move

variable {s : Budget}

/-- A call that returns or raises: either the manager is what it returned, or it is unchanged. -/
theorem settled_cases (s : Budget) (result : Except BudgetFault BudgetManager) :
    (∃ m, result = .ok m ∧ s.settled result = { s with manager := m }) ∨ s.settled result = s := by
  cases result with
  | ok m => exact Or.inl ⟨m, rfl, rfl⟩
  | error e => exact Or.inr rfl

/-- A turn of an acquirer is a move, and leaves only this request in addition waiting. -/
theorem turn_move {request : ModelRequest} (hpending : s.manager.Pending request) (wait : Bool)
    (call : BudgetCall) {checked now : ℚ}
    (hcall : (∃ stage parent threads wait, call = .acquireModel stage parent threads wait checked now) ∨
      ∃ waiter, call = .wake waiter checked now) :
    Move s.manager call (s.turn request wait checked now).manager ∧
      ∀ r ∈ (s.turn request wait checked now).waiting, r ∈ s.waiting ∨ r = request := by
  unfold turn
  split
  · rename_i m h
    exact ⟨.model hcall hpending h, fun r hr => Or.inl hr⟩
  · split
    · refine ⟨.idle _, ?_⟩
      intro r hr
      simpa using hr
    · exact ⟨.idle _, fun r hr => Or.inl hr⟩
  · exact ⟨.idle _, fun r hr => Or.inl hr⟩

/-- **Every call is a move of the manager**, and what waits after it was waiting before or
has just been requested. -/
theorem step_move (hwait : ∀ request ∈ s.waiting, s.manager.Pending request) (call : BudgetCall) :
    Move s.manager call (s.step call).manager ∧
      ∀ request ∈ (s.step call).waiting, s.manager.Pending request := by
  cases call with
  | acquireRoot stage parent now =>
    rcases settled_cases s (s.manager.acquireRoot stage parent now) with ⟨m, hm, hs⟩ | hs
    · simp only [step, hs]
      exact ⟨.root hm, hwait⟩
    · simp only [step, hs]
      exact ⟨.idle _, hwait⟩
  | acquireModel stage parent threads wait checked now =>
    simp only [step]
    split
    · rename_i request hrequest
      have hpending := requestModel_ok hrequest
      obtain ⟨hmove, hkept⟩ := turn_move (s := s) hpending wait
        (.acquireModel stage parent threads wait checked now)
        (Or.inl ⟨stage, parent, threads, wait, rfl⟩)
      refine ⟨hmove, ?_⟩
      intro r hr
      rcases hkept r hr with hr | rfl
      · exact hwait r hr
      · exact hpending
    · exact ⟨.idle _, hwait⟩
  | wake waiter checked now =>
    simp only [step]
    split
    · rename_i request hrequest
      have hpending := hwait request (List.mem_of_getElem? hrequest)
      obtain ⟨hmove, hkept⟩ := turn_move (s := { s with waiting := s.waiting.eraseIdx waiter })
        hpending true (.wake waiter checked now) (Or.inr ⟨waiter, rfl⟩)
      refine ⟨hmove, ?_⟩
      intro r hr
      rcases hkept r hr with hr | rfl
      · exact hwait r (List.mem_of_mem_eraseIdx hr)
      · exact hpending
    · exact ⟨.idle _, hwait⟩
  | close i cleanupConfirmed now =>
    rcases settled_cases s (s.manager.close i cleanupConfirmed now) with ⟨m, hm, hs⟩ | hs
    · simp only [step, hs]
      exact ⟨.close hm, hwait⟩
    · simp only [step, hs]
      exact ⟨.idle _, hwait⟩
  | startTuningRound now =>
    rcases settled_cases s (s.manager.startTuningRound now) with ⟨m, hm, hs⟩ | hs
    · simp only [step, hs]
      exact ⟨.round hm, hwait⟩
    · simp only [step, hs]
      exact ⟨.idle _, hwait⟩
  | cancel => exact ⟨.cancel, hwait⟩
  | restoreUsage usage =>
    rcases settled_cases s (s.manager.restoreUsage usage) with ⟨m, hm, hs⟩ | hs
    · simp only [step, hs]
      exact ⟨.restore hm, hwait⟩
    · simp only [step, hs]
      exact ⟨.idle _, hwait⟩

/-- The state before any call. -/
def start (limits : BudgetLimits) (now : ℚ) : Budget := ⟨.init limits now, []⟩

theorem inv_step (h : s.Inv) (call : BudgetCall) : (s.step call).Inv := by
  obtain ⟨hmove, hwait⟩ := step_move h.2 call
  exact ⟨hmove.owned h.1, fun request hr => hmove.pending (hwait request hr)⟩

theorem inv_run (h : s.Inv) (calls : List BudgetCall) : (s.run calls).Inv := by
  induction calls generalizing s with
  | nil => exact h
  | cons call calls ih => exact ih (inv_step h call)

theorem limits_run (h : s.Inv) (calls : List BudgetCall) :
    (s.run calls).manager.limits = s.manager.limits := by
  induction calls generalizing s with
  | nil => rfl
  | cons call calls ih => exact (ih (inv_step h call)).trans (step_move h.2 call).1.limits_eq

theorem inv_start (limits : BudgetLimits) (now : ℚ) : (start limits now).Inv := by
  refine ⟨owned_init limits now, ?_⟩
  intro request hr
  exact absurd hr List.not_mem_nil

/-- What one call promises about the manager before and after it. -/
structure Respects (s : BudgetManager) (call : BudgetCall) (s' : BudgetManager) : Prop where
  /-- The limits never change. -/
  limits : s'.limits = s.limits
  /-- A root lease is no longer than what is left of its stage, in the round and in total,
  and ends by the wall deadline; its work ends before its cleanup. -/
  grant : ∀ lease : BudgetLease, s'.leases = s.leases ++ [lease] → lease.model = false →
    lease.deadline - lease.startedAt ≤ s.roundLeft lease.stage ∧
    lease.deadline - lease.startedAt ≤ s.totalLeft lease.stage ∧
    (∀ wall ∈ s.globalDeadline, lease.deadline ≤ wall) ∧
    lease.workDeadline = lease.deadline - s.limits.cleanupReserve
  /-- Closing without confirmation gives nothing back. -/
  unconfirmed : ∀ (i : ℕ) (now : ℚ), call = .close i false now →
    s'.cpuInUse = s.cpuInUse ∧ s'.consumed = s.consumed ∧ s'.roundConsumed = s.roundConsumed ∧
      s'.modelWork = s.modelWork
  /-- A lease keeps what it was granted, and only a confirmed close of it closes it. -/
  kept : ∀ (i : ℕ) (lease : BudgetLease), s.leases[i]? = some lease →
    ∃ after : BudgetLease, s'.leases[i]? = some after ∧ SameLease lease after ∧
      (lease.closed = false → after.closed = false ∨ ∃ now, call = .close i true now)
  /-- No account of a stage shrinks. -/
  accounts : ∀ key : String, s.consumed key ≤ s'.consumed key ∧ s.modelWork key ≤ s'.modelWork key
  /-- Rounds are started one at a time up to the limit, or restored. -/
  rounds : s'.startedRounds = s.startedRounds ∨
    (∃ now, call = .startTuningRound now ∧ s'.startedRounds = s.startedRounds + 1 ∧
      s'.startedRounds ≤ s.limits.maxTuningRounds) ∨
    ∃ usage, call = .restoreUsage usage ∧ s'.startedRounds = usage.startedRounds ∧
      s.startedRounds ≤ usage.startedRounds

/-- **Budget ownership.**  After every sequence of calls, with every reading of the clock,
the counters of the manager agree with its leases and stay within the limits, and whatever
call comes next respects what was granted. -/
theorem budget_ownership (limits : BudgetLimits) (now : ℚ) (calls : List BudgetCall) :
    ((start limits now).run calls).manager.Owned ∧
      ((start limits now).run calls).manager.limits = limits ∧
      ∀ call : BudgetCall, Respects ((start limits now).run calls).manager call
        (((start limits now).run calls).step call).manager := by
  have hinv := inv_run (inv_start limits now) calls
  refine ⟨hinv.1, limits_run (inv_start limits now) calls, ?_⟩
  intro call
  have hmove := (step_move hinv.2 call).1
  exact ⟨hmove.limits_eq, fun _ => hmove.root_grant, fun _ _ => hmove.unconfirmed,
    fun _ _ => hmove.kept, hmove.accounts_le, hmove.rounds⟩

/-- Limits with one stage. -/
def oneStage : BudgetLimits where
  stageLimits := [("initial", 10, 10)]
  cpuBudget := 1
  perModelTimeout := 5
  cleanupReserve := 1
  maxTuningRounds := 3

/-- A restored count of rounds is not one that `start_tuning_round` counted. -/
theorem rounds_also_restored :
    ¬ ∀ (limits : BudgetLimits) (now : ℚ) (calls : List BudgetCall) (call : BudgetCall),
      ((start limits now).run calls).manager.startedRounds <
        (((start limits now).run calls).step call).manager.startedRounds →
      ∃ time, call = .startTuningRound time := by
  intro h
  obtain ⟨time, htime⟩ := h oneStage 0 []
    (.restoreUsage { consumed := [], startedRounds := 1, elapsedWall := 0 }) (by decide +kernel)
  cases htime

end Budget
end VeriCCL
