import VeriCCL.PredictProgress

/-! # The simulation terminates and never stalls

`predict` has a loop that could stop without a result in three ways: it could run out of
turns, find nothing to wait for while operations are pending, or find that the next event
is not later than the present one.  None of them happens for an executable without
dependency cycles, and no key it looks up is missing.  What is left are the refusals of a
cost model that contradicts itself or the executable (`Refusal`).

Two invariants of the run carry this.  `Clock.Loaded`: an operation that is starting or
active has bytes left, so its end lies in the future.  `Clock.Queued`: a pending operation
that waits for nobody is in the queue of releases. -/
namespace VeriCCL

/-- The refusals of a simulation: what it says of a cost model whose profiles contradict
each other or its resources, or of flows that are not distinct. -/
inductive Refusal : Fault → Prop where
  | ambiguous : Refusal (.semantic "multiple profiles apply to the same concurrency mode")
  | sharedFlow :
      Refusal (.semantic "concurrent operations share a flow identity; serialize their TB work")
  | conflict (resource : String) :
      Refusal (.semantic ("measured rate vector conflicts with resource capacity " ++ resource))

/-! ## Rates -/

section Rates
variable {group active : List WorkOperation} {costs : Dict String ServiceCost} {model : CostModel}
  {e : Fault}

/-- The model knows the resources of the operations. -/
def KnownTo (model : CostModel) (operations : List WorkOperation) : Prop :=
  ∀ op ∈ operations, ∀ r ∈ op.resources, r ∈ model.resources.keys

/-- The operations have their costs. -/
def PricedBy (costs : Dict String ServiceCost) (operations : List WorkOperation) : Prop :=
  ∀ op ∈ operations, ∃ cost, costs.get? op.operationId = some cost

theorem profileOf_error (h : profileOf group model = .error e) : Refusal e := by
  unfold profileOf at h
  split at h
  · cases h
  · cases h
  · obtain rfl := Except.error.inj h
    exact .ambiguous

theorem resourceCapacity_known {resource : String} (h : resource ∈ model.resources.keys)
    (herror : resourceCapacity model resource = .error e) : False := by
  obtain ⟨capacity, hcapacity⟩ := Dict.get?_isSome.mpr h
  obtain ⟨hnone, -⟩ := Checked.required_error herror
  rw [hcapacity] at hnone
  cases hnone

theorem measuredRates_error {profile : RateProfile} (hknown : KnownTo model group)
    (h : measuredRates group profile model = .error e) : Refusal e := by
  rcases Checked.bind_error h with h | ⟨_, -, h⟩
  · obtain ⟨resource, hresource, h⟩ := Checked.forM_error h
    obtain ⟨op, hop, hr⟩ := List.mem_flatMap.mp (List.mem_dedup.mp hresource)
    rcases Checked.bind_error h with h | ⟨capacity, -, h⟩
    · exact (resourceCapacity_known (hknown op hop resource hr) h).elim
    · obtain ⟨-, rfl⟩ := Checked.ensure_error h
      exact .conflict resource
  · cases h

theorem sharedRate_priced (hknown : KnownTo model group) (hpriced : PricedBy costs group)
    {op : WorkOperation} (hop : op ∈ group) (h : sharedRate group costs model op = .error e) :
    False := by
  obtain ⟨cost, hcost⟩ := hpriced op hop
  rcases Checked.bind_error h with h | ⟨_, -, h⟩
  · obtain ⟨hnone, -⟩ := Checked.required_error h
    rw [hcost] at hnone
    cases hnone
  · rcases Checked.bind_error h with h | ⟨_, -, h⟩
    · obtain ⟨resource, hresource, h⟩ := Checked.mapM_error h
      rcases Checked.bind_error h with h | ⟨_, -, h⟩
      · exact resourceCapacity_known (hknown op hop resource hresource) h
      · cases h
    · cases h

theorem groupRates_error (hknown : KnownTo model group) (hpriced : PricedBy costs group)
    (h : groupRates costs model group = .error e) : Refusal e := by
  rcases Checked.bind_error h with h | ⟨_, -, h⟩
  · obtain ⟨-, rfl⟩ := Checked.ensure_error h
    exact .sharedFlow
  · rcases Checked.bind_error h with h | ⟨found, -, h⟩
    · exact profileOf_error h
    · cases found with
      | some profile => exact measuredRates_error hknown h
      | none =>
        obtain ⟨op, hop, h⟩ := Checked.mapM_error h
        exact (sharedRate_priced hknown hpriced hop h).elim

/-- **The rates of priced operations fail only with a refusal.** -/
theorem ratesOf_error (hknown : KnownTo model active) (hpriced : PricedBy costs active)
    (h : ratesOf active costs model = .error e) : Refusal e := by
  rcases Checked.bind_error h with h | ⟨_, -, h⟩
  · obtain ⟨op, hop, h⟩ := Checked.mapM_error h
    obtain ⟨cost, hcost⟩ := hpriced op (List.mem_of_mem_filter hop)
    rcases Checked.bind_error h with h | ⟨_, -, h⟩
    · obtain ⟨hnone, -⟩ := Checked.required_error h
      rw [hcost] at hnone
      cases hnone
    · cases h
  · rcases Checked.bind_error h with h | ⟨_, -, h⟩
    · obtain ⟨group, hgroup, h⟩ := Checked.mapM_error h
      have hsub : ∀ op ∈ group, op ∈ active := fun op hop =>
        List.mem_of_mem_filter ((components_perm _).mem_iff.mp
          (List.mem_flatten.mpr ⟨group, hgroup, hop⟩))
      exact groupRates_error (fun op hop => hknown op (hsub op hop))
        (fun op hop => hpriced op (hsub op hop)) h
    · cases h

end Rates

/-- **What the loop may rely on**: the operations that run have a cost and known resources
if they move data, and wait for operations that run, without a cycle. -/
structure Simulation.Supplied (sim : Simulation) (unavailable : List String) : Prop where
  payload : ∀ op ∈ sim.operations, op.kind ≠ .nop → op.payloadBytes ≠ 0
  localWork : ∀ op ∈ sim.operations, op.kind.communicates = false → op.resources = []
  priced : ∀ op ∈ sim.operations, op.operationId ∉ unavailable → op.kind ≠ .nop →
    ∃ cost, sim.costs.get? op.operationId = some cost
  known : ∀ op ∈ sim.operations, op.operationId ∉ unavailable →
    ∀ r ∈ op.resources, r ∈ sim.model.resources.keys
  closed : ∀ op ∈ sim.operations, op.operationId ∉ unavailable →
    ∀ p ∈ op.dependencies, p ∉ unavailable ∧ ∃ q ∈ sim.operations, q.operationId = p
  /-- The operations in an order in which each comes after those it waits for. -/
  ordered : ∃ order : List String, Kahn.Topological (fun x => (sim.deps x).toFinset) order ∧
    ∀ op ∈ sim.operations, op.operationId ∈ order

namespace Clock
variable {sim : Simulation} {unavailable available : List String} {s t head : Clock} {e : Fault}

/-! ## Work that goes on has bytes left -/

/-- An operation that is starting or active has bytes left. -/
def Loaded (s : Clock) : Prop := ∀ x, x ∈ s.startup.keys ∨ x ∈ s.active →
  ∃ left, s.remaining.get? x = some left ∧ 0 < left

theorem Loaded.frame (h : Loaded s) (hstartup : t.startup = s.startup) (hactive : t.active = s.active)
    (hremaining : t.remaining = s.remaining) : Loaded t := by
  intro x hx
  rw [hremaining]
  refine h x ?_
  rwa [hstartup, hactive] at hx

theorem Loaded.finishStartup (h : Loaded s) : Loaded s.finishStartup := by
  intro x hx
  refine h x ?_
  rcases hx with hx | hx
  · obtain ⟨entry, he, rfl⟩ := List.mem_map.mp hx
    exact Or.inl (List.mem_map.mpr ⟨entry, List.mem_of_mem_filter he, rfl⟩)
  · rcases List.mem_append.mp hx with hx | hx
    · exact Or.inr hx
    · obtain ⟨entry, he, -, rfl⟩ := mem_started.mp hx
      exact Or.inl (List.mem_map.mpr ⟨entry, he, rfl⟩)

theorem Loaded.launch (h : Loaded s) {key : String} {op : WorkOperation} {alpha : ℚ}
    (hpayload : op.payloadBytes ≠ 0) :
    Loaded ((s.leave key).enterStartup key op.payloadBytes alpha) := by
  intro x hx
  by_cases hkey : key = x
  · subst hkey
    exact ⟨op.payloadBytes, Dict.get?_set_self _ _ _, by positivity⟩
  · have hold : x ∈ s.startup.keys ∨ x ∈ s.active := by
      rcases hx with hx | hx
      · exact Or.inl ((Dict.mem_keys_set.mp hx).resolve_left (Ne.symm hkey))
      · exact Or.inr hx
    obtain ⟨left, hleft, hpos⟩ := h x hold
    exact ⟨left, (Dict.get?_set_ne _ _ hkey).trans hleft, hpos⟩

/-- **Bytes are left over**: what does not end at the next event has moved less than its
payload. -/
theorem Loaded.pass (h : Loaded s) (hinv : Inv sim (availableIds sim unavailable) s)
    (hids : sim.WellFormed) {rates : Dict String ℚ} {next : ℚ}
    (hrates : ratesOf (activeOperations sim s) sim.costs sim.model = .ok rates)
    (hfirst : ∀ u ∈ s.future rates, next ≤ u) : Loaded (s.passTo rates next) := by
  have hremaining : ∀ x, (s.passTo rates next).remaining.get? x = if x ∈ s.active then
      some (max 0 ((s.remaining.get? x).getD 0 - (rates.get? x).getD 0 * (next - s.now)))
      else s.remaining.get? x := fun x => drain_get? hinv.active_nodup _ s.remaining x
  intro x hx
  rw [hremaining]
  rcases hx with hx | hx
  · rw [if_neg (hinv.startup_only x hx).1]
    exact h x (Or.inl hx)
  · obtain ⟨hmem, hlate⟩ := List.mem_filter.mp hx
    simp only [decide_eq_true_eq] at hlate
    obtain ⟨left, hleft, -⟩ := h x (Or.inr hmem)
    obtain ⟨op, hop, rfl⟩ := List.mem_map.mp
      (List.mem_of_mem_filter (hinv.launched x (Or.inr (Or.inl hmem))).1)
    obtain ⟨rate, hrate, -⟩ := ratesOf_ok hrates (activeOperations_nodup hids)
    obtain ⟨hget, hpos, -⟩ := hrate op (List.mem_filter.mpr ⟨hop, by simpa using hmem⟩)
    have hle := hfirst _ (List.mem_append_left _ (List.mem_append_left _
      (List.mem_map.mpr ⟨_, hmem, rfl⟩)))
    rw [finishTime, hleft, hget, Option.getD_some, Option.getD_some] at hle hlate
    have hlt : next < s.now + left / rate op := lt_of_le_of_ne hle (Ne.symm hlate)
    have hmoved : rate op * (next - s.now) < left := by
      rw [← lt_div_iff₀' hpos]
      exact sub_lt_iff_lt_add'.mpr hlt
    refine ⟨_, if_pos hmem, lt_max_of_lt_right ?_⟩
    rw [hleft, hget, Option.getD_some, Option.getD_some]
    exact sub_pos.mpr hmoved

/-- **Every move keeps it.** -/
theorem Loaded.move (hids : sim.WellFormed) (hsupplied : sim.Supplied unavailable)
    (hinv : Inv sim (availableIds sim unavailable) s) (h : Loaded s) (hmove : Move sim head s t) :
    Loaded t := by
  cases hmove with
  | finishStartup => exact h.finishStartup
  | dropReleases p => exact h.frame rfl rfl rfl
  | launch key op alpha launching operation data startup =>
    exact h.launch (hsupplied.payload op (Simulation.operation?_mem operation).1 data)
  | skip key op launching operation nop =>
    obtain ⟨-, h2, h3, h4, -⟩ := complete_fields hids (s.leave key) key
    exact h.frame h2 h3 h4
  | pass rates next priced later first =>
    have hdone := completes_spec hids (s.finished rates next) (s.passTo rates next)
    exact (h.pass hinv hids priced first).frame hdone.startup hdone.active hdone.remaining

/-! ## What waits for nobody is queued -/

/-- A pending operation that waits for nobody is in the queue of releases, or among the
keys that are about to be launched. -/
def Queued (s : Clock) (keys : List String) : Prop := ∀ x ∈ s.pending, s.degrees x = 0 →
  x ∈ s.releases.map (·.2) ∨ x ∈ keys

theorem Queued.complete (hids : sim.WellFormed) {keys : List String} (h : Queued s keys)
    (key : String) : Queued (Clock.complete sim s key) keys := by
  rw [complete_eq hids]
  intro x hx hdegree
  have hp : x ∈ s.pending := hx
  rw [List.map_append, List.mem_append, or_assoc]
  by_cases hdep : key ∈ sim.deps x
  · -- the counter of `x` has just reached zero
    have hzero : s.degrees x - 1 = 0 := by simpa [hdep, hp] using hdegree
    refine Or.inl (List.mem_map.mpr ⟨(sim.releaseTime x, x), List.mem_map.mpr ⟨x, ?_, rfl⟩, rfl⟩)
    rw [List.mem_reverse, List.mem_filter]
    exact ⟨hids.mem_successors.mpr hdep, by simp [hp, hzero]⟩
  · exact Or.inr (h x hp (by simpa [hdep] using hdegree))

theorem Queued.completes (hids : sim.WellFormed) {keys : List String} (done : List String) :
    ∀ {s : Clock}, Queued s keys → Queued (done.foldl (Clock.complete sim) s) keys := by
  induction done with
  | nil => exact fun h => h
  | cons key done ih => exact fun h => ih (h.complete hids key)

theorem Queued.leave {key : String} {keys : List String} (hnodup : s.pending.Nodup)
    (h : Queued s (key :: keys)) : Queued (s.leave key) keys := by
  intro x hx hdegree
  obtain ⟨hne, hp⟩ := hnodup.mem_erase_iff.mp (show x ∈ s.pending.erase key from hx)
  rcases h x hp hdegree with hmem | hmem
  · exact Or.inl hmem
  · exact Or.inr ((List.mem_cons.mp hmem).resolve_left hne)

/-- A launch takes its key out of those to be launched. -/
theorem Queued.launch (hids : sim.WellFormed) (hnodup : s.pending.Nodup)
    {startups : Dict String ℚ} {key : String} {keys : List String} (h : Queued s (key :: keys))
    (hl : Clock.launch sim startups s key = .ok t) : Queued t keys := by
  obtain ⟨op, -, ⟨-, rfl⟩ | ⟨-, cost, -, rfl⟩⟩ := launch_cases hl
  · exact (h.leave hnodup).complete hids key
  · exact h.leave hnodup

/-- What holds between the launches of one instant. -/
structure Launches (sim : Simulation) (available : List String) (s : Clock) (keys : List String) :
    Prop where
  inv : Inv sim available s
  nodup : keys.Nodup
  ready : ∀ x ∈ keys, Ready s x
  queued : Queued s keys

theorem Launches.launch (hids : sim.WellFormed) {startups : Dict String ℚ} {key : String}
    {keys : List String} (h : Launches sim available s (key :: keys))
    (hl : Clock.launch sim startups s key = .ok t) : Launches sim available t keys := by
  obtain ⟨hnot, hnodup⟩ := List.nodup_cons.mp h.nodup
  have hkey := h.ready key List.mem_cons_self
  refine ⟨h.inv.launch hids hkey hl, hnodup, fun x hx => ?_,
    h.queued.launch hids h.inv.pending_nodup hl⟩
  exact hkey.launch hids h.inv (h.ready x (List.mem_cons_of_mem _ hx)) (fun heq => hnot (heq ▸ hx)) hl

theorem Launches.run (hids : sim.WellFormed) {startups : Dict String ℚ} {keys : List String} :
    ∀ {s : Clock}, Launches sim available s keys →
      keys.foldlM (Clock.launch sim startups) s = .ok t → Launches sim available t [] := by
  induction keys with
  | nil =>
    intro s h hrun
    obtain rfl := Checked.pure_ok.mp ((List.foldlM_nil (m := Except Fault)).symm.trans hrun)
    exact h
  | cons key keys ih =>
    intro s h hrun
    rw [List.foldlM_cons, Checked.bind_ok] at hrun
    obtain ⟨u, hu, hrun⟩ := hrun
    exact ih (h.launch hids hu) hrun

/-- The launches of one instant begin with all the releases that are due. -/
theorem Launches.start (hinv : Inv sim available s) (h : Queued s []) :
    Launches sim available
      { s.finishStartup with releases := s.finishStartup.releases.filter fun e => ¬ e.1 ≤ s.now }
      s.finishStartup.ready := by
  have hfinish := hinv.finishStartup
  refine ⟨hfinish.dropReleases _, hfinish.ready_nodup, fun x hx => (hfinish.launching hx).ready, ?_⟩
  intro x hx hdegree
  obtain ⟨entry, hmem, rfl⟩ := List.mem_map.mp ((h x hx hdegree).resolve_right List.not_mem_nil)
  by_cases hdue : entry.1 ≤ s.now
  · exact Or.inr (mem_ready.mpr ⟨entry, hmem, hdue, rfl⟩)
  · exact Or.inl (List.mem_map.mpr ⟨entry, List.mem_filter.mpr ⟨hmem, by simpa using hdue⟩, rfl⟩)

theorem Queued.settle (hids : sim.WellFormed) (hinv : Inv sim available s) (h : Queued s [])
    (hs : settle sim s = .ok t) : Queued t [] := by
  obtain ⟨startups, -, hrun⟩ := Checked.bind_ok.mp hs
  exact (Launches.run hids (Launches.start hinv h) hrun).queued

theorem Queued.turn (hids : sim.WellFormed) (hinv : Inv sim available s) (h : Queued s [])
    (ht : turn sim s = .ok t) : Queued t [] := by
  obtain ⟨u, hu, hrest⟩ := Checked.bind_ok.mp ht
  have hsettled := h.settle hids hinv hu
  by_cases hdue : u.due
  · rw [if_pos hdue, Checked.pure_ok] at hrest
    exact hrest ▸ hsettled
  · rw [if_neg hdue] at hrest
    obtain ⟨rates, -, ⟨-, -, rfl⟩ | ⟨next, -, -, -, rfl⟩⟩ := advance_cases hrest
    · exact hsettled
    · have hpass : Queued (u.passTo rates next) [] := hsettled
      exact hpass.completes hids _

theorem queued_initialClock : Queued (initialClock sim unavailable) [] := by
  intro x hx hdegree
  refine Or.inl (List.mem_map.mpr ⟨(sim.releaseTime x, x), List.mem_map.mpr ⟨x, ?_, rfl⟩, rfl⟩)
  exact List.mem_filter.mpr ⟨hx, by simpa [initialClock] using hdegree⟩

/-! ## Every state of a run -/

/-- **What keeps the loop going.** -/
structure Steady (sim : Simulation) (unavailable : List String) (s : Clock) : Prop where
  inv : Inv sim (availableIds sim unavailable) s
  progressed : Progressed sim unavailable s
  loaded : Loaded s
  queued : Queued s []

/-- Moves that start in a state of the run keep the part of it that is not about the queue. -/
theorem Moves.loaded (hids : sim.WellFormed) (hsupplied : sim.Supplied unavailable)
    (hhead : Settling sim unavailable head) (hprogress : Progressed sim unavailable s)
    (hloaded : Loaded s) (h : Moves sim (availableIds sim unavailable) head s t) :
    Progressed sim unavailable t ∧ Loaded t := by
  refine h.invariant (P := fun c => Progressed sim unavailable c ∧ Loaded c) ?_ ⟨hprogress, hloaded⟩
  rintro a b hinv - ⟨hp, hl⟩ hmove
  exact ⟨hp.move hids hsupplied.localWork hinv hhead hmove, hl.move hids hsupplied hinv hmove⟩

theorem Steady.settle (hids : sim.WellFormed) (hsupplied : sim.Supplied unavailable)
    (hreached : Reached sim unavailable s) (h : Steady sim unavailable s)
    (hs : Clock.settle sim s = .ok t) : Steady sim unavailable t := by
  obtain ⟨hmoves, hinv⟩ := settle_moves hids h.inv hs
  obtain ⟨hp, hl⟩ := Moves.loaded hids hsupplied ⟨s, hreached, rfl⟩ h.progressed h.loaded hmoves
  exact ⟨hinv, hp, hl, h.queued.settle hids h.inv hs⟩

theorem Steady.turn (hids : sim.WellFormed) (hsupplied : sim.Supplied unavailable)
    (hreached : Reached sim unavailable s) (h : Steady sim unavailable s)
    (ht : Clock.turn sim s = .ok t) : Steady sim unavailable t := by
  obtain ⟨hmoves, hinv⟩ := turn_moves hids h.inv ht
  obtain ⟨hp, hl⟩ := Moves.loaded hids hsupplied ⟨s, hreached, rfl⟩ h.progressed h.loaded hmoves
  exact ⟨hinv, hp, hl, h.queued.turn hids h.inv ht⟩

theorem Reached.steady (hids : sim.WellFormed) (hsupplied : sim.Supplied unavailable)
    (h : Reached sim unavailable s) : Steady sim unavailable s := by
  induction h with
  | refl =>
    refine ⟨inv_initialClock hids unavailable, progressed_initialClock, ?_, queued_initialClock⟩
    intro x hx
    simp [initialClock, Dict.keys] at hx
  | tail hreached hturn ih => exact ih.turn hids hsupplied hreached hturn.2

/-! ## The loop only ever refuses -/

/-- **Nothing pending is left behind**: with nothing to wait for, nothing is pending. -/
theorem Steady.not_stalled (hids : sim.WellFormed) (hsupplied : sim.Supplied unavailable)
    (h : Steady sim unavailable s) {rates : Dict String ℚ} (hnone : s.future rates = []) :
    s.pending = [] := by
  simp only [future, List.append_eq_nil_iff, List.map_eq_nil_iff, Dict.values] at hnone
  obtain ⟨⟨hactive, hstartup⟩, hreleases⟩ := hnone
  obtain ⟨order, horder, hall⟩ := hsupplied.ordered
  have hnot : ∀ x ∈ order, x ∉ s.pending := by
    refine horder.induct fun x _ hbefore hx => ?_
    obtain ⟨hid, hav⟩ := List.mem_filter.mp (h.inv.pending_available x hx)
    obtain ⟨op, hop, rfl⟩ := List.mem_map.mp hid
    have hdeps : sim.deps op.operationId = op.dependencies := by
      rw [Simulation.deps, hids.operation?_eq hop]
      rfl
    have hended : ∀ p ∈ sim.deps op.operationId, p ∈ s.ends.keys := by
      intro p hp
      obtain ⟨hpav, q, hq, rfl⟩ := hsupplied.closed op hop (by simpa using hav) p (hdeps ▸ hp)
      cases h.progressed.phases q hq hpav with
      | pending mem => exact absurd mem (hbefore _ (List.mem_toFinset.mpr hp))
      | starting u alpha launched startup => simp [hstartup] at startup
      | active u alpha left launched mem => simp [hactive] at mem
      | ended u alpha v launched ended => exact Dict.get?_isSome.mp ⟨v, ended⟩
      | skipped u nop started nonneg released ended => exact Dict.get?_isSome.mp ⟨u, ended⟩
    -- it waits for nobody, so it would be queued
    have hzero : s.degrees op.operationId = 0 := by
      rw [h.inv.degree _ hx, List.length_eq_zero_iff, List.filter_eq_nil_iff]
      intro p hp
      simpa using hended p hp
    rcases h.queued _ hx hzero with hmem | hmem
    · simp [hreleases] at hmem
    · cases hmem
  refine List.eq_nil_iff_forall_not_mem.mpr fun x hx => ?_
  obtain ⟨op, hop, rfl⟩ := List.mem_map.mp (List.mem_of_mem_filter (h.inv.pending_available x hx))
  exact hnot _ (hall op hop) hx

/-- **The next event is later**, once nothing is due. -/
theorem Steady.later (hids : sim.WellFormed) (h : Steady sim unavailable s) (hdue : ¬ s.due)
    {rates : Dict String ℚ}
    (hrates : ratesOf (activeOperations sim s) sim.costs sim.model = .ok rates) :
    ∀ u ∈ s.future rates, s.now < u := by
  rw [due, not_or] at hdue
  intro u hu
  rcases List.mem_append.mp hu with hu | hu
  · rcases List.mem_append.mp hu with hu | hu
    · obtain ⟨x, hx, rfl⟩ := List.mem_map.mp hu
      obtain ⟨left, hleft, hpos⟩ := h.loaded x (Or.inr hx)
      obtain ⟨op, hop, rfl⟩ := List.mem_map.mp
        (List.mem_of_mem_filter (h.inv.launched x (Or.inr (Or.inl hx))).1)
      obtain ⟨rate, hrate, -⟩ := ratesOf_ok hrates (activeOperations_nodup hids)
      obtain ⟨hget, hrpos, -⟩ := hrate op (List.mem_filter.mpr ⟨hop, by simpa using hx⟩)
      rw [finishTime, hleft, hget, Option.getD_some, Option.getD_some]
      exact lt_add_of_pos_right _ (div_pos hpos hrpos)
    · obtain ⟨entry, he, rfl⟩ := List.mem_map.mp hu
      exact not_le.mp fun hle => hdue.1 ⟨entry, he, hle⟩
  · obtain ⟨entry, he, rfl⟩ := List.mem_map.mp hu
    exact not_le.mp fun hle => hdue.2 ⟨entry, he, hle⟩

theorem launchStartups_error {ready : List String}
    (h : launchStartups sim s ready = .error e) : Refusal e := by
  rcases Checked.bind_error h with h | ⟨_, -, h⟩
  · obtain ⟨group, -, h⟩ := Checked.mapM_error h
    rcases Checked.bind_error h with h | ⟨found, -, h⟩
    · exact profileOf_error h
    · cases found <;> cases h
  · cases h

/-- An operation that runs can be launched. -/
theorem launch_supplied (hids : sim.WellFormed) (hsupplied : sim.Supplied unavailable)
    {startups : Dict String ℚ} {key : String} (hkey : key ∈ availableIds sim unavailable)
    (h : Clock.launch sim startups s key = .error e) : False := by
  obtain ⟨hid, hav⟩ := List.mem_filter.mp hkey
  obtain ⟨op, hop, rfl⟩ := List.mem_map.mp hid
  rcases Checked.bind_error h with h | ⟨found, hfound, h⟩
  · obtain ⟨hnone, -⟩ := Checked.required_error h
    rw [hids.operation?_eq hop] at hnone
    cases hnone
  · obtain rfl : op = found :=
      Option.some.inj ((hids.operation?_eq hop).symm.trans (Checked.required_ok.mp hfound))
    by_cases hnop : op.kind = .nop
    · simp only [if_pos hnop] at h
      cases h
    · simp only [if_neg hnop] at h
      obtain ⟨cost, hcost⟩ := hsupplied.priced op hop (by simpa using hav) hnop
      rcases Checked.bind_error h with h | ⟨_, -, h⟩
      · obtain ⟨hnone, -⟩ := Checked.required_error h
        rw [hcost] at hnone
        cases hnone
      · cases h

theorem Steady.settle_error (hids : sim.WellFormed) (hsupplied : sim.Supplied unavailable)
    (h : Steady sim unavailable s) (hs : Clock.settle sim s = .error e) : Refusal e := by
  rcases Checked.bind_error hs with hs | ⟨startups, -, hs⟩
  · exact launchStartups_error hs
  · obtain ⟨t, key, keys, hlaunches, herror⟩ := Checked.foldlM_error
      (Launches sim (availableIds sim unavailable)) (fun _ _ _ _ hl hok => hl.launch hids hok)
      (Launches.start h.inv h.queued) hs
    have hkey := hlaunches.ready key List.mem_cons_self
    exact (launch_supplied hids hsupplied
      (hlaunches.inv.pending_available key hkey.pending) herror).elim

theorem Steady.advance_error (hids : sim.WellFormed) (hsupplied : sim.Supplied unavailable)
    (h : Steady sim unavailable s) (hdue : ¬ s.due) (ha : Clock.advance sim s = .error e) :
    Refusal e := by
  have havailable : ∀ op ∈ activeOperations sim s,
      op ∈ sim.operations ∧ op.operationId ∈ s.active ∧ op.operationId ∉ unavailable := by
    intro op hop
    obtain ⟨hmem, hact⟩ := List.mem_filter.mp hop
    simp only [decide_eq_true_eq] at hact
    have hav := (List.mem_filter.mp (h.inv.launched _ (Or.inr (Or.inl hact))).1).2
    exact ⟨hmem, hact, by simpa using hav⟩
  rcases Checked.bind_error ha with ha | ⟨rates, hrates, ha⟩
  · refine ratesOf_error (fun op hop => ?_) (fun op hop => ?_) ha
    · exact hsupplied.known op (havailable op hop).1 (havailable op hop).2.2
    · obtain ⟨hmem, hact, hav⟩ := havailable op hop
      refine hsupplied.priced op hmem hav fun hnop => ?_
      -- a free operation is never active
      cases h.progressed.phases op hmem hav with
      | pending mem => exact (h.inv.launched _ (Or.inr (Or.inl hact))).2 mem
      | starting u alpha launched => exact launched.data hnop
      | active u alpha left launched => exact launched.data hnop
      | ended u alpha v launched => exact launched.data hnop
      | skipped u nop started nonneg released ended =>
        exact h.inv.active_only _ hact (Dict.get?_isSome.mp ⟨u, ended⟩)
  · cases hfuture : s.future rates with
    | nil =>
      rw [hfuture] at ha
      rcases Checked.bind_error ha with ha | ⟨_, -, ha⟩
      · exact absurd (h.not_stalled hids hsupplied hfuture) (Checked.ensure_error ha).1
      · cases ha
    | cons u rest =>
      rw [hfuture] at ha
      have hlater := h.later hids hdue hrates
      rw [hfuture] at hlater
      rcases Checked.bind_error ha with ha | ⟨_, -, ha⟩
      · refine absurd (not_le.mpr ?_) (Checked.ensure_error ha).1
        rcases foldl_min_mem rest u with heq | hmem
        · rw [heq]
          exact hlater u List.mem_cons_self
        · exact hlater _ (List.mem_cons_of_mem _ hmem)
      · cases ha

theorem Steady.turn_error (hids : sim.WellFormed) (hsupplied : sim.Supplied unavailable)
    (hreached : Reached sim unavailable s) (h : Steady sim unavailable s)
    (ht : Clock.turn sim s = .error e) : Refusal e := by
  rcases Checked.bind_error ht with ht | ⟨u, hu, ht⟩
  · exact h.settle_error hids hsupplied ht
  · by_cases hdue : u.due
    · rw [if_pos hdue] at ht
      cases ht
    · rw [if_neg hdue] at ht
      exact (h.settle hids hsupplied hreached hu).advance_error hids hsupplied hdue ht

/-- **The loop ends, or refuses**: with the turns left it neither runs out of them nor fails
in another way. -/
theorem run_error (hids : sim.WellFormed) (hsupplied : sim.Supplied unavailable) {n : ℕ} :
    ∀ {s : Clock}, Reached sim unavailable s → s.turnsLeft ≤ n → run sim n s = .error e →
      Refusal e := by
  induction n with
  | zero =>
    intro s _ hturns hrun
    have hstop : ¬ s.running := by
      rintro (h | h | h) <;>
      · have := List.length_pos_of_ne_nil h
        simp only [turnsLeft, stages] at hturns
        omega
    rw [run, if_neg hstop] at hrun
    cases hrun
  | succ n ih =>
    intro s hreached hturns hrun
    have hsteady := hreached.steady hids hsupplied
    unfold run at hrun
    split at hrun
    · rename_i hgoing
      rcases Checked.bind_error hrun with hrun | ⟨t, ht, hrun⟩
      · exact hsteady.turn_error hids hsupplied hreached hrun
      · have hless := turn_turnsLeft hids hsteady.inv hgoing ht
        exact ih (hreached.tail ⟨hgoing, ht⟩) (by omega) hrun
    · cases hrun

end Clock

/-! ## The operations that are unavailable -/

/-- A set that holds what the model cannot price, and with an operation everything that
waits for it or shares a resource with it. -/
structure UnavailableClosed (operations : List WorkOperation) (model : CostModel)
    (S : Set String) : Prop where
  lacking : ∀ op ∈ operations, missingFor model op ≠ [] → op.operationId ∈ S
  depends : ∀ op ∈ operations, ∀ p ∈ op.dependencies, p ∈ S → op.operationId ∈ S
  shares : ∀ op ∈ operations, ∀ other ∈ operations, other.operationId ∈ S →
    ∀ r ∈ op.resources, r ∈ other.resources → op.operationId ∈ S

section Closure
variable {operations : List WorkOperation} {model : CostModel}

/-- One operation of a pass. -/
def unavailableStep (affected : List String) (found : List String) (op : WorkOperation) :
    List String :=
  if op.operationId ∉ found ∧
      ((∃ p ∈ op.dependencies, p ∈ found) ∨ ∃ r ∈ op.resources, r ∈ affected) then
    found ++ [op.operationId]
  else found

theorem unavailablePass_eq (unavailable : List String) :
    unavailablePass operations unavailable = operations.foldl (unavailableStep
      ((operations.filter (fun op => op.operationId ∈ unavailable)).flatMap (·.resources)))
      unavailable := rfl

theorem unavailableStep_length (affected found : List String) (op : WorkOperation) :
    found.length ≤ (unavailableStep affected found op).length := by
  unfold unavailableStep
  split
  · simp
  · exact le_refl _

theorem foldl_unavailableStep_length (affected : List String) (ops : List WorkOperation) :
    ∀ found : List String, found.length ≤ (ops.foldl (unavailableStep affected) found).length := by
  induction ops with
  | nil => exact fun found => le_refl _
  | cons op ops ih =>
    exact fun found => (unavailableStep_length affected found op).trans (ih _)

/-- A pass that adds nothing has found nothing to add. -/
theorem foldl_unavailableStep_stable {affected : List String} {ops : List WorkOperation}
    {found : List String}
    (h : (ops.foldl (unavailableStep affected) found).length = found.length) :
    ∀ op ∈ ops, ((∃ p ∈ op.dependencies, p ∈ found) ∨ ∃ r ∈ op.resources, r ∈ affected) →
      op.operationId ∈ found := by
  induction ops with
  | nil => simp
  | cons op ops ih =>
    rw [List.foldl_cons] at h
    have hone := unavailableStep_length affected found op
    have hrest := foldl_unavailableStep_length affected ops (unavailableStep affected found op)
    by_cases hadd : op.operationId ∉ found ∧
        ((∃ p ∈ op.dependencies, p ∈ found) ∨ ∃ r ∈ op.resources, r ∈ affected)
    · rw [unavailableStep, if_pos hadd, List.length_append, List.length_singleton] at hrest
      rw [unavailableStep, if_pos hadd] at h
      omega
    · rw [unavailableStep, if_neg hadd] at h
      intro x hx hcause
      rcases List.mem_cons.mp hx with rfl | hx
      · by_contra hnot
        exact hadd ⟨hnot, hcause⟩
      · exact ih h x hx hcause

/-- What a pass keeps. -/
theorem foldl_unavailableStep_invariant {affected : List String} (P : List String → Prop)
    {ops : List WorkOperation}
    (step : ∀ found, ∀ op ∈ ops, P found → op.operationId ∉ found →
      ((∃ p ∈ op.dependencies, p ∈ found) ∨ ∃ r ∈ op.resources, r ∈ affected) →
      P (found ++ [op.operationId])) :
    ∀ {found : List String}, P found → P (ops.foldl (unavailableStep affected) found) := by
  induction ops with
  | nil => exact fun h => h
  | cons op ops ih =>
    intro found h
    refine ih (fun g x hx => step g x (List.mem_cons_of_mem _ hx)) ?_
    unfold unavailableStep
    split
    · rename_i hadd
      exact step found op List.mem_cons_self h hadd.1 hadd.2
    · exact h

/-- The operations found so far are distinct operations of the executable. -/
def Found (operations : List WorkOperation) (found : List String) : Prop :=
  found.Nodup ∧ ∀ x ∈ found, x ∈ operations.map (·.operationId)

theorem Found.pass {unavailable : List String} (h : Found operations unavailable) :
    Found operations (unavailablePass operations unavailable) := by
  rw [unavailablePass_eq]
  refine foldl_unavailableStep_invariant (Found operations) (fun found op hop hfound hnot _ => ?_) h
  refine ⟨List.nodup_append.mpr ⟨hfound.1, List.nodup_singleton _, ?_⟩, fun x hx => ?_⟩
  · rintro x hx _ hy rfl
    exact hnot (List.mem_singleton.mp hy ▸ hx)
  · rcases List.mem_append.mp hx with hx | hx
    · exact hfound.2 x hx
    · obtain rfl := List.mem_singleton.mp hx
      exact List.mem_map.mpr ⟨op, hop, rfl⟩

theorem Found.length_le {found : List String} (h : Found operations found) :
    found.length ≤ operations.length := by
  simpa using (List.subperm_of_subset h.1 h.2).length_le

/-- **The passes reach a fixed point.** -/
theorem unavailableFrom_stable {n : ℕ} : ∀ {unavailable : List String},
    Found operations unavailable → operations.length ≤ n + unavailable.length →
    (unavailablePass operations (unavailableFrom operations n unavailable)).length =
      (unavailableFrom operations n unavailable).length := by
  induction n with
  | zero =>
    intro unavailable h hn
    have hle := h.pass.length_le
    have hgrow : unavailable.length ≤ (unavailablePass operations unavailable).length :=
      foldl_unavailableStep_length _ operations unavailable
    simp only [unavailableFrom]
    omega
  | succ n ih =>
    intro unavailable h hn
    have hgrow : unavailable.length ≤ (unavailablePass operations unavailable).length :=
      foldl_unavailableStep_length _ operations unavailable
    simp only [unavailableFrom]
    split
    · assumption
    · exact ih h.pass (by omega)

/-- The passes stay within every closed set. -/
theorem unavailableFrom_subset {S : Set String} (hS : UnavailableClosed operations model S) {n : ℕ} :
    ∀ {unavailable : List String}, (∀ x ∈ unavailable, x ∈ S) →
      ∀ x ∈ unavailableFrom operations n unavailable, x ∈ S := by
  induction n with
  | zero => exact fun h => h
  | succ n ih =>
    intro unavailable h
    have hpass : ∀ x ∈ unavailablePass operations unavailable, x ∈ S := by
      rw [unavailablePass_eq]
      refine foldl_unavailableStep_invariant (fun found => ∀ x ∈ found, x ∈ S)
        (fun found op hop hfound _ hcause x hx => ?_) h
      rcases List.mem_append.mp hx with hx | hx
      · exact hfound x hx
      · obtain rfl := List.mem_singleton.mp hx
        rcases hcause with ⟨p, hp, hmem⟩ | ⟨r, hr, hmem⟩
        · exact hS.depends op hop p hp (hfound p hmem)
        · obtain ⟨other, hother, hro⟩ := List.mem_flatMap.mp hmem
          obtain ⟨hother, hin⟩ := List.mem_filter.mp hother
          exact hS.shares op hop other hother (h _ (by simpa using hin)) r hr hro
    simp only [unavailableFrom]
    split
    · exact h
    · exact ih hpass

/-- **What is unavailable is the least such set.** -/
theorem unavailableOf_least (hids : (operations.map (·.operationId)).Nodup) :
    IsLeast {S | UnavailableClosed operations model S} {x | x ∈ unavailableOf operations model} := by
  have hlacking : ∀ op ∈ operations, missingFor model op ≠ [] →
      op.operationId ∈ (operations.filter (fun op => missingFor model op ≠ [])).map (·.operationId) :=
    fun op hop hmissing => List.mem_map.mpr ⟨op, List.mem_filter.mpr ⟨hop, by simpa using hmissing⟩, rfl⟩
  have hfound : Found operations
      ((operations.filter (fun op => missingFor model op ≠ [])).map (·.operationId)) := by
    refine ⟨hids.sublist (List.filter_sublist.map _), fun x hx => ?_⟩
    obtain ⟨op, hop, rfl⟩ := List.mem_map.mp hx
    exact List.mem_map.mpr ⟨op, List.mem_of_mem_filter hop, rfl⟩
  have hstable := foldl_unavailableStep_stable
    (unavailableFrom_stable hfound (Nat.le_add_right operations.length _))
  constructor
  · refine ⟨fun op hop hmissing => mem_unavailableFrom (hlacking op hop hmissing),
      fun op hop p hp hmem => hstable op hop (Or.inl ⟨p, hp, hmem⟩),
      fun op hop other hother hmem r hr hro => hstable op hop (Or.inr ⟨r, hr, ?_⟩)⟩
    exact List.mem_flatMap.mpr ⟨other, List.mem_filter.mpr ⟨hother, decide_eq_true hmem⟩, hro⟩
  · intro S hS x hx
    refine unavailableFrom_subset hS (fun y hy => ?_) x hx
    obtain ⟨op, hop, rfl⟩ := List.mem_map.mp hy
    obtain ⟨hop, hmissing⟩ := List.mem_filter.mp hop
    exact hS.lacking op hop (by simpa using hmissing)

end Closure

/-! ## `predict` -/

/-- `x` waits for `p`. -/
def WaitsFor (operations : List WorkOperation) (p x : String) : Prop :=
  ∃ op ∈ operations, op.operationId = x ∧ p ∈ op.dependencies

/-- A rank that grows along waiting excludes cycles. -/
theorem acyclic_of_rank {operations : List WorkOperation} (rank : String → ℕ)
    (hrank : ∀ p x, WaitsFor operations p x → rank p < rank x) :
    ∀ x, ¬ Relation.TransGen (WaitsFor operations) x x := by
  have hless : ∀ p x, Relation.TransGen (WaitsFor operations) p x → rank p < rank x := by
    intro p x h
    induction h with
    | single hstep => exact hrank _ _ hstep
    | tail _ hstep ih => exact ih.trans (hrank _ _ hstep)
  exact fun x hcycle => lt_irrefl _ (hless x x hcycle)

section Predict
variable {executable : Executable} {model : CostModel}

theorem Executable.Checked.known (h : executable.Checked) :
    (∀ op ∈ executable.operations, ∀ p ∈ op.dependencies, p ∈ executable.ids) ∧
    ∀ x ∈ executable.outputOperations, x ∈ executable.ids := by
  have hwhole := h.whole
  unfold Executable.check at hwhole
  simp only [VeriCCL.Checked.bind_ok, VeriCCL.Checked.ensure_ok] at hwhole
  obtain ⟨_, -, _, hdeps, houtputs⟩ := hwhole
  exact ⟨hdeps, houtputs⟩

theorem mem_deps (hids : (simulation executable model).WellFormed) {p x : String} :
    p ∈ (simulation executable model).deps x ↔ WaitsFor executable.operations p x := by
  rw [← hids.mem_successors]
  simp only [Simulation.successors, List.mem_map, List.mem_filter, decide_eq_true_eq, WaitsFor]
  constructor
  · rintro ⟨op, ⟨hop, hp⟩, rfl⟩
    exact ⟨op, hop, rfl, hp⟩
  · rintro ⟨op, hop, rfl, hp⟩
    exact ⟨op, ⟨hop, hp⟩, rfl⟩

/-- The order in which `_acyclic` visits the operations, when there is no cycle. -/
theorem visits_all (model : CostModel) (hchecked : executable.Checked)
    (hacyclic : ∀ x, ¬ Relation.TransGen (WaitsFor executable.operations) x x) :
    (Kahn.order executable.ids (fun x => ((simulation executable model).deps x).toFinset)
      Kahn.fifo).length = executable.ids.length := by
  have hids := hchecked.wellFormed model
  have hwaits : ∀ p x, p ∈ ((simulation executable model).deps x).toFinset ↔
      WaitsFor executable.operations p x := fun p x => by
    rw [List.mem_toFinset, mem_deps hids]
  refine Kahn.order_complete_of_acyclic Kahn.fifo_perm hids.ids_nodup (fun x _ p hp => ?_) fun x => ?_
  · obtain ⟨op, hop, -, hp⟩ := (hwaits p x).mp hp
    exact hchecked.known.1 op hop p hp
  · intro hcycle
    exact hacyclic x (Relation.TransGen.mono (fun p y => (hwaits p y).mp) x x hcycle)

/-- **An executable without a cycle supplies the simulation.** -/
theorem Executable.Checked.supplied (model : CostModel) (hchecked : executable.Checked)
    (hacyclic : ∀ x, ¬ Relation.TransGen (WaitsFor executable.operations) x x) :
    (simulation executable model).Supplied (unavailableOf executable.operations model) := by
  have hids := hchecked.wellFormed model
  have hclosed : UnavailableClosed executable.operations model
      {x | x ∈ unavailableOf executable.operations model} := (unavailableOf_least hids.ids_nodup).1
  have hpriced : ∀ op ∈ executable.operations,
      op.operationId ∉ unavailableOf executable.operations model → missingFor model op = [] :=
    fun op hop hav => by_contra fun hmissing => hav (hclosed.lacking op hop hmissing)
  refine ⟨fun op hop => (WorkOperation.check_ok (hchecked.each op hop)).1,
    fun op hop => (WorkOperation.check_ok (hchecked.each op hop)).2.1, ?_, ?_, ?_, ?_⟩
  · intro op hop hav hdata
    have hnone := hpriced op hop hav
    simp only [missingFor, List.append_eq_nil_iff] at hnone
    obtain ⟨cost, hcost⟩ : ∃ cost, serviceCost model op = some cost := by
      rw [← Option.ne_none_iff_exists']
      intro hmissing
      simp [hdata, hmissing] at hnone
    refine Dict.get?_isSome.mpr (List.mem_map.mpr ⟨(op.operationId, cost), ?_, rfl⟩)
    exact List.mem_filterMap.mpr ⟨op, hop, by rw [if_neg hdata, hcost]; rfl⟩
  · intro op hop hav r hr
    by_cases hnop : op.kind = .nop
    · have hlocal := (WorkOperation.check_ok (hchecked.each op hop)).2.1 (by rw [hnop]; rfl)
      rw [hlocal] at hr
      cases hr
    · have hnone := hpriced op hop hav
      simp only [missingFor, if_neg hnop, List.append_eq_nil_iff, List.map_eq_nil_iff] at hnone
      by_contra hunknown
      have hmem : r ∈ missingResources model op :=
        List.mem_filter.mpr ⟨hr, decide_eq_true hunknown⟩
      rw [hnone.2] at hmem
      cases hmem
  · intro op hop hav p hp
    obtain ⟨q, hq, rfl⟩ := List.mem_map.mp (hchecked.known.1 op hop p hp)
    exact ⟨fun hmem => hav (hclosed.depends op hop _ hp hmem), q, hq, rfl⟩
  · have hlength := visits_all model hchecked hacyclic
    refine ⟨_, Kahn.order_topological Kahn.fifo_perm hids.ids_nodup, fun op hop => ?_⟩
    exact (Kahn.order_perm Kahn.fifo_perm hids.ids_nodup hlength).mem_iff.mpr
      (List.mem_map.mpr ⟨op, hop, rfl⟩)

theorem acyclic_error {e : Fault} (model : CostModel) (hchecked : executable.Checked)
    (hacyclic : ∀ x, ¬ Relation.TransGen (WaitsFor executable.operations) x x)
    (h : acyclic executable.operations = .error e) : False :=
  (Checked.ensure_error h).1 (visits_all model hchecked hacyclic)

/-- The outputs have ended. -/
theorem outputs_error {last : Clock} {unavailable : List String} {e : Fault}
    (hchecked : executable.Checked)
    (hall : ∀ op ∈ executable.operations, op.operationId ∉ unavailable →
      ∃ stop, last.ends.get? op.operationId = some stop)
    (havailable : ¬ ∃ x ∈ executable.outputOperations, x ∈ unavailable)
    (h : executable.outputOperations.mapM (fun x =>
      Checked.required (last.ends.get? x) (Fault.missing x)) = .error e) : False := by
  obtain ⟨x, hx, h⟩ := Checked.mapM_error h
  obtain ⟨op, hop, rfl⟩ := List.mem_map.mp (hchecked.known.2 x hx)
  obtain ⟨stop, hstop⟩ := hall op hop fun hmem => havailable ⟨_, hx, hmem⟩
  obtain ⟨hnone, -⟩ := Checked.required_error h
  rw [hstop] at hnone
  cases hnone

/-- The kinds of the events of an operation that has run. -/
def WorkOperation.stages (op : WorkOperation) : List ProgressKind :=
  if op.kind = .nop then [.start, .complete] else [.start, .startupComplete, .complete]

theorem Clock.Executed.kinds {sim : Simulation} {unavailable : List String} {last : Clock}
    {op : WorkOperation} {start stop : ℚ} (h : Clock.Executed sim unavailable last op start stop) :
    (last.eventsOf op.operationId).map (·.kind) = op.stages := by
  unfold WorkOperation.stages
  by_cases hnop : op.kind = .nop
  · rw [(h.skipped hnop).2.2, if_pos hnop]
    rfl
  · obtain ⟨_, _, -, -, -, -, hevents, -⟩ := h.paid hnop
    rw [hevents, if_neg hnop]
    rfl

/-- **What a run of the loop comes to.** -/
theorem run_executes (hchecked : executable.Checked)
    (hacyclic : ∀ x, ¬ Relation.TransGen (WaitsFor executable.operations) x x) {last : Clock}
    (hrun : Clock.run (simulation executable model) (turnLimit (simulation executable model))
      (initialClock (simulation executable model) (unavailableOf executable.operations model)) =
        .ok last) :
    ∀ op ∈ executable.operations, op.operationId ∉ unavailableOf executable.operations model →
      ∃ start stop, Clock.Executed (simulation executable model)
        (unavailableOf executable.operations model) last op start stop := by
  have hids := hchecked.wellFormed model
  have hsupplied := hchecked.supplied model hacyclic
  obtain ⟨hreached, hdone⟩ := Clock.run_reached hrun
  have hsteady := Clock.Reached.steady hids hsupplied hreached
  intro op hop hav
  obtain ⟨start, stop, -, hexecuted⟩ := hsteady.progressed.executed hids hsteady.inv hdone hop
    (WorkOperation.payload_of_nop (hchecked.each op hop)) hav
  exact ⟨start, stop, hexecuted⟩

/-- The context of a cost model is that of the executable. -/
def contextFault : Fault :=
  .semantic "cost model applicability context differs from the executable"

/-- **Event replay never stalls.**  For an executable without dependency cycles `predict`
fails only with a refusal, or because the context differs; when it returns, each operation
that is not unavailable has started once, completed once, and ended one startup unless it
is free; and the unavailable operations are the least set that holds what has no cost or
capacity and is closed under waiting and sharing. -/
theorem predict_never_stalls (asFloat : ℚ → ℚ) (hchecked : executable.Checked)
    (hacyclic : ∀ x, ¬ Relation.TransGen (WaitsFor executable.operations) x x) :
    (∀ e, predict asFloat executable model = .error e →
      Refusal e ∨ executable.context ≠ model.context ∧ e = contextFault) ∧
    ∀ prediction, predict asFloat executable model = .ok prediction →
      (∀ op ∈ executable.operations, op.operationId ∉ prediction.unavailableOperations →
        (prediction.events.filter (fun e => e.operationId = op.operationId)).map (·.kind) =
          op.stages) ∧
      IsLeast {S | UnavailableClosed executable.operations model S}
        {x | x ∈ prediction.unavailableOperations} := by
  have hids := hchecked.wellFormed model
  have hsupplied := hchecked.supplied model hacyclic
  constructor
  · intro e h
    rcases Checked.bind_error h with h | ⟨_, -, h⟩
    · obtain ⟨hcontext, rfl⟩ := Checked.ensure_error h
      exact Or.inr ⟨hcontext, rfl⟩
    · rcases Checked.bind_error h with h | ⟨_, -, h⟩
      · exact (acyclic_error model hchecked hacyclic h).elim
      · rcases Checked.bind_error h with h | ⟨last, hlast, h⟩
        · exact Or.inl (Clock.run_error hids hsupplied .refl (Clock.initialClock_turnsLeft _ _) h)
        · exfalso
          have hexecuted := run_executes hchecked hacyclic hlast
          by_cases havailable : ∃ x ∈ executable.outputOperations,
              x ∈ unavailableOf executable.operations model
          · simp only [if_pos havailable] at h
            cases h
          · simp only [if_neg havailable] at h
            rcases Checked.bind_error h with h | ⟨_, -, h⟩
            · refine outputs_error hchecked (fun op hop hav => ?_) havailable h
              obtain ⟨start, stop, hran⟩ := hexecuted op hop hav
              exact ⟨stop, hran.ended⟩
            · rcases Checked.bind_error h with h | ⟨_, -, h⟩ <;> cases h
  · intro prediction h
    obtain ⟨last, outputs, hrun, rfl⟩ := predict_ok h
    simp only [mem_sortStrings]
    refine ⟨fun op hop hav => ?_, unavailableOf_least hids.ids_nodup⟩
    obtain ⟨start, stop, hran⟩ := run_executes hchecked hacyclic hrun op hop hav
    rw [← hran.kinds, Clock.eventsOf, List.filter_map, List.map_map]
    rfl

theorem predict_never_stalls_sharedLink : ∃ prediction,
    predict id sharedLink linkCosts = .ok prediction ∧ ∀ op ∈ sharedLink.operations,
      (prediction.events.filter (fun e => e.operationId = op.operationId)).map (·.kind) =
        op.stages := by
  have hchecked : sharedLink.Checked := ⟨by decide +kernel, by decide +kernel⟩
  have hpredict : (predict id sharedLink linkCosts).map (·.unavailableOperations) = .ok [] := by
    decide +kernel
  let rank : String → ℕ := fun x => if x = "c" then 1 else 0
  have hrank : ∀ p x, WaitsFor sharedLink.operations p x → rank p < rank x := by
    rintro p _ ⟨op, hop, rfl, hp⟩
    simp only [sharedLink, List.mem_cons, List.not_mem_nil, or_false] at hop
    rcases hop with rfl | rfl | rfl
    · cases hp
    · cases hp
    · simp only [List.mem_cons, List.not_mem_nil, or_false] at hp
      rcases hp with rfl | rfl <;> decide
  have hacyclic := acyclic_of_rank rank hrank
  obtain ⟨prediction, hprediction, havailable⟩ := Checked.map_ok.mp hpredict
  refine ⟨prediction, hprediction, fun op hop => ?_⟩
  exact ((predict_never_stalls id hchecked hacyclic).2 prediction hprediction).1 op hop
    (by simp [havailable])

end Predict

end VeriCCL
