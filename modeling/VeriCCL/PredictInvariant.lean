import VeriCCL.Rates

/-! # What every turn of the simulation keeps

`Clock.Inv` says where each operation is: pending, starting, active or ended, in one
place at a time; a pending operation counts its predecessors that have not ended, and
an operation that has been launched started after all its predecessors ended.
`Clock.Inv.run` carries it through the whole loop.  What a completion does to the
counters is computed once (`Clock.foldl_release`). -/
namespace VeriCCL

/-- The predecessors of a key. -/
def Simulation.deps (sim : Simulation) (key : String) : List String :=
  ((sim.operation? key).map (·.dependencies)).getD []

/-- What the constructors of an executable guarantee. -/
structure Simulation.WellFormed (sim : Simulation) : Prop where
  ids_nodup : (sim.operations.map (·.operationId)).Nodup
  deps_nodup : ∀ op ∈ sim.operations, op.dependencies.Nodup

namespace Simulation
variable {sim : Simulation}

theorem operation?_mem {key : String} {op : WorkOperation} (h : sim.operation? key = some op) :
    op ∈ sim.operations ∧ op.operationId = key := by
  unfold operation? at h
  exact ⟨List.mem_of_find?_eq_some h, by simpa using List.find?_some h⟩

theorem WellFormed.operation?_eq (hsim : sim.WellFormed) {op : WorkOperation}
    (hop : op ∈ sim.operations) : sim.operation? op.operationId = some op := by
  obtain ⟨found, hfound⟩ : ∃ found, sim.operation? op.operationId = some found := by
    rw [← Option.isSome_iff_exists, operation?, List.find?_isSome]
    exact ⟨op, hop, by simp⟩
  obtain ⟨hmem, hid⟩ := operation?_mem hfound
  rw [hfound, List.inj_on_of_nodup_map hsim.ids_nodup hmem hop hid]

theorem WellFormed.mem_successors (hsim : sim.WellFormed) {key x : String} :
    x ∈ sim.successors key ↔ key ∈ sim.deps x := by
  simp only [successors, List.mem_map, List.mem_filter, decide_eq_true_eq, deps]
  constructor
  · rintro ⟨op, ⟨hop, hkey⟩, rfl⟩
    rw [hsim.operation?_eq hop]
    exact hkey
  · intro hkey
    cases hx : sim.operation? x with
    | none => simp [hx] at hkey
    | some op =>
      obtain ⟨hop, rfl⟩ := operation?_mem hx
      exact ⟨op, ⟨hop, by simpa [hx] using hkey⟩, rfl⟩

theorem WellFormed.successors_nodup (hsim : sim.WellFormed) (key : String) :
    (sim.successors key).Nodup :=
  hsim.ids_nodup.sublist (List.filter_sublist.map _)

theorem WellFormed.deps_nodup' (hsim : sim.WellFormed) (key : String) : (sim.deps key).Nodup := by
  unfold deps
  cases hx : sim.operation? key with
  | none => simp
  | some op => exact hsim.deps_nodup op (operation?_mem hx).1

end Simulation

namespace Clock
variable {sim : Simulation} {available : List String} {s t : Clock}

theorem mem_started {x : String} : x ∈ s.started ↔ ∃ e ∈ s.startup, e.2 ≤ s.now ∧ e.1 = x := by
  simp [Clock.started, and_assoc]

theorem mem_ready {x : String} : x ∈ s.ready ↔ ∃ e ∈ s.releases, e.1 ≤ s.now ∧ e.2 = x := by
  simp [Clock.ready, and_assoc]

theorem mem_finished {rates : Dict String ℚ} {next : ℚ} {x : String} :
    x ∈ s.finished rates next ↔ x ∈ s.active ∧ s.finishTime rates x = next := by
  simp [Clock.finished]

/-- **What a completion does to the counters**: each pending successor loses one, and
is released when none is left. -/
theorem foldl_release {L : List String} (hL : L.Nodup) (s : Clock) :
    L.foldl (release sim) s = { s with
      degrees := fun x => if x ∈ L ∧ x ∈ s.pending then s.degrees x - 1 else s.degrees x
      releases := ((L.filter (fun x => x ∈ s.pending ∧ s.degrees x - 1 = 0)).reverse.map
        fun x => (sim.releaseTime x, x)) ++ s.releases } := by
  induction L generalizing s with
  | nil => simp
  | cons y L ih =>
    obtain ⟨hy, hL⟩ := List.nodup_cons.mp hL
    rw [List.foldl_cons, ih hL]
    unfold release
    by_cases hp : y ∈ s.pending
    · simp only [if_pos hp]
      have hfilter : (L.filter fun x => x ∈ s.pending ∧
          Function.update s.degrees y (s.degrees y - 1) x - 1 = 0) =
          L.filter fun x => x ∈ s.pending ∧ s.degrees x - 1 = 0 := by
        refine List.filter_congr fun x hx => ?_
        have hne : x ≠ y := fun h => hy (h ▸ hx)
        rw [Function.update_of_ne hne]
      congr 1
      · funext x
        by_cases hx : x = y
        · subst hx
          simp [hy, hp]
        · simp [hx]
      · rw [hfilter, List.filter_cons]
        by_cases hd : s.degrees y - 1 = 0
        · simp [hp, hd]
        · simp [hp, hd]
    · simp only [if_neg hp]
      congr 1
      · funext x
        by_cases hx : x = y
        · subst hx
          simp [hy, hp]
        · simp [hx]
      · simp [hp]

/-- The state after a completion. -/
theorem complete_eq (hsim : sim.WellFormed) (s : Clock) (key : String) :
    complete sim s key = { s with
      ends := s.ends.set key s.now
      events := s.events ++ [⟨s.now, .complete, key⟩]
      degrees := fun x => if key ∈ sim.deps x ∧ x ∈ s.pending then s.degrees x - 1 else s.degrees x
      releases := (((sim.successors key).filter
        (fun x => x ∈ s.pending ∧ s.degrees x - 1 = 0)).reverse.map
          fun x => (sim.releaseTime x, x)) ++ s.releases } := by
  unfold complete
  rw [foldl_release (hsim.successors_nodup key)]
  simp only [hsim.mem_successors]

/-- **Where the operations are.** -/
structure Inv (sim : Simulation) (available : List String) (s : Clock) : Prop where
  pending_nodup : s.pending.Nodup
  pending_available : ∀ x ∈ s.pending, x ∈ available
  startup_distinct : s.startup.Distinct
  active_nodup : s.active.Nodup
  launched : ∀ x, x ∈ s.startup.keys ∨ x ∈ s.active ∨ x ∈ s.ends.keys →
    x ∈ available ∧ x ∉ s.pending
  startup_only : ∀ x ∈ s.startup.keys, x ∉ s.active ∧ x ∉ s.ends.keys
  active_only : ∀ x ∈ s.active, x ∉ s.ends.keys
  /-- The counter of a pending operation. -/
  degree : ∀ x ∈ s.pending, s.degrees x = ((sim.deps x).filter (· ∉ s.ends.keys)).length
  released : ∀ e ∈ s.releases, e.2 ∈ s.pending ∧ s.degrees e.2 = 0
  releases_nodup : (s.releases.map (·.2)).Nodup
  release_time : ∀ e ∈ s.releases, e.1 = sim.releaseTime e.2
  ended : ∀ x e, s.ends.get? x = some e → e ≤ s.now
  /-- A launched operation started after its predecessors ended. -/
  started : ∀ x ∈ available, x ∉ s.pending → ∃ u, s.starts.get? x = some u ∧ u ≤ s.now ∧
    ∀ p ∈ sim.deps x, ∃ e, s.ends.get? p = some e ∧ e ≤ u

/-- The keys that are neither pending, nor starting, active or ended. -/
structure Between (available : List String) (s : Clock) (key : String) : Prop where
  available : key ∈ available
  not_pending : key ∉ s.pending
  not_startup : key ∉ s.startup.keys
  not_active : key ∉ s.active
  not_ended : key ∉ s.ends.keys

/-- Counting without one member. -/
theorem length_filter_insert {l : List String} (hl : l.Nodup) {keys : List String} {key : String}
    (hkey : key ∉ keys) (p : String → Prop) [DecidablePred p]
    (hp : ∀ x, p x ↔ x ∉ keys ∧ x ≠ key) :
    (l.filter (fun x => p x)).length =
      if key ∈ l then (l.filter (fun x => x ∉ keys)).length - 1
      else (l.filter (fun x => x ∉ keys)).length := by
  have hfilter : l.filter (fun x => p x) = (l.filter (fun x => x ∉ keys)).filter (· != key) := by
    rw [List.filter_filter]
    refine List.filter_congr fun x _ => ?_
    rw [Bool.eq_iff_iff]
    simp [hp x, and_comm]
  have hnodup : (l.filter (fun x => x ∉ keys)).Nodup := hl.filter _
  rw [hfilter, ← hnodup.erase_eq_filter]
  by_cases h : key ∈ l
  · rw [if_pos h, List.length_erase_of_mem (List.mem_filter.mpr ⟨h, by simpa using hkey⟩)]
  · rw [if_neg h, List.erase_of_not_mem]
    intro hmem
    exact h (List.mem_of_mem_filter hmem)

/-- **A completion keeps the invariant.** -/
theorem Inv.complete (hsim : sim.WellFormed) (h : Inv sim available s) {key : String}
    (hb : Between available s key) : Inv sim available (complete sim s key) := by
  rw [complete_eq hsim]
  have hends : ∀ x, x ∈ (s.ends.set key s.now).keys ↔ x ∈ s.ends.keys ∨ x = key := by
    intro x
    rw [Dict.mem_keys_set]
    tauto
  have hcount : ∀ x, ((sim.deps x).filter (· ∉ (s.ends.set key s.now).keys)).length =
      if key ∈ sim.deps x then ((sim.deps x).filter (· ∉ s.ends.keys)).length - 1
      else ((sim.deps x).filter (· ∉ s.ends.keys)).length := by
    intro x
    refine length_filter_insert (hsim.deps_nodup' x) hb.not_ended _ fun y => ?_
    rw [hends y, not_or]
  have hzero : ∀ x ∈ s.pending, s.degrees x = 0 → key ∉ sim.deps x := by
    intro x hx hd hmem
    rw [h.degree x hx, List.length_eq_zero_iff, List.filter_eq_nil_iff] at hd
    exact hd key hmem (by simpa using hb.not_ended)
  refine ⟨h.pending_nodup, h.pending_available, h.startup_distinct, h.active_nodup, ?_, ?_, ?_, ?_,
    ?_, ?_, ?_, ?_, ?_⟩
  · rintro x (hx | hx | hx)
    · exact h.launched x (Or.inl hx)
    · exact h.launched x (Or.inr (Or.inl hx))
    · rcases (hends x).mp hx with hx | rfl
      · exact h.launched x (Or.inr (Or.inr hx))
      · exact ⟨hb.available, hb.not_pending⟩
  · intro x hx
    refine ⟨(h.startup_only x hx).1, fun hmem => ?_⟩
    rcases (hends x).mp hmem with hmem | rfl
    · exact (h.startup_only x hx).2 hmem
    · exact hb.not_startup hx
  · intro x hx hmem
    rcases (hends x).mp hmem with hmem | rfl
    · exact h.active_only x hx hmem
    · exact hb.not_active hx
  · intro x hx
    have hx' : x ∈ s.pending := hx
    simp only [hcount x, hx', and_true, h.degree x hx']
  · intro e he
    rcases List.mem_append.mp he with he | he
    · obtain ⟨x, hx, rfl⟩ := List.mem_map.mp he
      rw [List.mem_reverse, List.mem_filter] at hx
      obtain ⟨hsucc, hx⟩ := hx
      simp only [decide_eq_true_eq] at hx
      refine ⟨hx.1, ?_⟩
      rw [hsim.mem_successors] at hsucc
      simp [hsucc, hx.1, hx.2]
    · obtain ⟨hp, hd⟩ := h.released e he
      exact ⟨hp, by simp [hzero e.2 hp hd, hd]⟩
  · have hnew : (((sim.successors key).filter
        (fun x => x ∈ s.pending ∧ s.degrees x - 1 = 0)).reverse.map
          fun x => (sim.releaseTime x, x)).map (·.2) =
        ((sim.successors key).filter (fun x => x ∈ s.pending ∧ s.degrees x - 1 = 0)).reverse := by
      simp [Function.comp_def]
    rw [List.map_append, hnew, List.nodup_append]
    refine ⟨List.nodup_reverse.mpr ((hsim.successors_nodup key).filter _), h.releases_nodup, ?_⟩
    rintro x hx _ hy rfl
    rw [List.mem_reverse, List.mem_filter, hsim.mem_successors] at hx
    obtain ⟨e, he, rfl⟩ := List.mem_map.mp hy
    obtain ⟨hp, hd⟩ := h.released e he
    exact hzero e.2 hp hd hx.1
  · intro e he
    rcases List.mem_append.mp he with he | he
    · obtain ⟨x, -, rfl⟩ := List.mem_map.mp he
      rfl
    · exact h.release_time e he
  · intro x e he
    rw [Dict.get?_set] at he
    by_cases hx : key = x
    · rw [if_pos hx] at he
      exact (Option.some.inj he).ge
    · rw [if_neg hx] at he
      exact h.ended x e he
  · intro x hx hp
    obtain ⟨u, hu, hle, hdeps⟩ := h.started x hx hp
    refine ⟨u, hu, hle, fun p hpx => ?_⟩
    obtain ⟨e, he, heu⟩ := hdeps p hpx
    have hne : key ≠ p := by
      rintro rfl
      exact hb.not_ended (Dict.get?_isSome.mp ⟨e, he⟩)
    exact ⟨e, by rw [Dict.get?_set_ne _ _ hne]; exact he, heu⟩

/-- What a completion leaves as it is. -/
theorem complete_fields (hsim : sim.WellFormed) (s : Clock) (key : String) :
    (Clock.complete sim s key).pending = s.pending ∧
    (Clock.complete sim s key).startup = s.startup ∧
    (Clock.complete sim s key).active = s.active ∧
    (Clock.complete sim s key).remaining = s.remaining ∧
    (Clock.complete sim s key).starts = s.starts ∧
    (Clock.complete sim s key).now = s.now ∧
    (Clock.complete sim s key).ends = s.ends.set key s.now := by
  rw [complete_eq hsim]
  exact ⟨rfl, rfl, rfl, rfl, rfl, rfl, rfl⟩

/-! ## Startup and launch -/

theorem Inv.started_nodup (h : Inv sim available s) : s.started.Nodup := by
  refine (sortStrings_perm _).nodup_iff.mpr ?_
  exact List.Nodup.sublist (List.filter_sublist.map _) h.startup_distinct

theorem Inv.finishStartup (h : Inv sim available s) : Inv sim available s.finishStartup := by
  have hsub : ∀ x ∈ s.finishStartup.startup.keys, x ∈ s.startup.keys := by
    intro x hx
    obtain ⟨e, he, rfl⟩ := List.mem_map.mp hx
    exact List.mem_map.mpr ⟨e, List.mem_of_mem_filter he, rfl⟩
  have hnew : ∀ x ∈ s.finishStartup.active, x ∈ s.active ∨ x ∈ s.startup.keys := by
    intro x hx
    rcases List.mem_append.mp hx with hx | hx
    · exact Or.inl hx
    · obtain ⟨e, he, -, rfl⟩ := mem_started.mp hx
      exact Or.inr (List.mem_map.mpr ⟨e, he, rfl⟩)
  have hunique : ∀ a ∈ s.startup, ∀ b ∈ s.startup, a.1 = b.1 → a = b := fun a ha b hb hab =>
    List.inj_on_of_nodup_map h.startup_distinct ha hb hab
  refine ⟨h.pending_nodup, h.pending_available, ?_, ?_, ?_, ?_, ?_, h.degree, h.released,
    h.releases_nodup, h.release_time, h.ended, h.started⟩
  · exact List.Nodup.sublist (List.filter_sublist.map _) h.startup_distinct
  · refine List.nodup_append.mpr ⟨h.active_nodup, h.started_nodup, ?_⟩
    rintro x hx _ hy rfl
    obtain ⟨e, he, -, rfl⟩ := mem_started.mp hy
    exact (h.startup_only e.1 (List.mem_map.mpr ⟨e, he, rfl⟩)).1 hx
  · rintro x (hx | hx | hx)
    · exact h.launched x (Or.inl (hsub x hx))
    · rcases hnew x hx with hx | hx
      · exact h.launched x (Or.inr (Or.inl hx))
      · exact h.launched x (Or.inl hx)
    · exact h.launched x (Or.inr (Or.inr hx))
  · intro x hx
    refine ⟨fun hact => ?_, (h.startup_only x (hsub x hx)).2⟩
    rcases List.mem_append.mp hact with hact | hact
    · exact (h.startup_only x (hsub x hx)).1 hact
    · obtain ⟨a, ha, rfl⟩ := List.mem_map.mp hx
      obtain ⟨b, hb, hearly, hba⟩ := mem_started.mp hact
      obtain ⟨ha, hlate⟩ := List.mem_filter.mp ha
      obtain rfl := hunique b hb a ha hba
      simp only [decide_eq_true_eq] at hlate
      exact hlate hearly
  · intro x hx
    rcases hnew x hx with hx | hx
    · exact h.active_only x hx
    · exact (h.startup_only x hx).2

/-- Releases may be dropped. -/
theorem Inv.dropReleases (h : Inv sim available s) (p : ℚ × String → Bool) :
    Inv sim available { s with releases := s.releases.filter p } :=
  ⟨h.pending_nodup, h.pending_available, h.startup_distinct, h.active_nodup, h.launched,
    h.startup_only, h.active_only, h.degree,
    fun e he => h.released e (List.mem_of_mem_filter he),
    h.releases_nodup.sublist (List.filter_sublist.map _),
    fun e he => h.release_time e (List.mem_of_mem_filter he), h.ended, h.started⟩

/-- A key that may be launched: pending, counted down, and not queued again. -/
structure Ready (s : Clock) (key : String) : Prop where
  pending : key ∈ s.pending
  degree : s.degrees key = 0
  not_queued : key ∉ s.releases.map (·.2)

/-- **What a launch does.** -/
theorem launch_cases {startups : Dict String ℚ} {key : String}
    (h : launch sim startups s key = .ok t) :
    ∃ op, sim.operation? key = some op ∧
      ((op.kind = .nop ∧ t = Clock.complete sim (s.leave key) key) ∨
       (op.kind ≠ .nop ∧ ∃ cost, sim.costs.get? key = some cost ∧
          t = (s.leave key).enterStartup key op.payloadBytes
            ((startups.get? key).getD cost.alpha))) := by
  unfold launch at h
  simp only [Checked.bind_ok, Checked.required_ok] at h
  obtain ⟨op, hop, h⟩ := h
  refine ⟨op, hop, ?_⟩
  by_cases hk : op.kind = .nop
  · rw [if_pos hk, Checked.pure_ok] at h
    exact Or.inl ⟨hk, h.symm⟩
  · rw [if_neg hk] at h
    simp only [Checked.bind_ok, Checked.required_ok, Checked.pure_ok] at h
    obtain ⟨cost, hcost, rfl⟩ := h
    exact Or.inr ⟨hk, cost, hcost, rfl⟩

/-- The state in which a key has left `pending` and has not started yet. -/
theorem Inv.leavePending (h : Inv sim available s) {key : String} (hr : Ready s key) :
    Inv sim available (s.leave key) ∧ Between available (s.leave key) key := by
  have herase : ∀ x, x ∈ s.pending.erase key ↔ x ≠ key ∧ x ∈ s.pending :=
    fun x => h.pending_nodup.mem_erase_iff
  have hdone : ∀ p ∈ sim.deps key, p ∈ s.ends.keys := by
    have hd := hr.degree
    rw [h.degree key hr.pending, List.length_eq_zero_iff, List.filter_eq_nil_iff] at hd
    intro p hp
    simpa using hd p hp
  constructor
  · refine ⟨h.pending_nodup.erase key, fun x hx => h.pending_available x ((herase x).mp hx).2,
      h.startup_distinct, h.active_nodup, fun x hx => ?_, h.startup_only, h.active_only,
      fun x hx => h.degree x ((herase x).mp hx).2, fun e he => ?_, h.releases_nodup, h.release_time,
      h.ended, ?_⟩
    · obtain ⟨ha, hp⟩ := h.launched x hx
      exact ⟨ha, fun hmem => hp ((herase x).mp hmem).2⟩
    · obtain ⟨hp, hd⟩ := h.released e he
      refine ⟨(herase e.2).mpr ⟨fun heq => ?_, hp⟩, hd⟩
      exact hr.not_queued (heq ▸ List.mem_map.mpr ⟨e, he, rfl⟩)
    · intro x hx hp
      by_cases hkey : key = x
      · subst hkey
        refine ⟨s.now, by simp [leave], le_refl _, fun p hp => ?_⟩
        obtain ⟨e, he⟩ := Dict.get?_isSome.mpr (hdone p hp)
        exact ⟨e, he, h.ended p e he⟩
      · have hnot : x ∉ s.pending := fun hmem => hp ((herase x).mpr ⟨Ne.symm hkey, hmem⟩)
        obtain ⟨u, hu, hle, hdeps⟩ := h.started x hx hnot
        exact ⟨u, (Dict.get?_set_ne _ _ hkey).trans hu, hle, hdeps⟩
  · refine ⟨h.pending_available key hr.pending, fun hmem => ((herase key).mp hmem).1 rfl,
      fun hmem => ?_, fun hmem => ?_, fun hmem => ?_⟩
    · exact (h.launched key (Or.inl hmem)).2 hr.pending
    · exact (h.launched key (Or.inr (Or.inl hmem))).2 hr.pending
    · exact (h.launched key (Or.inr (Or.inr hmem))).2 hr.pending

/-- **A launch keeps the invariant.** -/
theorem Inv.launch (hsim : sim.WellFormed) (h : Inv sim available s) {startups : Dict String ℚ}
    {key : String} (hr : Ready s key) (hl : Clock.launch sim startups s key = .ok t) :
    Inv sim available t := by
  obtain ⟨hinv, hb⟩ := h.leavePending hr
  obtain ⟨op, -, ⟨-, rfl⟩ | ⟨-, cost, -, rfl⟩⟩ := launch_cases hl
  · exact hinv.complete hsim hb
  · have hkeys : ∀ x v, x ∈ (s.startup.set key v).keys ↔ x = key ∨ x ∈ s.startup.keys :=
      fun x v => Dict.mem_keys_set
    refine ⟨hinv.pending_nodup, hinv.pending_available, h.startup_distinct.set _ _,
      h.active_nodup, ?_, ?_, h.active_only, hinv.degree, hinv.released, hinv.releases_nodup,
      hinv.release_time, hinv.ended, hinv.started⟩
    · rintro x (hx | hx)
      · rcases (hkeys x _).mp hx with rfl | hx
        · exact ⟨hb.available, hb.not_pending⟩
        · exact hinv.launched x (Or.inl hx)
      · exact hinv.launched x (Or.inr hx)
    · intro x hx
      rcases (hkeys x _).mp hx with rfl | hx
      · exact ⟨hb.not_active, hb.not_ended⟩
      · exact hinv.startup_only x hx

/-- Launching one key leaves the others ready. -/
theorem Ready.launch (hsim : sim.WellFormed) (h : Inv sim available s) {startups : Dict String ℚ}
    {key x : String} (hr : Ready s key) (hx : Ready s x) (hne : x ≠ key)
    (hl : Clock.launch sim startups s key = .ok t) : Ready t x := by
  obtain ⟨-, hb⟩ := h.leavePending hr
  have hpending : x ∈ s.pending.erase key := h.pending_nodup.mem_erase_iff.mpr ⟨hne, hx.pending⟩
  have hdep : key ∉ sim.deps x := by
    have hd := hx.degree
    rw [h.degree x hx.pending, List.length_eq_zero_iff, List.filter_eq_nil_iff] at hd
    intro hmem
    exact hd key hmem (by simpa [leave] using hb.not_ended)
  obtain ⟨op, -, ⟨-, rfl⟩ | ⟨-, cost, -, rfl⟩⟩ := launch_cases hl
  · rw [complete_eq hsim]
    refine ⟨hpending, by simp [hdep, leave, hx.degree], ?_⟩
    rw [List.map_append, List.mem_append, not_or]
    refine ⟨fun hmem => ?_, hx.not_queued⟩
    obtain ⟨e, he, rfl⟩ := List.mem_map.mp hmem
    obtain ⟨y, hy, rfl⟩ := List.mem_map.mp he
    rw [List.mem_reverse, List.mem_filter, hsim.mem_successors] at hy
    exact hdep hy.1
  · exact ⟨hpending, hx.degree, hx.not_queued⟩

/-! ## Moves -/

/-- A profile that was measured for the operation's group, among the communications going
on at `head`, gives it a startup time. -/
def Measured (sim : Simulation) (head : Clock) (op : WorkOperation) (alpha : ℚ) : Prop :=
  ∃ group ∈ components (present sim head head.ready), op ∈ group ∧
    ∃ profile, profileOf group sim.model = .ok (some profile) ∧
      profile.startup.get? op.flow = some alpha

/-- **The startup an operation pays** when it is launched at `head`: that of the profile
that applies then, or else that of its service. -/
def StartupOf (sim : Simulation) (head : Clock) (op : WorkOperation) (alpha : ℚ) : Prop :=
  Measured sim head op alpha ∨ (¬ ∃ measured, Measured sim head op measured) ∧
    ∃ cost, sim.costs.get? op.operationId = some cost ∧ alpha = cost.alpha

/-- A key that is launched when the releases due at `head` are. -/
structure Launching (sim : Simulation) (head s : Clock) (key : String) : Prop where
  ready : Ready s key
  mem_ready : key ∈ head.ready
  now_eq : head.now = s.now
  due : sim.releaseTime key ≤ s.now

/-- **What the simulation does, move by move.**  Every turn is a sequence of these; `head`
is the state in which its releases were found due. -/
inductive Move (sim : Simulation) (head : Clock) : Clock → Clock → Prop where
  | finishStartup (s : Clock) : Move sim head s s.finishStartup
  | dropReleases (s : Clock) (p : ℚ × String → Bool) :
      Move sim head s { s with releases := s.releases.filter p }
  | launch (s : Clock) (key : String) (op : WorkOperation) (alpha : ℚ)
      (launching : Launching sim head s key)
      (operation : sim.operation? key = some op) (data : op.kind ≠ .nop)
      (startup : StartupOf sim head op alpha) :
      Move sim head s ((s.leave key).enterStartup key op.payloadBytes alpha)
  | skip (s : Clock) (key : String) (op : WorkOperation) (launching : Launching sim head s key)
      (operation : sim.operation? key = some op) (nop : op.kind = .nop) :
      Move sim head s (Clock.complete sim (s.leave key) key)
  | pass (s : Clock) (rates : Dict String ℚ) (next : ℚ)
      (priced : ratesOf (sim.operations.filter (fun op => op.operationId ∈ s.active)) sim.costs
        sim.model = .ok rates)
      (later : s.now < next) (first : ∀ u ∈ s.future rates, next ≤ u) :
      Move sim head s ((s.finished rates next).foldl (Clock.complete sim)
        (s.passTo rates next))

/-- Moves between states that satisfy the invariant. -/
def Moves (sim : Simulation) (available : List String) (head : Clock) : Clock → Clock → Prop :=
  Relation.ReflTransGen fun a b =>
    Inv sim available a ∧ Inv sim available b ∧ Move sim head a b

/-- The startup times of a launch are those that profiles measured. -/
theorem launchStartups_get? (hsim : sim.WellFormed) {startups : Dict String ℚ}
    (h : launchStartups sim s s.ready = .ok startups) {key : String} {op : WorkOperation}
    (hop : sim.operation? key = some op) :
    (∀ alpha, startups.get? key = some alpha → Measured sim s op alpha) ∧
      (startups.get? key = none → ¬ ∃ alpha, Measured sim s op alpha) := by
  unfold launchStartups at h
  simp only [Checked.bind_ok, Checked.pure_ok] at h
  obtain ⟨groups, hgroups, rfl⟩ := h
  constructor
  · intro alpha hget
    obtain ⟨m, hm, hmem⟩ := List.mem_flatten.mp (Dict.mem_of_get? hget)
    obtain ⟨group, hgroup, hcase⟩ := Checked.mapM_right hgroups hm
    obtain ⟨found, hfound, hcase⟩ := Checked.bind_ok.mp hcase
    cases found with
    | none =>
      obtain rfl := Checked.pure_ok.mp hcase
      simp at hmem
    | some profile =>
      obtain rfl := Checked.pure_ok.mp hcase
      obtain ⟨member, hmember, hstart⟩ := List.mem_filterMap.mp hmem
      obtain ⟨a, ha, heq⟩ := Option.map_eq_some_iff.mp hstart
      obtain ⟨rfl, rfl⟩ := Prod.mk.inj heq
      have hin : member ∈ sim.operations := by
        have := (components_perm _).mem_iff.mp (List.mem_flatten.mpr ⟨group, hgroup, hmember⟩)
        exact List.mem_of_mem_filter this
      obtain rfl : member = op := Option.some.inj ((hsim.operation?_eq hin).symm.trans hop)
      exact ⟨group, hgroup, hmember, profile, hfound, ha⟩
  · rintro hnone ⟨alpha, group, hgroup, hmember, profile, hprofile, halpha⟩
    obtain ⟨m, hm, hcase⟩ := Checked.mapM_left hgroups hgroup
    rw [hprofile] at hcase
    obtain rfl := Checked.pure_ok.mp hcase
    obtain ⟨-, rfl⟩ := Simulation.operation?_mem hop
    have hmem : (op.operationId, alpha) ∈ groups.flatten :=
      List.mem_flatten.mpr ⟨_, hm, List.mem_filterMap.mpr ⟨op, hmember, by rw [halpha]; rfl⟩⟩
    exact Dict.get?_eq_none.mp hnone (List.mem_map.mpr ⟨_, hmem, rfl⟩)

/-- Launching one key leaves the others launching. -/
theorem Launching.launch (hsim : sim.WellFormed) (h : Inv sim available s)
    {startups : Dict String ℚ} {head : Clock} {key x : String} (hr : Ready s key)
    (hx : Launching sim head s x) (hne : x ≠ key) (hl : Clock.launch sim startups s key = .ok t) :
    Launching sim head t x := by
  have hready := hr.launch hsim h hx.ready hne hl
  have hnow : t.now = s.now := by
    obtain ⟨op, -, ⟨-, rfl⟩ | ⟨-, cost, -, rfl⟩⟩ := launch_cases hl
    · rw [complete_eq hsim]
      rfl
    · rfl
  exact ⟨hready, hx.mem_ready, hx.now_eq.trans hnow.symm, hnow ▸ hx.due⟩

/-- Launching the released operations is a sequence of moves. -/
theorem launches_moves (hsim : sim.WellFormed) {head : Clock} {startups : Dict String ℚ}
    (hstartups : launchStartups sim head head.ready = .ok startups) {keys : List String} :
    ∀ {s t : Clock}, Inv sim available s → keys.Nodup → (∀ x ∈ keys, Launching sim head s x) →
    keys.foldlM (Clock.launch sim startups) s = .ok t →
    Moves sim available head s t ∧ Inv sim available t := by
  induction keys with
  | nil =>
    intro s t hs _ _ h
    rw [List.foldlM_nil, Checked.pure_ok] at h
    exact h ▸ ⟨.refl, hs⟩
  | cons key keys ih =>
    intro s t hs hnodup hready h
    obtain ⟨hnot, hnodup⟩ := List.nodup_cons.mp hnodup
    rw [List.foldlM_cons, Checked.bind_ok] at h
    obtain ⟨u, hu, h⟩ := h
    have hkey := hready key List.mem_cons_self
    have hinv := hs.launch hsim hkey.ready hu
    obtain ⟨hmoves, ht⟩ := ih hinv hnodup (fun x hx => Launching.launch hsim hs hkey.ready
      (hready x (List.mem_cons_of_mem _ hx)) (fun heq => hnot (heq ▸ hx)) hu) h
    refine ⟨?_, ht⟩
    obtain ⟨op, hop, ⟨hk, rfl⟩ | ⟨hk, cost, hcost, rfl⟩⟩ := launch_cases hu
    · exact .head ⟨hs, hinv, .skip s key op hkey hop hk⟩ hmoves
    · refine .head ⟨hs, hinv, .launch s key op _ hkey hop hk ?_⟩ hmoves
      obtain ⟨hmeasured, hnone⟩ := launchStartups_get? hsim hstartups hop
      cases hget : startups.get? key with
      | some alpha => exact Or.inl (hmeasured alpha hget)
      | none =>
        obtain ⟨-, rfl⟩ := Simulation.operation?_mem hop
        exact Or.inr ⟨hnone hget, cost, hcost, rfl⟩

theorem Inv.ready_nodup (h : Inv sim available s) : s.ready.Nodup :=
  (sortStrings_perm _).nodup_iff.mpr (h.releases_nodup.sublist (List.filter_sublist.map _))

/-- The operations whose release is due are ready, once they have left the queue. -/
theorem Inv.launching (h : Inv sim available s) {x : String} (hx : x ∈ s.ready) :
    Launching sim s { s with releases := s.releases.filter fun e => ¬ e.1 ≤ s.now } x := by
  obtain ⟨e, hmem, hdue, rfl⟩ := mem_ready.mp hx
  obtain ⟨hp, hd⟩ := h.released e hmem
  refine ⟨⟨hp, hd, fun hqueued => ?_⟩, hx, rfl, h.release_time e hmem ▸ hdue⟩
  obtain ⟨e', he', heq⟩ := List.mem_map.mp hqueued
  obtain ⟨hmem', hlate⟩ := List.mem_filter.mp he'
  obtain rfl := List.inj_on_of_nodup_map h.releases_nodup hmem' hmem heq
  simp only [decide_eq_true_eq] at hlate
  exact hlate hdue

/-- Settling an instant is a sequence of moves. -/
theorem settle_moves (hsim : sim.WellFormed) (h : Inv sim available s)
    (hs : settle sim s = .ok t) : Moves sim available s.finishStartup s t ∧ Inv sim available t := by
  unfold settle at hs
  simp only [Checked.bind_ok] at hs
  obtain ⟨startups, hstartups, hs⟩ := hs
  have hfinish := h.finishStartup
  have hdrop := hfinish.dropReleases (fun e => ¬ e.1 ≤ s.finishStartup.now)
  obtain ⟨hmoves, ht⟩ := launches_moves hsim hstartups hdrop hfinish.ready_nodup
    (fun x hx => hfinish.launching hx) hs
  exact ⟨.head ⟨h, hfinish, .finishStartup s⟩ (.head ⟨hfinish, hdrop, .dropReleases _ _⟩ hmoves), ht⟩

/-! ## Time passes -/

theorem Inv.pass (h : Inv sim available s) {rates : Dict String ℚ} {next : ℚ}
    (hlater : s.now < next) : Inv sim available (s.passTo rates next) := by
  have hsub : ∀ x ∈ (s.passTo rates next).active, x ∈ s.active :=
    fun x hx => List.mem_of_mem_filter hx
  refine ⟨h.pending_nodup, h.pending_available, h.startup_distinct, h.active_nodup.filter _, ?_,
    fun x hx => ⟨fun hmem => (h.startup_only x hx).1 (hsub x hmem), (h.startup_only x hx).2⟩,
    fun x hx => h.active_only x (hsub x hx), h.degree, h.released, h.releases_nodup, h.release_time,
    fun x e he => (h.ended x e he).trans hlater.le, fun x hx hp => ?_⟩
  · rintro x (hx | hx | hx)
    · exact h.launched x (Or.inl hx)
    · exact h.launched x (Or.inr (Or.inl (hsub x hx)))
    · exact h.launched x (Or.inr (Or.inr hx))
  · obtain ⟨u, hu, hle, hdeps⟩ := h.started x hx hp
    exact ⟨u, hu, hle.trans hlater.le, hdeps⟩

/-- Completing keys one after another keeps the invariant. -/
theorem Inv.completes (hsim : sim.WellFormed) {keys : List String} :
    ∀ {s : Clock}, Inv sim available s → keys.Nodup → (∀ x ∈ keys, Between available s x) →
      Inv sim available (keys.foldl (Clock.complete sim) s) := by
  induction keys with
  | nil => intro s h _ _; exact h
  | cons key keys ih =>
    intro s h hnodup hb
    obtain ⟨hnot, hnodup⟩ := List.nodup_cons.mp hnodup
    have hkey := hb key List.mem_cons_self
    obtain ⟨h1, h2, h3, -, -, -, h7⟩ := complete_fields hsim s key
    refine ih (h.complete hsim hkey) hnodup fun x hx => ?_
    have hbx := hb x (List.mem_cons_of_mem _ hx)
    refine ⟨hbx.available, h1 ▸ hbx.not_pending, h2 ▸ hbx.not_startup, h3 ▸ hbx.not_active, ?_⟩
    rw [h7, Dict.mem_keys_set]
    rintro (rfl | hmem)
    · exact hnot hx
    · exact hbx.not_ended hmem

/-- **What moving on to the next event does**: nothing when there is none, else time
passes to the first future event and the operations that end there complete. -/
theorem advance_cases (h : advance sim s = .ok t) : ∃ rates,
    ratesOf (sim.operations.filter (fun op => op.operationId ∈ s.active)) sim.costs sim.model =
      .ok rates ∧
    ((s.future rates = [] ∧ s.pending = [] ∧ t = s) ∨
     ∃ next ∈ s.future rates, s.now < next ∧ (∀ u ∈ s.future rates, next ≤ u) ∧
      t = (s.finished rates next).foldl (Clock.complete sim) (s.passTo rates next)) := by
  unfold advance at h
  simp only [Checked.bind_ok] at h
  obtain ⟨rates, hrates, h⟩ := h
  refine ⟨rates, hrates, ?_⟩
  cases hfuture : s.future rates with
  | nil =>
    rw [hfuture] at h
    simp only [Checked.bind_ok, Checked.ensure_ok, Checked.pure_ok] at h
    obtain ⟨_, hpending, rfl⟩ := h
    exact Or.inl ⟨rfl, hpending, rfl⟩
  | cons u rest =>
    rw [hfuture] at h
    simp only [Checked.bind_ok, Checked.ensure_ok, Checked.pure_ok] at h
    obtain ⟨_, hlater, rfl⟩ := h
    obtain ⟨hhead, hrest⟩ := foldl_min_le rest u
    refine Or.inr ⟨rest.foldl min u, ?_, lt_of_not_ge hlater, fun v hv => ?_, rfl⟩
    · rcases foldl_min_mem rest u with heq | hmem
      · rw [heq]
        exact List.mem_cons_self
      · exact List.mem_cons_of_mem _ hmem
    · rcases List.mem_cons.mp hv with rfl | hv
      · exact hhead
      · exact hrest v hv

theorem Inv.finished_nodup (h : Inv sim available s) (rates : Dict String ℚ) (next : ℚ) :
    (s.finished rates next).Nodup :=
  (sortStrings_perm _).nodup_iff.mpr (h.active_nodup.filter _)

theorem advance_moves (hsim : sim.WellFormed) (h : Inv sim available s) (head : Clock)
    (ha : advance sim s = .ok t) : Moves sim available head s t ∧ Inv sim available t := by
  obtain ⟨rates, hrates, ⟨-, -, rfl⟩ | ⟨next, -, hlater, hfirst, rfl⟩⟩ := advance_cases ha
  · exact ⟨.refl, h⟩
  · have hpass : Inv sim available (s.passTo rates next) := h.pass hlater
    have ht := hpass.completes hsim (h.finished_nodup rates next) fun x hx => by
      obtain ⟨hact, heq⟩ := mem_finished.mp hx
      obtain ⟨hav, hp⟩ := h.launched x (Or.inr (Or.inl hact))
      refine ⟨hav, hp, fun hmem => (h.startup_only x hmem).1 hact, fun hmem => ?_,
        h.active_only x hact⟩
      have := (List.mem_filter.mp hmem).2
      simp only [decide_eq_true_eq] at this
      exact this heq
    exact ⟨.single ⟨h, ht, .pass s rates next hrates hlater hfirst⟩, ht⟩

/-- **A turn is a sequence of moves and keeps the invariant.** -/
theorem turn_moves (hsim : sim.WellFormed) (h : Inv sim available s) (ht : turn sim s = .ok t) :
    Moves sim available s.finishStartup s t ∧ Inv sim available t := by
  unfold turn at ht
  obtain ⟨u, hu, ht⟩ := Checked.bind_ok.mp ht
  obtain ⟨hmoves, hinv⟩ := settle_moves hsim h hu
  by_cases hdue : u.due
  · rw [if_pos hdue, Checked.pure_ok] at ht
    exact ht ▸ ⟨hmoves, hinv⟩
  · rw [if_neg hdue] at ht
    obtain ⟨hmoves', hinv'⟩ := advance_moves hsim hinv s.finishStartup ht
    exact ⟨hmoves.trans hmoves', hinv'⟩

/-- What every move keeps, a sequence of moves keeps. -/
theorem Moves.invariant {head : Clock} {P : Clock → Prop} (h : Moves sim available head s t)
    (hmove : ∀ a b, Inv sim available a → Inv sim available b → P a →
      Move sim head a b → P b)
    (hs : P s) : P t := by
  induction h with
  | refl => exact hs
  | tail _ hstep ih => exact hmove _ _ hstep.1 hstep.2.1 ih hstep.2.2

/-- The loop starts in the invariant. -/
theorem inv_initialClock (hsim : sim.WellFormed) (unavailable : List String) :
    Inv sim ((sim.operations.map (·.operationId)).filter (· ∉ unavailable))
      (initialClock sim unavailable) := by
  have hdegree : ∀ key, ((sim.operation? key).map (·.dependencies.length)).getD 0 =
      (sim.deps key).length := by
    intro key
    unfold Simulation.deps
    cases sim.operation? key <;> simp
  refine ⟨hsim.ids_nodup.filter _, fun x hx => hx, List.nodup_nil, List.nodup_nil, ?_, ?_, ?_, ?_,
    ?_, ?_, ?_, ?_, fun x hx hp => absurd hx hp⟩
  · rintro x (hx | hx | hx) <;> simp [initialClock, Dict.keys] at hx
  · intro x hx
    simp [initialClock, Dict.keys] at hx
  · intro x hx
    simp [initialClock] at hx
  · intro x _
    simp [initialClock, Dict.keys, hdegree]
  · intro e he
    obtain ⟨x, hx, rfl⟩ := List.mem_map.mp he
    obtain ⟨hp, hd⟩ := List.mem_filter.mp hx
    exact ⟨hp, by simpa [initialClock] using hd⟩
  · have : ((initialClock sim unavailable).releases.map (·.2)) =
        (initialClock sim unavailable).pending.filter
          (fun key => (initialClock sim unavailable).degrees key = 0) := by
      simp [initialClock, Function.comp_def]
    rw [this]
    exact (hsim.ids_nodup.filter _).filter _
  · intro e he
    obtain ⟨x, -, rfl⟩ := List.mem_map.mp he
    rfl
  · intro x e he
    simp [initialClock] at he

/-- The states the loop passes through. -/
def Reached (sim : Simulation) (unavailable : List String) (s : Clock) : Prop :=
  Relation.ReflTransGen (fun a b => a.running ∧ turn sim a = .ok b) (initialClock sim unavailable) s

theorem Reached.inv (hsim : sim.WellFormed) {unavailable : List String}
    (h : Reached sim unavailable s) :
    Inv sim ((sim.operations.map (·.operationId)).filter (· ∉ unavailable)) s := by
  induction h with
  | refl => exact inv_initialClock hsim unavailable
  | tail _ hturn ih => exact (turn_moves hsim ih hturn.2).2

/-- **What an operation waits for has ended before it is launched**, through any chain
of predecessors. -/
theorem Inv.ended_before (h : Inv sim available s) {p x : String}
    (hpath : Relation.TransGen (fun p x => p ∈ sim.deps x) p x) (hx : x ∈ available)
    (hp : x ∉ s.pending) : p ∈ s.ends.keys := by
  induction hpath with
  | single hedge =>
    obtain ⟨u, -, -, hdeps⟩ := h.started _ hx hp
    obtain ⟨e, he, -⟩ := hdeps p hedge
    exact Dict.get?_isSome.mp ⟨e, he⟩
  | tail _ hedge ih =>
    obtain ⟨u, -, -, hdeps⟩ := h.started _ hx hp
    obtain ⟨e, he, -⟩ := hdeps _ hedge
    obtain ⟨hav, hnot⟩ := h.launched _ (Or.inr (Or.inr (Dict.get?_isSome.mp ⟨e, he⟩)))
    exact ih hav hnot

/-! ## The turns are enough -/

/-- The stages the operations have yet to go through. -/
def stages (s : Clock) : ℕ := 3 * s.pending.length + 2 * s.startup.length + s.active.length

/-- A bound on the turns left: two for each stage, and one before something is due. -/
def turnsLeft (s : Clock) : ℕ := 2 * s.stages + if s.due then 0 else 1

theorem finishStartup_stages (s : Clock) :
    s.finishStartup.stages + (s.startup.filter (fun e => e.2 ≤ s.now)).length = s.stages := by
  have hsplit := List.length_eq_length_filter_add (l := s.startup) (fun e => decide (e.2 ≤ s.now))
  have hstarted : s.started.length = (s.startup.filter (fun e => e.2 ≤ s.now)).length := by
    rw [Clock.started, (sortStrings_perm _).length_eq, List.length_map]
  simp only [stages, Clock.finishStartup, List.length_append, hstarted, decide_not]
  omega

theorem launch_stages (hsim : sim.WellFormed) (h : Inv sim available s) {startups : Dict String ℚ}
    {key : String} (hr : Ready s key) (hl : Clock.launch sim startups s key = .ok t) :
    t.stages + 1 ≤ s.stages := by
  have herase : (s.pending.erase key).length = s.pending.length - 1 :=
    List.length_erase_of_mem hr.pending
  have hpos := List.length_pos_of_mem hr.pending
  obtain ⟨-, hb⟩ := h.leavePending hr
  obtain ⟨op, -, ⟨-, rfl⟩ | ⟨-, cost, -, rfl⟩⟩ := launch_cases hl
  · obtain ⟨h1, h2, h3, -⟩ := complete_fields hsim (s.leave key) key
    simp only [stages, h1, h2, h3]
    simp only [leave]
    omega
  · have hset : ∀ v : ℚ, (s.startup.set key v).length = s.startup.length + 1 := by
      intro v
      have := congrArg List.length (Dict.keys_set s.startup key v)
      rw [if_neg (show key ∉ s.startup.keys from hb.not_startup)] at this
      simpa [Dict.keys] using this
    simp only [stages, leave, enterStartup, hset]
    omega

theorem launches_stages (hsim : sim.WellFormed) {startups : Dict String ℚ} {keys : List String} :
    ∀ {s t : Clock}, Inv sim available s → keys.Nodup → (∀ x ∈ keys, Ready s x) →
    keys.foldlM (Clock.launch sim startups) s = .ok t → t.stages + keys.length ≤ s.stages := by
  induction keys with
  | nil =>
    intro s t _ _ _ h
    rw [List.foldlM_nil, Checked.pure_ok] at h
    rw [h]
    simp
  | cons key keys ih =>
    intro s t hs hnodup hready h
    obtain ⟨hnot, hnodup⟩ := List.nodup_cons.mp hnodup
    rw [List.foldlM_cons, Checked.bind_ok] at h
    obtain ⟨u, hu, h⟩ := h
    have hkey := hready key List.mem_cons_self
    have hrest := ih (hs.launch hsim hkey hu) hnodup (fun x hx => hkey.launch hsim hs
      (hready x (List.mem_cons_of_mem _ hx)) (fun heq => hnot (heq ▸ hx)) hu) h
    have hone := launch_stages hsim hs hkey hu
    rw [List.length_cons]
    omega

/-- Settling takes an operation a stage further whenever something is due, and does
nothing otherwise. -/
theorem settle_stages (hsim : sim.WellFormed) (h : Inv sim available s)
    (hs : settle sim s = .ok t) : (s.due → t.stages + 1 ≤ s.stages) ∧ (¬ s.due → t = s) := by
  unfold settle at hs
  simp only [Checked.bind_ok] at hs
  obtain ⟨startups, -, hs⟩ := hs
  have hfinish := h.finishStartup
  have hdrop := hfinish.dropReleases (fun e => ¬ e.1 ≤ s.finishStartup.now)
  have hstart := finishStartup_stages s
  have hlaunch : t.stages + s.finishStartup.ready.length ≤ s.finishStartup.stages := by
    have := launches_stages hsim hdrop hfinish.ready_nodup
      (fun x hx => (hfinish.launching hx).ready) hs
    exact this
  constructor
  · rintro (⟨e, he, hdue⟩ | ⟨e, he, hdue⟩)
    · have : 0 < (s.startup.filter (fun e => e.2 ≤ s.now)).length :=
        List.length_pos_of_mem (List.mem_filter.mpr ⟨he, by simpa using hdue⟩)
      omega
    · have : 0 < s.finishStartup.ready.length := by
        have hmem : e.2 ∈ s.finishStartup.ready := mem_ready.mpr ⟨e, he, hdue, rfl⟩
        exact List.length_pos_of_mem hmem
      omega
  · intro hdue
    rw [due, not_or] at hdue
    obtain ⟨hstartup, hreleases⟩ := hdue
    have hkeep : s.startup.filter (fun e => ¬ e.2 ≤ s.now) = s.startup := by
      rw [List.filter_eq_self]
      intro e he
      simpa using fun hle => hstartup ⟨e, he, hle⟩
    have hnone : s.started = [] := by
      refine List.eq_nil_iff_forall_not_mem.mpr fun x hx => ?_
      obtain ⟨e, he, hle, -⟩ := mem_started.mp hx
      exact hstartup ⟨e, he, hle⟩
    have hfin : s.finishStartup = s := by
      simp only [Clock.finishStartup, hkeep, hnone, List.map_nil, List.append_nil]
    rw [hfin] at hs
    have hready : s.ready = [] := by
      refine List.eq_nil_iff_forall_not_mem.mpr fun x hx => ?_
      obtain ⟨e, he, hle, -⟩ := mem_ready.mp hx
      exact hreleases ⟨e, he, hle⟩
    have hrel : s.releases.filter (fun e => ¬ e.1 ≤ s.now) = s.releases := by
      rw [List.filter_eq_self]
      intro e he
      simpa using fun hle => hreleases ⟨e, he, hle⟩
    rw [hready, List.foldlM_nil, Checked.pure_ok, hrel] at hs
    exact hs.symm

theorem completes_fields (hsim : sim.WellFormed) (keys : List String) : ∀ s : Clock,
    (keys.foldl (Clock.complete sim) s).pending = s.pending ∧
    (keys.foldl (Clock.complete sim) s).startup = s.startup ∧
    (keys.foldl (Clock.complete sim) s).active = s.active := by
  induction keys with
  | nil => intro s; exact ⟨rfl, rfl, rfl⟩
  | cons key keys ih =>
    intro s
    obtain ⟨h1, h2, h3, -⟩ := complete_fields hsim s key
    obtain ⟨i1, i2, i3⟩ := ih (Clock.complete sim s key)
    exact ⟨i1.trans h1, i2.trans h2, i3.trans h3⟩

/-- **Every turn uses up some of the turns left**, until the loop is over. -/
theorem turn_turnsLeft (hsim : sim.WellFormed) (h : Inv sim available s) (hrun : s.running)
    (ht : turn sim s = .ok t) : t.turnsLeft < s.turnsLeft := by
  unfold turn at ht
  obtain ⟨u, hu, hrest⟩ := Checked.bind_ok.mp ht
  clear ht
  obtain ⟨hdue, hquiet⟩ := settle_stages hsim h hu
  have hle : ∀ c : Clock, c.turnsLeft ≤ 2 * c.stages + 1 := by
    intro c
    unfold turnsLeft
    split <;> omega
  by_cases hs : s.due
  · -- a stage has been taken, and moving on takes none back
    have hstage : t.stages ≤ u.stages := by
      by_cases hd : u.due
      · rw [if_pos hd, Checked.pure_ok] at hrest
        rw [hrest]
      · rw [if_neg hd] at hrest
        obtain ⟨rates, -, ⟨-, -, rfl⟩ | ⟨next, -, -, -, rfl⟩⟩ := advance_cases hrest
        · exact Nat.le_refl _
        · obtain ⟨h1, h2, h3⟩ := completes_fields hsim (u.finished rates next) (u.passTo rates next)
          have := List.length_filter_le (fun key => decide ¬ u.finishTime rates key = next) u.active
          simp only [stages, h1, h2, h3]
          simp only [passTo]
          omega
    have := hdue hs
    have := hle t
    have : s.turnsLeft = 2 * s.stages := by simp [turnsLeft, hs]
    omega
  · obtain rfl := hquiet hs
    rw [if_neg hs] at hrest
    have hsome : u.turnsLeft = 2 * u.stages + 1 := by simp [turnsLeft, hs]
    obtain ⟨rates, -, ⟨hnil, hpending, rfl⟩ | ⟨next, hnext, hlater, -, rfl⟩⟩ := advance_cases hrest
    · exfalso
      simp only [future, List.append_eq_nil_iff, List.map_eq_nil_iff, Dict.values] at hnil
      rcases hrun with hp | hp | hp
      · exact hp hpending
      · exact hp hnil.1.2
      · exact hp hnil.1.1
    · by_cases hend : ∃ key ∈ u.active, u.finishTime rates key = next
      · -- an operation ends
        obtain ⟨key, hkey, heq⟩ := hend
        obtain ⟨h1, h2, h3⟩ := completes_fields hsim (u.finished rates next) (u.passTo rates next)
        have hless : (u.active.filter (fun key => ¬ u.finishTime rates key = next)).length <
            u.active.length := by
          refine List.length_filter_lt_length_iff_exists.mpr ⟨key, hkey, by simp [heq]⟩
        refine (hle _).trans_lt ?_
        rw [hsome]
        simp only [stages, h1, h2, h3]
        simp only [passTo]
        omega
      · -- nothing ends, so a startup or a release becomes due
        have hnone : u.finished rates next = [] := by
          refine List.eq_nil_iff_forall_not_mem.mpr fun key hkey => ?_
          exact hend ⟨key, (mem_finished.mp hkey).1, (mem_finished.mp hkey).2⟩
        have hall : u.active.filter (fun key => ¬ u.finishTime rates key = next) = u.active := by
          rw [List.filter_eq_self]
          intro key hkey
          simpa using fun heq => hend ⟨key, hkey, heq⟩
        rw [hnone, List.foldl_nil, hsome]
        have hdue' : (u.passTo rates next).due := by
          rcases List.mem_append.mp hnext with hmem | hmem
          · rcases List.mem_append.mp hmem with hmem | hmem
            · obtain ⟨key, hkey, heq⟩ := List.mem_map.mp hmem
              exact absurd ⟨key, hkey, heq⟩ hend
            · obtain ⟨e, he, rfl⟩ := List.mem_map.mp hmem
              exact Or.inl ⟨e, he, le_refl _⟩
          · obtain ⟨e, he, rfl⟩ := List.mem_map.mp hmem
            exact Or.inr ⟨e, he, le_refl _⟩
        simp only [turnsLeft, if_pos hdue', stages]
        simp only [passTo, hall]
        omega

/-- **The limit never stops the loop**: with the turns left, more turns change nothing. -/
theorem run_enough (hsim : sim.WellFormed) {n : ℕ} : ∀ {s : Clock}, Inv sim available s →
    s.turnsLeft ≤ n → ∀ m, n ≤ m → run sim m s = run sim n s := by
  induction n with
  | zero =>
    intro s _ hs m _
    have hstop : ¬ s.running := by
      rintro (h | h | h) <;>
      · have := List.length_pos_of_ne_nil h
        simp only [turnsLeft, stages] at hs
        omega
    cases m <;> simp [run, hstop]
  | succ n ih =>
    intro s h hs m hm
    obtain ⟨m, rfl⟩ : ∃ k, m = k + 1 := ⟨m - 1, by omega⟩
    unfold run
    by_cases hrun : s.running
    · rw [if_pos hrun, if_pos hrun]
      cases ht : turn sim s with
      | error e => rfl
      | ok t =>
        have := turn_turnsLeft hsim h hrun ht
        exact ih (turn_moves hsim h ht).2 (by omega) m (by omega)
    · rw [if_neg hrun, if_neg hrun]

/-- The limit of `predict` is enough. -/
theorem initialClock_turnsLeft (sim : Simulation) (unavailable : List String) :
    (initialClock sim unavailable).turnsLeft ≤ turnLimit sim := by
  have hlen : ((sim.operations.map (·.operationId)).filter (· ∉ unavailable)).length ≤
      sim.operations.length := by
    simpa using List.length_filter_le (· ∉ unavailable) (sim.operations.map (·.operationId))
  have hstages : (initialClock sim unavailable).stages =
      3 * ((sim.operations.map (·.operationId)).filter (· ∉ unavailable)).length := by
    simp [stages, initialClock]
  unfold turnsLeft turnLimit
  rw [hstages]
  split <;> omega

end Clock

end VeriCCL
