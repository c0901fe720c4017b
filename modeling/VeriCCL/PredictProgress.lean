import VeriCCL.PredictInvariant

/-! # The simulation respects the cost model

What the events and segments of the simulation say about each operation: it starts once
it is released and its predecessors have ended, pays one startup, moves exactly its
payload in segments that follow one another, and completes once.  The rates of the
segments that cover one instant stay within every resource.

`Phase` says this of one operation in the middle of a run; every move takes a phase to a
phase (`Phase.move`), so it holds in every state of the run and, when nothing is left to
run, of whole operations. -/
namespace VeriCCL

/-! ## Segments that follow one another -/

/-- The segments run from `a` to `b` without a gap. -/
inductive Chain (a : ℚ) : List ProgressSegment → ℚ → Prop where
  | nil : Chain a [] a
  | snoc {l : List ProgressSegment} (g : ProgressSegment) (h : Chain a l g.start)
      (forward : g.start < g.stop) : Chain a (l ++ [g]) g.stop

theorem Chain.le {a b : ℚ} {l : List ProgressSegment} (h : Chain a l b) : a ≤ b := by
  induction h with
  | nil => exact le_refl _
  | snoc g _ forward ih => exact ih.trans forward.le

/-- The bytes that segments move: their rates over their times. -/
def movedBytes (l : List ProgressSegment) : ℚ := (l.map fun g => g.rate * (g.stop - g.start)).sum

theorem movedBytes_snoc (l : List ProgressSegment) (g : ProgressSegment) :
    movedBytes (l ++ [g]) = movedBytes l + g.rate * (g.stop - g.start) := by
  simp [movedBytes]

/-- The member of a list of distinct keys, among things made from them. -/
theorem filter_map_key {α : Type} {keys : List String} (hnodup : keys.Nodup) (make : String → α)
    (key : α → String) (hkey : ∀ x, key (make x) = x) (x : String) :
    (keys.map make).filter (fun e => key e = x) = if x ∈ keys then [make x] else [] := by
  induction keys with
  | nil => rfl
  | cons y keys ih =>
    obtain ⟨hy, hnodup⟩ := List.nodup_cons.mp hnodup
    rw [List.map_cons, List.filter_cons, ih hnodup, hkey]
    by_cases hx : y = x
    · subst hx
      simp [hy]
    · simp [hx, Ne.symm hx]

namespace Clock

/-- The events of an operation. -/
def eventsOf (s : Clock) (key : String) : List ProgressEvent :=
  s.events.filter (fun e => e.operationId = key)

/-- The segments of an operation. -/
def segmentsOf (s : Clock) (key : String) : List ProgressSegment :=
  s.segments.filter (fun g => g.operationId = key)

/-! ## Phases -/

/-- How an operation that moves data was launched: at `u`, when it was released, with the
startup `alpha` of its service or of the profile that applied in a state `head` of the
run. -/
structure Launched (sim : Simulation) (Head : Clock → Prop) (s : Clock) (op : WorkOperation)
    (u alpha : ℚ) : Prop where
  data : op.kind ≠ .nop
  started : s.starts.get? op.operationId = some u
  nonneg : 0 ≤ u
  released : sim.releaseTime op.operationId ≤ u
  startup : ∃ head, Head head ∧ head.now = u ∧ op.operationId ∈ head.ready ∧
    StartupOf sim head op alpha

/-- **Where an operation is, and what it has done so far.** -/
inductive Phase (sim : Simulation) (Head : Clock → Prop) (s : Clock) (op : WorkOperation) : Prop where
  | pending (mem : op.operationId ∈ s.pending) (events : s.eventsOf op.operationId = [])
      (segments : s.segmentsOf op.operationId = [])
  | starting (u alpha : ℚ) (launched : Launched sim Head s op u alpha)
      (startup : s.startup.get? op.operationId = some (u + alpha)) (now_le : s.now ≤ u + alpha)
      (remaining : s.remaining.get? op.operationId = some (op.payloadBytes : ℚ))
      (events : s.eventsOf op.operationId = [⟨u, .start, op.operationId⟩])
      (segments : s.segmentsOf op.operationId = [])
  | active (u alpha left : ℚ) (launched : Launched sim Head s op u alpha)
      (mem : op.operationId ∈ s.active)
      (remaining : s.remaining.get? op.operationId = some left)
      (events : s.eventsOf op.operationId =
        [⟨u, .start, op.operationId⟩, ⟨u + alpha, .startupComplete, op.operationId⟩])
      (chain : Chain (u + alpha) (s.segmentsOf op.operationId) s.now)
      (moved : movedBytes (s.segmentsOf op.operationId) + left = op.payloadBytes)
  | ended (u alpha v : ℚ) (launched : Launched sim Head s op u alpha)
      (ended : s.ends.get? op.operationId = some v)
      (events : s.eventsOf op.operationId = [⟨u, .start, op.operationId⟩,
        ⟨u + alpha, .startupComplete, op.operationId⟩, ⟨v, .complete, op.operationId⟩])
      (chain : Chain (u + alpha) (s.segmentsOf op.operationId) v)
      (moved : movedBytes (s.segmentsOf op.operationId) = op.payloadBytes)
  | skipped (u : ℚ) (nop : op.kind = .nop) (started : s.starts.get? op.operationId = some u)
      (nonneg : 0 ≤ u) (released : sim.releaseTime op.operationId ≤ u)
      (ended : s.ends.get? op.operationId = some u)
      (events : s.eventsOf op.operationId =
        [⟨u, .start, op.operationId⟩, ⟨u, .complete, op.operationId⟩])
      (segments : s.segmentsOf op.operationId = [])

/-- What a phase reads of an operation. -/
structure SameFor (s t : Clock) (key : String) : Prop where
  pending : key ∈ s.pending → key ∈ t.pending
  startup : t.startup.get? key = s.startup.get? key
  active : key ∈ s.active → key ∈ t.active
  remaining : t.remaining.get? key = s.remaining.get? key
  starts : t.starts.get? key = s.starts.get? key
  ends : t.ends.get? key = s.ends.get? key
  events : t.eventsOf key = s.eventsOf key
  segments : t.segmentsOf key = s.segmentsOf key
  now : t.now = s.now

section Moves
variable {sim : Simulation} {available : List String} {Head : Clock → Prop} {s t head : Clock}
  {op : WorkOperation}

theorem Launched.congr {u alpha : ℚ} (h : Launched sim Head s op u alpha)
    (hstarts : t.starts.get? op.operationId = s.starts.get? op.operationId) :
    Launched sim Head t op u alpha :=
  ⟨h.data, hstarts.trans h.started, h.nonneg, h.released, h.startup⟩

/-- An operation that a move does not touch stays in its phase. -/
theorem Phase.frame (h : Phase sim Head s op) (same : SameFor s t op.operationId) :
    Phase sim Head t op := by
  cases h with
  | pending mem events segments =>
    exact .pending (same.pending mem) (same.events.trans events) (same.segments.trans segments)
  | starting u alpha launched startup now_le remaining events segments =>
    exact .starting u alpha (launched.congr same.starts) (same.startup.trans startup)
      (same.now ▸ now_le) (same.remaining.trans remaining) (same.events.trans events)
      (same.segments.trans segments)
  | active u alpha left launched mem remaining events chain moved =>
    refine .active u alpha left (launched.congr same.starts) (same.active mem)
      (same.remaining.trans remaining) (same.events.trans events) ?_ ?_
    · rw [same.segments, same.now]
      exact chain
    · rw [same.segments]
      exact moved
  | ended u alpha v launched ended events chain moved =>
    refine .ended u alpha v (launched.congr same.starts) (same.ends.trans ended)
      (same.events.trans events) ?_ ?_
    · rw [same.segments]
      exact chain
    · rw [same.segments]
      exact moved
  | skipped u nop started nonneg released ended events segments =>
    exact .skipped u nop (same.starts.trans started) nonneg released (same.ends.trans ended)
      (same.events.trans events) (same.segments.trans segments)

/-! ## One move -/

theorem eventsOf_append {events : List ProgressEvent} (h : t.events = s.events ++ events)
    (key : String) : t.eventsOf key = s.eventsOf key ++ events.filter (fun e => e.operationId = key) := by
  unfold eventsOf
  rw [h, List.filter_append]

theorem segmentsOf_append {segments : List ProgressSegment} (h : t.segments = s.segments ++ segments)
    (key : String) :
    t.segmentsOf key = s.segmentsOf key ++ segments.filter (fun g => g.operationId = key) := by
  unfold segmentsOf
  rw [h, List.filter_append]

/-- The phase of a pending operation. -/
theorem Phase.of_pending (hinv : Inv sim available s) (h : Phase sim Head s op)
    (hmem : op.operationId ∈ s.pending) :
    s.eventsOf op.operationId = [] ∧ s.segmentsOf op.operationId = [] := by
  have hended : ∀ {v : ℚ}, s.ends.get? op.operationId = some v → False := fun hv =>
    (hinv.launched _ (Or.inr (Or.inr (Dict.get?_isSome.mp ⟨_, hv⟩)))).2 hmem
  cases h with
  | pending _ events segments => exact ⟨events, segments⟩
  | starting u alpha launched startup =>
    exact absurd hmem (hinv.launched _ (Or.inl (Dict.get?_isSome.mp ⟨_, startup⟩))).2
  | active u alpha left launched mem => exact absurd hmem (hinv.launched _ (Or.inr (Or.inl mem))).2
  | ended u alpha v launched ended => exact (hended ended).elim
  | skipped u nop started nonneg released ended => exact (hended ended).elim

/-- The startup entry of an operation whose startup is not over. -/
theorem finishStartup_get? (hinv : Inv sim available s) {key : String} (hkey : key ∉ s.started) :
    s.finishStartup.startup.get? key = s.startup.get? key := by
  cases hget : s.startup.get? key with
  | none =>
    rw [Dict.get?_eq_none] at hget ⊢
    intro hmem
    obtain ⟨e, he, rfl⟩ := List.mem_map.mp hmem
    exact hget (List.mem_map.mpr ⟨e, List.mem_of_mem_filter he, rfl⟩)
  | some v =>
    refine Dict.get?_of_mem hinv.finishStartup.startup_distinct ?_
    refine List.mem_filter.mpr ⟨Dict.mem_of_get? hget, ?_⟩
    simp only [decide_eq_true_eq]
    exact fun hle => hkey (mem_started.mpr ⟨_, Dict.mem_of_get? hget, hle, rfl⟩)

theorem Phase.finishStartup (hinv : Inv sim available s) (h : Phase sim Head s op) :
    Phase sim Head s.finishStartup op := by
  have hevents : ∀ key, s.finishStartup.eventsOf key = s.eventsOf key ++
      if key ∈ s.started then [⟨s.now, .startupComplete, key⟩] else [] := by
    intro key
    rw [← filter_map_key hinv.started_nodup (fun x => ⟨s.now, .startupComplete, x⟩)
      ProgressEvent.operationId (fun _ => rfl)]
    exact eventsOf_append rfl key
  by_cases hkey : op.operationId ∈ s.started
  · -- the startup is over
    obtain ⟨e, he, hle, heq⟩ := mem_started.mp hkey
    have hin : op.operationId ∈ s.startup.keys := List.mem_map.mpr ⟨e, he, heq⟩
    have hget : s.startup.get? op.operationId = some e.2 := by
      rw [← heq]
      exact Dict.get?_of_mem hinv.startup_distinct he
    cases h with
    | pending mem => exact absurd mem (hinv.launched _ (Or.inl hin)).2
    | starting u alpha launched startup now_le remaining events segments =>
      have hend : u + alpha = e.2 := Option.some.inj (startup.symm.trans hget)
      have hnow : u + alpha = s.now := le_antisymm (hend ▸ hle) now_le
      refine .active u alpha op.payloadBytes (launched.congr rfl)
        (List.mem_append_right _ hkey) remaining ?_ ?_ ?_
      · rw [hevents, if_pos hkey, events, hnow]
        rfl
      · show Chain (u + alpha) (s.segmentsOf op.operationId) s.now
        rw [segments, hnow]
        exact .nil
      · show movedBytes (s.segmentsOf op.operationId) + op.payloadBytes = op.payloadBytes
        rw [segments]
        simp [movedBytes]
    | active u alpha left launched mem => exact absurd mem (hinv.startup_only _ hin).1
    | ended u alpha v launched ended =>
      exact absurd (Dict.get?_isSome.mp ⟨v, ended⟩) (hinv.startup_only _ hin).2
    | skipped u nop started nonneg released ended =>
      exact absurd (Dict.get?_isSome.mp ⟨u, ended⟩) (hinv.startup_only _ hin).2
  · refine h.frame ⟨id, finishStartup_get? hinv hkey, List.mem_append_left _, rfl, rfl, rfl, ?_, rfl,
      rfl⟩
    rw [hevents, if_neg hkey, List.append_nil]

/-- The startup an operation pays is not negative. -/
theorem StartupOf.nonneg {alpha : ℚ} (h : StartupOf sim head op alpha) : 0 ≤ alpha := by
  rcases h with ⟨group, -, -, profile, -, hget⟩ | ⟨-, cost, -, rfl⟩
  · exact profile.startup_nonneg _ (Dict.mem_of_get? hget)
  · exact cost.alpha_nonneg

/-- What leaving `pending` adds to the events. -/
theorem leave_eventsOf (key x : String) : (s.leave key).eventsOf x =
    s.eventsOf x ++ if key = x then [⟨s.now, .start, key⟩] else [] := by
  rw [eventsOf_append (s := s) (t := s.leave key) rfl x, List.filter_singleton]
  by_cases h : key = x <;> simp [h]

/-- Another operation leaves `pending`. -/
theorem SameFor.leave {key : String} (hne : op.operationId ≠ key) :
    SameFor s (s.leave key) op.operationId := by
  refine ⟨fun hmem => ?_, rfl, id, rfl, Dict.get?_set_ne _ _ (Ne.symm hne), rfl, ?_, rfl, rfl⟩
  · exact (List.mem_erase_of_ne hne).mpr hmem
  · rw [leave_eventsOf, if_neg (Ne.symm hne), List.append_nil]

theorem Phase.launch (hinv : Inv sim available s) (hids : sim.WellFormed) (hop : op ∈ sim.operations)
    (h : Phase sim Head s op) (hhead : Head head) (hnow : 0 ≤ s.now) {key : String}
    {other : WorkOperation} {alpha : ℚ} (hlaunching : Launching sim head s key)
    (hother : sim.operation? key = some other) (hdata : other.kind ≠ .nop)
    (hstartup : StartupOf sim head other alpha) :
    Phase sim Head ((s.leave key).enterStartup key other.payloadBytes alpha) op := by
  by_cases hkey : op.operationId = key
  · subst hkey
    obtain rfl : op = other := Option.some.inj ((hids.operation?_eq hop).symm.trans hother)
    obtain ⟨hevents, hsegments⟩ := h.of_pending hinv hlaunching.ready.pending
    refine .starting s.now alpha ⟨hdata, Dict.get?_set_self _ _ _, hnow, hlaunching.due, head, hhead,
      hlaunching.now_eq, hlaunching.mem_ready, hstartup⟩ (Dict.get?_set_self _ _ _) ?_
      (Dict.get?_set_self _ _ _) ?_ hsegments
    · exact le_add_of_nonneg_right hstartup.nonneg
    · show (s.leave op.operationId).eventsOf op.operationId = _
      rw [leave_eventsOf, if_pos rfl, hevents]
      rfl
  · have hsame : SameFor s (s.leave key) op.operationId := .leave hkey
    refine h.frame ⟨hsame.pending, Dict.get?_set_ne _ _ (Ne.symm hkey), id,
      Dict.get?_set_ne _ _ (Ne.symm hkey), hsame.starts, rfl, hsame.events, rfl, rfl⟩

theorem Phase.skip (hinv : Inv sim available s) (hids : sim.WellFormed) (hop : op ∈ sim.operations)
    (h : Phase sim Head s op) (hnow : 0 ≤ s.now) {key : String} {other : WorkOperation}
    (hlaunching : Launching sim head s key) (hother : sim.operation? key = some other)
    (hnop : other.kind = .nop) : Phase sim Head (Clock.complete sim (s.leave key) key) op := by
  have hevents : ∀ x, (Clock.complete sim (s.leave key) key).eventsOf x =
      (s.leave key).eventsOf x ++ if key = x then [⟨s.now, .complete, key⟩] else [] := by
    intro x
    rw [complete_eq hids]
    refine (eventsOf_append rfl x).trans ?_
    rw [List.filter_singleton]
    by_cases h : key = x <;> simp [h, leave]
  by_cases hkey : op.operationId = key
  · subst hkey
    obtain rfl : op = other := Option.some.inj ((hids.operation?_eq hop).symm.trans hother)
    obtain ⟨hnone, hsegments⟩ := h.of_pending hinv hlaunching.ready.pending
    refine .skipped s.now hnop ?_ hnow hlaunching.due ?_ ?_ ?_
    · rw [complete_eq hids]
      exact Dict.get?_set_self _ _ _
    · rw [complete_eq hids]
      exact Dict.get?_set_self _ _ _
    · rw [hevents, leave_eventsOf, if_pos rfl, if_pos rfl, hnone]
      rfl
    · rw [complete_eq hids]
      exact hsegments
  · have hsame : SameFor s (s.leave key) op.operationId := .leave hkey
    refine h.frame ?_
    have hends : (Clock.complete sim (s.leave key) key).ends.get? op.operationId =
        s.ends.get? op.operationId := by
      rw [complete_eq hids]
      exact Dict.get?_set_ne _ _ (Ne.symm hkey)
    have hsame' : (Clock.complete sim (s.leave key) key).eventsOf op.operationId =
        s.eventsOf op.operationId := by
      rw [hevents, if_neg (Ne.symm hkey), List.append_nil, hsame.events]
    rw [complete_eq hids] at hends hsame' ⊢
    exact ⟨hsame.pending, rfl, id, rfl, hsame.starts, hends, hsame', rfl, rfl⟩

/-- What completing keys one after another does. -/
structure Completed (s t : Clock) (keys : List String) : Prop where
  pending : t.pending = s.pending
  startup : t.startup = s.startup
  active : t.active = s.active
  remaining : t.remaining = s.remaining
  starts : t.starts = s.starts
  segments : t.segments = s.segments
  now : t.now = s.now
  ends : ∀ x, t.ends.get? x = if x ∈ keys then some s.now else s.ends.get? x
  events : t.events = s.events ++ keys.map fun x => ⟨s.now, .complete, x⟩
  distinct : s.ends.Distinct → t.ends.Distinct

theorem completes_spec (hids : sim.WellFormed) (keys : List String) : ∀ s : Clock,
    Completed s (keys.foldl (Clock.complete sim) s) keys := by
  induction keys with
  | nil => exact fun s => ⟨rfl, rfl, rfl, rfl, rfl, rfl, rfl, fun x => by simp, by simp, id⟩
  | cons key keys ih =>
    intro s
    have hrest := ih (Clock.complete sim s key)
    have hone : (Clock.complete sim s key).segments = s.segments ∧
        (Clock.complete sim s key).events = s.events ++ [⟨s.now, .complete, key⟩] := by
      rw [complete_eq hids]
      exact ⟨rfl, rfl⟩
    obtain ⟨h1, h2, h3, h4, h5, h6, h7⟩ := complete_fields hids s key
    rw [List.foldl_cons]
    refine ⟨hrest.pending.trans h1, hrest.startup.trans h2, hrest.active.trans h3,
      hrest.remaining.trans h4, hrest.starts.trans h5, hrest.segments.trans hone.1,
      hrest.now.trans h6, fun x => ?_, ?_, fun hends => hrest.distinct (h7 ▸ hends.set _ _)⟩
    · rw [hrest.ends, h6, h7, Dict.get?_set]
      by_cases hx : x ∈ keys
      · simp [hx]
      · simp [hx, eq_comm]
    · rw [hrest.events, hone.2, h6, List.map_cons, List.append_assoc]
      rfl

/-- The bytes left of an active operation. -/
theorem drain_get? {keys : List String} (hnodup : keys.Nodup) (value : String → ℚ) :
    ∀ (d : Dict String ℚ) (x : String),
      (keys.foldl (fun d key => d.set key (value key)) d).get? x =
        if x ∈ keys then some (value x) else d.get? x := by
  induction keys with
  | nil => intro d x; simp
  | cons key keys ih =>
    intro d x
    obtain ⟨hkey, hnodup⟩ := List.nodup_cons.mp hnodup
    rw [List.foldl_cons, ih hnodup, Dict.get?_set]
    by_cases hx : x ∈ keys
    · simp [hx]
    · by_cases heq : key = x
      · subst heq
        simp [hkey]
      · simp [hx, heq, Ne.symm heq]

/-- The operations that are active. -/
def activeOperations (sim : Simulation) (s : Clock) : List WorkOperation :=
  sim.operations.filter (fun op => op.operationId ∈ s.active)

theorem activeOperations_nodup (hids : sim.WellFormed) :
    ((activeOperations sim s).map (·.operationId)).Nodup :=
  hids.ids_nodup.sublist (List.filter_sublist.map _)

/-- **Time passes**: an active operation moves bytes, and ends when none are left. -/
theorem Phase.pass (hinv : Inv sim available s) (hids : sim.WellFormed) (hop : op ∈ sim.operations)
    (h : Phase sim Head s op) {rates : Dict String ℚ} {next : ℚ}
    (hrates : ratesOf (activeOperations sim s) sim.costs sim.model = .ok rates)
    (hlater : s.now < next) (hfirst : ∀ u ∈ s.future rates, next ≤ u) :
    Phase sim Head ((s.finished rates next).foldl (Clock.complete sim) (s.passTo rates next)) op := by
  have hdone := completes_spec hids (s.finished rates next) (s.passTo rates next)
  generalize ht : (s.finished rates next).foldl (Clock.complete sim) (s.passTo rates next) = t at hdone ⊢
  have hevents : ∀ x, t.eventsOf x = s.eventsOf x ++
      if x ∈ s.finished rates next then [⟨next, .complete, x⟩] else [] := by
    intro x
    rw [← filter_map_key (hinv.finished_nodup rates next) (fun x => ⟨next, .complete, x⟩)
      ProgressEvent.operationId (fun _ => rfl)]
    exact eventsOf_append hdone.events x
  have hsegments : ∀ x, t.segmentsOf x = s.segmentsOf x ++
      if x ∈ s.active then [⟨x, s.now, next, (rates.get? x).getD 0⟩] else [] := by
    intro x
    have hsorted : (sortStrings s.active).Nodup :=
      (sortStrings_perm _).nodup_iff.mpr hinv.active_nodup
    have hkeys := filter_map_key hsorted (fun key => ⟨key, s.now, next, (rates.get? key).getD 0⟩)
      ProgressSegment.operationId (fun _ => rfl) x
    simp only [mem_sortStrings] at hkeys
    rw [← hkeys]
    exact segmentsOf_append hdone.segments x
  have hremaining : ∀ x, t.remaining.get? x = if x ∈ s.active then
      some (max 0 ((s.remaining.get? x).getD 0 - (rates.get? x).getD 0 * (next - s.now)))
      else s.remaining.get? x := by
    intro x
    rw [hdone.remaining]
    exact drain_get? hinv.active_nodup _ s.remaining x
  have hidle : op.operationId ∉ s.active → t.eventsOf op.operationId = s.eventsOf op.operationId ∧
      t.segmentsOf op.operationId = s.segmentsOf op.operationId ∧
      t.ends.get? op.operationId = s.ends.get? op.operationId ∧
      t.remaining.get? op.operationId = s.remaining.get? op.operationId := by
    intro hnot
    have hfin : op.operationId ∉ s.finished rates next := fun hmem => hnot (mem_finished.mp hmem).1
    refine ⟨?_, ?_, ?_, ?_⟩
    · rw [hevents, if_neg hfin, List.append_nil]
    · rw [hsegments, if_neg hnot, List.append_nil]
    · rw [hdone.ends, if_neg hfin]
      rfl
    · rw [hremaining, if_neg hnot]
  cases h with
  | pending mem events segments =>
    have hnot : op.operationId ∉ s.active := fun hmem => (hinv.launched _ (Or.inr (Or.inl hmem))).2 mem
    refine .pending ?_ ((hidle hnot).1.trans events) ((hidle hnot).2.1.trans segments)
    rw [hdone.pending]
    exact mem
  | starting u alpha launched startup now_le remaining events segments =>
    have hin := Dict.get?_isSome.mp ⟨_, startup⟩
    have hnot : op.operationId ∉ s.active := (hinv.startup_only _ hin).1
    have hle : next ≤ u + alpha := by
      refine hfirst _ (List.mem_append_left _ (List.mem_append_right _ ?_))
      exact List.mem_map.mpr ⟨_, Dict.mem_of_get? startup, rfl⟩
    refine .starting u alpha (launched.congr (by rw [hdone.starts]; rfl)) ?_ ?_
      ((hidle hnot).2.2.2.trans remaining) ((hidle hnot).1.trans events)
      ((hidle hnot).2.1.trans segments)
    · rw [hdone.startup]
      exact startup
    · rw [hdone.now]
      exact hle
  | active u alpha left launched mem remaining events chain moved =>
    obtain ⟨rate, hrate, -⟩ := ratesOf_ok hrates (activeOperations_nodup hids)
    obtain ⟨hget, hpos, -⟩ := hrate op (List.mem_filter.mpr ⟨hop, by simpa using mem⟩)
    have hle : next ≤ s.now + left / rate op := by
      have hfinish := hfirst _ (List.mem_append_left _ (List.mem_append_left _
        (List.mem_map.mpr ⟨_, mem, rfl⟩)))
      rw [finishTime, remaining, hget] at hfinish
      exact hfinish
    have hleft : rate op * (next - s.now) ≤ left := by
      rw [← le_div_iff₀' hpos]
      exact sub_le_iff_le_add'.mpr hle
    have hseg : t.segmentsOf op.operationId =
        s.segmentsOf op.operationId ++ [⟨op.operationId, s.now, next, rate op⟩] := by
      rw [hsegments, if_pos mem, hget, Option.getD_some]
    have hchain : Chain (u + alpha) (t.segmentsOf op.operationId) next := by
      rw [hseg]
      exact .snoc ⟨op.operationId, s.now, next, rate op⟩ chain hlater
    have hmoved : movedBytes (t.segmentsOf op.operationId) + (left - rate op * (next - s.now)) =
        op.payloadBytes := by
      rw [hseg, movedBytes_snoc, ← moved]
      ring
    have hstarts : t.starts.get? op.operationId = s.starts.get? op.operationId := by
      rw [hdone.starts]
      rfl
    by_cases hfin : s.finishTime rates op.operationId = next
    · -- nothing is left
      have hmem : op.operationId ∈ s.finished rates next := mem_finished.mpr ⟨mem, hfin⟩
      refine .ended u alpha next (launched.congr hstarts) ?_ ?_ hchain ?_
      · rw [hdone.ends, if_pos hmem]
        rfl
      · rw [hevents, if_pos hmem, events]
        rfl
      · rw [finishTime, remaining, hget, Option.getD_some, Option.getD_some] at hfin
        have hzero : left - rate op * (next - s.now) = 0 := by
          rw [← hfin, add_sub_cancel_left, mul_div_cancel₀ _ hpos.ne', sub_self]
        rw [hzero, add_zero] at hmoved
        exact hmoved
    · have hnot : op.operationId ∉ s.finished rates next := fun hmem => hfin (mem_finished.mp hmem).2
      refine .active u alpha (left - rate op * (next - s.now)) (launched.congr hstarts) ?_ ?_ ?_ ?_
        hmoved
      · rw [hdone.active]
        exact List.mem_filter.mpr ⟨mem, by simpa using hfin⟩
      · rw [hremaining, if_pos mem, remaining, hget, Option.getD_some, Option.getD_some,
          max_eq_right (sub_nonneg.mpr hleft)]
      · rw [hevents, if_neg hnot, List.append_nil, events]
      · rw [hdone.now]
        exact hchain
  | ended u alpha v launched ended events chain moved =>
    have hnot : op.operationId ∉ s.active := fun hmem =>
      hinv.active_only _ hmem (Dict.get?_isSome.mp ⟨v, ended⟩)
    obtain ⟨hev, hsg, hen, -⟩ := hidle hnot
    refine .ended u alpha v (launched.congr (by rw [hdone.starts]; rfl)) (hen.trans ended)
      (hev.trans events) ?_ ?_
    · rw [hsg]
      exact chain
    · rw [hsg]
      exact moved
  | skipped u nop started nonneg released ended events segments =>
    have hnot : op.operationId ∉ s.active := fun hmem =>
      hinv.active_only _ hmem (Dict.get?_isSome.mp ⟨u, ended⟩)
    obtain ⟨hev, hsg, hen, -⟩ := hidle hnot
    refine .skipped u nop ?_ nonneg released (hen.trans ended) (hev.trans events) (hsg.trans segments)
    rw [hdone.starts]
    exact started

end Moves

/-! ## Resources -/

/-- The resources of an operation. -/
def resourcesOf (sim : Simulation) (key : String) : List String :=
  ((sim.operation? key).map (·.resources)).getD []

/-- The rates at which a resource is used at a time, together. -/
def rateAt (sim : Simulation) (segments : List ProgressSegment) (resource : String) (time : ℚ) : ℚ :=
  ((segments.filter fun g => g.start ≤ time ∧ time < g.stop ∧
    resource ∈ resourcesOf sim g.operationId).map (·.rate)).sum

/-- The segments so far keep to the resources. -/
structure Within (sim : Simulation) (s : Clock) : Prop where
  past : ∀ g ∈ s.segments, g.stop ≤ s.now
  capacity : ∀ resource capacity, sim.model.resources.get? resource = some capacity →
    ∀ time, rateAt sim s.segments resource time ≤ capacity

section Resources
variable {sim : Simulation} {available : List String} {s : Clock}

theorem rateAt_append (a b : List ProgressSegment) (resource : String) (time : ℚ) :
    rateAt sim (a ++ b) resource time = rateAt sim a resource time + rateAt sim b resource time := by
  simp [rateAt, List.filter_append]

theorem rateAt_eq_zero (segments : List ProgressSegment) {resource : String} {time : ℚ}
    (h : ∀ g ∈ segments, ¬ (g.start ≤ time ∧ time < g.stop)) : rateAt sim segments resource time = 0 := by
  have hnone : (segments.filter fun g => g.start ≤ time ∧ time < g.stop ∧
      resource ∈ resourcesOf sim g.operationId) = [] := by
    rw [List.filter_eq_nil_iff]
    intro g hg hcover
    simp only [decide_eq_true_eq] at hcover
    exact h g hg ⟨hcover.1, hcover.2.1⟩
  rw [rateAt, hnone]
  rfl

theorem active_perm (hinv : Inv sim available s) (hids : sim.WellFormed)
    (havailable : ∀ x ∈ available, x ∈ sim.operations.map (·.operationId)) :
    s.active.Perm ((activeOperations sim s).map (·.operationId)) := by
  rw [List.perm_ext_iff_of_nodup hinv.active_nodup (activeOperations_nodup hids)]
  intro x
  simp only [activeOperations, List.mem_map, List.mem_filter, decide_eq_true_eq]
  constructor
  · intro hx
    obtain ⟨op, hop, rfl⟩ := List.mem_map.mp (havailable x (hinv.launched x (Or.inr (Or.inl hx))).1)
    exact ⟨op, ⟨hop, hx⟩, rfl⟩
  · rintro ⟨op, ⟨-, hx⟩, rfl⟩
    exact hx

/-- The rates of the active operations that use a resource are within it. -/
theorem rates_within (hinv : Inv sim available s) (hids : sim.WellFormed)
    (havailable : ∀ x ∈ available, x ∈ sim.operations.map (·.operationId))
    (hlocal : ∀ op ∈ sim.operations, op.kind.communicates = false → op.resources = [])
    {rates : Dict String ℚ}
    (hrates : ratesOf (activeOperations sim s) sim.costs sim.model = .ok rates) {resource : String}
    {capacity : ℚ} (hcapacity : sim.model.resources.get? resource = some capacity) :
    (((sortStrings s.active).filter fun x => resource ∈ resourcesOf sim x).map
      fun x => (rates.get? x).getD 0).sum ≤ capacity := by
  obtain ⟨rate, hrate, hsum⟩ := ratesOf_ok hrates (activeOperations_nodup hids)
  have husers : usersOf ((activeOperations sim s).filter fun op => op.kind.communicates) resource =
      usersOf (activeOperations sim s) resource := by
    unfold usersOf
    rw [List.filter_filter]
    refine List.filter_congr fun op hop => ?_
    have hop := (List.mem_filter.mp hop).1
    cases hk : op.kind.communicates with
    | true => simp
    | false => simp [hlocal op hop hk]
  have hperm := (((sortStrings_perm _).trans (active_perm hinv hids havailable)).filter
    fun x => resource ∈ resourcesOf sim x).map fun x => (rates.get? x).getD 0
  have hmap : (((activeOperations sim s).map (·.operationId)).filter fun x =>
      resource ∈ resourcesOf sim x).map (fun x => (rates.get? x).getD 0) =
      (usersOf (activeOperations sim s) resource).map rate := by
    rw [List.filter_map, List.map_map]
    have hsame : (activeOperations sim s).filter
        ((fun x => decide (resource ∈ resourcesOf sim x)) ∘ fun op => op.operationId) =
        usersOf (activeOperations sim s) resource := by
      refine List.filter_congr fun op hop => ?_
      simp [resourcesOf, hids.operation?_eq (List.mem_filter.mp hop).1]
    rw [hsame]
    refine List.map_congr_left fun op hop => ?_
    simp [(hrate op (List.mem_of_mem_filter hop)).1]
  rw [hperm.sum_eq, hmap, ← husers]
  exact hsum resource capacity hcapacity

theorem Within.frame {t : Clock} (h : Within sim s) (hsegments : t.segments = s.segments)
    (hnow : t.now = s.now) : Within sim t := by
  refine ⟨?_, ?_⟩
  · rw [hsegments, hnow]
    exact h.past
  · rw [hsegments]
    exact h.capacity

/-- **Time passes within the resources.** -/
theorem Within.pass (h : Within sim s) (hinv : Inv sim available s) (hids : sim.WellFormed)
    (havailable : ∀ x ∈ available, x ∈ sim.operations.map (·.operationId))
    (hlocal : ∀ op ∈ sim.operations, op.kind.communicates = false → op.resources = [])
    {rates : Dict String ℚ} {next : ℚ}
    (hrates : ratesOf (activeOperations sim s) sim.costs sim.model = .ok rates)
    (hlater : s.now < next) : Within sim (s.passTo rates next) := by
  refine ⟨?_, ?_⟩
  · intro g hg
    rcases List.mem_append.mp hg with hg | hg
    · exact (h.past g hg).trans hlater.le
    · obtain ⟨x, -, rfl⟩ := List.mem_map.mp hg
      exact le_refl _
  · intro resource capacity hcapacity time
    have hpos := (sim.model.resource_pos hcapacity).le
    show rateAt sim (s.segments ++ _) resource time ≤ capacity
    rw [rateAt_append]
    by_cases hpast : time < s.now
    · rw [rateAt_eq_zero ((sortStrings s.active).map _), add_zero]
      · exact h.capacity resource capacity hcapacity time
      · intro g hg hcover
        obtain ⟨x, -, rfl⟩ := List.mem_map.mp hg
        exact absurd hcover.1 (not_le.mpr hpast)
    · rw [rateAt_eq_zero s.segments, zero_add]
      · by_cases hnext : time < next
        · rw [rateAt, List.filter_map, List.map_map]
          have hall : (sortStrings s.active).filter
              ((fun g : ProgressSegment => decide (g.start ≤ time ∧ time < g.stop ∧
                resource ∈ resourcesOf sim g.operationId)) ∘
                fun key => ⟨key, s.now, next, (rates.get? key).getD 0⟩) =
              (sortStrings s.active).filter fun x => resource ∈ resourcesOf sim x := by
            refine List.filter_congr fun x _ => ?_
            simp [not_lt.mp hpast, hnext]
          rw [hall]
          exact rates_within hinv hids havailable hlocal hrates hcapacity
        · rw [rateAt_eq_zero]
          · exact hpos
          · intro g hg hcover
            obtain ⟨x, -, rfl⟩ := List.mem_map.mp hg
            exact hnext hcover.2
      · intro g hg hcover
        exact hpast (lt_of_lt_of_le hcover.2 (h.past g hg))

end Resources

/-! ## Runs -/

/-- The identities of the operations that run. -/
def availableIds (sim : Simulation) (unavailable : List String) : List String :=
  (sim.operations.map (·.operationId)).filter (· ∉ unavailable)

/-- The states in which the releases of a turn are found due. -/
def Settling (sim : Simulation) (unavailable : List String) (head : Clock) : Prop :=
  ∃ s, Reached sim unavailable s ∧ head = s.finishStartup

/-- **What holds in every state of a run.** -/
structure Progressed (sim : Simulation) (unavailable : List String) (s : Clock) : Prop where
  now_nonneg : 0 ≤ s.now
  within : Within sim s
  distinct : s.ends.Distinct
  phases : ∀ op ∈ sim.operations, op.operationId ∉ unavailable →
    Phase sim (Settling sim unavailable) s op

section Runs
variable {sim : Simulation} {unavailable : List String} {s t head : Clock}

/-- **Every move keeps it.** -/
theorem Progressed.move (hids : sim.WellFormed)
    (hlocal : ∀ op ∈ sim.operations, op.kind.communicates = false → op.resources = [])
    (hinv : Inv sim (availableIds sim unavailable) s) (h : Progressed sim unavailable s)
    (hhead : Settling sim unavailable head) (hmove : Move sim head s t) :
    Progressed sim unavailable t := by
  have havailable : ∀ x ∈ availableIds sim unavailable, x ∈ sim.operations.map (·.operationId) :=
    fun x hx => List.mem_of_mem_filter hx
  cases hmove with
  | finishStartup =>
    exact ⟨h.now_nonneg, h.within.frame rfl rfl, h.distinct,
      fun op hop hav => (h.phases op hop hav).finishStartup hinv⟩
  | dropReleases p =>
    refine ⟨h.now_nonneg, h.within.frame rfl rfl, h.distinct,
      fun op hop hav => (h.phases op hop hav).frame ?_⟩
    exact ⟨id, rfl, id, rfl, rfl, rfl, rfl, rfl, rfl⟩
  | launch key other alpha launching operation data startup =>
    exact ⟨h.now_nonneg, h.within.frame rfl rfl, h.distinct,
      fun op hop hav => (h.phases op hop hav).launch hinv hids hop hhead h.now_nonneg launching
        operation data startup⟩
  | skip key other launching operation nop =>
    have hdone := completes_spec hids [key] (s.leave key)
    refine ⟨?_, h.within.frame hdone.segments hdone.now, hdone.distinct h.distinct,
      fun op hop hav => (h.phases op hop hav).skip hinv hids hop h.now_nonneg launching operation nop⟩
    exact hdone.now.symm ▸ h.now_nonneg
  | pass rates next priced later first =>
    have hdone := completes_spec hids (s.finished rates next) (s.passTo rates next)
    have hpass := h.within.pass hinv hids havailable hlocal priced later
    refine ⟨?_, hpass.frame hdone.segments hdone.now, hdone.distinct h.distinct,
      fun op hop hav => (h.phases op hop hav).pass hinv hids hop priced later first⟩
    rw [hdone.now]
    exact h.now_nonneg.trans later.le

theorem progressed_initialClock : Progressed sim unavailable (initialClock sim unavailable) := by
  refine ⟨le_refl _, ⟨fun g hg => by simp [initialClock] at hg, ?_⟩, List.nodup_nil, ?_⟩
  · intro resource capacity hcapacity time
    have hzero : rateAt sim (initialClock sim unavailable).segments resource time = 0 := rfl
    rw [hzero]
    exact (sim.model.resource_pos hcapacity).le
  · intro op hop hav
    refine .pending (List.mem_filter.mpr ⟨List.mem_map.mpr ⟨op, hop, rfl⟩, by simpa using hav⟩) rfl rfl

/-- **Every state of a run.** -/
theorem Reached.progressed (hids : sim.WellFormed)
    (hlocal : ∀ op ∈ sim.operations, op.kind.communicates = false → op.resources = [])
    (h : Reached sim unavailable s) : Progressed sim unavailable s := by
  induction h with
  | refl => exact progressed_initialClock
  | @tail a b hreached hturn ih =>
    have hinv := Reached.inv hids hreached
    refine (turn_moves hids hinv hturn.2).1.invariant ?_ ih
    intro c d hc _ hprogress hmove
    exact hprogress.move hids hlocal hc ⟨a, hreached, rfl⟩ hmove

/-- The loop ends in a state of the run, with nothing left. -/
theorem run_reached {n : ℕ} : ∀ {s t : Clock}, run sim n s = .ok t →
    Relation.ReflTransGen (fun a b => a.running ∧ turn sim a = .ok b) s t ∧ ¬ t.running := by
  induction n with
  | zero =>
    intro s t h
    unfold run at h
    split at h
    · cases h
    · rename_i hdone
      obtain rfl : s = t := by simpa using h
      exact ⟨.refl, hdone⟩
  | succ n ih =>
    intro s t h
    unfold run at h
    split at h
    · rename_i hrun
      obtain ⟨u, hu, h⟩ := Checked.bind_ok.mp h
      obtain ⟨hreach, hdone⟩ := ih h
      exact ⟨.head ⟨hrun, hu⟩ hreach, hdone⟩
    · rename_i hdone
      obtain rfl : s = t := by simpa using h
      exact ⟨.refl, hdone⟩

end Runs

/-- **How an operation ran**, from its start to its end: it started when it was released
and its predecessors had ended; it moved its payload, after one startup if it moves data;
it completed once. -/
structure Executed (sim : Simulation) (unavailable : List String) (s : Clock) (op : WorkOperation)
    (start stop : ℚ) : Prop where
  started : s.starts.get? op.operationId = some start
  ended : s.ends.get? op.operationId = some stop
  not_before : op.notBefore ≤ start
  after : ∀ p ∈ op.dependencies, ∃ e, s.ends.get? p = some e ∧ e ≤ start
  skipped : op.kind = .nop → stop = start ∧ s.segmentsOf op.operationId = [] ∧
    s.eventsOf op.operationId =
      [⟨start, .start, op.operationId⟩, ⟨stop, .complete, op.operationId⟩]
  conserved : movedBytes (s.segmentsOf op.operationId) = op.payloadBytes
  paid : op.kind ≠ .nop → ∃ head alpha, Settling sim unavailable head ∧ head.now = start ∧
    op.operationId ∈ head.ready ∧ StartupOf sim head op alpha ∧
    s.eventsOf op.operationId = [⟨start, .start, op.operationId⟩,
      ⟨start + alpha, .startupComplete, op.operationId⟩, ⟨stop, .complete, op.operationId⟩] ∧
    Chain (start + alpha) (s.segmentsOf op.operationId) stop

/-- An operation that has nothing left to do has run. -/
theorem Progressed.executed {sim : Simulation} {unavailable : List String} {s : Clock}
    (h : Progressed sim unavailable s) (hids : sim.WellFormed)
    (hinv : Inv sim (availableIds sim unavailable) s) (hdone : ¬ s.running) {op : WorkOperation}
    (hop : op ∈ sim.operations) (hnop : op.kind = .nop → op.payloadBytes = 0)
    (hav : op.operationId ∉ unavailable) :
    ∃ start stop, 0 ≤ stop ∧ Executed sim unavailable s op start stop := by
  rw [running, not_or, not_or, not_not, not_not, not_not] at hdone
  obtain ⟨hpending, hstartup, hactive⟩ := hdone
  have hid : op.operationId ∈ availableIds sim unavailable :=
    List.mem_filter.mpr ⟨List.mem_map.mpr ⟨op, hop, rfl⟩, by simpa using hav⟩
  have hrelease : sim.releaseTime op.operationId = op.notBefore := by
    rw [Simulation.releaseTime, hids.operation?_eq hop]
    rfl
  have hdeps : ∀ {start : ℚ}, s.starts.get? op.operationId = some start →
      ∀ p ∈ op.dependencies, ∃ e, s.ends.get? p = some e ∧ e ≤ start := by
    intro start hstart p hp
    obtain ⟨u, hu, -, hall⟩ := hinv.started _ hid (by simp [hpending])
    obtain rfl : u = start := Option.some.inj (hu.symm.trans hstart)
    refine hall p ?_
    rw [Simulation.deps, hids.operation?_eq hop]
    exact hp
  cases h.phases op hop hav with
  | pending mem => simp [hpending] at mem
  | starting u alpha launched startup => simp [hstartup] at startup
  | active u alpha left launched mem => simp [hactive] at mem
  | ended u alpha v launched ended events chain moved =>
    obtain ⟨head, hhead, hnow, hready, hstartup⟩ := launched.startup
    refine ⟨u, v, ?_, launched.started, ended, hrelease ▸ launched.released, hdeps launched.started,
      fun hnop => absurd hnop launched.data, moved,
      fun _ => ⟨head, alpha, hhead, hnow, hready, hstartup, events, chain⟩⟩
    exact (add_nonneg launched.nonneg hstartup.nonneg).trans chain.le
  | skipped u nop started nonneg released ended events segments =>
    refine ⟨u, u, nonneg, started, ended, hrelease ▸ released, hdeps started,
      fun _ => ⟨rfl, segments, events⟩, ?_, fun hdata => absurd nop hdata⟩
    rw [segments, hnop nop]
    rfl

end Clock

/-! ## Predictions -/

theorem mem_unavailablePass {operations : List WorkOperation} {unavailable : List String}
    {x : String} (hx : x ∈ unavailable) : x ∈ unavailablePass operations unavailable := by
  unfold unavailablePass
  generalize (operations.filter fun op => op.operationId ∈ unavailable).flatMap (·.resources) = affected
  induction operations generalizing unavailable with
  | nil => exact hx
  | cons op operations ih =>
    rw [List.foldl_cons]
    split
    · exact ih (List.mem_append_left _ hx)
    · exact ih hx

theorem mem_unavailableFrom {operations : List WorkOperation} {n : ℕ} : ∀ {unavailable : List String}
    {x : String}, x ∈ unavailable → x ∈ unavailableFrom operations n unavailable := by
  induction n with
  | zero => exact fun hx => hx
  | succ n ih =>
    intro unavailable x hx
    unfold unavailableFrom
    simp only
    split
    · exact hx
    · exact ih (mem_unavailablePass hx)

/-- When nothing is unavailable, the model prices every resource. -/
theorem resource_mem_of_available {operations : List WorkOperation} {model : CostModel}
    (h : unavailableOf operations model = []) {op : WorkOperation} (hop : op ∈ operations)
    (hdata : op.kind ≠ .nop) {resource : String} (hresource : resource ∈ op.resources) :
    resource ∈ model.resources.keys := by
  by_contra hnot
  have hmissing : missingFor model op ≠ [] := by
    have hmem : resource ∈ missingResources model op :=
      List.mem_filter.mpr ⟨hresource, by simpa using hnot⟩
    simp only [missingFor, if_neg hdata, ne_eq, List.append_eq_nil_iff, List.map_eq_nil_iff, not_and]
    intro _ hnil
    rw [hnil] at hmem
    cases hmem
  have hmem : op.operationId ∈ unavailableOf operations model :=
    mem_unavailableFrom (List.mem_map.mpr ⟨op, List.mem_filter.mpr ⟨hop, by simpa using hmissing⟩, rfl⟩)
  rw [h] at hmem
  cases hmem

theorem WorkOperation.payload_of_nop {op : WorkOperation} (h : op.check = .ok ())
    (hnop : op.kind = .nop) : op.payloadBytes = 0 := by
  unfold WorkOperation.check at h
  simp only [VeriCCL.Checked.bind_ok, VeriCCL.Checked.ensure_ok] at h
  obtain ⟨_, -, _, hpayload, -⟩ := h
  unfold checkPayload at hpayload
  rw [if_pos hnop, VeriCCL.Checked.ensure_ok] at hpayload
  exact hpayload.1

/-- What the constructors of an executable and of its operations check. -/
structure Executable.Checked (executable : Executable) : Prop where
  whole : executable.check = .ok ()
  each : ∀ op ∈ executable.operations, op.check = .ok ()

theorem Executable.Checked.wellFormed {executable : Executable} (h : executable.Checked)
    (model : CostModel) : (simulation executable model).WellFormed := by
  have hwhole := h.whole
  unfold Executable.check at hwhole
  simp only [VeriCCL.Checked.bind_ok, VeriCCL.Checked.ensure_ok] at hwhole
  obtain ⟨_, hnodup, -⟩ := hwhole
  exact ⟨hnodup, fun op hop => (WorkOperation.check_ok (h.each op hop)).2.2.1⟩

/-- What a prediction says. -/
theorem predict_ok {asFloat : ℚ → ℚ} {executable : Executable} {model : CostModel}
    {prediction : Prediction} (h : predict asFloat executable model = .ok prediction) :
    ∃ last outputs, Clock.run (simulation executable model) (turnLimit (simulation executable model))
        (initialClock (simulation executable model)
          (unavailableOf executable.operations model)) = .ok last ∧
      prediction = {
        modelVersion := model.version
        tPred := if unavailableOf executable.operations model = [] then
          some (last.ends.values.foldl max 0) else none
        outputReady := outputs
        startTimes := last.starts.map fun e => (e.1, asFloat e.2)
        endTimes := last.ends.map fun e => (e.1, asFloat e.2)
        events := last.events.map fun event => { event with time := asFloat event.time }
        segments := last.segments.map fun segment =>
          ⟨segment.operationId, asFloat segment.start, asFloat segment.stop, asFloat segment.rate⟩
        missingComponents := sortStrings (executable.operations.flatMap (missingFor model)).dedup
        unavailableOperations := sortStrings (unavailableOf executable.operations model) } := by
  unfold predict at h
  simp only [VeriCCL.Checked.bind_ok] at h
  obtain ⟨_, -, _, -, last, hrun, h⟩ := h
  split at h
  · simp only [VeriCCL.Checked.bind_ok, VeriCCL.Checked.pure_ok] at h
    obtain ⟨outputs, -, rfl⟩ := h
    exact ⟨last, outputs, hrun, rfl⟩
  · simp only [VeriCCL.Checked.bind_ok, VeriCCL.Checked.pure_ok] at h
    obtain ⟨ends, -, outputs, -, rfl⟩ := h
    exact ⟨last, outputs, hrun, rfl⟩

/-- **Exact replay respects the cost model.**  When `predict` returns and no operation is
unavailable: every operation ran as `Clock.Executed` says; the rates that use a resource of
the model stay within its capacity at every time, and the model knows every resource in
use; and `tPred` is the last end. -/
theorem predict_respects_model {asFloat : ℚ → ℚ} {executable : Executable} {model : CostModel}
    {prediction : Prediction} (hchecked : executable.Checked)
    (h : predict asFloat executable model = .ok prediction)
    (havailable : prediction.unavailableOperations = []) :
    ∃ last, Clock.run (simulation executable model) (turnLimit (simulation executable model))
        (initialClock (simulation executable model) []) = .ok last ∧
      prediction.startTimes = last.starts.map (fun e => (e.1, asFloat e.2)) ∧
      prediction.endTimes = last.ends.map (fun e => (e.1, asFloat e.2)) ∧
      prediction.events = last.events.map (fun e => { e with time := asFloat e.time }) ∧
      prediction.segments = last.segments.map (fun g =>
        ⟨g.operationId, asFloat g.start, asFloat g.stop, asFloat g.rate⟩) ∧
      (∀ op ∈ executable.operations, ∃ start stop,
        Clock.Executed (simulation executable model) [] last op start stop) ∧
      (∀ op ∈ executable.operations, ∀ resource ∈ op.resources, resource ∈ model.resources.keys) ∧
      (∀ resource capacity, model.resources.get? resource = some capacity → ∀ time,
        Clock.rateAt (simulation executable model) last.segments resource time ≤ capacity) ∧
      ∃ tPred, prediction.tPred = some tPred ∧
        (∀ x stop, last.ends.get? x = some stop → stop ≤ tPred) ∧
        (executable.operations = [] ∧ tPred = 0 ∨
          ∃ op ∈ executable.operations, last.ends.get? op.operationId = some tPred) := by
  obtain ⟨last, outputs, hrun, rfl⟩ := predict_ok h
  have hnone : unavailableOf executable.operations model = [] := by
    have hlength := (sortStrings_perm (unavailableOf executable.operations model)).length_eq
    rw [show sortStrings (unavailableOf executable.operations model) = [] from havailable] at hlength
    exact List.length_eq_zero_iff.mp hlength.symm
  rw [hnone] at hrun
  have hids := hchecked.wellFormed model
  have hlocal : ∀ op ∈ (simulation executable model).operations,
      op.kind.communicates = false → op.resources = [] :=
    fun op hop => (WorkOperation.check_ok (hchecked.each op hop)).2.1
  obtain ⟨hreached, hdone⟩ := Clock.run_reached hrun
  have hinv := Clock.Reached.inv hids hreached
  have hprogress := Clock.Reached.progressed hids hlocal hreached
  have hexecuted : ∀ op ∈ executable.operations, ∃ start stop, 0 ≤ stop ∧
      Clock.Executed (simulation executable model) [] last op start stop :=
    fun op hop => hprogress.executed hids hinv hdone hop
      (WorkOperation.payload_of_nop (hchecked.each op hop)) List.not_mem_nil
  refine ⟨last, hrun, rfl, rfl, rfl, rfl, ?_, ?_, hprogress.within.capacity, ?_⟩
  · intro op hop
    obtain ⟨start, stop, -, hran⟩ := hexecuted op hop
    exact ⟨start, stop, hran⟩
  · intro op hop resource hresource
    refine resource_mem_of_available hnone hop ?_ hresource
    intro hnop
    rw [hlocal op hop (by rw [hnop]; rfl)] at hresource
    cases hresource
  · refine ⟨last.ends.values.foldl max 0, if_pos hnone, ?_, ?_⟩
    · intro x stop hstop
      exact (le_foldl_max last.ends.values 0).2 stop
        (List.mem_map.mpr ⟨(x, stop), Dict.mem_of_get? hstop, rfl⟩)
    · cases hops : executable.operations with
      | nil =>
        refine Or.inl ⟨rfl, ?_⟩
        -- nothing ever ran
        have hempty : last.ends = [] := by
          refine List.eq_nil_iff_forall_not_mem.mpr fun e he => ?_
          have hmem := (hinv.launched e.1 (Or.inr (Or.inr (List.mem_map.mpr ⟨e, he, rfl⟩)))).1
          simp [simulation, hops] at hmem
        rw [hempty]
        rfl
      | cons first rest =>
        refine Or.inr ?_
        rw [← hops]
        rcases foldl_max_mem last.ends.values 0 with hzero | hmem
        · obtain ⟨start, stop, hnonneg, hran⟩ := hexecuted first (by rw [hops]; exact List.mem_cons_self)
          have hle : stop ≤ last.ends.values.foldl max 0 :=
            (le_foldl_max last.ends.values 0).2 stop
              (List.mem_map.mpr ⟨_, Dict.mem_of_get? hran.ended, rfl⟩)
          refine ⟨first, by rw [hops]; exact List.mem_cons_self, ?_⟩
          rw [hzero] at hle ⊢
          rw [hran.ended, le_antisymm hle hnonneg]
        · obtain ⟨e, he, heq⟩ := List.mem_map.mp hmem
          have hid := (hinv.launched e.1 (Or.inr (Or.inr (List.mem_map.mpr ⟨e, he, rfl⟩)))).1
          obtain ⟨op, hop, hopid⟩ := List.mem_map.mp (List.mem_of_mem_filter hid)
          refine ⟨op, hop, ?_⟩
          rw [hopid, ← heq]
          exact Dict.get?_of_mem hprogress.distinct he

/-- Two transfers over one link, and a step that waits for both. -/
def sharedLink : Executable where
  operations :=
    [⟨"a", .send, some "wire", 8, [], ["link"], some "0->1", 0⟩,
      ⟨"b", .send, some "wire", 4, [], ["link"], some "0->2", 1⟩,
      ⟨"c", .nop, none, 0, ["a", "b"], [], none, 0⟩]
  outputOperations := ["c"]

/-- A link that carries two bytes in a unit of time. -/
def linkCosts : CostModel where
  version := "v"
  services := [("wire", [{ alpha := 1, beta := 1 / 2 }])]
  resources := [("link", 2)]

theorem predict_respects_model_sharedLink : ∃ last,
    Clock.run (simulation sharedLink linkCosts) (turnLimit (simulation sharedLink linkCosts))
      (initialClock (simulation sharedLink linkCosts) []) = .ok last ∧
    ∀ op ∈ sharedLink.operations, ∃ start stop,
      Clock.Executed (simulation sharedLink linkCosts) [] last op start stop := by
  have hchecked : sharedLink.Checked := ⟨by decide +kernel, by decide +kernel⟩
  have hpredict : (predict id sharedLink linkCosts).map (·.unavailableOperations) = .ok [] := by
    decide +kernel
  obtain ⟨prediction, hprediction, havailable⟩ := Checked.map_ok.mp hpredict
  obtain ⟨last, hrun, -, -, -, -, hran, -⟩ :=
    predict_respects_model hchecked hprediction havailable
  exact ⟨last, hrun, hran⟩

end VeriCCL
