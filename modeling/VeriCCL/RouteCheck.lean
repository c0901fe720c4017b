import VeriCCL.RouteOrder

/-! # The check of routed semantics replays one order, and that is enough

`checkRoutedSemantics` replays a demand's operations in one order, a linear extension
(`replayRounds_ok`).  When the demands are those of the request, an accepted replay makes every
other order right too, so the check accepts exactly the bundles all of whose orders are right
(`RouteBundle.Right`). -/
namespace VeriCCL

open Gathering (Transfer Plan)
open Relation (TransGen)

/-! ## Linear extensions -/

/-- One operation waits for another. -/
def DependsOn (operations : List RouteOperation) (p q : String) : Prop :=
  ∃ op ∈ operations, op.operationId = q ∧ p ∈ op.dependencies

section Linear
variable {operations order front : List RouteOperation}

/-- **Operations that have an order have no cycle.** -/
theorem LinearExtension.acyclic (h : LinearExtension operations order)
    (hnodup : (order.map (·.operationId)).Nodup) (identifier : String) :
    ¬ TransGen (DependsOn operations) identifier identifier := by
  have hlt : ∀ p q, DependsOn operations p q →
      (order.map (·.operationId)).idxOf p < (order.map (·.operationId)).idxOf q := by
    rintro p q ⟨op, hop, rfl, hp⟩
    obtain ⟨l, r, hsplit⟩ := List.mem_iff_append.mp (h.perm.mem_iff.mpr hop)
    have hbefore := h.sorted l op r hsplit p hp
    rw [hsplit, List.map_append, List.map_cons] at hnodup ⊢
    have hnot : op.operationId ∉ l.map (·.operationId) := fun hmem =>
      (List.nodup_append.mp hnodup).2.2 _ hmem _ List.mem_cons_self rfl
    rw [List.idxOf_append_of_mem hbefore, List.idxOf_append_of_notMem hnot, List.idxOf_cons_self]
    exact (List.idxOf_lt_length_of_mem hbefore).trans_le (Nat.le_add_right _ _)
  intro hcycle
  have hall : ∀ p q, TransGen (DependsOn operations) p q →
      (order.map (·.operationId)).idxOf p < (order.map (·.operationId)).idxOf q := by
    intro p q hpath
    induction hpath with
    | single hstep => exact hlt _ _ hstep
    | tail _ hstep ih => exact ih.trans (hlt _ _ hstep)
  exact lt_irrefl _ (hall _ _ hcycle)

/-- An order that begins with some operations in an order of their own. -/
theorem LinearExtension.complete (h : LinearExtension operations order) (hfront : front.Nodup)
    (hnodup : operations.Nodup) (hsub : ∀ op ∈ front, op ∈ operations)
    (hsorted : ∀ l op r, front = l ++ op :: r →
      ∀ identifier ∈ op.dependencies, identifier ∈ l.map (·.operationId)) :
    LinearExtension operations (front ++ order.filter (· ∉ front)) where
  perm := by
    refine (List.perm_ext_iff_of_nodup ?_ hnodup).mpr fun op => ?_
    · rw [List.nodup_append]
      refine ⟨hfront, (h.perm.nodup_iff.mpr hnodup).filter _, fun a ha b hb hab => ?_⟩
      exact of_decide_eq_true (List.mem_filter.mp hb).2 (hab ▸ ha)
    · rw [List.mem_append, List.mem_filter, decide_eq_true_eq, h.perm.mem_iff]
      constructor
      · rintro (hop | ⟨hop, -⟩)
        · exact hsub op hop
        · exact hop
      · intro hop
        by_cases hin : op ∈ front
        · exact .inl hin
        · exact .inr ⟨hop, hin⟩
  sorted := by
    intro l op r hsplit identifier hidentifier
    rcases List.append_eq_append_iff.mp hsplit with ⟨m, rfl, hm⟩ | ⟨m, rfl, hm⟩
    · -- what is before it in the given order is in front, or still before it
      obtain ⟨l', r', rfl, hl', hr'⟩ := List.filter_eq_append_iff.mp hm
      obtain ⟨l₂, r₂, rfl, hl₂, hin, hr₂⟩ := List.filter_eq_cons_iff.mp hr'
      have hbefore := h.sorted (l' ++ l₂) op r₂ (by simp) identifier hidentifier
      obtain ⟨q, hq, rfl⟩ := List.mem_map.mp hbefore
      refine List.mem_map_of_mem ?_
      by_cases hqin : q ∈ front
      · exact List.mem_append_left _ hqin
      · refine List.mem_append_right _ ?_
        rcases List.mem_append.mp hq with hq | hq
        · rw [← hl']
          exact List.mem_filter.mpr ⟨hq, by simpa using hqin⟩
        · exact absurd (by simpa using hqin) (hl₂ q hq)
    · cases m with
      | nil =>
        rw [List.nil_append] at hm
        obtain ⟨l₂, r₂, hsplit₂, hl₂, hin, hr₂⟩ := List.filter_eq_cons_iff.mp hm.symm
        have hbefore := h.sorted l₂ op r₂ hsplit₂ identifier hidentifier
        obtain ⟨q, hq, rfl⟩ := List.mem_map.mp hbefore
        refine List.mem_map_of_mem ?_
        by_contra hqin
        exact absurd (by simpa using hqin) (hl₂ q hq)
      | cons x m =>
        obtain ⟨rfl, -⟩ := List.cons.inj hm
        exact hsorted l op m rfl identifier hidentifier

end Linear

/-! ## The replay -/

/-- What the replay checks of an operation, whatever the ranks hold. -/
structure RouteOperation.Passes (op : RouteOperation) (inputs : ResolvedInput) (topology : Topology)
    (constraints : ConstraintSet) : Prop where
  payload : op.payloadBytes = inputs.sliceSizeBytes
  link : ∃ link, topology.link op.edge.1 op.edge.2 = .ok link ∧ op.resources = link.resourceIds
  allowed : constraints.allows (sourceRanges inputs op.contributors) op.edge.1 op.edge.2 op.stageId =
    .ok true

/-- What the replay checks of what ranks hold: what the operation records, and that something
is there to add to. -/
structure RouteOperation.Replayable (op : RouteOperation) (states : ℕ → Option (Finset ℕ)) : Prop
    extends op.ReadsRecorded states where
  present : op.kind = .rrc → states op.edge.2 ≠ some ∅

section Replay
variable {inputs : ResolvedInput} {topology : Topology} {constraints : ConstraintSet}
  {states states' : ℕ → Option (Finset ℕ)} {op : RouteOperation} {l operations order : List RouteOperation}

/-- **One operation of the replay.** -/
theorem replayRouteOperation_ok :
    replayRouteOperation inputs topology constraints states op = .ok states' ↔
      op.Passes inputs topology constraints ∧ op.Replayable states ∧ states' = op.execute states := by
  unfold replayRouteOperation
  simp only [Checked.bind_ok, Checked.ensure_ok]
  constructor
  · rintro ⟨-, hsource, -, hpayload, link, hlink, -, hresources, allowed, hallowed, -, rfl, h⟩
    refine ⟨⟨hpayload, ⟨link, hlink, hresources⟩, hallowed⟩, ?_⟩
    cases hkind : op.kind with
    | rrc =>
      simp only [hkind, Checked.bind_ok, Checked.ensure_ok, Checked.pure_ok] at h
      obtain ⟨-, ⟨hne, hdisjoint⟩, rfl⟩ := h
      cases hdst : states op.edge.2 with
      | none => simp [hdst] at hne
      | some prior =>
        rw [hdst, Option.getD_some] at hne hdisjoint
        refine ⟨⟨⟨hsource, fun _ => ⟨prior, hdst, hdisjoint⟩⟩, fun _ => ?_⟩, ?_⟩
        · rw [hdst]
          exact fun heq => hne (Option.some.inj heq)
        · simp [RouteOperation.execute, hkind, hdst, hsource]
    | send =>
      simp only [hkind, Checked.pure_ok] at h
      refine ⟨⟨⟨hsource, by simp [hkind]⟩, by simp [hkind]⟩, ?_⟩
      rw [← h]
      simp [RouteOperation.execute, hkind, hsource]
  · rintro ⟨⟨hpayload, ⟨link, hlink, hresources⟩, hallowed⟩, ⟨⟨hsource, honce⟩, hpresent⟩, rfl⟩
    refine ⟨(), hsource, (), hpayload, link, hlink, (), hresources, true, hallowed, (), rfl, ?_⟩
    cases hkind : op.kind with
    | rrc =>
      obtain ⟨prior, hdst, hdisjoint⟩ := honce hkind
      have hne : prior ≠ ∅ := fun heq => hpresent hkind (heq ▸ hdst)
      simp only [Checked.bind_ok, Checked.ensure_ok, Checked.pure_ok, hdst, Option.getD_some]
      refine ⟨(), ⟨hne, hdisjoint⟩, ?_⟩
      simp [RouteOperation.execute, hkind, hdst, hsource]
    | send =>
      simp [RouteOperation.execute, hkind, hsource, pure, Except.pure]

/-- **The replay of a list of operations.** -/
theorem foldlM_replay_ok :
    l.foldlM (replayRouteOperation inputs topology constraints) states = .ok states' ↔
      (∀ op ∈ l, op.Passes inputs topology constraints) ∧
        (∀ front op back, l = front ++ op :: back →
          op.Replayable (front.foldl RouteOperation.execute states)) ∧
        states' = l.foldl RouteOperation.execute states := by
  induction l generalizing states with
  | nil => simp [pure, Except.pure, eq_comm]
  | cons op l ih =>
    rw [List.foldlM_cons, Checked.bind_ok]
    simp only [replayRouteOperation_ok, ih]
    constructor
    · rintro ⟨_, ⟨hpasses, hreplay, rfl⟩, hall, hreplays, rfl⟩
      refine ⟨List.forall_mem_cons.mpr ⟨hpasses, hall⟩, fun front x back hsplit => ?_, rfl⟩
      cases front with
      | nil =>
        obtain ⟨rfl, -⟩ := List.cons.inj hsplit
        exact hreplay
      | cons y front =>
        obtain ⟨rfl, hrest⟩ := List.cons.inj hsplit
        exact hreplays front x back hrest
    · rintro ⟨hall, hreplays, rfl⟩
      obtain ⟨hpasses, hall⟩ := List.forall_mem_cons.mp hall
      exact ⟨_, ⟨hpasses, hreplays [] op l rfl, rfl⟩, hall,
        fun front x back hsplit => hreplays (op :: front) x back (by rw [hsplit, List.cons_append]), rfl⟩

/-- **The rounds replay one order** that keeps to the dependencies. -/
theorem replayRounds_order {fuel : ℕ} {done : List String}
    (h : replayRounds inputs topology constraints fuel operations done states = .ok states') :
    ∃ order : List RouteOperation, order.Perm operations ∧
      (∀ front op back, order = front ++ op :: back → ∀ identifier ∈ op.dependencies,
        identifier ∈ done ++ front.map (·.operationId)) ∧
      order.foldlM (replayRouteOperation inputs topology constraints) states = .ok states' := by
  induction fuel generalizing operations done states with
  | zero =>
    cases operations with
    | nil => exact ⟨[], .nil, by simp, by simpa [replayRounds] using h⟩
    | cons op operations => simp [replayRounds] at h
  | succ fuel ih =>
    cases operations with
    | nil => exact ⟨[], .nil, by simp, by simpa [replayRounds] using h⟩
    | cons first operations =>
      simp only [replayRounds, Checked.bind_ok, Checked.ensure_ok] at h
      obtain ⟨-, -, middle, hround, hrest⟩ := h
      set pending := first :: operations with hpending
      set ready := (pending.filter fun op => op.dependencies ⊆ done.toFinset).mergeSort
        fun a b => decide (a.operationId ≤ b.operationId) with hready
      have hmem : ∀ op, op ∈ ready ↔ op ∈ pending ∧ op.dependencies ⊆ done.toFinset := by
        intro op
        rw [hready, (List.mergeSort_perm _ _).mem_iff, List.mem_filter, decide_eq_true_eq]
      obtain ⟨order, hperm, hsorted, hreplay⟩ := ih hrest
      refine ⟨ready ++ order, ?_, fun front op back hsplit identifier hidentifier => ?_, ?_⟩
      · have hsplit : (ready ++ pending.filter (· ∉ ready)).Perm pending := by
          refine (((List.mergeSort_perm _ _).append_right _).trans ?_)
          have hfilter : pending.filter (· ∉ ready) =
              pending.filter fun op => !decide (op.dependencies ⊆ done.toFinset) := by
            refine List.filter_congr fun op hop => ?_
            rw [Bool.eq_iff_iff, decide_eq_true_eq, hmem, Bool.not_eq_true', decide_eq_false_iff_not]
            tauto
          rw [hfilter]
          exact List.filter_append_perm _ _
        exact (hperm.append_left _).trans hsplit
      · rcases List.append_eq_append_iff.mp hsplit with ⟨m, rfl, hm⟩ | ⟨m, hm, hm'⟩
        · rw [List.map_append, ← List.append_assoc]
          exact hsorted m op back hm identifier hidentifier
        · cases m with
          | nil =>
            rw [List.append_nil] at hm
            have := hsorted [] op back hm'.symm identifier hidentifier
            simpa [hm] using this
          | cons x m =>
            obtain ⟨rfl, -⟩ := List.cons.inj hm'
            have hop : op ∈ ready := by rw [hm]; simp
            exact List.mem_append_left _ (List.mem_toFinset.mp (((hmem op).mp hop).2 hidentifier))
      · rw [List.foldlM_append, Checked.bind_ok]
        exact ⟨middle, hround, hreplay⟩

/-- **The rounds go through** when every order does. -/
theorem replayRounds_total (hlinear : LinearExtension operations order) (hnodup : operations.Nodup)
    (hpasses : ∀ op ∈ operations, op.Passes inputs topology constraints)
    (hall : ∀ order', LinearExtension operations order' → ∀ front op back,
      order' = front ++ op :: back → op.Replayable (front.foldl RouteOperation.execute states))
    {fuel : ℕ} {front pending : List RouteOperation} (hfront : front.Nodup)
    (hsub : ∀ op ∈ front, op ∈ operations)
    (hsorted : ∀ l op r, front = l ++ op :: r →
      ∀ identifier ∈ op.dependencies, identifier ∈ l.map (·.operationId))
    (hpending : ∀ op, op ∈ pending ↔ op ∈ operations ∧ op ∉ front) (honce : pending.Nodup)
    (hfuel : pending.length ≤ fuel) : ∃ order', LinearExtension operations order' ∧
      replayRounds inputs topology constraints fuel pending (front.map (·.operationId))
        (front.foldl RouteOperation.execute states) =
          .ok (order'.foldl RouteOperation.execute states) := by
  induction fuel generalizing front pending with
  | zero =>
    obtain rfl : pending = [] := List.length_eq_zero_iff.mp (Nat.le_zero.mp hfuel)
    refine ⟨_, hlinear.complete hfront hnodup hsub hsorted, ?_⟩
    have hnone : order.filter (· ∉ front) = [] := by
      rw [List.filter_eq_nil_iff]
      intro op hop hin
      simpa using (hpending op).mpr ⟨hlinear.perm.mem_iff.mp hop, of_decide_eq_true hin⟩
    rw [hnone, List.append_nil, replayRounds]
  | succ fuel ih =>
    cases pending with
    | nil =>
      refine ⟨_, hlinear.complete hfront hnodup hsub hsorted, ?_⟩
      have hnone : order.filter (· ∉ front) = [] := by
        rw [List.filter_eq_nil_iff]
        intro op hop hin
        simpa using (hpending op).mpr ⟨hlinear.perm.mem_iff.mp hop, of_decide_eq_true hin⟩
      rw [hnone, List.append_nil, replayRounds]
    | cons first rest =>
      set pending := first :: rest with hpend
      set ready := (pending.filter fun op =>
        op.dependencies ⊆ (front.map (·.operationId)).toFinset).mergeSort
          fun a b => decide (a.operationId ≤ b.operationId) with hready
      have hmem : ∀ op, op ∈ ready ↔ op ∈ pending ∧
          op.dependencies ⊆ (front.map (·.operationId)).toFinset := by
        intro op
        rw [hready, (List.mergeSort_perm _ _).mem_iff, List.mem_filter, decide_eq_true_eq]
      -- what comes first in a complete order is ready
      have hne : ready ≠ [] := by
        have hfull := hlinear.complete hfront hnodup hsub hsorted
        have hfirst := (hpending first).mp (by simp [hpend])
        have hin : first ∈ order.filter (· ∉ front) := List.mem_filter.mpr
          ⟨hlinear.perm.mem_iff.mpr hfirst.1, by simpa using hfirst.2⟩
        obtain ⟨x, xs, hx⟩ := List.exists_cons_of_ne_nil (List.ne_nil_of_mem hin)
        have hxin : x ∈ order.filter (· ∉ front) := hx ▸ List.mem_cons_self
        have hxp : x ∈ pending := (hpending x).mpr
          ⟨hlinear.perm.mem_iff.mp (List.mem_filter.mp hxin).1,
            of_decide_eq_true (List.mem_filter.mp hxin).2⟩
        refine List.ne_nil_of_mem ((hmem x).mpr ⟨hxp, fun identifier hidentifier => ?_⟩)
        exact List.mem_toFinset.mpr (hfull.sorted front x xs (by rw [hx]) identifier hidentifier)
      have hfront' : (front ++ ready).Nodup := by
        rw [List.nodup_append]
        refine ⟨hfront, (List.mergeSort_perm _ _).nodup_iff.mpr (honce.filter _), ?_⟩
        rintro a ha _ hb rfl
        exact ((hpending a).mp ((hmem a).mp hb).1).2 ha
      have hsub' : ∀ op ∈ front ++ ready, op ∈ operations := by
        intro op hop
        rcases List.mem_append.mp hop with hop | hop
        · exact hsub op hop
        · exact ((hpending op).mp ((hmem op).mp hop).1).1
      have hsorted' : ∀ l op r, front ++ ready = l ++ op :: r →
          ∀ identifier ∈ op.dependencies, identifier ∈ l.map (·.operationId) := by
        intro l op r hsplit identifier hidentifier
        rcases List.append_eq_append_iff.mp hsplit with ⟨m, rfl, hm⟩ | ⟨m, hm, hm'⟩
        · have hop : op ∈ ready := by rw [hm]; simp
          rw [List.map_append]
          exact List.mem_append_left _ (List.mem_toFinset.mp (((hmem op).mp hop).2 hidentifier))
        · cases m with
          | nil =>
            have hop : op ∈ ready := by
              rw [List.nil_append] at hm'
              rw [← hm']
              exact List.mem_cons_self
            rw [List.append_nil] at hm
            rw [← hm]
            exact List.mem_toFinset.mp (((hmem op).mp hop).2 hidentifier)
          | cons x m =>
            obtain ⟨rfl, -⟩ := List.cons.inj hm'
            exact hsorted l op m hm identifier hidentifier
      have hfull := hlinear.complete hfront' hnodup hsub' hsorted'
      have hround : ready.foldlM (replayRouteOperation inputs topology constraints)
          (front.foldl RouteOperation.execute states) =
            .ok ((front ++ ready).foldl RouteOperation.execute states) := by
        refine foldlM_replay_ok.mpr ⟨fun op hop => hpasses op (hsub' op ?_), fun l op r hsplit => ?_, ?_⟩
        · exact List.mem_append_right _ hop
        · have := hall _ hfull (front ++ l) op (r ++ order.filter (· ∉ front ++ ready))
            (by rw [hsplit]; simp)
          rwa [List.foldl_append] at this
        · rw [List.foldl_append]
      have hsmaller : (pending.filter (· ∉ ready)).length ≤ fuel := by
        obtain ⟨x, hx⟩ := List.exists_mem_of_ne_nil _ hne
        have hlt : (pending.filter (· ∉ ready)).length < pending.length :=
          List.length_filter_lt_length_iff_exists.mpr ⟨x, ((hmem x).mp hx).1, by simpa using hx⟩
        omega
      obtain ⟨order', hlinear', hrun⟩ := ih hfront' hsub' hsorted' (fun op => by
        rw [List.mem_filter, hpending op, decide_eq_true_eq, List.mem_append, not_or, and_assoc])
        (honce.filter _) hsmaller
      refine ⟨order', hlinear', ?_⟩
      rw [hpend, replayRounds, ← hpend]
      · simp only [Checked.ensure, hne, ne_eq, not_false_eq_true, if_true, ← hready, hround]
        rw [← hrun, List.map_append]
        rfl
      · simp

end Replay

/-! ## The operations of a bundle -/

section Operations
variable {inputs : ResolvedInput} {topology : Topology} {demand demand' : RoutingDemand}
  {route : Route} {operations : List RouteOperation} {op : RouteOperation}

/-- **What the operations of a route are like.** -/
theorem physicalOperation_mem (h : physicalOperation inputs topology demand route = .ok operations)
    (hop : op ∈ operations) : op.demandId = demand.demandId ∧
      op.operationId = transferId demand op.transfer ∧ op.payloadBytes = inputs.sliceSizeBytes ∧
        ∃ link, topology.link op.edge.1 op.edge.2 = .ok link ∧ op.resources = link.resourceIds := by
  obtain ⟨carried, transfers, hplanned, -⟩ :=
    physicalOperation_plan h (carriedAlone inputs demand)
  rw [hplanned.operations] at hop
  obtain ⟨t, ht, rfl⟩ := List.mem_map.mp hop
  refine ⟨rfl, by rw [transfer_transferOperation]; rfl, rfl, ?_⟩
  cases t with
  | gather u v =>
    have hmem : (u, v) ∈ route.reduceEdges := List.mem_toFinset.mp (hplanned.order.gather_mem.mp ht)
    obtain ⟨link, hlink⟩ := hplanned.links (u, v) (List.mem_append_left _ hmem)
    exact ⟨link, hlink, (link_ok hlink).2.symm⟩
  | spread u v =>
    have hmem : (u, v) ∈ route.sendEdges := List.mem_toFinset.mp (hplanned.order.spread_mem.mp ht)
    obtain ⟨link, hlink⟩ := hplanned.links (u, v) (List.mem_append_right _ hmem)
    exact ⟨link, hlink, (link_ok hlink).2.symm⟩

/-- The operations of a route have different identities. -/
theorem physicalOperation_nodup (h : physicalOperation inputs topology demand route = .ok operations) :
    (operations.map (·.operationId)).Nodup := by
  obtain ⟨carried, transfers, hplanned, -⟩ :=
    physicalOperation_plan h (carriedAlone inputs demand)
  rw [hplanned.operations, List.map_map]
  exact hplanned.order.nodup.map fun a b hab => transferId_inj hab

/-- **An operation's identity tells its demand.** -/
theorem demandId_of_transferId {i j : ℕ} (hi : demand.demandId = "d-" ++ paddedText i)
    (hj : demand'.demandId = "d-" ++ paddedText j) {t t' : Transfer ℕ}
    (h : transferId demand t = transferId demand' t') : demand.demandId = demand'.demandId := by
  have hsuffix : ∀ (demand : RoutingDemand) (t : Transfer ℕ),
      ∃ text, transferId demand t = demand.demandId ++ ("-" ++ text) := by
    intro demand t
    have hr : "-r-" = "-" ++ "r-" := by decide
    have hs : "-s-" = "-" ++ "s-" := by decide
    cases t with
    | gather u v =>
      refine ⟨"r-" ++ toString u ++ "-" ++ toString v, ?_⟩
      simp only [transferId, reductionId, hr, String.append_assoc]
    | spread u v =>
      refine ⟨"s-" ++ toString u ++ "-" ++ toString v, ?_⟩
      simp only [transferId, sendId, hs, String.append_assoc]
  obtain ⟨a, ha⟩ := hsuffix demand t
  obtain ⟨b, hb⟩ := hsuffix demand' t'
  rw [ha, hb, hi, hj] at h
  rw [hi, hj, (demandText_inj h).1]

end Operations

end VeriCCL
