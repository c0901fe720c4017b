import VeriCCL.RouteSpace

/-! # Demands with one group key

Demands of one group differ in their position in the slices only.  A route's operations for one
are those for the other with the contributions moved (`physicalOperation_moved`), and the bans
that matter to them are the same, so they have the same legal routes
(`legalRoute_of_groupKey`). -/
namespace VeriCCL

section Moved
variable {inputs : ResolvedInput} {topology : Topology} {demand demand' : RoutingDemand} {route : Route}

/-- The contributions of the same ranks at another position. -/
def movedTo (inputs : ResolvedInput) (position : ℕ) (contributors : Finset ℕ) : Finset ℕ :=
  contributors.image fun c => c / inputs.sliceCount * inputs.sliceCount + position

theorem mem_movedTo {position c : ℕ} {contributors : Finset ℕ} : c ∈ movedTo inputs position contributors ↔
    ∃ a ∈ contributors, a / inputs.sliceCount * inputs.sliceCount + position = c := Finset.mem_image

theorem movedTo_union (position : ℕ) (a b : Finset ℕ) :
    movedTo inputs position (a ∪ b) = movedTo inputs position a ∪ movedTo inputs position b :=
  Finset.image_union _ _

theorem contribution_div {rank position : ℕ} (h : position < inputs.sliceCount) :
    (rank * inputs.sliceCount + position) / inputs.sliceCount = rank := by
  rw [Nat.mul_comm, Nat.mul_add_div inputs.sliceCount_pos, Nat.div_eq_of_lt h, Nat.add_zero]

theorem movedTo_singleton {rank l position : ℕ} (h : l < inputs.sliceCount) :
    movedTo inputs position {rank * inputs.sliceCount + l} = {rank * inputs.sliceCount + position} := by
  rw [movedTo, Finset.image_singleton, contribution_div h]

/-- An operation for one demand and the one for the other. -/
structure OperationMoved (inputs : ResolvedInput) (demand demand' : RoutingDemand)
    (op op' : RouteOperation) : Prop where
  edge : op'.edge = op.edge
  stage : op'.stageId = op.stageId
  contributors : op'.contributors = movedTo inputs demand'.logicalPosition op.contributors
  carried : op.contributors ⊆ demand.contributors

/-- The loop over the reduction edges for one demand and for the other. -/
structure ReductionMoved (inputs : ResolvedInput) (demand demand' : RoutingDemand)
    (s s' : Reduction) : Prop where
  operations : List.Forall₂ (OperationMoved inputs demand demand') s.operations s'.operations
  held : ∀ v, s'.contributors.get? v =
    (s.contributors.get? v).map (movedTo inputs demand'.logicalPosition)
  carried : ∀ v held, s.contributors.get? v = some held → held ⊆ demand.contributors

/-- The loop over the send edges for one demand and for the other. -/
structure DistributionMoved (inputs : ResolvedInput) (demand demand' : RoutingDemand)
    (s s' : Distribution) : Prop where
  operations : List.Forall₂ (OperationMoved inputs demand demand') s.operations s'.operations
  ready : s'.readyRanks = s.readyRanks

/-- Steps that match one by one match all together. -/
theorem foldlM_moved {σ α : Type} {R : σ → σ → Prop} {f f' : σ → α → Except Fault σ}
    (hstep : ∀ s s' a t, R s s' → f s a = .ok t → ∃ t', f' s' a = .ok t' ∧ R t t') (l : List α)
    {s s' t : σ} (h : R s s') (hrun : l.foldlM f s = .ok t) : ∃ t', l.foldlM f' s' = .ok t' ∧ R t t' := by
  induction l generalizing s s' with
  | nil =>
    rw [List.foldlM_nil, Checked.pure_ok] at hrun
    exact ⟨s', rfl, hrun ▸ h⟩
  | cons a l ih =>
    rw [List.foldlM_cons, Checked.bind_ok] at hrun
    obtain ⟨u, hfirst, hrest⟩ := hrun
    obtain ⟨u', hfirst', hu⟩ := hstep s s' a u h hfirst
    obtain ⟨t', hrest', ht⟩ := ih hu hrest
    exact ⟨t', by rw [List.foldlM_cons]; exact Checked.bind_ok.mpr ⟨u', hfirst', hrest'⟩, ht⟩

/-- **One reduction.** -/
theorem reduceEdge_moved {s s' t : Reduction} {edge : ℕ × ℕ}
    (h : ReductionMoved inputs demand demand' s s')
    (hrun : reduceEdge inputs topology demand s edge = .ok t) :
    ∃ t', reduceEdge inputs topology demand' s' edge = .ok t' ∧
      ReductionMoved inputs demand demand' t t' := by
  simp only [reduceEdge, Checked.bind_ok, Checked.required_ok, Checked.pure_ok] at hrun
  obtain ⟨held, hheld, link, hlink, prior, hprior, rfl⟩ := hrun
  have hheld' : s'.contributors.get? edge.1 = some (movedTo inputs demand'.logicalPosition held) := by
    rw [h.held, hheld, Option.map_some]
  have hprior' : s'.contributors.get? edge.2 = some (movedTo inputs demand'.logicalPosition prior) := by
    rw [h.held, hprior, Option.map_some]
  refine ⟨_, Checked.bind_ok.mpr ⟨_, Checked.required_ok.mpr hheld', Checked.bind_ok.mpr ⟨link, hlink,
    Checked.bind_ok.mpr ⟨_, Checked.required_ok.mpr hprior', rfl⟩⟩⟩, ?_, fun v => ?_, fun v own hown => ?_⟩
  · refine List.rel_append h.operations (.cons ⟨rfl, rfl, rfl, h.carried _ _ hheld⟩ .nil)
  · rw [Dict.get?_set, Dict.get?_set]
    split
    · rw [Option.map_some, movedTo_union]
    · exact h.held v
  · rw [Dict.get?_set] at hown
    split at hown
    · rw [← Option.some.inj hown]
      exact Finset.union_subset (h.carried _ _ hprior) (h.carried _ _ hheld)
    · exact h.carried v own hown

/-- **The loop over the reduction edges.** -/
theorem reduceRounds_moved {fuel : ℕ} {pending : List (ℕ × ℕ)} {s s' t : Reduction}
    (h : ReductionMoved inputs demand demand' s s')
    (hrun : reduceRounds inputs topology demand fuel pending s = .ok t) :
    ∃ t', reduceRounds inputs topology demand' fuel pending s' = .ok t' ∧
      ReductionMoved inputs demand demand' t t' := by
  induction fuel generalizing pending s s' with
  | zero =>
    cases pending with
    | nil =>
      obtain rfl : s = t := by simpa [reduceRounds] using hrun
      exact ⟨s', by simp [reduceRounds], h⟩
    | cons e pending => simp [reduceRounds] at hrun
  | succ fuel ih =>
    cases pending with
    | nil =>
      obtain rfl : s = t := by simpa [reduceRounds] using hrun
      exact ⟨s', by simp [reduceRounds], h⟩
    | cons e pending =>
      simp only [reduceRounds, Checked.bind_ok] at hrun
      obtain ⟨u, hready, v, hround, hrest⟩ := hrun
      obtain ⟨v', hround', hv⟩ := foldlM_moved (fun _ _ _ _ => reduceEdge_moved) _ h hround
      obtain ⟨t', hrest', ht⟩ := ih hv hrest
      refine ⟨t', ?_, ht⟩
      simp only [reduceRounds, Checked.bind_ok]
      exact ⟨u, hready, v', hround', hrest'⟩

/-- **One send.** -/
theorem sendEdge_moved (hmode : demand'.mode = demand.mode)
    (hcontributors : demand'.contributors = movedTo inputs demand'.logicalPosition demand.contributors)
    {s s' t : Distribution} {edge : ℕ × ℕ} (h : DistributionMoved inputs demand demand' s s')
    (hrun : sendEdge inputs topology demand s edge = .ok t) :
    ∃ t', sendEdge inputs topology demand' s' edge = .ok t' ∧
      DistributionMoved inputs demand demand' t t' := by
  simp only [sendEdge, Checked.bind_ok, Checked.ensure_ok, Checked.pure_ok] at hrun
  obtain ⟨_, hnew, link, hlink, rfl⟩ := hrun
  have hnew' : edge.2 ∉ s'.readyRanks := h.ready ▸ hnew
  have hstage : sendStage inputs demand' = sendStage inputs demand := by
    rw [sendStage, sendStage, hmode]
  refine ⟨_, Checked.bind_ok.mpr ⟨(), Checked.ensure_ok.mpr hnew',
    Checked.bind_ok.mpr ⟨link, hlink, rfl⟩⟩, ?_, ?_⟩
  · exact List.rel_append h.operations
      (.cons ⟨rfl, hstage, hcontributors, Finset.Subset.refl _⟩ .nil)
  · exact congrArg (insert edge.2) h.ready

/-- **The loop over the send edges.** -/
theorem sendRounds_moved (hmode : demand'.mode = demand.mode)
    (hcontributors : demand'.contributors = movedTo inputs demand'.logicalPosition demand.contributors)
    {fuel : ℕ} {pending : List (ℕ × ℕ)} {s s' t : Distribution}
    (h : DistributionMoved inputs demand demand' s s')
    (hrun : sendRounds inputs topology demand fuel pending s = .ok t) :
    ∃ t', sendRounds inputs topology demand' fuel pending s' = .ok t' ∧
      DistributionMoved inputs demand demand' t t' := by
  induction fuel generalizing pending s s' with
  | zero =>
    cases pending with
    | nil =>
      obtain rfl : s = t := by simpa [sendRounds] using hrun
      exact ⟨s', by simp [sendRounds], h⟩
    | cons e pending => simp [sendRounds] at hrun
  | succ fuel ih =>
    cases pending with
    | nil =>
      obtain rfl : s = t := by simpa [sendRounds] using hrun
      exact ⟨s', by simp [sendRounds], h⟩
    | cons e pending =>
      simp only [sendRounds, Checked.bind_ok] at hrun
      obtain ⟨u, hready, v, hround, hrest⟩ := hrun
      obtain ⟨v', hround', hv⟩ :=
        foldlM_moved (fun _ _ _ _ => sendEdge_moved hmode hcontributors) _ h hround
      obtain ⟨t', hrest', ht⟩ := ih hv hrest
      refine ⟨t', ?_, ht⟩
      simp only [sendRounds, Checked.bind_ok, h.ready]
      exact ⟨u, hready, v', hround', hrest'⟩

/-- **The operations of a route** for one demand are those for the other. -/
theorem physicalOperation_moved (hmode : demand'.mode = demand.mode)
    (hposition : demand.logicalPosition < inputs.sliceCount)
    (hcontributors : demand'.contributors = movedTo inputs demand'.logicalPosition demand.contributors)
    (hown : route.reduceEdges ≠ [] →
      ∀ rank < inputs.rankCount, ownContribution inputs demand rank ⊆ demand.contributors)
    {operations : List RouteOperation}
    (h : physicalOperation inputs topology demand route = .ok operations) :
    ∃ operations', physicalOperation inputs topology demand' route = .ok operations' ∧
      List.Forall₂ (OperationMoved inputs demand demand') operations operations' := by
  simp only [physicalOperation, Checked.bind_ok, Checked.pure_ok] at h
  obtain ⟨reduced, hreduced, sent, hsent, rfl⟩ := h
  have hstart : ReductionMoved inputs demand demand' (Reduction.start inputs demand route)
      (Reduction.start inputs demand' route) := by
    refine ⟨.nil, fun v => ?_, fun v held hheld => ?_⟩
    · rw [start_get?, start_get?]
      split
      · rw [Option.map_some, ownContribution, ownContribution, movedTo_singleton hposition]
      · rfl
    · rw [start_get?] at hheld
      split at hheld
      · next hrank => exact Option.some.inj hheld ▸ hown hrank.1 v hrank.2
      · cases hheld
  obtain ⟨reduced', hreduced', hr⟩ := reduceRounds_moved hstart hreduced
  have hfirst : DistributionMoved inputs demand demand' (reduced.distribute route)
      (reduced'.distribute route) := ⟨hr.operations, rfl⟩
  obtain ⟨sent', hsent', hs⟩ := sendRounds_moved hmode hcontributors hfirst hsent
  refine ⟨sent'.operations, ?_, hs.operations⟩
  exact Checked.bind_ok.mpr ⟨reduced', hreduced', Checked.bind_ok.mpr ⟨sent', hsent', rfl⟩⟩

end Moved

/-! ## What is allowed -/

section Allowed
variable {inputs : ResolvedInput} {topology : Topology} {demand demand' : RoutingDemand} {route : Route}
  {constraints : ConstraintSet}

theorem allowsAll_ok {operations : List RouteOperation} :
    allowsAll inputs constraints operations = .ok true ↔ ∀ op ∈ operations,
      constraints.allows (sourceRanges inputs op.contributors) op.edge.1 op.edge.2 op.stageId =
        .ok true := by
  induction operations with
  | nil => simp [allowsAll]
  | cons op operations ih =>
    rw [allowsAll, Checked.bind_ok, List.forall_mem_cons, ← ih]
    constructor
    · rintro ⟨allowed, hallowed, hrest⟩
      cases allowed with
      | true => exact ⟨hallowed, hrest⟩
      | false => simp at hrest
    · rintro ⟨hallowed, hrest⟩
      exact ⟨true, hallowed, hrest⟩

theorem mem_sourceRanges {contributors : Finset ℕ} {range : DataRange} :
    range ∈ sourceRanges inputs contributors ↔ ∃ c ∈ contributors,
      range.sourceRank = c / inputs.sliceCount ∧
      range.start = c % inputs.sliceCount * inputs.sliceSizeBytes ∧
      range.stop = (c % inputs.sliceCount + 1) * inputs.sliceSizeBytes := by
  simp only [sourceRanges, List.mem_map, Finset.mem_sort]
  constructor
  · rintro ⟨c, hc, rfl⟩
    exact ⟨c, hc, rfl, rfl, rfl⟩
  · rintro ⟨c, hc, hrank, hstart, hstop⟩
    refine ⟨c, hc, ?_⟩
    cases range
    simp_all

theorem sourceRanges_eq_nil {contributors : Finset ℕ} :
    sourceRanges inputs contributors = [] ↔ contributors = ∅ := by
  rw [sourceRanges, List.map_eq_nil_iff]
  constructor
  · intro h
    have := Finset.length_sort (· ≤ ·) (s := contributors)
    rw [h] at this
    exact Finset.card_eq_zero.mp this.symm
  · rintro rfl
    exact Finset.sort_empty _

/-- The bans that a group key tells apart. -/
def restrictionsAt (inputs : ResolvedInput) (demand : RoutingDemand) (constraints : ConstraintSet) :
    List (ℕ × ℕ × ℕ × ℕ) :=
  (constraints.bans.filter fun ban =>
    ban.data.sourceRank ∈ demand.contributors.image (· / inputs.sliceCount) ∧
      max (demand.logicalPosition * inputs.sliceSizeBytes) ban.data.start <
        min ((demand.logicalPosition + 1) * inputs.sliceSizeBytes) ban.data.stop).map
    fun ban => (ban.data.sourceRank, ban.srcRank, ban.dstRank, ban.stageId)

/-- A ban meets contributions at one position exactly when it is a restriction of one of their
ranks. -/
theorem banned_iff {contributors : Finset ℕ} (hsub : contributors ⊆ demand.contributors)
    (hposition : ∀ c ∈ contributors, c % inputs.sliceCount = demand.logicalPosition)
    {srcRank dstRank stageId : ℕ} :
    (∃ ban ∈ constraints.bans, (ban.srcRank = srcRank ∧ ban.dstRank = dstRank ∧
        ban.stageId = stageId) ∧ ∃ piece ∈ sourceRanges inputs contributors, ban.data.intersects piece) ↔
      ∃ rank ∈ contributors.image (· / inputs.sliceCount),
        (rank, srcRank, dstRank, stageId) ∈ restrictionsAt inputs demand constraints := by
  simp only [restrictionsAt, List.mem_map, List.mem_filter, decide_eq_true_eq, mem_sourceRanges,
    DataRange.intersects, Prod.mk.injEq]
  constructor
  · rintro ⟨ban, hban, ⟨rfl, rfl, rfl⟩, piece, ⟨c, hc, hrank, hstart, hstop⟩, hsame, hmeets⟩
    have hmem : ban.data.sourceRank ∈ contributors.image (· / inputs.sliceCount) :=
      Finset.mem_image.mpr ⟨c, hc, (hsame.trans hrank).symm⟩
    refine ⟨_, hmem, ban, ⟨hban, Finset.image_subset_image hsub hmem, ?_⟩, rfl, rfl, rfl, rfl⟩
    rw [hstart, hstop, hposition c hc] at hmeets
    rwa [max_comm, min_comm]
  · rintro ⟨rank, hrank, ban, ⟨hban, -, hmeets⟩, rfl, rfl, rfl, rfl⟩
    obtain ⟨c, hc, hsame⟩ := Finset.mem_image.mp hrank
    refine ⟨ban, hban, ⟨rfl, rfl, rfl⟩, ⟨c / inputs.sliceCount,
      c % inputs.sliceCount * inputs.sliceSizeBytes, (c % inputs.sliceCount + 1) * inputs.sliceSizeBytes,
      Nat.mul_lt_mul_of_pos_right (Nat.lt_succ_self _) inputs.slice_pos⟩, ⟨c, hc, rfl, rfl, rfl⟩,
      hsame.symm, ?_⟩
    rw [hposition c hc, max_comm, min_comm]
    exact hmeets

/-- Demands of which one is the other at another position, with the same bans. -/
structure DemandMoved (inputs : ResolvedInput) (constraints : ConstraintSet)
    (demand demand' : RoutingDemand) : Prop where
  mode : demand'.mode = demand.mode
  position : demand.logicalPosition < inputs.sliceCount
  position' : demand'.logicalPosition < inputs.sliceCount
  at_position : ∀ c ∈ demand.contributors, c % inputs.sliceCount = demand.logicalPosition
  contributors : demand'.contributors =
    movedTo inputs demand'.logicalPosition demand.contributors
  restrictions : restrictionsAt inputs demand' constraints = restrictionsAt inputs demand constraints

theorem image_movedTo {position : ℕ} (h : position < inputs.sliceCount) (contributors : Finset ℕ) :
    (movedTo inputs position contributors).image (· / inputs.sliceCount) =
      contributors.image (· / inputs.sliceCount) := by
  rw [movedTo, Finset.image_image]
  refine Finset.image_congr fun c _ => ?_
  exact contribution_div h

/-- **What is allowed for one demand is allowed for the other.** -/
theorem DemandMoved.allows (h : DemandMoved inputs constraints demand demand')
    {op op' : RouteOperation} (hop : OperationMoved inputs demand demand' op op')
    (hallowed : constraints.allows (sourceRanges inputs op.contributors) op.edge.1 op.edge.2
      op.stageId = .ok true) :
    constraints.allows (sourceRanges inputs op'.contributors) op'.edge.1 op'.edge.2 op'.stageId =
      .ok true := by
  obtain ⟨hsrc, hdst, hne, hstage, hnil, hban⟩ := allows_ok.mp hallowed
  rw [hop.edge, hop.stage, hop.contributors]
  refine allows_ok.mpr ⟨hsrc, hdst, hne, hstage, ?_, ?_⟩
  · rw [ne_eq, sourceRanges_eq_nil] at hnil ⊢
    rwa [movedTo, Finset.image_eq_empty]
  · have hsub : movedTo inputs demand'.logicalPosition op.contributors ⊆ demand'.contributors := by
      rw [h.contributors]
      exact Finset.image_subset_image hop.carried
    have hposition : ∀ c ∈ movedTo inputs demand'.logicalPosition op.contributors,
        c % inputs.sliceCount = demand'.logicalPosition := by
      intro c hc
      obtain ⟨a, -, rfl⟩ := mem_movedTo.mp hc
      rw [Nat.mul_comm, Nat.mul_add_mod, Nat.mod_eq_of_lt h.position']
    rw [banned_iff hsub hposition, image_movedTo h.position', h.restrictions]
    rwa [banned_iff hop.carried fun c hc => h.at_position c (hop.carried hc)] at hban

theorem DemandMoved.allowsAll (h : DemandMoved inputs constraints demand demand')
    {operations operations' : List RouteOperation}
    (hall : List.Forall₂ (OperationMoved inputs demand demand') operations operations')
    (hallowed : VeriCCL.allowsAll inputs constraints operations = .ok true) :
    VeriCCL.allowsAll inputs constraints operations' = .ok true := by
  rw [allowsAll_ok] at hallowed ⊢
  induction hall with
  | nil => simp
  | cons hop _ ih =>
    rw [List.forall_mem_cons] at hallowed ⊢
    exact ⟨h.allows hop hallowed.1, ih hallowed.2⟩

end Allowed

/-! ## Group keys -/

section Keys
variable {inputs : ResolvedInput} {topology : Topology} {demand demand' : RoutingDemand} {route : Route}
  {links : List (ℕ × ℕ)}

/-- What a group key tells of a demand. -/
theorem groupKey_ok {key : RouteMode × Option ℕ × List ℕ × List (ℕ × ℕ × ℕ × ℕ)} :
    groupKey inputs demand = .ok key ↔ ∃ constraints, bindConstraints inputs = .ok constraints ∧
      key = (demand.mode, demand.sourceRank, demand.destinations,
        restrictionsAt inputs demand constraints) := by
  simp only [groupKey, Checked.bind_ok, Checked.pure_ok]
  exact exists_congr fun _ => and_congr_right fun _ => eq_comm

theorem RoutingDemand.OfRequest.at_position (hd : demand.OfRequest inputs) :
    ∀ c ∈ demand.contributors, c % inputs.sliceCount = demand.logicalPosition := by
  have hmod : ∀ rank, (rank * inputs.sliceCount + demand.logicalPosition) % inputs.sliceCount =
      demand.logicalPosition := by
    intro rank
    rw [Nat.mul_comm, Nat.mul_add_mod, Nat.mod_eq_of_lt hd.position]
  intro c hc
  by_cases hmode : demand.mode.spreading
  · obtain ⟨source, -, -, hcontributors⟩ := hd.spread hmode
    rw [hcontributors, Finset.mem_singleton] at hc
    exact hc ▸ hmod source
  · rw [hd.gather hmode] at hc
    obtain ⟨rank, -, rfl⟩ := mem_aggregate.mp hc
    exact hmod rank

/-- Demands of one group are one demand at two positions. -/
theorem demandMoved_of_groupKey (hd : demand.OfRequest inputs) (hd' : demand'.OfRequest inputs)
    {key : RouteMode × Option ℕ × List ℕ × List (ℕ × ℕ × ℕ × ℕ)}
    (h : groupKey inputs demand = .ok key) (h' : groupKey inputs demand' = .ok key)
    {constraints : ConstraintSet} (hconstraints : bindConstraints inputs = .ok constraints) :
    DemandMoved inputs constraints demand demand' := by
  obtain ⟨bound, hbound, rfl⟩ := groupKey_ok.mp h
  obtain ⟨bound', hbound', hkey⟩ := groupKey_ok.mp h'
  obtain rfl : bound = constraints := Except.ok.inj (hbound.symm.trans hconstraints)
  obtain rfl : bound' = bound := Except.ok.inj (hbound'.symm.trans hbound)
  simp only [Prod.mk.injEq] at hkey
  obtain ⟨hmode, hsource, -, hrestrictions⟩ := hkey
  refine ⟨hmode.symm, hd.position, hd'.position, hd.at_position, ?_, hrestrictions.symm⟩
  by_cases hspread : demand.mode.spreading
  · obtain ⟨source, -, hs, hcontributors⟩ := hd.spread hspread
    obtain ⟨source', -, hs', hcontributors'⟩ := hd'.spread (hmode ▸ hspread)
    obtain rfl : source = source' := Option.some.inj (hs.symm.trans (hsource.trans hs'))
    rw [hcontributors, hcontributors', movedTo_singleton hd.position]
  · rw [hd.gather hspread, hd'.gather (hmode ▸ hspread)]
    ext c
    simp only [mem_movedTo, mem_aggregate, exists_exists_and_eq_and, contribution_div hd.position]

/-- The routes of the demands of a group are the same. -/
theorem routeOf_of_groupKey {rankCount : ℕ} {key : RouteMode × Option ℕ × List ℕ × List (ℕ × ℕ × ℕ × ℕ)}
    (h : groupKey inputs demand = .ok key) (h' : groupKey inputs demand' = .ok key)
    (hroute : RouteOf rankCount links demand route) : RouteOf rankCount links demand' route := by
  obtain ⟨_, -, rfl⟩ := groupKey_ok.mp h
  obtain ⟨_, -, hkey⟩ := groupKey_ok.mp h'
  simp only [Prod.mk.injEq] at hkey
  obtain ⟨hmode, hsource, hdestinations, -⟩ := hkey
  cases hroute with
  | path m s d p => exact .path (hmode ▸ m) (hsource ▸ s) (hdestinations ▸ d) p
  | broadcast m s t => exact .broadcast (hmode ▸ m) (hsource ▸ s) t
  | reduce m d t => exact .reduce (hmode ▸ m) (hdestinations ▸ d) t
  | allreduce m r i o => exact .allreduce (hmode ▸ m) r i o

/-- Ranks reduce only for demands that need what all ranks have. -/
theorem RouteOf.own_subset {rankCount : ℕ} (h : RouteOf rankCount links demand route)
    (hd : demand.OfRequest inputs) (hne : route.reduceEdges ≠ []) {rank : ℕ}
    (hrank : rank < inputs.rankCount) : ownContribution inputs demand rank ⊆ demand.contributors := by
  have hgather : ¬ demand.mode.spreading := by
    cases h with
    | path => exact absurd rfl hne
    | broadcast => exact absurd rfl hne
    | reduce hmode => simp [RouteMode.spreading, hmode]
    | allreduce hmode => simp [RouteMode.spreading, hmode]
  rw [hd.gather hgather, ownContribution, Finset.singleton_subset_iff]
  exact mem_aggregate.mpr ⟨rank, hrank, rfl⟩

/-- **Demands with one group key have the same legal routes.** -/
theorem legalRoute_of_groupKey (hd : demand.OfRequest inputs) (hd' : demand'.OfRequest inputs)
    {key : RouteMode × Option ℕ × List ℕ × List (ℕ × ℕ × ℕ × ℕ)}
    (h : groupKey inputs demand = .ok key) (h' : groupKey inputs demand' = .ok key)
    (hroute : RouteOf inputs.rankCount links demand route)
    (hlegal : legalRoute inputs topology demand route = .ok true) :
    legalRoute inputs topology demand' route = .ok true := by
  simp only [legalRoute, Checked.bind_ok] at hlegal ⊢
  obtain ⟨constraints, hconstraints, operations, hoperations, hallowed⟩ := hlegal
  have hmoved := demandMoved_of_groupKey hd hd' h h' hconstraints
  obtain ⟨operations', hoperations', hall⟩ := physicalOperation_moved hmoved.mode hmoved.position
    hmoved.contributors (fun hne rank hrank => hroute.own_subset hd hne hrank) hoperations
  exact ⟨constraints, hconstraints, operations', hoperations', hmoved.allowsAll hall hallowed⟩

end Keys

end VeriCCL
