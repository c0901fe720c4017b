import VeriCCL.RouteSelection

/-! # Every answer is solved

A bundle of legal routes passes the check (`right_of_legal`), so a solve returns for every answer
that gives each variable a number, or none (`solve_total`). -/
namespace VeriCCL

section Legal
variable {inputs : ResolvedInput} {topology : Topology} {demand : RoutingDemand} {route : Route}
  {demands : List RoutingDemand} {group : RouteGroup}

/-- **Every route of a demand is shaped like a tree.** -/
theorem RouteOf.treeShaped (h : RouteOf inputs.rankCount topology.links.keys demand route)
    (hd : demand.OfRequest inputs) : TreeShaped inputs demand route := by
  have hranks : ∀ rank ∈ demand.destinations, rank ∈ (List.range inputs.rankCount).toFinset :=
    fun rank hrank => by simpa using hd.ranks rank hrank
  cases h with
  | path hmode hsource hdestination hpath =>
    obtain ⟨⟨V, htree, htarget⟩, -⟩ := mem_paths_tree (mem_paths.mpr ⟨_, hpath, rfl⟩)
    refine ⟨fun _ => ⟨rfl, hsource⟩, fun h => absurd (.inr hmode) h, V, htree, ?_⟩
    rw [hdestination]
    simpa using htarget
  | broadcast hmode hsource htree =>
    exact ⟨fun _ => ⟨rfl, hsource⟩, fun h => absurd (.inl hmode) h, _, htree.spans, hranks⟩
  | reduce hmode hdestination htree =>
    refine ⟨fun h => by simp [RouteMode.spreading, hmode] at h, fun _ => htree.spans, _,
      Arborescence.single _, ?_⟩
    simp [hdestination]
  | allreduce hmode _ hin hout =>
    exact ⟨fun h => by simp [RouteMode.spreading, hmode] at h, fun _ => hin.spans, _, hout.spans,
      hranks⟩

/-- **A column of a group is a legal route of each of its demands.** -/
theorem RouteGroup.Held.legal (h : group.Held inputs topology demands)
    (htopology : topology.OfRanks inputs.rankCount) (hdemands : routingDemands inputs = .ok demands)
    (hroute : route ∈ group.columns) (hdemand : demand ∈ group.demands) :
    RouteOf inputs.rankCount topology.links.keys demand route ∧
      legalRoute inputs topology demand route = .ok true := by
  obtain ⟨first, rest, hfirst, hcolumns, -⟩ := h.first
  obtain ⟨key, hkey⟩ := h.key
  have hmem : first ∈ group.demands := hfirst ▸ List.mem_cons_self
  have hd := routingDemands_ofRequest hdemands (hkey first hmem).1
  have hd' := routingDemands_ofRequest hdemands (hkey demand hdemand).1
  have hcolumn : route ∈ (VeriCCL.columns inputs topology first).routes :=
    hcolumns ▸ List.mem_append_left _ hroute
  unfold VeriCCL.columns at hcolumn
  cases hroutes : candidateRoutes inputs topology first with
  | error fault => simp [hroutes] at hcolumn
  | ok routes =>
    simp only [hroutes] at hcolumn
    obtain ⟨hcandidate, hlegal⟩ := mem_keepLegal hcolumn
    have hrouteOf := (mem_candidateRoutes htopology hd hroutes).mp hcandidate
    exact ⟨routeOf_of_groupKey (hkey first hmem).2 (hkey demand hdemand).2 hrouteOf,
      legalRoute_of_groupKey hd hd' (hkey first hmem).2 (hkey demand hdemand).2 hrouteOf hlegal⟩

/-- What a legal route is made of. -/
theorem legalRoute_ok (h : legalRoute inputs topology demand route = .ok true) :
    ∃ constraints operations, bindConstraints inputs = .ok constraints ∧
      physicalOperation inputs topology demand route = .ok operations ∧
      ∀ op ∈ operations, constraints.allows (sourceRanges inputs op.contributors) op.edge.1 op.edge.2
        op.stageId = .ok true := by
  simp only [legalRoute, Checked.bind_ok] at h
  obtain ⟨constraints, hconstraints, operations, hoperations, hallowed⟩ := h
  exact ⟨constraints, operations, hconstraints, hoperations, allowsAll_ok.mp hallowed⟩

end Legal

/-! ## Bundles of legal routes -/

section Right
variable {bundle : RouteBundle}

/-- **A bundle of legal routes is right.** -/
theorem right_of_legal (hdemands : routingDemands bundle.inputs = .ok bundle.demands)
    {constraints : ConstraintSet} (hconstraints : bindConstraints bundle.inputs = .ok constraints)
    (hassigned : (bundle.items.map (·.1)).Perm (bundle.demands.map (·.demandId)))
    (hlegal : ∀ item ∈ bundle.items, ∃ demand ∈ bundle.demands, demand.demandId = item.1 ∧
      RouteOf bundle.inputs.rankCount bundle.topology.links.keys demand item.2 ∧
      legalRoute bundle.inputs bundle.topology demand item.2 = .ok true)
    {all : List (List RouteOperation)} (hall : bundle.items.mapM bundle.itemOperations = .ok all)
    (hoperations : bundle.operations = all.flatten) : bundle.Right := by
  rw [bundle.items_fst] at hassigned
  have hdistinct : (bundle.operations.map (·.operationId)).Nodup := by
    rw [hoperations]
    exact canonical_nodup hdemands hassigned hall
  have hlisted : ∀ op, op ∈ bundle.operations ↔ ∃ item ∈ bundle.items, ∃ operations,
      bundle.itemOperations item = .ok operations ∧ op ∈ operations := by
    intro op
    rw [hoperations]
    exact mem_itemOperations hall
  have hphysical : ∀ item ∈ bundle.items, ∃ operations, bundle.itemOperations item = .ok operations := by
    intro item hitem
    obtain ⟨operations, -, h⟩ := Checked.mapM_left hall hitem
    exact ⟨operations, h⟩
  -- a demand's operations are those of its one route
  have hown : ∀ demand ∈ bundle.demands, ∃ route operations,
      RouteOf bundle.inputs.rankCount bundle.topology.links.keys demand route ∧
      physicalOperation bundle.inputs bundle.topology demand route = .ok operations ∧
      (bundle.operationsOf demand).Perm operations := by
    intro demand hmem
    obtain ⟨route, hitem⟩ := item_of_demand hassigned hmem
    obtain ⟨other, hother, hid, hrouteOf, hlegal⟩ := hlegal _ hitem
    obtain rfl := List.inj_on_of_nodup_map (routingDemands_nodup hdemands) hother hmem hid
    obtain ⟨_, operations, -, hop, -⟩ := legalRoute_ok hlegal
    exact ⟨route, operations, hrouteOf, hop,
      operationsOf_perm hdemands hassigned hdistinct hlisted hmem hitem hop⟩
  refine ⟨hassigned, hdistinct, hphysical, hlisted, ⟨constraints, hconstraints, fun op hop => ?_⟩,
    fun demand hmem identifier => ?_, fun demand hmem order horder => ?_⟩
  · obtain ⟨item, hitem, operations, hop', hin⟩ := (hlisted op).mp hop
    obtain ⟨-, demand, hmem, hid, hphysical⟩ := itemOperations_mem hdemands hassigned hitem hop'
    obtain ⟨other, hother, hid', -, hlegal⟩ := hlegal item hitem
    obtain rfl := List.inj_on_of_nodup_map (routingDemands_nodup hdemands) hother hmem
      (hid'.trans hid.symm)
    obtain ⟨bound, operations', hbound, hphysical', hallowed⟩ := legalRoute_ok hlegal
    obtain rfl : constraints = bound := Except.ok.inj (hconstraints.symm.trans hbound)
    obtain rfl : operations = operations' := Except.ok.inj (hphysical.symm.trans hphysical')
    exact hallowed op hin
  · obtain ⟨route, operations, -, hphysical, hperm⟩ := hown demand hmem
    obtain ⟨carried, transfers, hplanned, -⟩ :=
      physicalOperation_plan hphysical (carriedAlone bundle.inputs demand)
    exact (hplanned.linear.of_perm hperm.symm).acyclic (physicalOperation_nodup hphysical) identifier
  · obtain ⟨route, operations, hrouteOf, hphysical, hperm⟩ := hown demand hmem
    have hd := routingDemands_ofRequest hdemands hmem
    exact (hrouteOf.treeShaped hd).delivers hd hphysical (horder.of_perm hperm)

end Right

/-! ## Every answer is solved -/

section Total
variable {inputs : ResolvedInput} {topology : Topology} {costs : RouteCosts}
  {demands : List RoutingDemand} {search : RouteSearch} {route : Route}

/-- A topology declares the cost of all its links, and the capacity of all its shared resources. -/
structure RouteCosts.Declares (costs : RouteCosts) (topology : Topology) : Prop where
  betas : ∀ entry ∈ costs.beta, entry.2 ≠ none
  capacities : ∀ entry ∈ costs.capacity, entry.2 ≠ none
  links : ∀ edge ∈ topology.links.keys, edge ∈ costs.beta.keys
  resources : ∀ edge ∈ topology.links.keys, ∀ resource ∈ linkResources topology edge,
    resource ∈ costs.capacity.keys

theorem routeCapacities_total (h : costs.Declares topology) (size : ℕ) :
    ∃ times, routeCapacities costs size = .ok times := by
  have hlinks : ∃ links, (costs.beta.mapM fun entry => do
      let beta ← Checked.required entry.2
        (Fault.semantic "constructive routing requires a declared per-byte link cost")
      return (entry.1, beta * (size : ℚ))) = .ok links := by
    refine Checked.mapM_total fun entry hentry => ?_
    obtain ⟨beta, hbeta⟩ := Option.ne_none_iff_exists'.mp (h.betas entry hentry)
    exact ⟨_, Checked.bind_ok.mpr ⟨beta, Checked.required_ok.mpr hbeta, rfl⟩⟩
  have hresources : ∃ resources, (costs.capacity.mapM fun entry => do
      let capacity ← Checked.required entry.2
        (Fault.semantic "constructive routing requires explicit shared-resource capacity")
      return (entry.1, (size : ℚ) / capacity)) = .ok resources := by
    refine Checked.mapM_total fun entry hentry => ?_
    obtain ⟨capacity, hcapacity⟩ := Option.ne_none_iff_exists'.mp (h.capacities entry hentry)
    exact ⟨_, Checked.bind_ok.mpr ⟨capacity, Checked.required_ok.mpr hcapacity, rfl⟩⟩
  obtain ⟨links, hlinks⟩ := hlinks
  obtain ⟨resources, hresources⟩ := hresources
  exact ⟨_, Checked.bind_ok.mpr ⟨links, hlinks, Checked.bind_ok.mpr ⟨resources, hresources, rfl⟩⟩⟩

theorem mem_keys_of_link {edge : ℕ × ℕ} {link : DirectedLink}
    (h : topology.link edge.1 edge.2 = .ok link) : edge ∈ topology.links.keys := by
  simp only [Topology.link, Checked.bind_ok, Checked.required_ok] at h
  obtain ⟨-, -, hget⟩ := h
  exact Dict.get?_isSome.mp ⟨link, hget⟩

/-- The links of a route that has operations. -/
theorem links_of_physical {demand : RoutingDemand} {operations : List RouteOperation}
    (h : physicalOperation inputs topology demand route = .ok operations) :
    ∀ edge ∈ route.edges, ∃ link, topology.link edge.1 edge.2 = .ok link := by
  obtain ⟨carried, transfers, hplanned, -⟩ := physicalOperation_plan h (carriedAlone inputs demand)
  exact hplanned.links

theorem routeLoads_total (h : ∀ edge ∈ route.edges, ∃ link, topology.link edge.1 edge.2 = .ok link) :
    ∃ loads, routeLoads topology route = .ok loads := by
  obtain ⟨links, hlinks⟩ := Checked.mapM_total h
  exact ⟨_, Checked.bind_ok.mpr ⟨links, hlinks, rfl⟩⟩

theorem columnsLoads_total {routes : List Route}
    (h : ∀ route ∈ routes, ∃ loads, routeLoads topology route = .ok loads)
    (data : Dict Route RouteLoads) : ∃ result, columnsLoads topology data routes = .ok result := by
  induction routes generalizing data with
  | nil => exact ⟨_, rfl⟩
  | cons route routes ih =>
    have hfirst : ∃ result, columnLoads topology data route = .ok result := by
      unfold columnLoads
      cases data.get? route with
      | some loads => exact ⟨_, rfl⟩
      | none =>
        obtain ⟨loads, hloads⟩ := h route List.mem_cons_self
        exact ⟨_, Checked.bind_ok.mpr ⟨loads, hloads, rfl⟩⟩
    obtain ⟨⟨loads, data'⟩, hloads⟩ := hfirst
    obtain ⟨⟨rest, data''⟩, hrest⟩ := ih (fun r hr => h r (List.mem_cons_of_mem _ hr)) data'
    exact ⟨_, Checked.bind_ok.mpr ⟨_, hloads, Checked.bind_ok.mpr ⟨_, hrest, rfl⟩⟩⟩

theorem groupsLoads_total {groups : List RouteGroup} (hne : ∀ group ∈ groups, group.columns ≠ [])
    (h : ∀ group ∈ groups, ∀ route ∈ group.columns, ∃ loads, routeLoads topology route = .ok loads)
    (data : Dict Route RouteLoads) : ∃ result, groupsLoads topology data groups = .ok result := by
  induction groups generalizing data with
  | nil => exact ⟨_, rfl⟩
  | cons group groups ih =>
    obtain ⟨⟨loads, data'⟩, hloads⟩ := columnsLoads_total (h group List.mem_cons_self) data
    obtain ⟨⟨rest, data''⟩, hrest⟩ := ih (fun g hg => hne g (List.mem_cons_of_mem _ hg))
      (fun g hg => h g (List.mem_cons_of_mem _ hg)) data'
    exact ⟨_, Checked.bind_ok.mpr ⟨(), Checked.ensure_ok.mpr (hne group List.mem_cons_self),
      Checked.bind_ok.mpr ⟨_, hloads, Checked.bind_ok.mpr ⟨_, hrest, rfl⟩⟩⟩⟩

/-- An answer that has a number for each variable, or no solution. -/
def Readable (search : RouteSearch) (answer : Option Solution) : Prop :=
  ∀ solution ∈ answer, ∀ i group, search.groups[i]? = some group → ∀ j < group.columns.length,
    ∃ value, solution.get? (copiesName i j) = some (some value)

theorem proposedCounts_total {solution : Solution} (h : Readable search (some solution)) :
    ∃ proposed, proposedCounts search solution = .ok proposed := by
  refine Checked.mapM_total fun group hgroup => Checked.mapM_total fun column hcolumn => ?_
  have hindex := List.mem_zipIdx_iff_getElem?.mp hgroup
  have hlt : column.2 < group.1.columns.length := by
    simpa using List.snd_lt_of_mem_zipIdx hcolumn
  obtain ⟨value, hvalue⟩ := h solution rfl group.2 group.1 hindex column.2 hlt
  exact ⟨_, Checked.bind_ok.mpr ⟨some value, Checked.required_ok.mpr hvalue,
    Checked.bind_ok.mpr ⟨value, rfl, rfl⟩⟩⟩

theorem initialCounts_total (hs : search.Sound inputs topology costs demands)
    (hids : (demands.map (·.demandId)).Nodup) : ∃ counts, initialCounts search = .ok counts := by
  unfold initialCounts
  cases hincumbent : search.incumbent with
  | none => exact ⟨_, rfl⟩
  | some incumbent =>
    have hsound := hs.incumbent incumbent hincumbent
    have hnodup : (incumbent.items.map (·.1)).Nodup := hsound.ids.nodup_iff.mpr hids
    refine Checked.mapM_total fun group hgroup => ?_
    have htaken : ∃ taken, (group.demands.mapM fun demand =>
        Checked.required ((Dict.ofList incumbent.items).get? demand.demandId)
          (Fault.missing demand.demandId)) = .ok taken := by
      refine Checked.mapM_total fun demand hdemand => ?_
      obtain ⟨route, -, hitem⟩ := hsound.routes group hgroup demand hdemand
      exact ⟨route, Checked.required_ok.mpr ((Dict.ofList_get? hnodup).mpr hitem)⟩
    obtain ⟨taken, htaken⟩ := htaken
    exact ⟨_, Checked.bind_ok.mpr ⟨taken, htaken, rfl⟩⟩

theorem chosenCounts_total (hs : search.Sound inputs topology costs demands)
    (hids : (demands.map (·.demandId)).Nodup) {answer : Option Solution}
    (hanswer : Readable search answer) (times : SliceTimes) (loads : List (List RouteLoads)) :
    ∃ counts, chosenCounts search times loads answer = .ok counts := by
  obtain ⟨initial, hinitial⟩ := initialCounts_total hs hids
  cases answer with
  | none => exact ⟨initial, Checked.bind_ok.mpr ⟨initial, hinitial, rfl⟩⟩
  | some solution =>
    obtain ⟨proposed, hproposed⟩ := proposedCounts_total hanswer
    simp only [chosenCounts, Checked.bind_ok]
    by_cases hgood : validCounts search proposed ∧
        countsCost times loads (proposed.map (·.map Int.toNat)) ≤ countsCost times loads initial
    · exact ⟨_, initial, hinitial, proposed, hproposed, if_pos hgood⟩
    · exact ⟨_, initial, hinitial, proposed, hproposed, if_neg hgood⟩

end Total

/-! ## Bundles of allocations -/

section Allocated
variable {inputs : ResolvedInput} {topology : Topology} {costs : RouteCosts}
  {demands : List RoutingDemand} {allocations : List RouteAllocation} {bundle : RouteBundle}
  {parts : List (RouteLoads × ℕ × List RouteOperation)}

/-- Demands that take a legal route. -/
structure LegalAllocation (inputs : ResolvedInput) (topology : Topology) (demands : List RoutingDemand)
    (allocation : RouteAllocation) : Prop where
  links : ∀ edge ∈ allocation.route.edges, ∃ link, topology.link edge.1 edge.2 = .ok link
  legal : ∀ identifier ∈ allocation.demandIds, ∃ demand ∈ demands, demand.demandId = identifier ∧
    RouteOf inputs.rankCount topology.links.keys demand allocation.route ∧
    legalRoute inputs topology demand allocation.route = .ok true

theorem byId_get? (hids : (demands.map (·.demandId)).Nodup) {demand : RoutingDemand}
    (hmem : demand ∈ demands) :
    (Dict.ofList (demands.map fun demand : RoutingDemand => (demand.demandId, demand))).get?
      demand.demandId = some demand := by
  refine (Dict.ofList_get? ?_).mpr (List.mem_map_of_mem hmem)
  rw [List.map_map]
  exact hids

theorem allocatedOperations_total (hids : (demands.map (·.demandId)).Nodup)
    {allocation : RouteAllocation} (h : LegalAllocation inputs topology demands allocation) :
    ∃ operations, allocatedOperations inputs topology demands allocation = .ok operations := by
  have hall : ∃ operations, (allocation.demandIds.mapM fun identifier => do
      let demand ← Checked.required
        ((Dict.ofList (demands.map fun demand : RoutingDemand => (demand.demandId, demand))).get?
          identifier) (Fault.missing identifier)
      physicalOperation inputs topology demand allocation.route) = .ok operations := by
    refine Checked.mapM_total fun identifier hid => ?_
    obtain ⟨demand, hmem, rfl, -, hlegal⟩ := h.legal identifier hid
    obtain ⟨_, operations, -, hoperations, -⟩ := legalRoute_ok hlegal
    exact ⟨operations, Checked.bind_ok.mpr
      ⟨demand, Checked.required_ok.mpr (byId_get? hids hmem), hoperations⟩⟩
  obtain ⟨operations, hoperations⟩ := hall
  exact ⟨_, Checked.bind_ok.mpr ⟨operations, hoperations, rfl⟩⟩

/-- The operations of allocations are those of what they carry. -/
theorem itemOperations_allocated (hids : (bundle.demands.map (·.demandId)).Nodup)
    (hlegal : ∀ allocation ∈ allocations,
      LegalAllocation bundle.inputs bundle.topology bundle.demands allocation)
    (hparts : List.Forall₂ (allocationParts bundle.inputs bundle.topology bundle.demands)
      allocations parts) : ∃ all, (allocatedItems allocations).mapM bundle.itemOperations = .ok all ∧
      all.flatten = parts.flatMap (·.2.2) := by
  induction hparts with
  | nil => exact ⟨[], rfl, rfl⟩
  | @cons allocation part allocations parts hpart _ ih =>
    rw [List.forall_mem_cons] at hlegal
    obtain ⟨rest, hrest, hflat⟩ := ih hlegal.2
    obtain ⟨-, -, hoperations⟩ := hpart
    simp only [allocatedOperations, Checked.bind_ok, Checked.pure_ok] at hoperations
    obtain ⟨first, hfirst, hpart⟩ := hoperations
    have hitems : (allocation.demandIds.map fun identifier => (identifier, allocation.route)).mapM
        bundle.itemOperations = .ok first := by
      rw [Checked.mapM_ok, List.forall₂_map_left_iff]
      refine forall₂_of_mapM hfirst fun identifier hid operations hrun => ?_
      obtain ⟨demand, hmem, rfl, -⟩ := hlegal.1.legal identifier hid
      obtain ⟨other, hother, hphysical⟩ := Checked.bind_ok.mp hrun
      rw [Checked.required_ok, byId_get? hids hmem] at hother
      obtain rfl := Option.some.inj hother
      exact itemOperations_ok.mpr ⟨demand, find?_demand hids hmem, hphysical⟩
    refine ⟨first ++ rest, ?_, ?_⟩
    · have hsplit : allocatedItems (allocation :: allocations) =
          (allocation.demandIds.map fun identifier => (identifier, allocation.route)) ++
            allocatedItems allocations := List.flatMap_cons
      rw [hsplit, List.mapM_append]
      exact Checked.bind_ok.mpr ⟨first, hitems, Checked.bind_ok.mpr ⟨rest, hrest, rfl⟩⟩
    · rw [List.flatten_append, hflat, hpart, List.flatMap_cons]

/-- **A bundle of legal allocations passes the check.** -/
theorem checkRoutedSemantics_allocated (hdemands : routingDemands bundle.inputs = .ok bundle.demands)
    {constraints : ConstraintSet} (hconstraints : bindConstraints bundle.inputs = .ok constraints)
    (hitems : bundle.items = allocatedItems allocations)
    (hassigned : ((allocatedItems allocations).map (·.1)).Perm (bundle.demands.map (·.demandId)))
    (hlegal : ∀ allocation ∈ allocations,
      LegalAllocation bundle.inputs bundle.topology bundle.demands allocation)
    (hparts : List.Forall₂ (allocationParts bundle.inputs bundle.topology bundle.demands)
      allocations parts) (hoperations : bundle.operations = parts.flatMap (·.2.2)) :
    checkRoutedSemantics bundle = .ok () := by
  obtain ⟨all, hall, hflat⟩ :=
    itemOperations_allocated (routingDemands_nodup hdemands) hlegal hparts
  rw [← hitems] at hall hassigned
  refine (checkRoutedSemantics_right hdemands).mpr
    (right_of_legal hdemands hconstraints hassigned (fun item hitem => ?_) hall
      (hoperations.trans hflat.symm))
  rw [hitems] at hitem
  obtain ⟨allocation, hallocation, hitem⟩ := List.mem_flatMap.mp hitem
  obtain ⟨identifier, hid, rfl⟩ := List.mem_map.mp hitem
  exact (hlegal allocation hallocation).legal identifier hid

end Allocated

/-! ## Times of what is loaded -/

section Keys
variable {α β : Type} [DecidableEq α] {topology : Topology} {route : Route}

theorem mem_keys_counter (items : List α) (key : α) : key ∈ (counter items).keys ↔ key ∈ items := by
  unfold counter
  induction items using List.reverseRecOn with
  | nil => simp [Dict.keys]
  | append_singleton items item ih =>
    rw [List.foldl_append, List.foldl_cons, List.foldl_nil, Dict.mem_keys_set, ih, List.mem_append,
      List.mem_singleton]
    exact or_comm

theorem mem_keys_foldl_addCounts {l : List β} {counts : β → Dict α ℕ} {copies : β → ℕ}
    {total : Dict α ℕ} {key : α}
    (h : key ∈ (l.foldl (fun total b => addCounts total (counts b) (copies b)) total).keys) :
    key ∈ total.keys ∨ ∃ b ∈ l, key ∈ (counts b).keys := by
  induction l generalizing total with
  | nil => exact .inl h
  | cons b l ih =>
    rcases ih h with h | ⟨a, ha, h⟩
    · rcases (mem_keys_addCounts _ _ _ _).mp h with h | h
      · exact .inl h
      · exact .inr ⟨b, List.mem_cons_self, h⟩
    · exact .inr ⟨a, List.mem_cons_of_mem _ ha, h⟩

/-- What a route's counters have. -/
theorem routeLoads_keys {loads : RouteLoads} (h : routeLoads topology route = .ok loads) :
    (∀ edge ∈ loads.links.keys, edge ∈ route.edges) ∧
      ∀ resource ∈ loads.resources.keys, resource ∈ routeResources topology route := by
  simp only [routeLoads, Checked.bind_ok, Checked.pure_ok] at h
  obtain ⟨links, hlinks, rfl⟩ := h
  refine ⟨fun edge hedge => (mem_keys_counter _ _).mp hedge, fun resource hresource => ?_⟩
  have hmem := (mem_keys_counter _ _).mp hresource
  rwa [flatMap_resourceIds (Checked.mapM_ok.mp hlinks)] at hmem

theorem countTimes_total [ToString α] {times : Dict α ℚ} {counts : Dict α ℕ}
    (h : ∀ key ∈ counts.keys, key ∈ times.keys) : ∃ l, countTimes times counts = .ok l := by
  refine Checked.mapM_total fun entry hentry => ?_
  obtain ⟨time, htime⟩ := Dict.get?_isSome.mpr (h entry.1 (List.mem_map_of_mem hentry))
  exact ⟨_, Checked.bind_ok.mpr ⟨time, Checked.required_ok.mpr htime, rfl⟩⟩

end Keys

section Solve
variable {inputs : ResolvedInput} {topology : Topology} {costs : RouteCosts} {context : RouteContext}
  {demands : List RoutingDemand} {allocations : List RouteAllocation} {search : RouteSearch}
  {counts : List (List ℕ)}

/-- **A bundle is built** of legal allocations that carry every demand once. -/
theorem routeBundle_total (hcosts : costs.Declares topology)
    (hdemands : routingDemands inputs = .ok demands)
    {constraints : ConstraintSet} (hconstraints : bindConstraints inputs = .ok constraints)
    (hassigned : ((allocatedItems allocations).map (·.1)).Perm (demands.map (·.demandId)))
    (hlegal : ∀ allocation ∈ allocations, LegalAllocation inputs topology demands allocation)
    (complete : Bool) (generated : ℕ) (scope : String) : ∃ bundle,
      routeBundle inputs topology costs demands allocations complete generated scope = .ok bundle := by
  have hids := routingDemands_nodup hdemands
  have hparts : ∃ parts, (allocations.mapM fun allocation => do
      let loads ← routeLoads topology allocation.route
      let operations ← allocatedOperations inputs topology demands allocation
      return (loads, allocation.demandIds.length, operations)) = .ok parts := by
    refine Checked.mapM_total fun allocation hallocation => ?_
    obtain ⟨loads, hloads⟩ := routeLoads_total (hlegal allocation hallocation).links
    obtain ⟨operations, hoperations⟩ := allocatedOperations_total hids (hlegal allocation hallocation)
    exact ⟨_, Checked.bind_ok.mpr ⟨loads, hloads, Checked.bind_ok.mpr ⟨operations, hoperations, rfl⟩⟩⟩
  obtain ⟨parts, hparts⟩ := hparts
  have hpairs : ∀ part ∈ parts, ∃ allocation ∈ allocations,
      allocationParts inputs topology demands allocation part := by
    intro part hpart
    obtain ⟨allocation, hallocation, hrun⟩ := Checked.mapM_right hparts hpart
    simp only [Checked.bind_ok, Checked.pure_ok] at hrun
    obtain ⟨loads, hloads, operations, hoperations, rfl⟩ := hrun
    exact ⟨allocation, hallocation, hloads, rfl, hoperations⟩
  obtain ⟨times, htimes⟩ := routeCapacities_total hcosts inputs.sliceSizeBytes
  obtain ⟨hlinkKeys, hresourceKeys⟩ := routeCapacities_keys htimes
  have hedge : ∀ part ∈ parts, ∀ edge, edge ∈ part.1.links.keys → edge ∈ topology.links.keys := by
    intro part hpart edge hmem
    obtain ⟨allocation, hallocation, hloads, -⟩ := hpairs part hpart
    obtain ⟨link, hlink⟩ := (hlegal allocation hallocation).links edge ((routeLoads_keys hloads).1 edge hmem)
    exact mem_keys_of_link hlink
  obtain ⟨linkTimes, hlinkTimes⟩ : ∃ l, countTimes times.links (parts.foldl (fun total part =>
      addCounts total part.1.links part.2.1) []) = .ok l := by
    refine countTimes_total fun edge hmem => ?_
    rcases mem_keys_foldl_addCounts hmem with hmem | ⟨part, hpart, hmem⟩
    · cases hmem
    · rw [hlinkKeys]
      exact hcosts.links edge (hedge part hpart edge hmem)
  obtain ⟨resourceTimes, hresourceTimes⟩ : ∃ l, countTimes times.resources (parts.foldl
      (fun total part => addCounts total part.1.resources part.2.1) []) = .ok l := by
    refine countTimes_total fun resource hmem => ?_
    rcases mem_keys_foldl_addCounts hmem with hmem | ⟨part, hpart, hmem⟩
    · cases hmem
    · rw [hresourceKeys]
      obtain ⟨allocation, hallocation, hloads, -⟩ := hpairs part hpart
      obtain ⟨edge, hin, hresource⟩ :=
        List.mem_flatMap.mp ((routeLoads_keys hloads).2 resource hmem)
      obtain ⟨link, hlink⟩ := (hlegal allocation hallocation).links edge hin
      exact hcosts.resources edge (mem_keys_of_link hlink) resource hresource
  have hall : List.Forall₂ (allocationParts inputs topology demands) allocations parts := by
    refine forall₂_of_mapM hparts fun allocation _ part hrun => ?_
    simp only [Checked.bind_ok, Checked.pure_ok] at hrun
    obtain ⟨loads, hloads, operations, hoperations, rfl⟩ := hrun
    exact ⟨hloads, rfl, hoperations⟩
  refine ⟨_, Checked.bind_ok.mpr ⟨parts, hparts, Checked.bind_ok.mpr ⟨times, htimes,
    Checked.bind_ok.mpr ⟨linkTimes, hlinkTimes, Checked.bind_ok.mpr ⟨resourceTimes, hresourceTimes,
      Checked.bind_ok.mpr ⟨(), ?_, rfl⟩⟩⟩⟩⟩⟩
  exact checkRoutedSemantics_allocated hdemands hconstraints (items_mapIdx allocations _ rfl) hassigned
    hlegal hall rfl

/-- What an allocation of counts is made of. -/
theorem mem_allocateDemands {group : List RoutingDemand} {columns : List (Route × ℕ)}
    {allocation : RouteAllocation} (h : allocation ∈ allocateDemands group columns) :
    allocation.route ∈ columns.map (·.1) ∧
      ∀ identifier ∈ allocation.demandIds, ∃ demand ∈ group, demand.demandId = identifier := by
  induction columns generalizing group with
  | nil => cases h
  | cons column columns ih =>
    obtain ⟨route, count⟩ := column
    rw [allocateDemands] at h
    split at h
    · exact (ih h).imp_left (List.mem_cons_of_mem _)
    · rcases List.mem_cons.mp h with rfl | h
      · refine ⟨List.mem_cons_self, fun identifier hid => ?_⟩
        obtain ⟨demand, hdemand, rfl⟩ := List.mem_map.mp hid
        exact ⟨demand, List.mem_of_mem_take hdemand, rfl⟩
      · obtain ⟨hroute, hids⟩ := ih h
        refine ⟨List.mem_cons_of_mem _ hroute, fun identifier hid => ?_⟩
        obtain ⟨demand, hdemand, hsame⟩ := hids identifier hid
        exact ⟨demand, List.mem_of_mem_drop hdemand, hsame⟩

theorem mem_selectedAllocations {groups : List RouteGroup} {allocation : RouteAllocation}
    (h : allocation ∈ selectedAllocations groups counts) : ∃ group ∈ groups,
      allocation.route ∈ group.columns ∧
        ∀ identifier ∈ allocation.demandIds, ∃ demand ∈ group.demands, demand.demandId = identifier := by
  obtain ⟨row, hrow, h⟩ := List.mem_flatMap.mp h
  obtain ⟨hroute, hids⟩ := mem_allocateDemands h
  obtain ⟨column, hcolumn, hsame⟩ := List.mem_map.mp hroute
  exact ⟨row.1, (List.of_mem_zip hrow).1, hsame ▸ (List.of_mem_zip hcolumn).1, hids⟩

/-- A collective asks for something. -/
theorem routingDemands_ne_nil (h : routingDemands inputs = .ok demands) : demands ≠ [] := by
  obtain ⟨outputs, groups, houtputs, hperm, rfl⟩ := routingDemands_ok h
  simp only [requiredOutputs, Checked.bind_ok, Checked.pure_ok] at houtputs
  obtain ⟨_, hvalid, rfl⟩ := houtputs
  obtain ⟨hranks, hn, -⟩ := validateOutputProblem_ok hvalid
  have hrank : ∃ rank, rank < inputs.rankCount := ⟨0, hranks⟩
  have hentries : requiredEntries inputs.collective inputs.rankCount inputs.sliceCount ≠ [] := by
    unfold requiredEntries
    cases inputs.collective.kind <;>
      simp [List.flatMap_eq_nil_iff, hrank, hn.ne']
  obtain ⟨entry, hentry⟩ := List.exists_mem_of_ne_nil _ hentries
  obtain ⟨contributors, hmem⟩ := Dict.mem_keys.mp
    (Dict.mem_keys_ofList.mpr (List.mem_map_of_mem (f := (·.1)) hentry))
  intro hnil
  have hgroups : groups = [] := by simpa using hnil
  subst hgroups
  have hslots : entry.1 ∈ ((Dict.ofList (requiredEntries inputs.collective inputs.rankCount
      inputs.sliceCount)).filter (·.2 = contributors)).map (·.1) :=
    List.mem_map_of_mem (f := (·.1)) (List.mem_filter.mpr ⟨hmem, by simp⟩)
  have hgroup := mem_groupedOutputs.mpr ⟨List.ne_nil_of_mem hslots, rfl⟩
  exact absurd (hperm.mem_iff.mpr hgroup) (by simp)

/-- The constraints of a search have been bound. -/
theorem bindConstraints_of_sound (hs : search.Sound inputs topology costs demands)
    (hdemands : routingDemands inputs = .ok demands) :
    ∃ constraints, bindConstraints inputs = .ok constraints := by
  obtain ⟨demand, hmem⟩ := List.exists_mem_of_ne_nil _ (routingDemands_ne_nil hdemands)
  obtain ⟨group, hgroup, hdemand⟩ := List.mem_flatMap.mp (hs.partition.mem_iff.mpr hmem)
  obtain ⟨key, hkey⟩ := (hs.held group hgroup).key
  obtain ⟨constraints, hconstraints, -⟩ := groupKey_ok.mp (hkey demand hdemand).2
  exact ⟨constraints, hconstraints⟩

/-- **A solve returns** for every answer that can be read. -/
theorem solve_total (htopology : topology.OfRanks inputs.rankCount)
    (hdemands : routingDemands inputs = .ok demands) (hs : search.Sound inputs topology costs demands)
    (hcosts : costs.Declares topology) (hne : ∀ group ∈ search.groups, group.columns ≠ [])
    {answer : Option Solution} (hanswer : Readable search answer) :
    ∃ next bundle, search.solve inputs topology costs demands answer = .ok (next, bundle) := by
  have hids := routingDemands_nodup hdemands
  obtain ⟨constraints, hconstraints⟩ := bindConstraints_of_sound hs hdemands
  have hlegal : ∀ group ∈ search.groups, ∀ route ∈ group.columns, ∀ demand ∈ group.demands,
      RouteOf inputs.rankCount topology.links.keys demand route ∧
        legalRoute inputs topology demand route = .ok true :=
    fun group hgroup route hroute demand hdemand =>
      (hs.held group hgroup).legal htopology hdemands hroute hdemand
  have hlinks : ∀ group ∈ search.groups, ∀ route ∈ group.columns,
      ∀ edge ∈ route.edges, ∃ link, topology.link edge.1 edge.2 = .ok link := by
    intro group hgroup route hroute
    obtain ⟨first, rest, hfirst, -⟩ := (hs.held group hgroup).first
    obtain ⟨-, hlegal⟩ := hlegal group hgroup route hroute first (hfirst ▸ List.mem_cons_self)
    obtain ⟨_, operations, -, hoperations, -⟩ := legalRoute_ok hlegal
    exact links_of_physical hoperations
  obtain ⟨times, htimes⟩ := routeCapacities_total hcosts inputs.sliceSizeBytes
  obtain ⟨⟨loads, data⟩, hloads⟩ := groupsLoads_total hne
    (fun group hgroup route hroute => routeLoads_total (hlinks group hgroup route hroute))
    search.columnData
  obtain ⟨counts, hcounts⟩ := chosenCounts_total hs hids hanswer times loads
  obtain ⟨initial, hinitial, hfits, -⟩ := chosenCounts_ok hs hids hne hcounts
  obtain ⟨hitemIds, -⟩ := selectedAllocations_items hfits
  have hallocations : ∀ allocation ∈ selectedAllocations search.groups counts,
      LegalAllocation inputs topology demands allocation := by
    intro allocation hallocation
    obtain ⟨group, hgroup, hroute, hdemandIds⟩ := mem_selectedAllocations hallocation
    refine ⟨hlinks group hgroup _ hroute, fun identifier hid => ?_⟩
    obtain ⟨demand, hdemand, hsame⟩ := hdemandIds identifier hid
    have hmem : demand ∈ demands :=
      hs.partition.mem_iff.mp (List.mem_flatMap.mpr ⟨group, hgroup, hdemand⟩)
    exact ⟨demand, hmem, hsame, hlegal group hgroup _ hroute demand hdemand⟩
  obtain ⟨bundle, hbundle⟩ := routeBundle_total hcosts hdemands hconstraints
    (hitemIds ▸ hs.partition.map _) hallocations (search.groups.all (·.complete))
    (search.groups.map (·.columns.length)).sum "integer_route_columns"
  exact ⟨_, bundle, Checked.bind_ok.mpr ⟨times, htimes, Checked.bind_ok.mpr ⟨_, hloads,
    Checked.bind_ok.mpr ⟨counts, hcounts, Checked.bind_ok.mpr ⟨bundle, hbundle, rfl⟩⟩⟩⟩⟩

end Solve

/-! ## Every run -/

/-- The ratio that a bundle stores. -/
def RouteBundle.timeRatio (bundle : RouteBundle) : ℚ :=
  bundle.bandwidthTimeRatio.1 / bundle.bandwidthTimeRatio.2

theorem timeRatio_eq {bundle : RouteBundle} {t : ℚ} (h : bundle.bandwidthTimeRatio = (t.num, t.den)) :
    bundle.timeRatio = t := by
  rw [RouteBundle.timeRatio, h]
  exact Rat.num_div_den t

section Safety
variable {inputs : ResolvedInput} {topology : Topology} {costs : RouteCosts} {context : RouteContext}
  {demands : List RoutingDemand} {search next : RouteSearch} {bundle : RouteBundle}

/-- **A solve does not make the incumbent worse.** -/
theorem timeRatio_solve (hs : search.Sound inputs topology costs demands)
    (hids : (demands.map (·.demandId)).Nodup) {answer : Option Solution}
    (h : search.solve inputs topology costs demands answer = .ok (next, bundle)) :
    ∀ previous ∈ search.incumbent, bundle.timeRatio ≤ previous.timeRatio := by
  intro previous hprevious
  obtain ⟨-, hsound, -, hle⟩ := solve_ok hs hids h
  obtain ⟨times, t, htimes, hratio, ht⟩ := hsound.time
  obtain ⟨times', t', htimes', hratio', ht'⟩ := (hs.incumbent previous hprevious).time
  obtain rfl : times = times' := Except.ok.inj (htimes.symm.trans htimes')
  rw [timeRatio_eq hratio, timeRatio_eq hratio']
  exact hle previous hprevious times t t' htimes ht ht'

/-- **No call makes the incumbent worse.** -/
theorem timeRatio_run (htopology : topology.OfRanks inputs.rankCount)
    (hdemands : routingDemands inputs = .ok demands) (hs : search.Sound inputs topology costs demands)
    (hrun : Relation.ReflTransGen (RouteSearch.Step inputs topology costs context demands) search next) :
    ∀ bundle ∈ search.incumbent, ∃ later ∈ next.incumbent, later.timeRatio ≤ bundle.timeRatio := by
  intro bundle hbundle
  have hrun : next.Sound inputs topology costs demands ∧
      ∃ later ∈ next.incumbent, later.timeRatio ≤ bundle.timeRatio := by
    induction hrun with
    | refl => exact ⟨hs, bundle, hbundle, le_rfl⟩
    | @tail search next _ hstep ih =>
      obtain ⟨hsound, later, hlater, hle⟩ := ih
      refine ⟨hstep.sound htopology hdemands hsound, ?_⟩
      cases hstep with
      | expand hrun =>
        simp only [RouteSearch.expand, Checked.bind_ok, Checked.pure_ok, Prod.mk.injEq] at hrun
        obtain ⟨groups, -, rfl, -⟩ := hrun
        exact ⟨later, hlater, hle⟩
      | @solve last answer hrun =>
        obtain ⟨⟨data, rfl, -⟩, -⟩ := solve_ok hsound (routingDemands_nodup hdemands) hrun
        exact ⟨last, rfl,
          (timeRatio_solve hsound (routingDemands_nodup hdemands) hrun later hlater).trans hle⟩
  exact hrun.2

/-- **Integer route selection is safe for any answer of the solver.**  After any calls, a solve
returns for every answer that has a number for each variable, or no solution; and whatever it is
given, the bundle that it returns carries each demand once, on a legal route of its group, passes the
check, stores the longest time of the loads of its routes, and is not slower than any incumbent
before it. -/
theorem route_selection_safe (htopology : topology.OfRanks inputs.rankCount)
    (hdemands : routingDemands inputs = .ok demands)
    (h : search.Reachable inputs topology costs context demands) (answer : Option Solution) :
    (costs.Declares topology → (∀ group ∈ search.groups, group.columns ≠ []) →
      Readable search answer →
        ∃ next bundle, search.solve inputs topology costs demands answer = .ok (next, bundle)) ∧
    ∀ next bundle, search.solve inputs topology costs demands answer = .ok (next, bundle) →
      next.incumbent = some bundle ∧
      (bundle.items.map (·.1)).Perm (demands.map (·.demandId)) ∧
      (∀ item ∈ bundle.items, ∃ group ∈ search.groups, ∃ demand ∈ group.demands,
        demand.demandId = item.1 ∧ item.2 ∈ group.columns ∧
          RouteOf inputs.rankCount topology.links.keys demand item.2 ∧
          legalRoute inputs topology demand item.2 = .ok true) ∧
      checkRoutedSemantics bundle = .ok () ∧
      (∃ times t, routeCapacities costs inputs.sliceSizeBytes = .ok times ∧
        bundle.bandwidthTimeRatio = (t.num, t.den) ∧
          MaxLoadTime times topology (bundle.items.map (·.2)) t) ∧
      (∀ previous ∈ search.incumbent, bundle.timeRatio ≤ previous.timeRatio) ∧
      ∀ later, Relation.ReflTransGen (RouteSearch.Step inputs topology costs context demands) next later →
        ∃ last ∈ later.incumbent, last.timeRatio ≤ bundle.timeRatio := by
  have hs := h.sound htopology hdemands
  have hids := routingDemands_nodup hdemands
  refine ⟨fun hcosts hne hanswer => solve_total htopology hdemands hs hcosts hne hanswer,
    fun next bundle hrun => ?_⟩
  have hstep : RouteSearch.Step inputs topology costs context demands search next := .solve answer hrun
  obtain ⟨⟨data, rfl, -⟩, hsound, hchecked, -⟩ := solve_ok hs hids hrun
  refine ⟨rfl, hsound.ids, fun item hitem => ?_, hchecked, hsound.time, timeRatio_solve hs hids hrun,
    fun later hlater => timeRatio_run htopology hdemands (hstep.sound htopology hdemands hs) hlater
      bundle rfl⟩
  -- the demand of an item is in one group, on whose column it is
  have hid : item.1 ∈ demands.map (·.demandId) := hsound.ids.mem_iff.mp (List.mem_map_of_mem hitem)
  obtain ⟨demand, hmem, hid⟩ := List.mem_map.mp hid
  obtain ⟨group, hgroup, hdemand⟩ := List.mem_flatMap.mp (hs.partition.mem_iff.mpr hmem)
  obtain ⟨route, hroute, hitem'⟩ := hsound.routes group hgroup demand hdemand
  have hnodup : (bundle.items.map (·.1)).Nodup := hsound.ids.nodup_iff.mpr hids
  have hsame : item = (demand.demandId, route) :=
    List.inj_on_of_nodup_map hnodup hitem hitem' hid.symm
  obtain ⟨hrouteOf, hlegal⟩ := (hs.held group hgroup).legal htopology hdemands hroute hdemand
  exact ⟨group, hgroup, demand, hdemand, hid, hsame ▸ hroute, hsame ▸ hrouteOf, hsame ▸ hlegal⟩

end Safety

/-- What the one link of two ranks costs. -/
def rootedCosts : RouteCosts where
  beta := [((1, 0), some (1 / 2))]
  capacity := []

/-- A solver that says one and a half. -/
theorem route_selection_safe_pair : ∃ (demands : List RoutingDemand) (search next : RouteSearch)
    (bundle : RouteBundle), routingDemands rootedInputs = .ok demands ∧
      search.Reachable rootedInputs rootedTopology rootedCosts rootedContext demands ∧
      search.solve rootedInputs rootedTopology rootedCosts demands
        (some [("copies-0-0", some (3 / 2))]) = .ok (next, bundle) ∧
      (bundle.items.map (·.1)).Perm (demands.map (·.demandId)) ∧
      checkRoutedSemantics bundle = .ok () := by
  have hrun : rootedSearch.toOption.map (fun run => run.2.1.groups.map fun group =>
      group.columns) = some [[⟨0, [(1, 0)], []⟩]] := by decide +kernel
  cases hsearch : rootedSearch with
  | error fault => simp [hsearch, Except.toOption] at hrun
  | ok run =>
    obtain ⟨demands, search, changed⟩ := run
    simp only [hsearch, Except.toOption, Option.map_some, Option.some.injEq] at hrun
    simp only [rootedSearch, Checked.bind_ok, Checked.pure_ok, Prod.mk.injEq] at hsearch
    obtain ⟨demands', hdemands, start, hstart, expanded, hexpand, rfl, rfl⟩ := hsearch
    have hreach : search.Reachable rootedInputs rootedTopology rootedCosts rootedContext demands' :=
      ⟨start, hstart, .single (.expand hexpand)⟩
    have htopology : rootedTopology.OfRanks rootedInputs.rankCount := by
      constructor <;> decide
    have hcosts : rootedCosts.Declares rootedTopology := by
      constructor <;> decide
    obtain ⟨group, hgroups⟩ : ∃ group, search.groups = [group] := by
      have hlength := congrArg List.length hrun
      rw [List.length_map] at hlength
      exact List.length_eq_one_iff.mp hlength
    have hcolumns : group.columns = [⟨0, [(1, 0)], []⟩] := by
      rw [hgroups] at hrun
      simpa using hrun
    have hne : ∀ group ∈ search.groups, group.columns ≠ [] := by
      simp [hgroups, hcolumns]
    have hanswer : Readable search (some [("copies-0-0", some (3 / 2))]) := by
      rintro _ ⟨rfl⟩ i other hother j hj
      rw [hgroups] at hother
      obtain ⟨rfl, rfl⟩ : i = 0 ∧ other = group := by
        cases i with
        | zero => simpa [eq_comm] using hother
        | succ i => simp at hother
      obtain rfl : j = 0 := by
        rw [hcolumns] at hj
        simpa using hj
      exact ⟨3 / 2, rfl⟩
    obtain ⟨hsolves, hall⟩ := route_selection_safe htopology hdemands hreach
      (some [("copies-0-0", some (3 / 2))])
    obtain ⟨next, bundle, hsolve⟩ := hsolves hcosts hne hanswer
    obtain ⟨-, hids, -, hchecked, -⟩ := hall next bundle hsolve
    exact ⟨demands', search, next, bundle, hdemands, hreach, hsolve, hids, hchecked⟩

end VeriCCL
