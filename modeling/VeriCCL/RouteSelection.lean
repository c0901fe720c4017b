import VeriCCL.ColumnSpace
import VeriCCL.LoadTimes
import VeriCCL.RouteAcceptance

/-! # Any answer of a solver gives a right bundle

A group's counts cut its demands into slices (`allocateDemands_spec`).  Whatever the solver says,
the counts that are used fit the groups, and their cost is not above that of the counts before
(`chosenCounts_ok`), so the bundle carries every demand on a legal route of its group and takes
no longer than the one before. -/
namespace VeriCCL

/-! ## Allocations -/

/-- The demands of allocations, each with its route. -/
def allocatedItems (allocations : List RouteAllocation) : List (String × Route) :=
  allocations.flatMap fun allocation =>
    allocation.demandIds.map fun identifier => (identifier, allocation.route)

section Allocations
variable {demands : List RoutingDemand} {columns : List (Route × ℕ)} {allocations : List RouteAllocation}

/-- A sum over what allocations carry. -/
theorem sum_allocatedItems (weight : Route → ℕ) (allocations : List RouteAllocation) :
    (((allocatedItems allocations).map (·.2)).map weight).sum =
      (allocations.map fun allocation => weight allocation.route * allocation.demandIds.length).sum := by
  induction allocations with
  | nil => rfl
  | cons allocation allocations ih =>
    have hfirst : allocatedItems (allocation :: allocations) =
        (allocation.demandIds.map fun identifier => (identifier, allocation.route)) ++
          allocatedItems allocations := List.flatMap_cons
    rw [hfirst, List.map_append, List.map_append, List.sum_append, ih, List.map_cons, List.sum_cons,
      List.map_map, List.map_map]
    congr 1
    simp [Function.comp_def, Nat.mul_comm]

/-- **Slices of a group's demands**: together they are all of them, each on the route of a column,
as many as its count says. -/
theorem allocateDemands_spec (hsum : (columns.map (·.2)).sum = demands.length) :
    (allocatedItems (allocateDemands demands columns)).map (·.1) = demands.map (·.demandId) ∧
      (∀ item ∈ allocatedItems (allocateDemands demands columns), ∃ demand ∈ demands,
        demand.demandId = item.1 ∧ item.2 ∈ columns.map (·.1)) ∧
      ∀ weight : Route → ℕ,
        (((allocatedItems (allocateDemands demands columns)).map (·.2)).map weight).sum =
          (columns.map fun column => weight column.1 * column.2).sum := by
  induction columns generalizing demands with
  | nil =>
    rw [List.map_nil, List.sum_nil] at hsum
    obtain rfl := List.length_eq_zero_iff.mp hsum.symm
    exact ⟨rfl, by simp [allocateDemands, allocatedItems], fun weight => rfl⟩
  | cons column columns ih =>
    obtain ⟨route, count⟩ := column
    rw [List.map_cons, List.sum_cons] at hsum
    rw [allocateDemands]
    split
    · next hzero =>
      simp only [hzero, Nat.zero_add] at hsum
      obtain ⟨hids, hitems, hweights⟩ := ih hsum
      refine ⟨hids, fun item hitem => ?_, fun weight => ?_⟩
      · obtain ⟨demand, hdemand, hid, hroute⟩ := hitems item hitem
        exact ⟨demand, hdemand, hid, List.mem_cons_of_mem _ hroute⟩
      · rw [hweights, List.map_cons, List.sum_cons, hzero, Nat.mul_zero, Nat.zero_add]
    · have hdrop : (columns.map (·.2)).sum = (demands.drop count).length := by
        rw [List.length_drop]
        omega
      obtain ⟨hids, hitems, hweights⟩ := ih hdrop
      have hfirst : allocatedItems (⟨(demands.take count).map (·.demandId), route⟩ ::
            allocateDemands (demands.drop count) columns) =
          ((demands.take count).map (·.demandId)).map (fun identifier => (identifier, route)) ++
            allocatedItems (allocateDemands (demands.drop count) columns) := List.flatMap_cons
      refine ⟨?_, fun item hitem => ?_, fun weight => ?_⟩
      · rw [hfirst, List.map_append, hids, List.map_map, ← List.take_append_drop count demands]
        simp [Function.comp_def]
      · rw [hfirst] at hitem
        rcases List.mem_append.mp hitem with hitem | hitem
        · obtain ⟨_, hid, rfl⟩ := List.mem_map.mp hitem
          obtain ⟨demand, hdemand, rfl⟩ := List.mem_map.mp hid
          exact ⟨demand, List.mem_of_mem_take hdemand, rfl, List.mem_cons_self⟩
        · obtain ⟨demand, hdemand, hid, hroute⟩ := hitems item hitem
          exact ⟨demand, List.mem_of_mem_drop hdemand, hid, List.mem_cons_of_mem _ hroute⟩
      · rw [hfirst, List.map_append, List.map_append, List.sum_append, hweights, List.map_cons,
          List.sum_cons]
        congr 1
        have hle : count ≤ demands.length := by omega
        simp [Function.comp_def, min_eq_left hle, Nat.mul_comm]

end Allocations

/-! ## Bundles -/

section Bundle
variable {inputs : ResolvedInput} {topology : Topology} {costs : RouteCosts}
  {demands : List RoutingDemand} {allocations : List RouteAllocation} {complete : Bool}
  {generated : ℕ} {scope : String} {bundle : RouteBundle}

theorem routeCapacities_keys {size : ℕ} {times : SliceTimes}
    (h : routeCapacities costs size = .ok times) :
    times.links.keys = costs.beta.keys ∧ times.resources.keys = costs.capacity.keys := by
  simp only [routeCapacities, Checked.bind_ok, Checked.pure_ok] at h
  obtain ⟨links, hlinks, resources, hresources, rfl⟩ := h
  constructor
  · refine Checked.mapM_map hlinks fun entry _ b hb => ?_
    simp only [Checked.bind_ok, Checked.pure_ok] at hb
    obtain ⟨_, -, rfl⟩ := hb
    rfl
  · refine Checked.mapM_map hresources fun entry _ b hb => ?_
    simp only [Checked.bind_ok, Checked.pure_ok] at hb
    obtain ⟨_, -, rfl⟩ := hb
    rfl

/-- A bundle of allocations. -/
structure BundleOf (inputs : ResolvedInput) (topology : Topology) (costs : RouteCosts)
    (demands : List RoutingDemand) (allocations : List RouteAllocation) (bundle : RouteBundle) :
    Prop where
  inputs_eq : bundle.inputs = inputs
  topology_eq : bundle.topology = topology
  demands_eq : bundle.demands = demands
  items : bundle.items = allocatedItems allocations
  checked : checkRoutedSemantics bundle = .ok ()
  time : ∃ times t, routeCapacities costs inputs.sliceSizeBytes = .ok times ∧
    bundle.bandwidthTimeRatio = (t.num, t.den) ∧
      MaxLoadTime times topology (bundle.items.map (·.2)) t

/-- The loads and the number of demands of each allocation. -/
def allocationParts (inputs : ResolvedInput) (topology : Topology) (demands : List RoutingDemand)
    (allocation : RouteAllocation) (part : RouteLoads × ℕ × List RouteOperation) : Prop :=
  routeLoads topology allocation.route = .ok part.1 ∧ part.2.1 = allocation.demandIds.length ∧
    allocatedOperations inputs topology demands allocation = .ok part.2.2

/-- What counters of parts add up to are the loads of the routes. -/
theorem sum_allocationParts {parts : List (RouteLoads × ℕ × List RouteOperation)}
    (h : List.Forall₂ (allocationParts inputs topology demands) allocations parts) :
    (∀ part ∈ parts, part.1.links.Distinct ∧ part.1.resources.Distinct) ∧
    (∀ edge, (parts.map fun part => tallyOf part.1.links edge * part.2.1).sum =
      linkLoad ((allocatedItems allocations).map (·.2)) edge) ∧
    ∀ resource, (parts.map fun part => tallyOf part.1.resources resource * part.2.1).sum =
      resourceLoad topology ((allocatedItems allocations).map (·.2)) resource := by
  simp only [linkLoad, resourceLoad, sum_allocatedItems]
  induction h with
  | nil => simp
  | @cons allocation part allocations parts hpart _ ih =>
    obtain ⟨hloads, hlength, -⟩ := hpart
    have hroute := routeLoads_ok hloads
    obtain ⟨hdistinct, hlinks, hresources⟩ := ih
    refine ⟨List.forall_mem_cons.mpr ⟨⟨hroute.links_distinct, hroute.resources_distinct⟩, hdistinct⟩,
      fun edge => ?_, fun resource => ?_⟩
    · rw [List.map_cons, List.sum_cons, List.map_cons, List.sum_cons, hlinks, hroute.links, hlength]
    · rw [List.map_cons, List.sum_cons, List.map_cons, List.sum_cons, hresources, hroute.resources,
        hlength]

/-- What the batches of allocations carry. -/
theorem items_mapIdx (allocations : List RouteAllocation) (bundle : RouteBundle)
    (h : bundle.batches = allocations.mapIdx fun i allocation =>
      { batchId := "batch-" ++ paddedText i, demandIds := allocation.demandIds,
        route := allocation.route }) : bundle.items = allocatedItems allocations := by
  rw [RouteBundle.items, allocatedItems, h, List.flatMap_def, List.flatMap_def]
  congr 1
  refine List.ext_getElem (by simp) fun i hi hi' => ?_
  simp

/-- **A bundle is one of its allocations**, and its time is the longest of their loads. -/
theorem routeBundle_ok
    (h : routeBundle inputs topology costs demands allocations complete generated scope = .ok bundle) :
    BundleOf inputs topology costs demands allocations bundle := by
  simp only [routeBundle, Checked.bind_ok, Checked.pure_ok] at h
  obtain ⟨parts, hparts, times, htimes, linkTimes, hlinks, resourceTimes, hresources, _, hchecked, rfl⟩ := h
  have hpairs : List.Forall₂ (allocationParts inputs topology demands) allocations parts := by
    refine (Checked.mapM_ok.mp hparts).imp fun allocation part hpart => ?_
    simp only [Checked.bind_ok, Checked.pure_ok] at hpart
    obtain ⟨loads, hloads, operations, hoperations, rfl⟩ := hpart
    exact ⟨hloads, rfl, hoperations⟩
  refine ⟨rfl, rfl, rfl, items_mapIdx allocations _ rfl, hchecked, times, _, htimes, rfl, ?_⟩
  rw [items_mapIdx allocations _ rfl]
  obtain ⟨hdistinct, hlinkLoad, hresourceLoad⟩ := sum_allocationParts hpairs
  obtain ⟨hlinkKeys, hresourceKeys⟩ := routeCapacities_keys htimes
  have hlinkTally : ∀ edge, tallyOf (parts.foldl (fun total part =>
      addCounts total part.1.links part.2.1) []) edge =
        linkLoad ((allocatedItems allocations).map (·.2)) edge := by
    intro edge
    rw [tallyOf_foldl_addCounts parts (fun part => part.1.links) (fun part => part.2.1)
      (fun part hpart => (hdistinct part hpart).1), hlinkLoad]
    exact Nat.zero_add _
  have hresourceTally : ∀ resource, tallyOf (parts.foldl (fun total part =>
      addCounts total part.1.resources part.2.1) []) resource =
        resourceLoad topology ((allocatedItems allocations).map (·.2)) resource := by
    intro resource
    rw [tallyOf_foldl_addCounts parts (fun part => part.1.resources) (fun part => part.2.1)
      (fun part hpart => (hdistinct part hpart).2), hresourceLoad]
    exact Nat.zero_add _
  obtain ⟨hfrom, hto⟩ := countTimes_ok (distinct_foldl_addCounts parts (fun part => part.1.links)
    (fun part => part.2.1) Dict.distinct_nil) hlinks
  obtain ⟨hfrom', hto'⟩ := countTimes_ok (distinct_foldl_addCounts parts
    (fun part => part.1.resources) (fun part => part.2.1) Dict.distinct_nil) hresources
  simp only [hlinkTally] at hfrom hto
  simp only [hresourceTally] at hfrom' hto'
  refine maxLoadTime_of_times hfrom (hto ?_) hfrom' (hto' ?_)
  · rw [Dict.Distinct, hlinkKeys]
    exact costs.beta_distinct
  · rw [Dict.Distinct, hresourceKeys]
    exact costs.capacity_distinct

end Bundle

/-! ## Loads of columns -/

/-- The cache has what `_loads` gives. -/
def DataExact (topology : Topology) (data : Dict Route RouteLoads) : Prop :=
  ∀ route loads, data.get? route = some loads → routeLoads topology route = .ok loads

/-- The loads of the columns of a group. -/
def GroupLoads (topology : Topology) (group : RouteGroup) (loads : List RouteLoads) : Prop :=
  List.Forall₂ (fun route loads => routeLoads topology route = .ok loads) group.columns loads

section Loads
variable {topology : Topology} {data data' : Dict Route RouteLoads} {route : Route}

theorem columnLoads_ok (hdata : DataExact topology data) {loads : RouteLoads}
    (h : columnLoads topology data route = .ok (loads, data')) :
    routeLoads topology route = .ok loads ∧ DataExact topology data' := by
  unfold columnLoads at h
  cases hget : data.get? route with
  | some cached =>
    simp only [hget, Except.ok.injEq, Prod.mk.injEq] at h
    obtain ⟨rfl, rfl⟩ := h
    exact ⟨hdata route cached hget, hdata⟩
  | none =>
    simp only [hget, Checked.bind_ok, Checked.pure_ok, Prod.mk.injEq] at h
    obtain ⟨fresh, hfresh, rfl, rfl⟩ := h
    refine ⟨hfresh, fun other found hfound => ?_⟩
    rw [Dict.get?_set] at hfound
    split at hfound
    · next heq => rw [← heq, ← Option.some.inj hfound, hfresh]
    · exact hdata other found hfound

theorem columnsLoads_ok (hdata : DataExact topology data) {routes : List Route}
    {loads : List RouteLoads} (h : columnsLoads topology data routes = .ok (loads, data')) :
    List.Forall₂ (fun route loads => routeLoads topology route = .ok loads) routes loads ∧
      DataExact topology data' := by
  induction routes generalizing data loads with
  | nil =>
    simp only [columnsLoads, Except.ok.injEq, Prod.mk.injEq] at h
    obtain ⟨rfl, rfl⟩ := h
    exact ⟨.nil, hdata⟩
  | cons route routes ih =>
    simp only [columnsLoads, Checked.bind_ok, Checked.pure_ok, Prod.exists, Prod.mk.injEq] at h
    obtain ⟨first, data₁, hfirst, rest, data₂, hrest, rfl, rfl⟩ := h
    obtain ⟨hload, hdata₁⟩ := columnLoads_ok hdata hfirst
    obtain ⟨hloads, hdata₂⟩ := ih hdata₁ hrest
    exact ⟨.cons hload hloads, hdata₂⟩

theorem groupsLoads_ok (hdata : DataExact topology data) {groups : List RouteGroup}
    {loads : List (List RouteLoads)} (h : groupsLoads topology data groups = .ok (loads, data')) :
    List.Forall₂ (GroupLoads topology) groups loads ∧ (∀ group ∈ groups, group.columns ≠ []) ∧
      DataExact topology data' := by
  induction groups generalizing data loads with
  | nil =>
    simp only [groupsLoads, Except.ok.injEq, Prod.mk.injEq] at h
    obtain ⟨rfl, rfl⟩ := h
    exact ⟨.nil, by simp, hdata⟩
  | cons group groups ih =>
    simp only [groupsLoads, Checked.bind_ok, Checked.ensure_ok, Checked.pure_ok, Prod.exists,
      Prod.mk.injEq] at h
    obtain ⟨_, hne, first, data₁, hfirst, rest, data₂, hrest, rfl, rfl⟩ := h
    obtain ⟨hload, hdata₁⟩ := columnsLoads_ok hdata hfirst
    obtain ⟨hloads, hcolumns, hdata₂⟩ := ih hdata₁ hrest
    exact ⟨.cons hload hloads, List.forall_mem_cons.mpr ⟨hne, hcolumns⟩, hdata₂⟩

end Loads

/-! ## Counts -/

/-- Counts for the columns of a group that are as many as its demands. -/
structure RowFits (group : RouteGroup) (row : List ℕ) : Prop where
  length : row.length = group.columns.length
  sum : row.sum = group.demands.length

/-- The allocations of counts. -/
def selectedAllocations (groups : List RouteGroup) (counts : List (List ℕ)) : List RouteAllocation :=
  (groups.zip counts).flatMap fun row => allocateDemands row.1.demands (row.1.columns.zip row.2)

section Counts
variable {topology : Topology} {groups : List RouteGroup} {counts : List (List ℕ)}
  {loads : List (List RouteLoads)} {group : RouteGroup} {row : List ℕ}

theorem RowFits.zip_sum (h : RowFits group row) :
    ((group.columns.zip row).map (·.2)).sum = group.demands.length := by
  rw [List.map_snd_zip h.length.le, h.sum]

/-- A sum over columns does not change when the loads stand for the routes. -/
theorem sum_zip_loads {value : RouteLoads → ℕ} {weight : Route → ℕ} {routes : List Route}
    {loads : List RouteLoads} (h : List.Forall₂ (fun route loads => value loads = weight route) routes loads)
    (row : List ℕ) : ((loads.zip row).map fun column => value column.1 * column.2).sum =
      ((routes.zip row).map fun column => weight column.1 * column.2).sum := by
  induction h generalizing row with
  | nil => rfl
  | cons hvalue _ ih =>
    cases row with
    | nil => rfl
    | cons count row =>
      rw [List.zip_cons_cons, List.zip_cons_cons, List.map_cons, List.map_cons, List.sum_cons,
        List.sum_cons, ih, hvalue]

/-- What the allocations of counts carry, group by group. -/
theorem allocatedItems_selected_cons :
    allocatedItems (selectedAllocations (group :: groups) (row :: counts)) =
      allocatedItems (allocateDemands group.demands (group.columns.zip row)) ++
        allocatedItems (selectedAllocations groups counts) := by
  rw [selectedAllocations, List.zip_cons_cons, List.flatMap_cons, allocatedItems, List.flatMap_append]
  rfl

/-- **What counts add up to** is what their allocations carry. -/
theorem sum_selectedAllocations {value : RouteLoads → ℕ} {weight : Route → ℕ}
    (hvalue : ∀ route loads, routeLoads topology route = .ok loads → value loads = weight route)
    (hloads : List.Forall₂ (GroupLoads topology) groups loads)
    (hcounts : List.Forall₂ RowFits groups counts) :
    (((loads.zip counts).flatMap fun row => row.1.zip row.2).map fun column =>
        value column.1 * column.2).sum =
      (((allocatedItems (selectedAllocations groups counts)).map (·.2)).map weight).sum := by
  induction hloads generalizing counts with
  | nil =>
    cases hcounts
    rfl
  | @cons group first groups loads hfirst _ ih =>
    cases hcounts with
    | @cons _ row _ counts hrow hcounts =>
      rw [allocatedItems_selected_cons, List.zip_cons_cons, List.flatMap_cons, List.map_append, List.sum_append,
        List.map_append, List.map_append, List.sum_append, ih hcounts,
        (allocateDemands_spec hrow.zip_sum).2.2 weight]
      congr 1
      refine sum_zip_loads (List.Forall₂.imp ?_ hfirst) row
      exact fun route loads => hvalue route loads

/-- **The cost of counts** is the longest of their loads. -/
theorem countsCost_spec (times : SliceTimes) (hloads : List.Forall₂ (GroupLoads topology) groups loads)
    (hcounts : List.Forall₂ RowFits groups counts) :
    MaxLoadTime times topology ((allocatedItems (selectedAllocations groups counts)).map (·.2))
      (countsCost times loads counts) := by
  have hlinks : ∀ edge, totalCount edge (((loads.zip counts).flatMap fun row => row.1.zip row.2).map
      fun column => (column.1.links, column.2)) =
        linkLoad ((allocatedItems (selectedAllocations groups counts)).map (·.2)) edge := by
    intro edge
    rw [totalCount, List.map_map, linkLoad, ← sum_selectedAllocations
      (fun route loads h => (routeLoads_ok h).links edge) hloads hcounts]
    rfl
  have hresources : ∀ resource, totalCount resource (((loads.zip counts).flatMap fun row =>
      row.1.zip row.2).map fun column => (column.1.resources, column.2)) =
        resourceLoad topology ((allocatedItems (selectedAllocations groups counts)).map (·.2))
          resource := by
    intro resource
    rw [totalCount, List.map_map, resourceLoad, ← sum_selectedAllocations
      (fun route loads h => (routeLoads_ok h).resources resource) hloads hcounts]
    rfl
  unfold countsCost
  simp only [hlinks, hresources]
  refine maxLoadTime_of_times ?_ ?_ ?_ ?_
  · intro x hx
    obtain ⟨entry, hentry, rfl⟩ := List.mem_map.mp hx
    exact ⟨entry, hentry, rfl⟩
  · exact fun entry hentry _ => List.mem_map_of_mem hentry
  · intro x hx
    obtain ⟨entry, hentry, rfl⟩ := List.mem_map.mp hx
    exact ⟨entry, hentry, rfl⟩
  · exact fun entry hentry _ => List.mem_map_of_mem hentry

/-- **Every demand is carried once**, on a column of its group. -/
theorem selectedAllocations_items (hcounts : List.Forall₂ RowFits groups counts) :
    (allocatedItems (selectedAllocations groups counts)).map (·.1) =
        (groups.flatMap (·.demands)).map (·.demandId) ∧
      ∀ group ∈ groups, ∀ demand ∈ group.demands, ∃ route ∈ group.columns,
        (demand.demandId, route) ∈ allocatedItems (selectedAllocations groups counts) := by
  induction hcounts with
  | nil => exact ⟨rfl, by simp⟩
  | @cons group row groups counts hrow _ ih =>
    obtain ⟨hids, hroutes⟩ := ih
    obtain ⟨hfirst, hitems, -⟩ := allocateDemands_spec hrow.zip_sum
    rw [allocatedItems_selected_cons]
    refine ⟨?_, List.forall_mem_cons.mpr ⟨fun demand hdemand => ?_, fun other hother demand hdemand => ?_⟩⟩
    · rw [List.map_append, hfirst, hids, List.flatMap_cons, List.map_append]
    · have hid : demand.demandId ∈ group.demands.map (·.demandId) := List.mem_map_of_mem hdemand
      rw [← hfirst] at hid
      obtain ⟨item, hitem, hid⟩ := List.mem_map.mp hid
      obtain ⟨_, _, _, hroute⟩ := hitems item hitem
      refine ⟨item.2, ?_, List.mem_append_left _ (by rwa [← hid])⟩
      obtain ⟨column, hcolumn, hsame⟩ := List.mem_map.mp hroute
      exact hsame ▸ (List.of_mem_zip hcolumn).1
    · obtain ⟨route, hroute, hitem⟩ := hroutes other hother demand hdemand
      exact ⟨route, hroute, List.mem_append_right _ hitem⟩

end Counts

/-! ## The counts before -/

section Initial
variable {α : Type} [DecidableEq α]

/-- A sum over items is one over what they are, as often as they are it. -/
theorem sum_count (weight : α → ℕ) {columns : List α} (hcolumns : columns.Nodup) {items : List α}
    (hitems : ∀ a ∈ items, a ∈ columns) :
    (columns.map fun column => weight column * items.count column).sum = (items.map weight).sum := by
  have hsub : items.toFinset ⊆ columns.toFinset := fun a ha =>
    List.mem_toFinset.mpr (hitems a (List.mem_toFinset.mp ha))
  have hall := Finset.sum_subset hsub (f := fun a => items.count a • weight a) fun a _ hnot => by
    rw [List.count_eq_zero_of_not_mem fun h => hnot (List.mem_toFinset.mpr h), zero_smul]
  rw [← List.sum_toFinset _ hcolumns, Finset.sum_list_map_count, hall]
  exact Finset.sum_congr rfl fun a _ => Nat.mul_comm _ _

variable {inputs : ResolvedInput} {topology : Topology} {costs : RouteCosts}
  {demands : List RoutingDemand} {search next : RouteSearch} {counts : List (List ℕ)}
  {bundle : RouteBundle}

theorem forall₂_of_mapM {β γ : Type} {R : β → γ → Prop} {f : β → Except Fault γ} {l : List β} {m : List γ}
    (h : l.mapM f = .ok m) (hstep : ∀ b ∈ l, ∀ c, f b = .ok c → R b c) : List.Forall₂ R l m := by
  have hpairs := Checked.mapM_ok.mp h
  clear h
  induction hpairs with
  | nil => exact .nil
  | cons hbc _ ih =>
    exact .cons (hstep _ List.mem_cons_self _ hbc) (ih fun b hb => hstep b (List.mem_cons_of_mem _ hb))

/-- What holds of an incumbent: every demand is on a column of its group, and its time is the longest
of its loads. -/
structure IncumbentSound (inputs : ResolvedInput) (topology : Topology) (costs : RouteCosts)
    (demands : List RoutingDemand) (groups : List RouteGroup) (bundle : RouteBundle) : Prop where
  ids : (bundle.items.map (·.1)).Perm (demands.map (·.demandId))
  routes : ∀ group ∈ groups, ∀ demand ∈ group.demands, ∃ route ∈ group.columns,
    (demand.demandId, route) ∈ bundle.items
  time : ∃ times t, routeCapacities costs inputs.sliceSizeBytes = .ok times ∧
    bundle.bandwidthTimeRatio = (t.num, t.den) ∧
      MaxLoadTime times topology (bundle.items.map (·.2)) t

/-- What holds of a search that some calls lead to. -/
structure RouteSearch.Sound (inputs : ResolvedInput) (topology : Topology) (costs : RouteCosts)
    (demands : List RoutingDemand) (search : RouteSearch) : Prop where
  held : ∀ group ∈ search.groups, group.Held inputs topology demands
  partition : (search.groups.flatMap (·.demands)).Perm demands
  columns_nodup : ∀ group ∈ search.groups, group.columns.Nodup
  data : DataExact topology search.columnData
  incumbent : ∀ bundle ∈ search.incumbent,
    IncumbentSound inputs topology costs demands search.groups bundle

/-- At the start all demands of a group take its first column. -/
theorem rowFits_first {group : RouteGroup} (hne : group.columns ≠ []) :
    RowFits group (group.columns.mapIdx fun j _ => if j = 0 then group.demands.length else 0) := by
  obtain ⟨first, rest, hcolumns⟩ := List.exists_cons_of_ne_nil hne
  refine ⟨by simp, ?_⟩
  rw [hcolumns, List.mapIdx_cons, List.sum_cons]
  have hzero : (rest.mapIdx fun i _ => if i + 1 = 0 then group.demands.length else 0).sum = 0 := by
    refine List.sum_eq_zero fun count hcount => ?_
    obtain ⟨i, hi, rfl⟩ := List.mem_mapIdx.mp hcount
    exact if_neg (Nat.succ_ne_zero i)
  rw [if_pos rfl, hzero, Nat.add_zero]

/-- Counts of what the demands of a group take fit it, and carry that. -/
theorem rowFits_taken (taken : RoutingDemand → Route) {groups : List RouteGroup}
    (h : List.Forall₂ (fun group row => group.columns.Nodup ∧
      (∀ demand ∈ group.demands, taken demand ∈ group.columns) ∧
      row = group.columns.map fun route => (group.demands.map taken).count route) groups counts) :
    List.Forall₂ RowFits groups counts ∧ ∀ weight : Route → ℕ,
      (((allocatedItems (selectedAllocations groups counts)).map (·.2)).map weight).sum =
        ((groups.flatMap (·.demands)).map fun demand => weight (taken demand)).sum := by
  induction h with
  | nil => exact ⟨.nil, fun weight => rfl⟩
  | @cons group row groups counts hrow _ ih =>
    obtain ⟨hnodup, hmem, rfl⟩ := hrow
    obtain ⟨hfits, hweights⟩ := ih
    have hitems : ∀ route ∈ group.demands.map taken, route ∈ group.columns := by
      intro route hroute
      obtain ⟨demand, hdemand, rfl⟩ := List.mem_map.mp hroute
      exact hmem demand hdemand
    have hfirst : RowFits group (group.columns.map fun route => (group.demands.map taken).count route) := by
      refine ⟨List.length_map _, ?_⟩
      have hsum := sum_count (fun _ => 1) hnodup hitems
      simpa [Function.comp_def] using hsum
    refine ⟨.cons hfirst hfits, fun weight => ?_⟩
    rw [allocatedItems_selected_cons, List.map_append, List.map_append, List.sum_append, hweights,
      (allocateDemands_spec hfirst.zip_sum).2.2 weight, List.flatMap_cons, List.map_append,
      List.sum_append]
    congr 1
    have hsum := sum_count weight hnodup hitems
    rw [List.map_map] at hsum
    rw [← Function.comp_def weight taken, ← hsum, ← List.map_prod_left_eq_zip, List.map_map]
    rfl

/-- **The counts before** fit the groups, and carry what the incumbent carries. -/
theorem initialCounts_ok (hs : search.Sound inputs topology costs demands)
    (hids : (demands.map (·.demandId)).Nodup) (hne : ∀ group ∈ search.groups, group.columns ≠ [])
    (h : initialCounts search = .ok counts) : List.Forall₂ RowFits search.groups counts ∧
      ∀ bundle ∈ search.incumbent, ∀ weight : Route → ℕ,
        (((allocatedItems (selectedAllocations search.groups counts)).map (·.2)).map weight).sum =
          ((bundle.items.map (·.2)).map weight).sum := by
  unfold initialCounts at h
  cases hincumbent : search.incumbent with
  | none =>
    simp only [hincumbent, Except.ok.injEq] at h
    subst h
    refine ⟨?_, by simp⟩
    rw [List.forall₂_map_right_iff, List.forall₂_same]
    exact fun group hgroup => rowFits_first (hne group hgroup)
  | some incumbent =>
    simp only [hincumbent] at h
    have hsound := hs.incumbent incumbent (by simp [hincumbent])
    have hnodup : (incumbent.items.map (·.1)).Nodup := hsound.ids.nodup_iff.mpr hids
    set taken : String → Route := fun identifier =>
      ((Dict.ofList incumbent.items).get? identifier).getD { root := 0 } with htaken
    have hitem : ∀ item ∈ incumbent.items, taken item.1 = item.2 := by
      intro item hitem
      rw [htaken]
      simp only [(Dict.ofList_get? hnodup).mpr hitem, Option.getD_some]
    have hrows : List.Forall₂ (fun group row => group.columns.Nodup ∧
        (∀ demand ∈ group.demands, taken demand.demandId ∈ group.columns) ∧
        row = group.columns.map fun route =>
          (group.demands.map fun demand => taken demand.demandId).count route)
        search.groups counts := by
      refine forall₂_of_mapM h fun group hgroup row hrow => ?_
      simp only [Checked.bind_ok, Checked.pure_ok] at hrow
      obtain ⟨routes, hroutes, rfl⟩ := hrow
      refine ⟨hs.columns_nodup group hgroup, fun demand hdemand => ?_, ?_⟩
      · obtain ⟨route, hroute, hmem⟩ := hsound.routes group hgroup demand hdemand
        exact (hitem _ hmem).symm ▸ hroute
      · have hsame : routes.map id = group.demands.map fun demand => taken demand.demandId := by
          refine Checked.mapM_map hroutes fun demand _ route hroute => ?_
          rw [Checked.required_ok] at hroute
          rw [htaken]
          simp only [hroute, Option.getD_some, id_eq]
        rw [← hsame, List.map_id]
    obtain ⟨hfits, hweights⟩ := rowFits_taken (fun demand => taken demand.demandId) hrows
    refine ⟨hfits, fun bundle hbundle weight => ?_⟩
    obtain rfl : incumbent = bundle := Option.some.inj hbundle
    have hroutes : incumbent.items.map (·.2) = (incumbent.items.map (·.1)).map taken := by
      rw [List.map_map]
      exact List.map_congr_left fun item hmem => (hitem item hmem).symm
    rw [hweights, hroutes, List.map_map, ((hsound.ids.map _).sum_eq), List.map_map,
      (hs.partition.map _).sum_eq]
    rfl

/-! ## The counts that are used -/

theorem sum_toNat {row : List ℤ} (h : ∀ value ∈ row, 0 ≤ value) :
    ((row.map Int.toNat).sum : ℤ) = row.sum := by
  induction row with
  | nil => rfl
  | cons value row ih =>
    rw [List.forall_mem_cons] at h
    rw [List.map_cons, List.sum_cons, List.sum_cons, Nat.cast_add, ih h.2, Int.toNat_of_nonneg h.1]

/-- **A valid proposal** fits the groups. -/
theorem rowFits_of_valid {solution : Solution} {proposed : List (List ℤ)}
    (h : proposedCounts search solution = .ok proposed) (hvalid : validCounts search proposed) :
    List.Forall₂ RowFits search.groups (proposed.map (·.map Int.toNat)) := by
  have hlengths : List.Forall₂ (fun group row => row.length = group.columns.length)
      search.groups proposed := by
    have hpairs : List.Forall₂ (fun (group : RouteGroup × ℕ) (row : List ℤ) =>
        row.length = group.1.columns.length) search.groups.zipIdx proposed := by
      refine forall₂_of_mapM h fun group _ row hrow => ?_
      rw [← (Checked.mapM_ok.mp hrow).length_eq, List.length_zipIdx]
    have hmapped := (List.forall₂_map_left_iff (f := Prod.fst)
      (R := fun (group : RouteGroup) (row : List ℤ) => row.length = group.columns.length)).mpr hpairs
    rwa [List.zipIdx_map_fst] at hmapped
  rw [List.forall₂_map_right_iff]
  refine List.forall₂_iff_zip.mpr ⟨hlengths.length_eq, fun {group row} hmem => ?_⟩
  obtain ⟨hvalues, hsum⟩ := hvalid _ hmem
  refine ⟨?_, ?_⟩
  · rw [List.length_map]
    exact (List.forall₂_iff_zip.mp hlengths).2 hmem
  · have hcast : ((row.map Int.toNat).sum : ℤ) = row.sum :=
      sum_toNat fun value hvalue => (hvalues value hvalue).1
    have hsum : row.sum = group.demands.length := hsum
    exact Int.ofNat_inj.mp (hcast.trans hsum)

/-- **Whatever the solver answers**, the counts fit the groups and cost no more than those before. -/
theorem chosenCounts_ok (hs : search.Sound inputs topology costs demands)
    (hids : (demands.map (·.demandId)).Nodup) (hne : ∀ group ∈ search.groups, group.columns ≠ [])
    {times : SliceTimes} {loads : List (List RouteLoads)} {answer : Option Solution}
    (h : chosenCounts search times loads answer = .ok counts) :
    ∃ initial, initialCounts search = .ok initial ∧ List.Forall₂ RowFits search.groups counts ∧
      countsCost times loads counts ≤ countsCost times loads initial := by
  simp only [chosenCounts, Checked.bind_ok] at h
  obtain ⟨initial, hinitial, h⟩ := h
  have hfits := (initialCounts_ok hs hids hne hinitial).1
  refine ⟨initial, hinitial, ?_⟩
  cases answer with
  | none =>
    simp only [Checked.pure_ok] at h
    exact h ▸ ⟨hfits, le_rfl⟩
  | some solution =>
    simp only [Checked.bind_ok] at h
    obtain ⟨proposed, hproposed, h⟩ := h
    split at h
    · next hgood =>
      rw [Checked.pure_ok] at h
      exact h ▸ ⟨rowFits_of_valid hproposed hgood.1, hgood.2⟩
    · rw [Checked.pure_ok] at h
      exact h ▸ ⟨hfits, le_rfl⟩

/-- **What `solve` returns**: a bundle of counts that fit the groups, which takes no longer than the
incumbent. -/
theorem solve_ok (hs : search.Sound inputs topology costs demands)
    (hids : (demands.map (·.demandId)).Nodup) {answer : Option Solution}
    (h : search.solve inputs topology costs demands answer = .ok (next, bundle)) :
    (∃ data, next = { search with incumbent := some bundle, columnData := data } ∧
      DataExact topology data) ∧
    IncumbentSound inputs topology costs demands search.groups bundle ∧
    checkRoutedSemantics bundle = .ok () ∧
    ∀ previous ∈ search.incumbent, ∀ times t t', routeCapacities costs inputs.sliceSizeBytes = .ok times →
      MaxLoadTime times topology (bundle.items.map (·.2)) t →
      MaxLoadTime times topology (previous.items.map (·.2)) t' → t ≤ t' := by
  simp only [RouteSearch.solve, Checked.bind_ok, Checked.pure_ok, Prod.exists, Prod.mk.injEq] at h
  obtain ⟨times, htimes, loads, data, hloads, counts, hcounts, _, hbundle, rfl, rfl⟩ := h
  obtain ⟨hgroups, hne, hdata⟩ := groupsLoads_ok hs.data hloads
  obtain ⟨initial, hinitial, hfits, hcost⟩ := chosenCounts_ok hs hids hne hcounts
  have hb := routeBundle_ok hbundle
  obtain ⟨hfirst, hbefore⟩ := initialCounts_ok hs hids hne hinitial
  obtain ⟨hitemIds, hroutes⟩ := selectedAllocations_items hfits
  have hitems : RouteBundle.items _ = allocatedItems (selectedAllocations search.groups counts) :=
    hb.items
  refine ⟨⟨data, rfl, hdata⟩, ⟨?_, ?_, hb.time⟩, hb.checked, ?_⟩
  · rw [hitems, hitemIds]
    exact hs.partition.map _
  · rw [hitems]
    exact hroutes
  · intro previous hprevious times' t t' htimes' ht ht'
    obtain rfl : times' = times := Except.ok.inj (htimes'.symm.trans htimes)
    rw [hitems] at ht
    rw [ht.unique (countsCost_spec _ hgroups hfits)]
    refine hcost.trans (le_of_eq ?_)
    exact ((countsCost_spec _ hgroups hfirst).congr (hbefore previous hprevious)).unique ht'

end Initial

/-! ## Runs -/

section Runs
variable {inputs : ResolvedInput} {topology : Topology} {costs : RouteCosts} {context : RouteContext}
  {demands : List RoutingDemand} {search next first : RouteSearch} {bundle : RouteBundle}
  {group grown : RouteGroup}

/-- The groups have all demands, each once. -/
theorem groupDemands_perm {groups : Dict GroupKey (List RoutingDemand)} (hdemands : demands.Nodup)
    (h : groupDemands inputs demands = .ok groups) : (groups.flatMap (·.2)).Perm demands := by
  obtain ⟨hdistinct, hkeys, hget⟩ := groupDemands_spec h
  refine (List.perm_ext_iff_of_nodup ?_ hdemands).mpr fun demand => ?_
  · rw [List.nodup_flatMap]
    refine ⟨fun entry hentry => ?_, ?_⟩
    · rw [(mem_groupDemands h hentry).2]
      exact hdemands.filter _
    · have hpairs : groups.Pairwise fun a b => a.1 ≠ b.1 := List.pairwise_map.mp hdistinct
      refine hpairs.imp_of_mem fun {a b} ha hb hne => ?_
      rw [Function.onFun, List.disjoint_left]
      intro demand hdemand hdemand'
      rw [(mem_groupDemands h ha).2] at hdemand
      rw [(mem_groupDemands h hb).2] at hdemand'
      have hkey := of_decide_eq_true (List.mem_filter.mp hdemand).2
      have hkey' := of_decide_eq_true (List.mem_filter.mp hdemand').2
      exact hne (Except.ok.inj (hkey.symm.trans hkey'))
  · rw [List.mem_flatMap]
    constructor
    · rintro ⟨entry, hentry, hdemand⟩
      rw [(mem_groupDemands h hentry).2] at hdemand
      exact (List.mem_filter.mp hdemand).1
    · intro hdemand
      obtain ⟨key, hkey⟩ := hkeys demand hdemand
      have hmem : demand ∈ demands.filter fun demand => groupKey inputs demand = .ok key :=
        List.mem_filter.mpr ⟨hdemand, by simpa using hkey⟩
      have hentry := hget key
      rw [if_neg (List.ne_nil_of_mem hmem)] at hentry
      exact ⟨_, Dict.mem_of_get? hentry, hmem⟩

/-- A batch adds to the columns. -/
theorem mem_takeColumns {count : ℕ} {route : Route} (hroute : route ∈ group.columns)
    (h : group.takeColumns count = .ok grown) : route ∈ grown.columns := by
  induction count generalizing group with
  | zero =>
    rw [RouteGroup.takeColumns, Except.ok.injEq] at h
    exact h ▸ hroute
  | succ count ih =>
    rw [RouteGroup.takeColumns] at h
    split at h
    · refine ih ?_ h
      exact List.mem_append_left _ hroute
    · split at h
      · cases h
      · rw [Except.ok.injEq] at h
        exact h ▸ hroute

theorem mem_expand {route : Route} (hroute : route ∈ group.columns)
    (h : group.expand context = .ok grown) : route ∈ grown.columns := by
  unfold RouteGroup.expand at h
  split at h
  · rw [Except.ok.injEq] at h
    exact h ▸ hroute
  · simp only [Checked.bind_ok, Checked.ensure_ok, Checked.pure_ok] at h
    obtain ⟨taken, htaken, -, -, rfl⟩ := h
    exact mem_takeColumns hroute htaken

/-- A generator yields no route twice, whatever ends it. -/
theorem nodup_columns {demand : RoutingDemand} (htopology : topology.OfRanks inputs.rankCount)
    (hd : demand.OfRequest inputs) : (columns inputs topology demand).routes.Nodup := by
  have hkept : ∀ routes : List Route,
      ((keepLegal inputs topology demand routes).routes).Sublist routes := by
    intro routes
    induction routes with
    | nil => exact List.Sublist.refl _
    | cons route routes ih =>
      unfold keepLegal
      cases legalRoute inputs topology demand route with
      | error fault => exact List.nil_sublist _
      | ok legal =>
        cases legal with
        | true => exact ih.cons_cons route
        | false => exact ih.cons route
  unfold columns
  cases hroutes : candidateRoutes inputs topology demand with
  | error fault => exact List.nodup_nil
  | ok routes => exact (nodup_candidateRoutes htopology hd hroutes).sublist (hkept routes)

variable (htopology : topology.OfRanks inputs.rankCount) (hdemands : routingDemands inputs = .ok demands)
include htopology hdemands

theorem RouteGroup.Held.columns_nodup (h : group.Held inputs topology demands) : group.columns.Nodup := by
  obtain ⟨first, rest, hfirst, hcolumns, -⟩ := h.first
  obtain ⟨key, hkey⟩ := h.key
  have hmem := (hkey first (hfirst ▸ List.mem_cons_self)).1
  have hnodup := nodup_columns htopology (routingDemands_ofRequest hdemands hmem)
  rw [← hcolumns] at hnodup
  exact (List.nodup_append.mp hnodup).1

theorem RouteSearch.Sound.start (h : RouteSearch.init inputs topology demands = .ok first) :
    first.Sound inputs topology costs demands := by
  have hheld := init_held h
  simp only [RouteSearch.init, Checked.bind_ok, Checked.pure_ok] at h
  obtain ⟨groups, hgroups, rfl⟩ := h
  refine ⟨hheld, ?_, fun group hgroup => (hheld group hgroup).columns_nodup htopology hdemands,
    by simp [DataExact], by simp⟩
  have hnodup : demands.Nodup := List.Nodup.of_map _ (routingDemands_nodup hdemands)
  rw [List.flatMap_map]
  exact groupDemands_perm hnodup hgroups

/-- **Every call keeps a search sound.** -/
theorem RouteSearch.Step.sound (h : RouteSearch.Step inputs topology costs context demands search next)
    (hs : search.Sound inputs topology costs demands) : next.Sound inputs topology costs demands := by
  have hheld := h.held hs.held
  cases h with
  | expand hrun =>
    simp only [RouteSearch.expand, Checked.bind_ok, Checked.pure_ok, Prod.mk.injEq] at hrun
    obtain ⟨groups, hgroups, rfl, -⟩ := hrun
    have hsame : groups.map (·.demands) = search.groups.map (·.demands) :=
      Checked.mapM_map hgroups fun group hgroup grown hgrown => ((hs.held group hgroup).expand hgrown).2
    refine ⟨hheld, ?_, fun group hgroup => (hheld group hgroup).columns_nodup htopology hdemands,
      hs.data, fun bundle hbundle => ?_⟩
    · rw [List.flatMap_def, hsame, ← List.flatMap_def]
      exact hs.partition
    · have hsound := hs.incumbent bundle hbundle
      refine ⟨hsound.ids, fun group hgroup demand hdemand => ?_, hsound.time⟩
      obtain ⟨old, hold, hgrown⟩ := Checked.mapM_right hgroups hgroup
      rw [((hs.held old hold).expand hgrown).2] at hdemand
      obtain ⟨route, hroute, hmem⟩ := hsound.routes old hold demand hdemand
      exact ⟨route, mem_expand hroute hgrown, hmem⟩
  | solve answer hrun =>
    obtain ⟨⟨data, rfl, hdata⟩, hsound, -, -⟩ := solve_ok hs (routingDemands_nodup hdemands) hrun
    refine ⟨hheld, hs.partition, hs.columns_nodup, hdata, fun bundle hbundle => ?_⟩
    obtain rfl := Option.some.inj hbundle
    exact hsound

theorem RouteSearch.Reachable.sound (h : search.Reachable inputs topology costs context demands) :
    search.Sound inputs topology costs demands := by
  obtain ⟨start, hinit, hrun⟩ := h
  induction hrun with
  | refl => exact .start htopology hdemands hinit
  | tail _ hstep ih => exact hstep.sound htopology hdemands ih

end Runs

end VeriCCL
