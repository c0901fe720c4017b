import VeriCCL.RouteGroups
import VeriCCL.RouteSearch

/-! # A complete search has all columns

What a group has got and what its generator still has are together the legal routes of its first
demand (`RouteGroup.Held`), through every `expand` and every `solve`.  Once the groups are
complete they have all legal routes of all their demands, each once
(`RouteSearch.Reachable.complete`). -/
namespace VeriCCL

section Columns
variable {inputs : ResolvedInput} {topology : Topology} {demand : RoutingDemand} {route : Route}

/-- A generator that ends without a fault yields the legal routes. -/
theorem keepLegal_eq_filter {routes : List Route}
    (h : (keepLegal inputs topology demand routes).fault = none) :
    (keepLegal inputs topology demand routes).routes =
      routes.filter fun route => legalRoute inputs topology demand route = .ok true := by
  induction routes with
  | nil => rfl
  | cons route routes ih =>
    unfold keepLegal at h ⊢
    cases hlegal : legalRoute inputs topology demand route with
    | error fault => simp [hlegal] at h
    | ok legal =>
      cases legal with
      | true =>
        simp only [hlegal] at h ⊢
        rw [ih h, List.filter_cons_of_pos (by simp [hlegal])]
      | false =>
        simp only [hlegal] at h ⊢
        rw [ih h, List.filter_cons_of_neg (by simp [hlegal])]

/-- **All columns of a demand**: its legal routes, each once. -/
theorem columns_exact (htopology : topology.OfRanks inputs.rankCount) (hd : demand.OfRequest inputs)
    (h : (columns inputs topology demand).fault = none) :
    (columns inputs topology demand).routes.Nodup ∧
      ∀ route, route ∈ (columns inputs topology demand).routes ↔
        RouteOf inputs.rankCount topology.links.keys demand route ∧
          legalRoute inputs topology demand route = .ok true := by
  unfold columns at h ⊢
  cases hroutes : candidateRoutes inputs topology demand with
  | error fault => simp [hroutes] at h
  | ok routes =>
    simp only [hroutes] at h ⊢
    rw [keepLegal_eq_filter h]
    refine ⟨(nodup_candidateRoutes htopology hd hroutes).filter _, fun route => ?_⟩
    rw [List.mem_filter, mem_candidateRoutes htopology hd hroutes, decide_eq_true_eq]

end Columns

/-! ## Groups -/

section Groups
variable {inputs : ResolvedInput} {topology : Topology} {demands : List RoutingDemand}
  {context : RouteContext} {group next : RouteGroup}

/-- What holds of a group: its demands have one key, and the columns are those of the first. -/
structure RouteGroup.Held (inputs : ResolvedInput) (topology : Topology)
    (demands : List RoutingDemand) (group : RouteGroup) : Prop where
  first : ∃ first rest, group.demands = first :: rest ∧
    group.columns ++ group.generator.routes = (VeriCCL.columns inputs topology first).routes ∧
    group.generator.fault = (VeriCCL.columns inputs topology first).fault
  key : ∃ key, ∀ demand ∈ group.demands, demand ∈ demands ∧ groupKey inputs demand = .ok key
  ended : group.complete = true → group.generator.routes = [] ∧ group.generator.fault = none

/-- **A batch of columns** comes from the generator. -/
theorem RouteGroup.Held.takeColumns (h : group.Held inputs topology demands) (count : ℕ)
    (hopen : group.complete = false) (hrun : group.takeColumns count = .ok next) :
    next.Held inputs topology demands ∧ next.demands = group.demands := by
  induction count generalizing group with
  | zero =>
    rw [RouteGroup.takeColumns, Except.ok.injEq] at hrun
    exact hrun ▸ ⟨h, rfl⟩
  | succ count ih =>
    obtain ⟨first, rest, hdemands, hcolumns, hfault⟩ := h.first
    rw [RouteGroup.takeColumns] at hrun
    cases hroutes : group.generator.routes with
    | cons route routes =>
      simp only [hroutes] at hrun
      have hnext : RouteGroup.Held inputs topology demands { group with
          generator := { group.generator with routes := routes }
          columns := group.columns ++ [route] } := by
        refine ⟨⟨first, rest, hdemands, ?_, hfault⟩, h.key, fun hcomplete => ?_⟩
        · rw [← hcolumns, hroutes]
          exact List.append_assoc _ [route] _
        · exact absurd hcomplete (by simp [hopen])
      have htaken := ih hnext hopen hrun
      exact htaken
    | nil =>
      simp only [hroutes] at hrun
      cases hend : group.generator.fault with
      | some fault => simp [hend] at hrun
      | none =>
        simp only [hend, Except.ok.injEq] at hrun
        subst hrun
        exact ⟨⟨⟨first, rest, hdemands, hcolumns, hfault⟩, h.key, fun _ => ⟨hroutes, hend⟩⟩, rfl⟩

/-- **One turn of `expand`.** -/
theorem RouteGroup.Held.expand (h : group.Held inputs topology demands)
    (hrun : group.expand context = .ok next) :
    next.Held inputs topology demands ∧ next.demands = group.demands := by
  unfold RouteGroup.expand at hrun
  split at hrun
  · rw [Except.ok.injEq] at hrun
    exact hrun ▸ ⟨h, rfl⟩
  · next hopen =>
    simp only [Checked.bind_ok, Checked.ensure_ok, Checked.pure_ok] at hrun
    obtain ⟨taken, htaken, -, -, rfl⟩ := hrun
    exact h.takeColumns _ (by simpa using hopen) htaken

/-- **A key has the demands with it**, in their order. -/
theorem groupDemands_spec {done : List RoutingDemand} {groups : Dict GroupKey (List RoutingDemand)}
    (h : groupDemands inputs done = .ok groups) : groups.Distinct ∧
      (∀ demand ∈ done, ∃ key, groupKey inputs demand = .ok key) ∧
      ∀ key, groups.get? key = if (done.filter fun demand => groupKey inputs demand = .ok key) = [] then none
        else some (done.filter fun demand => groupKey inputs demand = .ok key) := by
  unfold groupDemands at h
  induction done using List.reverseRecOn generalizing groups with
  | nil =>
    rw [List.foldlM_nil, Checked.pure_ok] at h
    subst h
    exact ⟨Dict.distinct_nil, by simp, fun key => rfl⟩
  | append_singleton done demand ih =>
    obtain ⟨before, hbefore, hstep⟩ := Checked.foldlM_snoc_ok.mp h
    simp only [Checked.bind_ok, Checked.pure_ok] at hstep
    obtain ⟨own, hown, rfl⟩ := hstep
    obtain ⟨hdistinct, hkeys, hget⟩ := ih hbefore
    refine ⟨hdistinct.set _ _, fun d hd => ?_, fun key => ?_⟩
    · rcases List.mem_append.mp hd with hd | hd
      · exact hkeys d hd
      · exact ⟨own, List.mem_singleton.mp hd ▸ hown⟩
    · rw [List.filter_append, Dict.get?_set]
      by_cases hkey : own = key
      · subst hkey
        have hone : [demand].filter (fun d => decide (groupKey inputs d = .ok own)) = [demand] := by
          simp [hown]
        rw [if_pos rfl, hone, if_neg (by simp), hget]
        split
        · next hnil => simp [hnil]
        · simp
      · have hnone : [demand].filter (fun d => decide (groupKey inputs d = .ok key)) = [] := by
          simp [hown, hkey]
        rw [if_neg hkey, hnone, List.append_nil, hget]

theorem mem_groupDemands {done : List RoutingDemand} {groups : Dict GroupKey (List RoutingDemand)}
    (h : groupDemands inputs done = .ok groups) {entry : GroupKey × List RoutingDemand}
    (hentry : entry ∈ groups) : entry.2 ≠ [] ∧
      entry.2 = done.filter fun demand => groupKey inputs demand = .ok entry.1 := by
  obtain ⟨hdistinct, -, hget⟩ := groupDemands_spec h
  have hentry := Dict.get?_of_mem hdistinct hentry
  rw [hget] at hentry
  split at hentry
  · cases hentry
  · next hne => exact ⟨Option.some.inj hentry ▸ hne, (Option.some.inj hentry).symm⟩

end Groups

/-! ## Searches -/

/-- A call to `expand`, or one to `solve` with any answer of the solver.  An error ends the search:
no caller goes on after one, unless a solver ran out of its budget, which leaves the search as it
was. -/
inductive RouteSearch.Step (inputs : ResolvedInput) (topology : Topology) (costs : RouteCosts)
    (context : RouteContext) (demands : List RoutingDemand) : RouteSearch → RouteSearch → Prop
  | expand {search next : RouteSearch} {changed : Bool}
      (hrun : search.expand context = .ok (next, changed)) : Step inputs topology costs context demands search next
  | solve {search next : RouteSearch} {bundle : RouteBundle} (answer : Option Solution)
      (hrun : search.solve inputs topology costs demands answer = .ok (next, bundle)) :
      Step inputs topology costs context demands search next

/-- A search that some calls lead to. -/
def RouteSearch.Reachable (inputs : ResolvedInput) (topology : Topology) (costs : RouteCosts)
    (context : RouteContext) (demands : List RoutingDemand) (search : RouteSearch) : Prop :=
  ∃ start, RouteSearch.init inputs topology demands = .ok start ∧
    Relation.ReflTransGen (RouteSearch.Step inputs topology costs context demands) start search

section Searches
variable {inputs : ResolvedInput} {topology : Topology} {costs : RouteCosts} {context : RouteContext}
  {demands : List RoutingDemand} {search next start : RouteSearch}

/-- Groups are held at the start. -/
theorem init_held (h : RouteSearch.init inputs topology demands = .ok start) :
    ∀ group ∈ start.groups, group.Held inputs topology demands := by
  simp only [RouteSearch.init, Checked.bind_ok, Checked.pure_ok] at h
  obtain ⟨groups, hgroups, rfl⟩ := h
  intro group hgroup
  obtain ⟨entry, hentry, rfl⟩ := List.mem_map.mp hgroup
  obtain ⟨hne, hmembers⟩ := mem_groupDemands hgroups hentry
  refine ⟨?_, ⟨entry.1, fun demand hdemand => ?_⟩, fun h => by cases h⟩
  · obtain ⟨first, rest, hfirst⟩ := List.exists_cons_of_ne_nil hne
    exact ⟨first, rest, hfirst, by simp [RouteGroup.start, hfirst], by simp [RouteGroup.start, hfirst]⟩
  · have hdemand : demand ∈ entry.2 := hdemand
    rw [hmembers] at hdemand
    simpa using hdemand

/-- **A step keeps the groups held.** -/
theorem RouteSearch.Step.held (h : RouteSearch.Step inputs topology costs context demands search next)
    (hheld : ∀ group ∈ search.groups, group.Held inputs topology demands) :
    ∀ group ∈ next.groups, group.Held inputs topology demands := by
  cases h with
  | expand hrun =>
    simp only [RouteSearch.expand, Checked.bind_ok, Checked.pure_ok, Prod.mk.injEq] at hrun
    obtain ⟨groups, hgroups, rfl, -⟩ := hrun
    intro group' hgroup'
    obtain ⟨group, hgroup, hexpand⟩ := Checked.mapM_right hgroups hgroup'
    exact ((hheld group hgroup).expand hexpand).1
  | solve answer hrun =>
    simp only [RouteSearch.solve, Checked.bind_ok, Checked.pure_ok, Prod.mk.injEq, Prod.exists] at hrun
    obtain ⟨_, -, _, _, -, _, -, _, -, rfl, -⟩ := hrun
    exact hheld

theorem RouteSearch.Reachable.held (h : search.Reachable inputs topology costs context demands) :
    ∀ group ∈ search.groups, group.Held inputs topology demands := by
  obtain ⟨start, hinit, hrun⟩ := h
  induction hrun with
  | refl => exact init_held hinit
  | tail _ hstep ih => exact hstep.held ih

/-- A complete group has the columns of any of its demands. -/
theorem RouteGroup.Held.columns_exact {group : RouteGroup} (h : group.Held inputs topology demands)
    (htopology : topology.OfRanks inputs.rankCount)
    (hdemands : routingDemands inputs = .ok demands) (hcomplete : group.complete = true) :
    group.columns.Nodup ∧ ∀ demand ∈ group.demands, ∀ route, route ∈ group.columns ↔
      RouteOf inputs.rankCount topology.links.keys demand route ∧
        legalRoute inputs topology demand route = .ok true := by
  obtain ⟨first, rest, hfirst, hcolumns, hfault⟩ := h.first
  obtain ⟨key, hkey⟩ := h.key
  obtain ⟨hroutes, hnone⟩ := h.ended hcomplete
  rw [hroutes, List.append_nil] at hcolumns
  have hrequest : ∀ demand ∈ group.demands, demand.OfRequest inputs :=
    fun demand hdemand => routingDemands_ofRequest hdemands (hkey demand hdemand).1
  have hmem : first ∈ group.demands := hfirst ▸ List.mem_cons_self
  obtain ⟨hnodup, hexact⟩ :=
    VeriCCL.columns_exact htopology (hrequest first hmem) (hfault ▸ hnone)
  rw [hcolumns]
  refine ⟨hnodup, fun demand hdemand route => (hexact route).trans ?_⟩
  have hk := (hkey first hmem).2
  have hk' := (hkey demand hdemand).2
  constructor
  · rintro ⟨hroute, hlegal⟩
    exact ⟨routeOf_of_groupKey hk hk' hroute,
      legalRoute_of_groupKey (hrequest first hmem) (hrequest demand hdemand) hk hk' hroute hlegal⟩
  · rintro ⟨hroute, hlegal⟩
    exact ⟨routeOf_of_groupKey hk' hk hroute,
      legalRoute_of_groupKey (hrequest demand hdemand) (hrequest first hmem) hk' hk hroute hlegal⟩

/-- **A complete search has all columns**: once no generator has anything left, every group has
the legal routes of each of its demands, each once.  The trees among them are all there are. -/
theorem route_columns_complete (htopology : topology.OfRanks inputs.rankCount)
    (hdemands : routingDemands inputs = .ok demands)
    (h : search.Reachable inputs topology costs context demands)
    (hcomplete : ∀ group ∈ search.groups, group.complete = true) :
    (∀ group ∈ search.groups, ∀ demand ∈ group.demands, group.columns.Nodup ∧
      ∀ route, route ∈ group.columns ↔
        RouteOf inputs.rankCount topology.links.keys demand route ∧
          legalRoute inputs topology demand route = .ok true) ∧
    ∀ (nodes : List ℕ) (root : ℕ) (edges : List (ℕ × ℕ)), nodes.Nodup →
      (∀ e ∈ edges, e.1 ∈ nodes ∧ e.2 ∈ nodes) → (treeColumns nodes root edges).Nodup ∧
        ∀ tree, tree ∈ treeColumns nodes root edges ↔ SpanningTree nodes root edges tree := by
  constructor
  · intro group hgroup demand hdemand
    obtain ⟨hnodup, hexact⟩ :=
      (h.held group hgroup).columns_exact htopology hdemands (hcomplete group hgroup)
    exact ⟨hnodup, hexact demand hdemand⟩
  · intro nodes root edges hnodes hends
    exact ⟨nodup_treeColumns hnodes, fun tree => mem_treeColumns hnodes fun e he => (hends e he).2⟩

end Searches

/-- What the ranks reduce. -/
def rootedBytes : ℕ := 4

/-- Two ranks that reduce one slice. -/
def rootedInputs : ResolvedInput where
  collective := ⟨.reduce, "float32", some "sum", some 0, false⟩
  rankCount := 2
  totalSizeBytes := rootedBytes
  sliceSizeBytes := rootedBytes
  maxChannels := 2
  layout := .separate
  scratchBytesPerRank := 16
  bufferSize := 4194304
  compatibilityEnabled := false
  directedLinks := [(1, 0)]
  inputSha256 := ""
  rank_pos := Nat.two_pos

/-- One link, to the root. -/
def rootedTopology : Topology where
  links := [((1, 0), ⟨1, []⟩)]
  sharedResources := []

/-- Batches of two columns. -/
def rootedContext : RouteContext := ⟨2, Nat.two_pos⟩

/-- One call to `expand`. -/
def rootedSearch : Except Fault (List RoutingDemand × RouteSearch × Bool) := do
  let demands ← routingDemands rootedInputs
  let start ← RouteSearch.init rootedInputs rootedTopology demands
  let expanded ← start.expand rootedContext
  return (demands, expanded)

/-- The search is complete after one call. -/
theorem route_columns_complete_pair : ∃ (demands : List RoutingDemand) (search : RouteSearch),
    routingDemands rootedInputs = .ok demands ∧
      (∀ group ∈ search.groups, group.complete = true ∧ group.columns = [⟨0, [(1, 0)], []⟩]) ∧
      ∀ group ∈ search.groups, ∀ demand ∈ group.demands, ∀ route, route ∈ group.columns ↔
        RouteOf rootedInputs.rankCount rootedTopology.links.keys demand route ∧
          legalRoute rootedInputs rootedTopology demand route = .ok true := by
  have hrun : rootedSearch.toOption.map (fun run => run.2.1.groups.map fun group =>
      (group.complete, group.columns)) = some [(true, [⟨0, [(1, 0)], []⟩])] := by decide +kernel
  cases hsearch : rootedSearch with
  | error fault => simp [hsearch, Except.toOption] at hrun
  | ok run =>
    obtain ⟨demands, search, changed⟩ := run
    simp only [hsearch, Except.toOption, Option.map_some, Option.some.injEq] at hrun
    simp only [rootedSearch, Checked.bind_ok, Checked.pure_ok, Prod.mk.injEq] at hsearch
    obtain ⟨demands', hdemands, start, hstart, expanded, hexpand, rfl, rfl⟩ := hsearch
    have hall : ∀ group ∈ search.groups,
        group.complete = true ∧ group.columns = [⟨0, [(1, 0)], []⟩] := by
      intro group hgroup
      have hmem := List.mem_map_of_mem (f := fun group : RouteGroup => (group.complete, group.columns)) hgroup
      rw [hrun, List.mem_singleton, Prod.mk.injEq] at hmem
      exact hmem
    have hreach : search.Reachable rootedInputs rootedTopology { beta := [], capacity := [] } rootedContext
        demands' :=
      ⟨start, hstart, .single (.expand hexpand)⟩
    have htopology : rootedTopology.OfRanks rootedInputs.rankCount := by
      constructor <;> decide
    have hexact := (route_columns_complete htopology hdemands hreach
      fun group hgroup => (hall group hgroup).1).1
    exact ⟨demands', search, hdemands, hall, fun group hgroup demand hdemand =>
      (hexact group hgroup demand hdemand).2⟩

end VeriCCL
