import VeriCCL.TreeEnumeration

/-! # The route columns of a demand

A demand's routes (`RouteOf`) are simple paths, spanning trees out of a root or into one, or
pairs of these.  The generator looks at all of them (`mem_candidateRoutes`) and at none twice
(`nodup_candidateRoutes`), and demands with one group key have the same legal routes
(`legalRoute_of_groupKey`). -/
namespace VeriCCL

open Relation (ReflTransGen TransGen)

/-- A topology over the ranks of a request: its links have different keys, and its ends are
ranks. -/
structure Topology.OfRanks (topology : Topology) (rankCount : ℕ) : Prop where
  distinct : topology.links.Distinct
  ends : ∀ e ∈ topology.links.keys, e.1 < rankCount ∧ e.2 < rankCount

/-- A tree into a root that spans the nodes, over some edges, in order. -/
structure SpanningInTree (nodes : List ℕ) (root : ℕ) (edges tree : List (ℕ × ℕ)) : Prop where
  spans : Arborescence nodes.toFinset root (reversed tree)
  within : ∀ e ∈ tree, e ∈ edges
  sorted : SortedEdges tree

/-- **The routes of a demand**: a simple path from its source to its destination, a tree out of its
source, a tree into its destination, or a tree into some root and a tree out of it. -/
inductive RouteOf (rankCount : ℕ) (links : List (ℕ × ℕ)) (demand : RoutingDemand) : Route → Prop
  | path {source destination : ℕ} {path : List ℕ} (hmode : demand.mode = .path)
      (hsource : demand.sourceRank = some source) (hdestination : demand.destinations = [destination])
      (hpath : SimplePath links source destination path) :
      RouteOf rankCount links demand { root := source, sendEdges := path.zip path.tail }
  | broadcast {source : ℕ} {tree : List (ℕ × ℕ)} (hmode : demand.mode = .broadcast)
      (hsource : demand.sourceRank = some source)
      (htree : SpanningTree (List.range rankCount) source links tree) :
      RouteOf rankCount links demand { root := source, sendEdges := tree }
  | reduce {destination : ℕ} {tree : List (ℕ × ℕ)} (hmode : demand.mode = .reduce)
      (hdestination : demand.destinations = [destination])
      (htree : SpanningInTree (List.range rankCount) destination links tree) :
      RouteOf rankCount links demand { root := destination, reduceEdges := tree }
  | allreduce {root : ℕ} {inTree outTree : List (ℕ × ℕ)} (hmode : demand.mode = .allreduce)
      (hroot : root < rankCount) (hin : SpanningInTree (List.range rankCount) root links inTree)
      (hout : SpanningTree (List.range rankCount) root links outTree) :
      RouteOf rankCount links demand { root := root, reduceEdges := inTree, sendEdges := outTree }

/-! ## Trees into a root -/

section InTrees
variable {nodes : List ℕ} {root : ℕ} {edges tree : List (ℕ × ℕ)}

@[simp] theorem mem_reversed {e : ℕ × ℕ} : e ∈ reversed edges ↔ e.swap ∈ edges := by
  rw [reversed, List.mem_map]
  constructor
  · rintro ⟨a, ha, rfl⟩
    exact ha
  · intro h
    exact ⟨e.swap, h, rfl⟩

/-- The trees into a root, in the order of the generator. -/
def inTrees (nodes : List ℕ) (root : ℕ) (edges : List (ℕ × ℕ)) : List (List (ℕ × ℕ)) :=
  (treeColumns nodes root (reversed edges)).map fun tree => sortEdges (reversed tree)

theorem reversed_sortEdges_perm (edges : List (ℕ × ℕ)) :
    (reversed (sortEdges (reversed edges))).Perm edges := by
  have h := reversed_perm (sortEdges_perm (reversed edges))
  rwa [reversed_reversed] at h

theorem mem_inTrees (hnodes : nodes.Nodup) (hends : ∀ e ∈ edges, e.1 ∈ nodes) :
    tree ∈ inTrees nodes root edges ↔ SpanningInTree nodes root edges tree := by
  have hback : ∀ e ∈ reversed edges, e.2 ∈ nodes := fun e he => hends e.swap (mem_reversed.mp he)
  simp only [inTrees, List.mem_map, mem_treeColumns hnodes hback]
  constructor
  · rintro ⟨out, hout, rfl⟩
    refine ⟨hout.spans.perm (reversed_sortEdges_perm out).symm, fun e he => ?_, sortedEdges_sortEdges _⟩
    have := hout.within e.swap (mem_reversed.mp (mem_sortEdges.mp he))
    simpa using this
  · intro h
    refine ⟨sortEdges (reversed tree),
      ⟨h.spans.perm (sortEdges_perm _).symm, fun e he => ?_, sortedEdges_sortEdges _⟩, ?_⟩
    · exact mem_reversed.mpr (h.within _ (mem_reversed.mp (mem_sortEdges.mp he)))
    · exact h.sorted.sortEdges_eq (reversed_sortEdges_perm tree)

theorem nodup_inTrees (hnodes : nodes.Nodup) (hends : ∀ e ∈ edges, e.1 ∈ nodes) :
    (inTrees nodes root edges).Nodup := by
  have hback : ∀ e ∈ reversed edges, e.2 ∈ nodes := fun e he => hends e.swap (mem_reversed.mp he)
  refine (nodup_treeColumns hnodes).map_on fun a ha b hb hab => ?_
  -- a sorted tree is known by its edges, which way they are read does not matter
  have hsorted := ((mem_treeColumns hnodes hback).mp ha).sorted
  have hsorted' := ((mem_treeColumns hnodes hback).mp hb).sorted
  refine hsorted.eq_of_perm hsorted' ?_
  exact (reversed_sortEdges_perm a).symm.trans (hab ▸ reversed_sortEdges_perm b)

end InTrees

/-! ## The generators in turn -/

/-- **Generators in turn** yield what they yield. -/
theorem roundRobin_perm {α : Type} {fuel : ℕ} {generators : List (List α)}
    (hfuel : (generators.map fun routes => routes.length + 1).sum ≤ fuel) :
    (roundRobin fuel generators).Perm generators.flatten := by
  induction fuel generalizing generators with
  | zero =>
    cases generators with
    | nil => exact List.Perm.refl _
    | cons generator rest => simp at hfuel
  | succ fuel ih =>
    cases generators with
    | nil => exact List.Perm.refl _
    | cons generator rest =>
      cases generator with
      | nil =>
        rw [roundRobin, List.flatten_cons, List.nil_append]
        refine ih ?_
        simp only [List.map_cons, List.sum_cons, List.length_nil] at hfuel
        omega
      | cons x xs =>
        rw [roundRobin, List.flatten_cons, List.cons_append]
        refine ((ih ?_).trans ?_).cons x
        · simp only [List.map_cons, List.sum_cons, List.length_cons, List.map_append, List.sum_append,
            List.map_nil, List.sum_nil] at hfuel ⊢
          omega
        · rw [List.flatten_append, List.flatten_singleton]
          exact List.perm_append_comm

/-! ## What the generator looks at -/

section Candidates
variable {inputs : ResolvedInput} {topology : Topology} {demand : RoutingDemand} {route : Route}
  {routes : List Route} {root : ℕ}

theorem routesAt_broadcast (h : demand.mode = .broadcast) : routesAt inputs topology demand root =
    (treeColumns (List.range inputs.rankCount) root topology.links.keys).map fun tree =>
      { root := root, sendEdges := tree } := by
  simp only [routesAt, h]

theorem routesAt_reduce (h : demand.mode = .reduce) : routesAt inputs topology demand root =
    (inTrees (List.range inputs.rankCount) root topology.links.keys).map fun tree =>
      { root := root, reduceEdges := tree } := by
  simp only [routesAt, h, inTrees, List.map_map, Function.comp_def]

theorem routesAt_allreduce (h : demand.mode = .allreduce) : routesAt inputs topology demand root =
    (inTrees (List.range inputs.rankCount) root topology.links.keys).flatMap fun inTree =>
      (treeColumns (List.range inputs.rankCount) root topology.links.keys).map fun outTree =>
        { root := root, reduceEdges := inTree, sendEdges := outTree } := by
  simp only [routesAt, h, inTrees, List.flatMap_map]

/-- A request's demand of trees has these roots. -/
theorem columnRoots_ok (hd : demand.OfRequest inputs) {roots : List ℕ}
    (h : columnRoots inputs demand = .ok roots) :
    (demand.mode = .broadcast → ∃ source, demand.sourceRank = some source ∧ roots = [source]) ∧
    (demand.mode = .reduce → ∃ root, demand.destinations = [root] ∧ roots = [root]) ∧
    (demand.mode = .allreduce → roots = List.range inputs.rankCount) := by
  unfold columnRoots at h
  refine ⟨fun hmode => ?_, fun hmode => ?_, fun hmode => ?_⟩
  · obtain ⟨source, -, hsource, -⟩ := hd.spread (.inl hmode)
    simp only [hmode, hsource, Option.toList_some, Except.ok.injEq] at h
    exact ⟨source, hsource, h.symm⟩
  · obtain ⟨root, hroot⟩ := hd.pointed (.inr hmode)
    simp only [hmode, hroot, List.head?_cons, Checked.map_ok, Checked.required_ok,
      Option.some.injEq] at h
    obtain ⟨_, rfl, rfl⟩ := h
    exact ⟨root, hroot, rfl⟩
  · simp only [hmode, Except.ok.injEq] at h
    exact h.symm

/-- **The generator looks at all routes**, and at no others. -/
theorem mem_candidateRoutes (htopology : topology.OfRanks inputs.rankCount)
    (hd : demand.OfRequest inputs) (h : candidateRoutes inputs topology demand = .ok routes) :
    route ∈ routes ↔ RouteOf inputs.rankCount topology.links.keys demand route := by
  have hnodes : (List.range inputs.rankCount).Nodup := List.nodup_range
  have htails : ∀ e ∈ topology.links.keys, e.1 ∈ List.range inputs.rankCount :=
    fun e he => List.mem_range.mpr (htopology.ends e he).1
  have hheads : ∀ e ∈ topology.links.keys, e.2 ∈ List.range inputs.rankCount :=
    fun e he => List.mem_range.mpr (htopology.ends e he).2
  unfold candidateRoutes at h
  split at h
  · next hmode =>
    obtain ⟨source, -, hsource, -⟩ := hd.spread (.inr hmode)
    obtain ⟨destination, hdestination⟩ := hd.pointed (.inl hmode)
    simp only [hdestination, hsource, List.head?_cons, Checked.bind_ok, Checked.required_ok,
      Option.some.injEq, exists_eq_left', Option.toList_some, List.flatMap_singleton,
      Checked.pure_ok] at h
    subst h
    rw [List.mem_map]
    constructor
    · rintro ⟨_, hpath, rfl⟩
      obtain ⟨path, hsimple, rfl⟩ := mem_paths.mp hpath
      exact .path hmode hsource hdestination hsimple
    · intro hroute
      cases hroute with
      | path _ hsource' hdestination' hpath =>
        rw [hsource, Option.some.injEq] at hsource'
        rw [hdestination, List.singleton_inj] at hdestination'
        subst hsource' hdestination'
        exact ⟨_, mem_paths.mpr ⟨_, hpath, rfl⟩, rfl⟩
      | broadcast hmode' => simp [hmode] at hmode'
      | reduce hmode' => simp [hmode] at hmode'
      | allreduce hmode' => simp [hmode] at hmode'
  · next hpath =>
    simp only [Checked.bind_ok, Checked.pure_ok] at h
    obtain ⟨roots, hroots, rfl⟩ := h
    obtain ⟨hbroadcast, hreduce, hallreduce⟩ := columnRoots_ok hd hroots
    rw [(roundRobin_perm le_rfl).mem_iff]
    cases hmode : demand.mode with
    | path => exact absurd hmode hpath
    | broadcast =>
      obtain ⟨source, hsource, rfl⟩ := hbroadcast hmode
      rw [List.map_singleton, List.flatten_singleton, routesAt_broadcast hmode, List.mem_map]
      constructor
      · rintro ⟨tree, htree, rfl⟩
        exact .broadcast hmode hsource ((mem_treeColumns hnodes hheads).mp htree)
      · intro hroute
        cases hroute with
        | broadcast _ hsource' htree =>
          rw [hsource, Option.some.injEq] at hsource'
          subst hsource'
          exact ⟨_, (mem_treeColumns hnodes hheads).mpr htree, rfl⟩
        | path hmode' => simp [hmode] at hmode'
        | reduce hmode' => simp [hmode] at hmode'
        | allreduce hmode' => simp [hmode] at hmode'
    | reduce =>
      obtain ⟨root, hroot, rfl⟩ := hreduce hmode
      rw [List.map_singleton, List.flatten_singleton, routesAt_reduce hmode, List.mem_map]
      constructor
      · rintro ⟨tree, htree, rfl⟩
        exact .reduce hmode hroot ((mem_inTrees hnodes htails).mp htree)
      · intro hroute
        cases hroute with
        | reduce _ hroot' htree =>
          rw [hroot, List.singleton_inj] at hroot'
          subst hroot'
          exact ⟨_, (mem_inTrees hnodes htails).mpr htree, rfl⟩
        | path hmode' => simp [hmode] at hmode'
        | broadcast hmode' => simp [hmode] at hmode'
        | allreduce hmode' => simp [hmode] at hmode'
    | allreduce =>
      obtain rfl := hallreduce hmode
      simp only [List.mem_flatten, List.mem_map, List.mem_range, exists_exists_and_eq_and,
        routesAt_allreduce hmode, List.mem_flatMap]
      constructor
      · rintro ⟨root, hroot, inTree, hin, outTree, hout, rfl⟩
        exact .allreduce hmode hroot ((mem_inTrees hnodes htails).mp hin)
          ((mem_treeColumns hnodes hheads).mp hout)
      · intro hroute
        cases hroute with
        | allreduce _ hroot hin hout =>
          exact ⟨_, hroot, _, (mem_inTrees hnodes htails).mpr hin, _,
            (mem_treeColumns hnodes hheads).mpr hout, rfl⟩
        | path hmode' => simp [hmode] at hmode'
        | broadcast hmode' => simp [hmode] at hmode'
        | reduce hmode' => simp [hmode] at hmode'

/-- **The generator looks at no route twice.** -/
theorem nodup_candidateRoutes (htopology : topology.OfRanks inputs.rankCount)
    (hd : demand.OfRequest inputs) (h : candidateRoutes inputs topology demand = .ok routes) :
    routes.Nodup := by
  have hnodes : (List.range inputs.rankCount).Nodup := List.nodup_range
  have htails : ∀ e ∈ topology.links.keys, e.1 ∈ List.range inputs.rankCount :=
    fun e he => List.mem_range.mpr (htopology.ends e he).1
  unfold candidateRoutes at h
  split at h
  · next hmode =>
    obtain ⟨source, -, hsource, -⟩ := hd.spread (.inr hmode)
    obtain ⟨destination, hdestination⟩ := hd.pointed (.inl hmode)
    simp only [hdestination, hsource, List.head?_cons, Checked.bind_ok, Checked.required_ok,
      Option.some.injEq, exists_eq_left', Option.toList_some, List.flatMap_singleton,
      Checked.pure_ok] at h
    subst h
    exact (nodup_paths htopology.distinct).map fun a b hab => congrArg Route.sendEdges hab
  · next hpath =>
    simp only [Checked.bind_ok, Checked.pure_ok] at h
    obtain ⟨roots, hroots, rfl⟩ := h
    obtain ⟨hbroadcast, hreduce, hallreduce⟩ := columnRoots_ok hd hroots
    rw [(roundRobin_perm le_rfl).nodup_iff]
    cases hmode : demand.mode with
    | path => exact absurd hmode hpath
    | broadcast =>
      obtain ⟨source, hsource, rfl⟩ := hbroadcast hmode
      rw [List.map_singleton, List.flatten_singleton, routesAt_broadcast hmode]
      exact (nodup_treeColumns hnodes).map fun a b hab => congrArg Route.sendEdges hab
    | reduce =>
      obtain ⟨root, hroot, rfl⟩ := hreduce hmode
      rw [List.map_singleton, List.flatten_singleton, routesAt_reduce hmode]
      exact (nodup_inTrees hnodes htails).map fun a b hab => congrArg Route.reduceEdges hab
    | allreduce =>
      obtain rfl := hallreduce hmode
      have hroot : ∀ root, ∀ route ∈ routesAt inputs topology demand root, route.root = root := by
        intro root route hroute
        simp only [routesAt_allreduce hmode, List.mem_flatMap, List.mem_map] at hroute
        obtain ⟨_, _, _, _, rfl⟩ := hroute
        rfl
      rw [← List.flatMap_def, List.nodup_flatMap]
      refine ⟨fun root _ => ?_, List.nodup_range.imp fun {a b} hab => ?_⟩
      · rw [routesAt_allreduce hmode, List.nodup_flatMap]
        refine ⟨fun inTree _ => ?_, (nodup_inTrees hnodes htails).imp fun {a b} hab => ?_⟩
        · exact (nodup_treeColumns hnodes).map fun a b hab => congrArg Route.sendEdges hab
        · rw [Function.onFun, List.disjoint_left]
          intro route hroute hroute'
          obtain ⟨_, -, rfl⟩ := List.mem_map.mp hroute
          obtain ⟨_, -, hsame⟩ := List.mem_map.mp hroute'
          exact hab (congrArg Route.reduceEdges hsame).symm
      · rw [Function.onFun, List.disjoint_left]
        intro route hroute hroute'
        exact hab ((hroot a route hroute).symm.trans (hroot b route hroute'))

end Candidates

end VeriCCL
