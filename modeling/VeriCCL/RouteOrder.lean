import VeriCCL.RouteDemands
import VeriCCL.RoutePlan
import VeriCCL.RouteTrees

/-! # Routes are right in every order

A linear extension of a route's operations is an order of the transfers of its plan
(`RoutePlanned.transfers_of`), and it is right when the plan's transfers are
(`RoutePlanned.delivers_iff`).  The plans of requests are shaped such that one right order makes
the plan sound (`RoutePlanned.sound_of_delivers`), and the plans of trees are sound
(`TreeShaped.sound`); a sound plan is right in every order. -/
namespace VeriCCL

open Gathering (Transfer Plan)
open Relation (ReflTransGen TransGen)

/-! ## Identities -/

theorem reductionId_inj {demand : RoutingDemand} {a b : ℕ × ℕ}
    (h : reductionId demand a = reductionId demand b) : a = b := by
  have hlist := congrArg String.toList h
  simp only [reductionId, String.toList_append, List.append_right_inj, List.append_assoc] at hlist
  obtain ⟨h1, h2⟩ := Identifiers.nat_dash_nat_inj (a := a.1) (b := a.2) (c := b.1) (d := b.2)
    (String.ext (by simpa only [String.toList_append, List.append_assoc] using hlist))
  exact Prod.ext h1 h2

theorem sendId_inj {demand : RoutingDemand} {a b : ℕ × ℕ} (h : sendId demand a = sendId demand b) :
    a = b := by
  have hlist := congrArg String.toList h
  simp only [sendId, String.toList_append, List.append_right_inj, List.append_assoc] at hlist
  obtain ⟨h1, h2⟩ := Identifiers.nat_dash_nat_inj (a := a.1) (b := a.2) (c := b.1) (d := b.2)
    (String.ext (by simpa only [String.toList_append, List.append_assoc] using hlist))
  exact Prod.ext h1 h2

theorem reductionId_ne_sendId (demand : RoutingDemand) (a b : ℕ × ℕ) :
    reductionId demand a ≠ sendId demand b := by
  intro h
  have hlist := congrArg String.toList h
  have hr : ("-r-" : String).toList = ['-', 'r', '-'] := by decide
  have hs : ("-s-" : String).toList = ['-', 's', '-'] := by decide
  simp [reductionId, sendId, String.toList_append, hr, hs] at hlist

/-- **A transfer is determined by what it is called.** -/
theorem transferId_inj {demand : RoutingDemand} {t t' : Transfer ℕ}
    (h : transferId demand t = transferId demand t') : t = t' := by
  cases t with
  | gather u v =>
    cases t' with
    | gather u' v' => obtain ⟨rfl, rfl⟩ := Prod.ext_iff.mp (reductionId_inj h); rfl
    | spread u' v' => exact absurd h (reductionId_ne_sendId demand _ _)
  | spread u v =>
    cases t' with
    | gather u' v' => exact absurd h.symm (reductionId_ne_sendId demand _ _)
    | spread u' v' => obtain ⟨rfl, rfl⟩ := Prod.ext_iff.mp (sendId_inj h); rfl

/-- The transfer of an operation. -/
def RouteOperation.transfer (op : RouteOperation) : Transfer ℕ :=
  match op.kind with
  | .rrc => .gather op.edge.1 op.edge.2
  | .send => .spread op.edge.1 op.edge.2

/-! ## Orders of operations and orders of transfers -/

section RoutePlanned
variable {inputs : ResolvedInput} {topology : Topology} {demand : RoutingDemand} {route : Route}
  {operations order : List RouteOperation} {carried : ℕ → Finset ℕ} {transfers : List (Transfer ℕ)}
  {plan : Plan ℕ ℕ}

theorem transfer_transferOperation (t : Transfer ℕ) :
    (transferOperation inputs topology demand plan t).transfer = t := by
  cases t <;> rfl

/-- An operation does what its transfer does. -/
theorem execute_eq_apply (states : ℕ → Option (Finset ℕ)) (t : Transfer ℕ) :
    RouteOperation.execute states (transferOperation inputs topology demand plan t) =
      Gathering.apply states t := by
  cases t <;> rfl

theorem foldl_execute (l : List (Transfer ℕ)) (states : ℕ → Option (Finset ℕ)) :
    (l.map (transferOperation inputs topology demand plan)).foldl RouteOperation.execute states =
      l.foldl Gathering.apply states := by
  rw [List.foldl_map]
  congr 1
  funext states t
  exact execute_eq_apply states t

theorem readsRecorded_iff {states : ℕ → Option (Finset ℕ)} {t : Transfer ℕ} :
    (transferOperation inputs topology demand plan t).ReadsRecorded states ↔ plan.Reads states t := by
  cases t with
  | gather u v => exact ⟨fun h => ⟨h.source, h.once rfl⟩, fun h => ⟨h.1, fun _ => h.2⟩⟩
  | spread u v => exact ⟨fun h => h.source, fun h => ⟨h, by rintro ⟨⟩⟩⟩

/-- **A linear extension of the operations** is an order of the transfers. -/
theorem RoutePlanned.transfers_of (h : RoutePlanned inputs topology demand route operations carried transfers)
    (hlinear : LinearExtension operations order) : ∃ moved,
      (routePlan inputs demand route carried).Extends moved ∧ order = moved.map
        (transferOperation inputs topology demand (routePlan inputs demand route carried)) := by
  set plan := routePlan inputs demand route carried
  have hperm : order.Perm (transfers.map (transferOperation inputs topology demand plan)) :=
    h.operations ▸ hlinear.perm
  have horder : order = (order.map RouteOperation.transfer).map
      (transferOperation inputs topology demand plan) := by
    rw [List.map_map]
    conv_lhs => rw [← List.map_id order]
    refine List.map_congr_left fun op hop => ?_
    obtain ⟨t, -, rfl⟩ := List.mem_map.mp (hperm.mem_iff.mp hop)
    rw [Function.comp_apply, transfer_transferOperation, id]
  have hmoved : (order.map RouteOperation.transfer).Perm transfers := by
    refine (hperm.map _).trans (List.Perm.of_eq ?_)
    rw [List.map_map]
    refine List.map_id'' (fun t => ?_) transfers
    exact transfer_transferOperation t
  refine ⟨_, ⟨hmoved.nodup_iff.mpr h.order.nodup, fun t => hmoved.mem_iff.trans (h.order.all t),
    fun l t r hsplit p hp => ?_⟩, horder⟩
  -- what is called what the dependency says is the transfer that it is about
  obtain ⟨l', r', hsplit', rfl, hr'⟩ := List.map_eq_append_iff.mp hsplit
  obtain ⟨op, r'', rfl, rfl, rfl⟩ := List.map_eq_cons_iff.mp hr'
  have hop : op = transferOperation inputs topology demand plan op.transfer := by
    obtain ⟨t, -, rfl⟩ := List.mem_map.mp (hperm.mem_iff.mp (by simp [hsplit'] : op ∈ order))
    rw [transfer_transferOperation]
  have hdependency : transferId demand p ∈ op.dependencies := by
    rw [hop]
    exact Finset.mem_image_of_mem _ hp
  obtain ⟨before, hbefore, hid⟩ := List.mem_map.mp (hlinear.sorted l' op r'' hsplit' _ hdependency)
  obtain ⟨t, -, rfl⟩ := List.mem_map.mp
    (hperm.mem_iff.mp (by simp [hsplit', hbefore] : before ∈ order))
  obtain rfl : t = p := transferId_inj hid
  exact List.mem_map.mpr ⟨_, hbefore, transfer_transferOperation t⟩

/-- An order of the transfers is a linear extension of the operations. -/
theorem RoutePlanned.linear_of (h : RoutePlanned inputs topology demand route operations carried transfers)
    {moved : List (Transfer ℕ)} (hmoved : (routePlan inputs demand route carried).Extends moved) :
    LinearExtension operations (moved.map
      (transferOperation inputs topology demand (routePlan inputs demand route carried))) where
  perm := by
    rw [h.operations]
    refine List.Perm.map _ ((List.perm_ext_iff_of_nodup hmoved.nodup h.order.nodup).mpr fun t => ?_)
    rw [hmoved.all, h.order.all]
  sorted := by
    intro l op r hsplit identifier hidentifier
    obtain ⟨l', r', rfl, rfl, hr'⟩ := List.map_eq_append_iff.mp hsplit
    obtain ⟨t, r'', rfl, rfl, rfl⟩ := List.map_eq_cons_iff.mp hr'
    obtain ⟨p, hp, rfl⟩ := Finset.mem_image.mp hidentifier
    have := hmoved.sorted l' t r'' rfl p hp
    exact List.mem_map.mpr ⟨_, List.mem_map_of_mem this, rfl⟩

/-- The operations in the order in which they are made. -/
theorem RoutePlanned.linear (h : RoutePlanned inputs topology demand route operations carried transfers) :
    LinearExtension operations operations := by
  have := h.linear_of h.order
  rwa [← h.operations] at this

/-- **An order of operations is right** when the order of transfers is. -/
theorem delivers_iff {moved : List (Transfer ℕ)} : demand.Delivers inputs (moved.map
      (transferOperation inputs topology demand (routePlan inputs demand route carried))) ↔
    (routePlan inputs demand route carried).Replays moved ∧ ∀ rank ∈ demand.destinations,
      moved.foldl Gathering.apply (demand.initialStates inputs) rank = some demand.contributors := by
  constructor
  · refine fun h => ⟨fun l t r hsplit => ?_, fun rank hrank => ?_⟩
    · have := h.reads (l.map _) _ (r.map _) (by rw [hsplit, List.map_append, List.map_cons])
      rwa [readsRecorded_iff, foldl_execute] at this
    · have := h.ends rank hrank
      rwa [foldl_execute] at this
  · rintro ⟨hreplays, hends⟩
    refine ⟨fun l op r hsplit => ?_, fun rank hrank => ?_⟩
    · obtain ⟨l', r', rfl, rfl, hr'⟩ := List.map_eq_append_iff.mp hsplit
      obtain ⟨t, r'', rfl, rfl, rfl⟩ := List.map_eq_cons_iff.mp hr'
      rw [readsRecorded_iff, foldl_execute]
      exact hreplays l' t r'' rfl
    · rw [foldl_execute]
      exact hends rank hrank

/-! ## The plans of requests -/

theorem initialStates_spreading (hmode : demand.mode.spreading) (v : ℕ) :
    demand.initialStates inputs v =
      if demand.sourceRank = some v then some demand.contributors else none := by
  rcases hmode with h | h <;> simp only [RoutingDemand.initialStates, h]

theorem initialStates_gathering (hmode : ¬ demand.mode.spreading) (v : ℕ) :
    demand.initialStates inputs v =
      if v < inputs.rankCount then some (ownContribution inputs demand v) else none := by
  unfold RoutingDemand.initialStates
  split
  · next h => exact absurd (.inl h) hmode
  · next h => exact absurd (.inr h) hmode
  · rfl

/-- What ranks carry where nothing is reduced: what they have of their own. -/
def carriedAlone (inputs : ResolvedInput) (demand : RoutingDemand) (rank : ℕ) : Finset ℕ :=
  (demand.initialStates inputs rank).getD ∅

theorem RoutingDemand.OfRequest.whole_nonempty (hd : demand.OfRequest inputs) :
    demand.contributors.Nonempty := by
  by_cases hmode : demand.mode.spreading
  · obtain ⟨source, -, -, hcontributors⟩ := hd.spread hmode
    rw [hcontributors]
    exact Finset.singleton_nonempty _
  · rw [hd.gather hmode]
    exact ⟨_, mem_aggregate.mpr ⟨0, inputs.rank_pos, rfl⟩⟩

/-- **The plan of a request's demand is shaped**: contributions start apart, and together they
are the whole. -/
theorem RoutePlanned.shaped (h : RoutePlanned inputs topology demand route operations carried transfers)
    (hd : demand.OfRequest inputs) (halone : route.reduceEdges = [] → carried = carriedAlone inputs demand)
    (hspread : demand.mode.spreading → route.reduceEdges = []) :
    (routePlan inputs demand route carried).Shaped := by
  have hnone : route.reduceEdges = [] → (routePlan inputs demand route carried).gathers = ∅ := by
    intro hnil
    simp [routePlan, hnil]
  refine ⟨⟨h.spreads, fun e he => ?_, fun v s hv => ?_⟩, fun v w s s' hv hw hne => ?_, fun v s hv => ?_⟩
  · have he : e ∈ route.reduceEdges := List.mem_toFinset.mp he
    have hmode : ¬ demand.mode.spreading := fun hmode => by simp [hspread hmode] at he
    obtain ⟨hsrc, hdst⟩ := h.ranks e he
    have hown : ∀ v < inputs.rankCount, demand.initialStates inputs v ≠ none := fun v hv => by
      rw [initialStates_gathering hmode, if_pos hv]
      simp
    exact ⟨hown _ hsrc, hown _ hdst⟩
  · by_cases hnil : route.reduceEdges = []
    · rw [hnone hnil]
      have hcarried : carried v = s := by
        rw [halone hnil, carriedAlone]
        exact congrArg (fun o : Option (Finset ℕ) => o.getD ∅) hv
      simpa [routePlan] using hcarried
    · have hmode : ¬ demand.mode.spreading := fun hmode => hnil (hspread hmode)
      have hv : demand.initialStates inputs v = some s := hv
      rw [initialStates_gathering hmode] at hv
      split at hv
      · next hlt =>
        obtain rfl := Option.some.inj hv
        exact h.carries hnil v hlt
      · cases hv
  · have hv : demand.initialStates inputs v = some s := hv
    have hw : demand.initialStates inputs w = some s' := hw
    by_cases hmode : demand.mode.spreading
    · rw [initialStates_spreading hmode] at hv hw
      split at hv <;> split at hw <;> simp_all
    · rw [initialStates_gathering hmode] at hv hw
      split at hv <;> split at hw <;> simp only [Option.some.injEq, reduceCtorEq] at hv hw
      subst hv hw
      rw [ownContribution, ownContribution, Finset.disjoint_singleton]
      intro heq
      exact hne (Nat.eq_of_mul_eq_mul_right inputs.sliceCount_pos (Nat.add_right_cancel heq))
  · have hv : demand.initialStates inputs v = some s := hv
    by_cases hmode : demand.mode.spreading
    · rw [initialStates_spreading hmode] at hv
      split at hv
      · obtain rfl := Option.some.inj hv
        exact ⟨hd.whole_nonempty, Finset.Subset.refl _⟩
      · cases hv
    · rw [initialStates_gathering hmode] at hv
      split at hv
      · next hlt =>
        obtain rfl := Option.some.inj hv
        refine ⟨Finset.singleton_nonempty _, ?_⟩
        show _ ⊆ demand.contributors
        rw [ownContribution, Finset.singleton_subset_iff, hd.gather hmode]
        exact mem_aggregate.mpr ⟨v, hlt, rfl⟩
      · cases hv

/-- **One right order makes the plan sound.** -/
theorem RoutePlanned.sound_of_delivers
    (h : RoutePlanned inputs topology demand route operations carried transfers)
    (hd : demand.OfRequest inputs) (halone : route.reduceEdges = [] → carried = carriedAlone inputs demand)
    {moved : List (Transfer ℕ)} (hmoved : (routePlan inputs demand route carried).Extends moved)
    (hreplays : (routePlan inputs demand route carried).Replays moved) :
    (routePlan inputs demand route carried).Shaped ∧ (routePlan inputs demand route carried).Sound := by
  have hspread : demand.mode.spreading → route.reduceEdges = [] := by
    -- where all that is there is the whole, a reduction adds nothing
    intro hmode
    rw [List.eq_nil_iff_forall_not_mem]
    intro e he
    have hmem : .gather e.1 e.2 ∈ moved := hmoved.gather_mem.mpr (List.mem_toFinset.mpr he)
    refine hreplays.no_gather (fun v s hv => ?_) hd.whole_nonempty e.1 e.2 hmem
    have hv : demand.initialStates inputs v = some s := hv
    rw [initialStates_spreading hmode] at hv
    split at hv
    · exact (Option.some.inj hv).symm
    · cases hv
  have hshaped := h.shaped hd halone hspread
  exact ⟨hshaped, hshaped.sound hmoved hreplays⟩

/-- **A route that is right in one order is right in all.** -/
theorem delivers_all (hd : demand.OfRequest inputs)
    (hphysical : physicalOperation inputs topology demand route = .ok operations)
    (hlinear : LinearExtension operations order) (h : demand.Delivers inputs order)
    {other : List RouteOperation} (hother : LinearExtension operations other) :
    demand.Delivers inputs other := by
  obtain ⟨carried, transfers, hplanned, halone⟩ :=
    physicalOperation_plan hphysical (carriedAlone inputs demand)
  obtain ⟨moved, hmoved, rfl⟩ := hplanned.transfers_of hlinear
  obtain ⟨moved', hmoved', rfl⟩ := hplanned.transfers_of hother
  obtain ⟨hreplays, hends⟩ := delivers_iff.mp h
  obtain ⟨-, hsound⟩ := hplanned.sound_of_delivers hd halone hmoved hreplays
  refine delivers_iff.mpr ⟨hsound.replays hmoved', fun rank hrank => ?_⟩
  have hfinal := hends rank hrank
  have hsame : moved'.foldl Gathering.apply (demand.initialStates inputs) =
      moved.foldl Gathering.apply (demand.initialStates inputs) :=
    (hsound.final hmoved').trans (hsound.final hmoved).symm
  rwa [hsame]

end RoutePlanned

/-! ## Columns are trees -/

/-- What a column is like: it spreads along a tree that has the destinations, and a demand
without one source is first reduced along a tree over all ranks. -/
structure TreeShaped (inputs : ResolvedInput) (demand : RoutingDemand) (route : Route) : Prop where
  alone : demand.mode.spreading → route.reduceEdges = [] ∧ demand.sourceRank = some route.root
  together : ¬ demand.mode.spreading →
    Arborescence (List.range inputs.rankCount).toFinset route.root (reversed route.reduceEdges)
  sends : ∃ V, Arborescence V route.root route.sendEdges ∧ ∀ rank ∈ demand.destinations, rank ∈ V

section Columns
variable {inputs : ResolvedInput} {topology : Topology} {demand : RoutingDemand} {route : Route}

theorem mem_keepLegal {routes : List Route}
    (h : route ∈ (keepLegal inputs topology demand routes).routes) :
    route ∈ routes ∧ legalRoute inputs topology demand route = .ok true := by
  induction routes with
  | nil => cases h
  | cons first routes ih =>
    unfold keepLegal at h
    cases hlegal : legalRoute inputs topology demand first with
    | error fault => simp [hlegal] at h
    | ok legal =>
      cases legal with
      | false =>
        rw [hlegal] at h
        exact (ih h).imp_left (List.mem_cons_of_mem _)
      | true =>
        simp only [hlegal] at h
        rcases List.mem_cons.mp h with rfl | h
        · exact ⟨List.mem_cons_self, hlegal⟩
        · exact (ih h).imp_left (List.mem_cons_of_mem _)

theorem mem_roundRobin {α : Type} {fuel : ℕ} {generators : List (List α)} {x : α}
    (h : x ∈ roundRobin fuel generators) : ∃ generator ∈ generators, x ∈ generator := by
  induction fuel generalizing generators with
  | zero => cases h
  | succ fuel ih =>
    cases generators with
    | nil => cases h
    | cons generator rest =>
      cases generator with
      | nil =>
        obtain ⟨g, hg, hx⟩ := ih h
        exact ⟨g, List.mem_cons_of_mem _ hg, hx⟩
      | cons y ys =>
        rcases List.mem_cons.mp h with rfl | h
        · exact ⟨_, List.mem_cons_self, List.mem_cons_self⟩
        · obtain ⟨g, hg, hx⟩ := ih h
          rcases List.mem_append.mp hg with hg | hg
          · exact ⟨g, List.mem_cons_of_mem _ hg, hx⟩
          · obtain rfl := List.mem_singleton.mp hg
            exact ⟨_, List.mem_cons_self, List.mem_cons_of_mem _ hx⟩

theorem reversed_reversed (edges : List (ℕ × ℕ)) : reversed (reversed edges) = edges := by
  simp [reversed]

theorem reversed_perm {edges edges' : List (ℕ × ℕ)} (h : edges.Perm edges') :
    (reversed edges).Perm (reversed edges') := h.map _

/-- **Every column is shaped like a tree.** -/
theorem treeShaped_of_columns (hd : demand.OfRequest inputs)
    (h : route ∈ (columns inputs topology demand).routes) : TreeShaped inputs demand route := by
  have hcandidate : ∃ routes, candidateRoutes inputs topology demand = .ok routes ∧ route ∈ routes := by
    unfold columns at h
    cases hroutes : candidateRoutes inputs topology demand with
    | error fault => simp [hroutes] at h
    | ok routes =>
      rw [hroutes] at h
      exact ⟨routes, rfl, (mem_keepLegal h).1⟩
  obtain ⟨routes, hroutes, hmem⟩ := hcandidate
  have hnodes : (List.range inputs.rankCount).Nodup := List.nodup_range
  have hranks : ∀ rank ∈ demand.destinations, rank ∈ (List.range inputs.rankCount).toFinset :=
    fun rank hrank => by simpa using hd.ranks rank hrank
  unfold candidateRoutes at hroutes
  split at hroutes
  · next hmode =>
    simp only [Checked.bind_ok, Checked.required_ok, Checked.pure_ok] at hroutes
    obtain ⟨destination, hdestination, rfl⟩ := hroutes
    obtain ⟨source, hsource, hmem⟩ := List.mem_flatMap.mp hmem
    obtain ⟨path, hpath, rfl⟩ := List.mem_map.mp hmem
    obtain ⟨⟨V, htree, htarget⟩, -⟩ := mem_paths_tree hpath
    obtain ⟨rank, hrank⟩ := hd.pointed (.inl hmode)
    refine ⟨fun _ => ⟨rfl, Option.mem_toList.mp hsource⟩, fun h => absurd (.inr hmode) h, V, htree, ?_⟩
    rw [hrank] at hdestination ⊢
    simp only [List.head?_cons, Option.some.injEq] at hdestination
    simpa [hdestination] using htarget
  · next hmode =>
    simp only [Checked.bind_ok, Checked.pure_ok] at hroutes
    obtain ⟨roots, hroots, rfl⟩ := hroutes
    obtain ⟨generator, hgenerator, hmem⟩ := mem_roundRobin hmem
    obtain ⟨root, hroot, rfl⟩ := List.mem_map.mp hgenerator
    unfold routesAt at hmem
    unfold columnRoots at hroots
    cases hkind : demand.mode with
    | path => exact absurd hkind hmode
    | broadcast =>
      simp only [hkind, List.mem_map] at hmem
      obtain ⟨tree, htree, rfl⟩ := hmem
      simp only [hkind, Except.ok.injEq] at hroots
      subst hroots
      exact ⟨fun _ => ⟨rfl, Option.mem_toList.mp hroot⟩, fun h => absurd (.inl hkind) h, _,
        (mem_treeColumns_tree hnodes htree).1, hranks⟩
    | reduce =>
      simp only [hkind, List.mem_map] at hmem
      obtain ⟨tree, htree, rfl⟩ := hmem
      simp only [hkind, Checked.map_ok, Checked.required_ok] at hroots
      obtain ⟨destination, hdestination, rfl⟩ := hroots
      obtain rfl := List.mem_singleton.mp hroot
      obtain ⟨rank, hrank⟩ := hd.pointed (.inr hkind)
      refine ⟨fun h => by simp [RouteMode.spreading, hkind] at h, fun _ => ?_, {root},
        Arborescence.single root, ?_⟩
      · refine (mem_treeColumns_tree hnodes htree).1.perm ?_
        have := (reversed_perm (sortEdges_perm (reversed tree))).symm
        rwa [reversed_reversed] at this
      · rw [hrank] at hdestination ⊢
        simp only [List.head?_cons, Option.some.injEq] at hdestination
        simp [hdestination]
    | allreduce =>
      simp only [hkind, List.mem_flatMap, List.mem_map] at hmem
      obtain ⟨reduceTree, hreduce, sendTree, hsend, rfl⟩ := hmem
      refine ⟨fun h => by simp [RouteMode.spreading, hkind] at h, fun _ => ?_, _,
        (mem_treeColumns_tree hnodes hsend).1, hranks⟩
      refine (mem_treeColumns_tree hnodes hreduce).1.perm ?_
      have := (reversed_perm (sortEdges_perm (reversed reduceTree))).symm
      rwa [reversed_reversed] at this

variable {operations order : List RouteOperation} {carried : ℕ → Finset ℕ}
  {transfers : List (Transfer ℕ)}

/-- One edge leads into every head. -/
theorem Arborescence.head_unique {V : Finset ℕ} {root u u' v : ℕ} {edges : List (ℕ × ℕ)}
    (h : Arborescence V root edges) (hu : (u, v) ∈ edges) (hu' : (u', v) ∈ edges) : u = u' :=
  congrArg Prod.fst (List.inj_on_of_nodup_map h.once hu hu' rfl)

/-- **The plan of a tree is sound**, and the whole comes together in its root. -/
theorem TreeShaped.sound (ht : TreeShaped inputs demand route) (hd : demand.OfRequest inputs)
    (h : RoutePlanned inputs topology demand route operations carried transfers)
    (halone : route.reduceEdges = [] → carried = carriedAlone inputs demand) :
    (routePlan inputs demand route carried).Sound ∧
      demand.initialStates inputs route.root ≠ none ∧ carried route.root = demand.contributors := by
  have hshaped := h.shaped hd halone fun hmode => (ht.alone hmode).1
  by_cases hmode : demand.mode.spreading
  · obtain ⟨hnil, hsource⟩ := ht.alone hmode
    have hroot : demand.initialStates inputs route.root = some demand.contributors := by
      rw [initialStates_spreading hmode, if_pos hsource]
    have hcarried : carried route.root = demand.contributors := by
      rw [halone hnil, carriedAlone, hroot, Option.getD_some]
    have hnone : (routePlan inputs demand route carried).gathers = ∅ := by simp [routePlan, hnil]
    refine ⟨{ hshaped.toFormed with fresh := ?_, apart := ?_, rooted := ?_ }, by simp [hroot], hcarried⟩
    · simp [hnone]
    · simp [hnone]
    · exact fun _ => ⟨by simp [routePlan, hroot], hcarried, by simp [hnone]⟩
  · have htree := ht.together hmode
    have hroot : demand.initialStates inputs route.root ≠ none := by
      rw [initialStates_gathering hmode, if_pos (by simpa using htree.root_mem)]
      simp
    have hback : ∀ u v, (u, v) ∈ route.reduceEdges ↔ (v, u) ∈ reversed route.reduceEdges := by
      intro u v
      simp [reversed]
    have hout : ∀ u v w, (u, v) ∈ (routePlan inputs demand route carried).gathers →
        (u, w) ∈ (routePlan inputs demand route carried).gathers → v = w := by
      intro u v w huv huw
      exact htree.head_unique ((hback u v).mp (List.mem_toFinset.mp huv))
        ((hback u w).mp (List.mem_toFinset.mp huw))
    have hreach : ∀ v, (routePlan inputs demand route carried).own v ≠ none →
        ReflTransGen (fun u v => (u, v) ∈ (routePlan inputs demand route carried).gathers) v
          route.root := by
      intro v hv
      have hv : demand.initialStates inputs v ≠ none := hv
      rw [initialStates_gathering hmode] at hv
      have hlt : v < inputs.rankCount := by
        by_contra hnot
        exact hv (if_neg hnot)
      have hreach := Relation.reflTransGen_swap.mpr (htree.reach v (by simpa using hlt))
      exact ReflTransGen.mono (fun a b hab => List.mem_toFinset.mpr ((hback a b).mpr hab)) _ _ hreach
    have hwhole : ∀ c ∈ demand.contributors, ∃ v s, demand.initialStates inputs v = some s ∧ c ∈ s := by
      intro c hc
      rw [hd.gather hmode] at hc
      obtain ⟨rank, hlt, rfl⟩ := mem_aggregate.mp hc
      refine ⟨rank, ownContribution inputs demand rank, ?_, Finset.mem_singleton_self _⟩
      rw [initialStates_gathering hmode, if_pos hlt]
    obtain ⟨hsound, hcarried⟩ := hshaped.sound_of_tree h.order hout hreach hroot hwhole
    exact ⟨hsound, hroot, hcarried⟩

/-- **A column is right in every order.** -/
theorem TreeShaped.delivers (ht : TreeShaped inputs demand route) (hd : demand.OfRequest inputs)
    (hphysical : physicalOperation inputs topology demand route = .ok operations)
    (hlinear : LinearExtension operations order) : demand.Delivers inputs order := by
  obtain ⟨carried, transfers, hplanned, halone⟩ :=
    physicalOperation_plan hphysical (carriedAlone inputs demand)
  obtain ⟨moved, hmoved, rfl⟩ := hplanned.transfers_of hlinear
  obtain ⟨hsound, hroot, hwhole⟩ := ht.sound hd hplanned halone
  refine delivers_iff.mpr ⟨hsound.replays hmoved, fun rank hrank => ?_⟩
  have hfinal := congrFun (hsound.final hmoved) rank
  obtain ⟨V, htree, hV⟩ := ht.sends
  refine hfinal.trans ?_
  by_cases hr : rank = route.root
  · subst hr
    rw [if_neg]
    · obtain ⟨s, hs⟩ := Option.ne_none_iff_exists'.mp hroot
      show Option.map (fun _ => carried route.root) (demand.initialStates inputs route.root) = _
      rw [hs, hwhole, Option.map_some]
    · rintro ⟨e, he, heq⟩
      have hhead := (htree.heads e.2).mp (List.mem_map_of_mem (List.mem_toFinset.mp he))
      exact hhead.2 heq
  · rw [if_pos]
    · rfl
    · obtain ⟨e, he, heq⟩ := List.mem_map.mp ((htree.heads rank).mpr ⟨hV rank hrank, hr⟩)
      exact ⟨e, List.mem_toFinset.mpr he, heq⟩

/-- What a transfer does, and along which edge. -/
def transferRole : Gathering.Transfer ℕ → RouteKind × (ℕ × ℕ)
  | .gather u v => (.rrc, (u, v))
  | .spread u v => (.send, (u, v))

/-- **One operation per edge.** -/
theorem TreeShaped.one_each (ht : TreeShaped inputs demand route)
    (hphysical : physicalOperation inputs topology demand route = .ok operations) :
    (operations.map fun op => (op.kind, op.edge)).Perm
      (route.reduceEdges.map (fun e => (RouteKind.rrc, e)) ++
        route.sendEdges.map (fun e => (RouteKind.send, e))) := by
  obtain ⟨carried, transfers, hplanned, -⟩ :=
    physicalOperation_plan hphysical (carriedAlone inputs demand)
  have hsends : route.sendEdges.Nodup := by
    obtain ⟨V, htree, -⟩ := ht.sends
    exact List.Nodup.of_map _ htree.once
  have hreduces : route.reduceEdges.Nodup := by
    by_cases hmode : demand.mode.spreading
    · rw [(ht.alone hmode).1]
      exact List.nodup_nil
    · exact List.Nodup.of_map _ (List.Nodup.of_map _ (ht.together hmode).once)
  have hkey : ∀ t, ((fun op : RouteOperation => (op.kind, op.edge)) ∘ transferOperation inputs topology
      demand (routePlan inputs demand route carried)) t = transferRole t := by
    intro t
    cases t <;> rfl
  rw [hplanned.operations, List.map_map, List.map_congr_left fun t _ => hkey t]
  refine (List.perm_ext_iff_of_nodup ?_ ?_).mpr fun x => ?_
  · refine hplanned.order.nodup.map fun a b hab => ?_
    cases a <;> cases b <;> simp_all [transferRole]
  · rw [List.nodup_append]
    refine ⟨hreduces.map fun a b hab => (Prod.ext_iff.mp hab).2,
      hsends.map fun a b hab => (Prod.ext_iff.mp hab).2, ?_⟩
    intro a ha b hb hab
    obtain ⟨_, -, rfl⟩ := List.mem_map.mp ha
    obtain ⟨_, -, rfl⟩ := List.mem_map.mp hb
    cases hab
  · simp only [List.mem_map, List.mem_append]
    constructor
    · rintro ⟨t, ht, rfl⟩
      cases t with
      | gather u v => exact .inl ⟨_, List.mem_toFinset.mp (hplanned.order.gather_mem.mp ht), rfl⟩
      | spread u v => exact .inr ⟨_, List.mem_toFinset.mp (hplanned.order.spread_mem.mp ht), rfl⟩
    · rintro (⟨e, he, rfl⟩ | ⟨e, he, rfl⟩)
      · exact ⟨_, hplanned.order.gather_mem.mpr (List.mem_toFinset.mpr he), rfl⟩
      · exact ⟨_, hplanned.order.spread_mem.mpr (List.mem_toFinset.mpr he), rfl⟩

end Columns

end VeriCCL
