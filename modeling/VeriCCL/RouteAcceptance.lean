import VeriCCL.LocalOrder
import VeriCCL.RouteCheck

/-! # Accepted bundles are right

A bundle is right (`RouteBundle.Right`) when its batches carry every demand once, its
operations are those of the routes, the constraints allow them, and every order of a demand's
operations delivers.  `checkRoutedSemantics`, which replays one order, accepts exactly the
right bundles. -/
namespace VeriCCL

open Gathering (Transfer Plan)
open Relation (TransGen)

/-- What makes a bundle right. -/
structure RouteBundle.Right (bundle : RouteBundle) : Prop where
  assigned : (bundle.batches.flatMap (·.demandIds)).Perm (bundle.demands.map (·.demandId))
  distinct : (bundle.operations.map (·.operationId)).Nodup
  physical : ∀ item ∈ bundle.items, ∃ operations, bundle.itemOperations item = .ok operations
  listed : ∀ op, op ∈ bundle.operations ↔ ∃ item ∈ bundle.items, ∃ operations,
    bundle.itemOperations item = .ok operations ∧ op ∈ operations
  allowed : ∃ constraints, bindConstraints bundle.inputs = .ok constraints ∧
    ∀ op ∈ bundle.operations, constraints.allows (sourceRanges bundle.inputs op.contributors)
      op.edge.1 op.edge.2 op.stageId = .ok true
  acyclic : ∀ demand ∈ bundle.demands, ∀ identifier,
    ¬ TransGen (DependsOn (bundle.operationsOf demand)) identifier identifier
  delivers : ∀ demand ∈ bundle.demands, ∀ order,
    LinearExtension (bundle.operationsOf demand) order → demand.Delivers bundle.inputs order

theorem LinearExtension.of_perm {operations operations' order : List RouteOperation}
    (h : LinearExtension operations order) (hperm : operations.Perm operations') :
    LinearExtension operations' order := ⟨h.perm.trans hperm, h.sorted⟩

/-! ## A demand's replay -/

/-- A column has operations. -/
theorem physical_of_columns {inputs : ResolvedInput} {topology : Topology} {demand : RoutingDemand}
    {route : Route} (h : route ∈ (columns inputs topology demand).routes) :
    ∃ operations, physicalOperation inputs topology demand route = .ok operations := by
  unfold columns at h
  cases hroutes : candidateRoutes inputs topology demand with
  | error fault => simp [hroutes] at h
  | ok routes =>
    rw [hroutes] at h
    have hlegal := (mem_keepLegal h).2
    simp only [legalRoute, Checked.bind_ok] at hlegal
    obtain ⟨-, -, operations, hphysical, -⟩ := hlegal
    exact ⟨operations, hphysical⟩

section Demand
variable {inputs : ResolvedInput} {topology : Topology} {constraints : ConstraintSet}
  {demand : RoutingDemand} {route : Route} {operations order : List RouteOperation}

/-- What every operation of a delivering order is replayed on. -/
theorem replayable_of_delivers (hd : demand.OfRequest inputs)
    (hphysical : physicalOperation inputs topology demand route = .ok operations)
    (hlinear : LinearExtension operations order) (h : demand.Delivers inputs order)
    {front back : List RouteOperation} {op : RouteOperation} (hsplit : order = front ++ op :: back) :
    op.Replayable (front.foldl RouteOperation.execute (demand.initialStates inputs)) := by
  refine ⟨h.reads front op back hsplit, fun _ hempty => ?_⟩
  obtain ⟨carried, transfers, hplanned, halone⟩ :=
    physicalOperation_plan hphysical (carriedAlone inputs demand)
  obtain ⟨moved, hmoved, rfl⟩ := hplanned.transfers_of hlinear
  obtain ⟨hreplays, -⟩ := delivers_iff.mp h
  obtain ⟨hshaped, hsound⟩ := hplanned.sound_of_delivers hd halone hmoved hreplays
  obtain ⟨l, r, rfl, rfl, hr⟩ := List.map_eq_append_iff.mp hsplit
  rw [foldl_execute] at hempty
  have hheld := congrFun (hsound.held hmoved rfl) op.edge.2
  exact Finset.not_nonempty_empty (hshaped.after_nonempty hd.whole_nonempty (hheld.symm.trans hempty))

/-- **The replay of a demand accepts exactly what delivers in every order.** -/
theorem replayDemand_ok (hd : demand.OfRequest inputs)
    (hphysical : physicalOperation inputs topology demand route = .ok operations)
    {listed : List RouteOperation} (hlisted : listed.Perm operations) :
    replayDemand inputs topology constraints demand listed = .ok () ↔
      (∀ op ∈ listed, op.Passes inputs topology constraints) ∧
        ∀ order, LinearExtension listed order → demand.Delivers inputs order := by
  simp only [replayDemand, Checked.bind_ok, Checked.ensure_ok]
  constructor
  · rintro ⟨states, hrounds, hends⟩
    obtain ⟨order, hperm, hsorted, hfold⟩ := replayRounds_order hrounds
    obtain ⟨hpasses, hreplays, rfl⟩ := foldlM_replay_ok.mp hfold
    have hlinear : LinearExtension operations order :=
      ⟨hperm.trans hlisted, by simpa using hsorted⟩
    have hdelivers : demand.Delivers inputs order :=
      ⟨fun l op r hsplit => (hreplays l op r hsplit).toReadsRecorded, hends⟩
    refine ⟨fun op hop => hpasses op (hperm.mem_iff.mpr hop), fun other hother => ?_⟩
    exact delivers_all hd hphysical hlinear hdelivers (hother.of_perm hlisted)
  · rintro ⟨hpasses, hall⟩
    obtain ⟨carried, transfers, hplanned, -⟩ :=
      physicalOperation_plan hphysical (carriedAlone inputs demand)
    have hlinear := hplanned.linear.of_perm hlisted.symm
    have hnodup : listed.Nodup :=
      hlisted.nodup_iff.mpr (List.Nodup.of_map _ (physicalOperation_nodup hphysical))
    obtain ⟨order, horder, hrun⟩ := replayRounds_total hlinear hnodup hpasses
      (fun order' horder' front op back hsplit =>
        replayable_of_delivers hd hphysical (horder'.of_perm hlisted) (hall order' horder') hsplit)
      (List.nodup_nil : ([] : List RouteOperation).Nodup) (by simp) (by simp) (by simp) hnodup le_rfl
    exact ⟨_, hrun, (hall order horder).ends⟩

end Demand

/-! ## The operations of a bundle -/

section Bundle
variable {bundle : RouteBundle} {demand : RoutingDemand} {route : Route}
  {operations : List RouteOperation} {item : String × Route}

/-- The demands that batches carry. -/
theorem RouteBundle.items_fst (bundle : RouteBundle) :
    bundle.items.map (·.1) = bundle.batches.flatMap (·.demandIds) := by
  rw [RouteBundle.items, List.map_flatMap]
  refine List.flatMap_congr fun batch _ => ?_
  rw [List.map_map]
  exact List.map_id _

theorem find?_demand {demands : List RoutingDemand} (hids : (demands.map (·.demandId)).Nodup)
    (hmem : demand ∈ demands) :
    demands.find? (fun other => other.demandId = demand.demandId) = some demand := by
  cases hfind : demands.find? fun other => other.demandId = demand.demandId with
  | none => simpa using List.find?_eq_none.mp hfind demand hmem
  | some other =>
    have hsame := List.find?_some hfind
    rw [List.inj_on_of_nodup_map hids (List.mem_of_find?_eq_some hfind) hmem (of_decide_eq_true hsame)]

/-- The operations of what a batch carries are those of its demand. -/
theorem itemOperations_ok : bundle.itemOperations item = .ok operations ↔
    ∃ demand, bundle.demands.find? (fun demand => demand.demandId = item.1) = some demand ∧
      physicalOperation bundle.inputs bundle.topology demand item.2 = .ok operations := by
  simp only [RouteBundle.itemOperations, Checked.bind_ok, Checked.required_ok]

/-- The operations of all that batches carry. -/
theorem mem_itemOperations {all : List (List RouteOperation)}
    (hall : bundle.items.mapM bundle.itemOperations = .ok all) {op : RouteOperation} :
    op ∈ all.flatten ↔ ∃ item ∈ bundle.items, ∃ operations,
      bundle.itemOperations item = .ok operations ∧ op ∈ operations := by
  rw [List.mem_flatten]
  constructor
  · rintro ⟨operations, hoperations, hop⟩
    obtain ⟨item, hitem, h⟩ := Checked.mapM_right hall hoperations
    exact ⟨item, hitem, operations, h, hop⟩
  · rintro ⟨item, hitem, operations, h, hop⟩
    obtain ⟨operations', hoperations', h'⟩ := Checked.mapM_left hall hitem
    obtain rfl : operations = operations' := Except.ok.inj (h.symm.trans h')
    exact ⟨operations, hoperations', hop⟩

/-- A carried demand is one of the request. -/
theorem demand_of_item
    (hassigned : (bundle.batches.flatMap (·.demandIds)).Perm (bundle.demands.map (·.demandId)))
    (hitem : item ∈ bundle.items) : ∃ demand ∈ bundle.demands, demand.demandId = item.1 := by
  have hid : item.1 ∈ bundle.items.map (·.1) := List.mem_map_of_mem hitem
  rw [bundle.items_fst, hassigned.mem_iff] at hid
  exact List.mem_map.mp hid

/-- Every demand of the request is carried. -/
theorem item_of_demand
    (hassigned : (bundle.batches.flatMap (·.demandIds)).Perm (bundle.demands.map (·.demandId)))
    (hmem : demand ∈ bundle.demands) : ∃ route, (demand.demandId, route) ∈ bundle.items := by
  have hid : demand.demandId ∈ bundle.items.map (·.1) := by
    rw [bundle.items_fst, hassigned.mem_iff]
    exact List.mem_map_of_mem hmem
  obtain ⟨item, hitem, hid⟩ := List.mem_map.mp hid
  exact ⟨item.2, by rwa [← hid]⟩

variable (hdemands : routingDemands bundle.inputs = .ok bundle.demands)
  (hassigned : (bundle.batches.flatMap (·.demandIds)).Perm (bundle.demands.map (·.demandId)))
include hdemands

/-- The operations of a carried demand. -/
theorem itemOperations_demand (hmem : demand ∈ bundle.demands) :
    bundle.itemOperations (demand.demandId, route) =
      physicalOperation bundle.inputs bundle.topology demand route := by
  rw [RouteBundle.itemOperations, find?_demand (routingDemands_nodup hdemands) hmem]
  rfl

include hassigned

/-- A demand is carried once. -/
theorem items_nodup : (bundle.items.map (·.1)).Nodup := by
  rw [bundle.items_fst]
  exact hassigned.nodup_iff.mpr (routingDemands_nodup hdemands)

/-- The operations of what a batch carries: of its demand, and different. -/
theorem itemOperations_mem (hitem : item ∈ bundle.items)
    (h : bundle.itemOperations item = .ok operations) :
    (operations.map (·.operationId)).Nodup ∧ ∃ demand ∈ bundle.demands, demand.demandId = item.1 ∧
      physicalOperation bundle.inputs bundle.topology demand item.2 = .ok operations := by
  obtain ⟨demand, hmem, hid⟩ := demand_of_item hassigned hitem
  have hphysical := h
  rw [← Prod.mk.eta (p := item), ← hid, itemOperations_demand hdemands hmem] at hphysical
  exact ⟨physicalOperation_nodup hphysical, demand, hmem, hid, hphysical⟩

/-- An operation's identity tells what it is carried for. -/
theorem item_of_operation {item' : String × Route} {operations' : List RouteOperation}
    {op op' : RouteOperation} (hitem : item ∈ bundle.items) (hitem' : item' ∈ bundle.items)
    (h : bundle.itemOperations item = .ok operations)
    (h' : bundle.itemOperations item' = .ok operations') (hop : op ∈ operations)
    (hop' : op' ∈ operations') (hid : op.operationId = op'.operationId) : item.1 = item'.1 := by
  obtain ⟨-, demand, hmem, hdemand, hphysical⟩ := itemOperations_mem hdemands hassigned hitem h
  obtain ⟨-, demand', hmem', hdemand', hphysical'⟩ := itemOperations_mem hdemands hassigned hitem' h'
  obtain ⟨-, htext, -⟩ := physicalOperation_mem hphysical hop
  obtain ⟨-, htext', -⟩ := physicalOperation_mem hphysical' hop'
  obtain ⟨i, hi⟩ := routingDemands_id hdemands hmem
  obtain ⟨j, hj⟩ := routingDemands_id hdemands hmem'
  rw [← hdemand, ← hdemand']
  exact demandId_of_transferId hi hj (htext.symm.trans (hid.trans htext'))

/-- All operations of the routes are different. -/
theorem canonical_nodup {all : List (List RouteOperation)}
    (hall : bundle.items.mapM bundle.itemOperations = .ok all) :
    (all.flatten.map (·.operationId)).Nodup := by
  have key : ∀ {items : List (String × Route)} {all : List (List RouteOperation)},
      List.Forall₂ (fun item operations => bundle.itemOperations item = .ok operations) items all →
      (∀ item ∈ items, item ∈ bundle.items) → (items.map (·.1)).Nodup →
      (all.flatten.map (·.operationId)).Nodup := by
    intro items all hpairs
    induction hpairs with
    | nil => simp
    | @cons item operations items all hitem hrest ih =>
      intro hsub hnodup
      rw [List.map_cons, List.nodup_cons] at hnodup
      have hsub' : ∀ other ∈ items, other ∈ bundle.items :=
        fun other hother => hsub other (List.mem_cons_of_mem _ hother)
      have hin := hsub item List.mem_cons_self
      rw [List.flatten_cons, List.map_append, List.nodup_append]
      refine ⟨(itemOperations_mem hdemands hassigned hin hitem).1, ih hsub' hnodup.2, ?_⟩
      rintro _ hid _ hid' rfl
      obtain ⟨op, hop, rfl⟩ := List.mem_map.mp hid
      obtain ⟨op', hop', hsame⟩ := List.mem_map.mp hid'
      obtain ⟨operations', hoperations', hop'⟩ := List.mem_flatten.mp hop'
      obtain ⟨other, hother, hitem'⟩ :=
        Checked.mapM_right (Checked.mapM_ok.mpr hrest) hoperations'
      refine hnodup.1 (List.mem_map.mpr ⟨other, hother, ?_⟩)
      exact (item_of_operation hdemands hassigned hin (hsub' _ hother) hitem hitem' hop hop'
        hsame.symm).symm
  exact key (Checked.mapM_ok.mp hall) (fun _ h => h) (items_nodup hdemands hassigned)

/-- **The operations agree with the routes** when they are the operations of the routes. -/
theorem canonicalOperations_same (hdistinct : (bundle.operations.map (·.operationId)).Nodup) :
    (∃ canonical, canonicalOperations bundle = .ok canonical ∧
      Dict.Same (bundle.operations.map fun op => (op.operationId, op)) canonical) ↔
    (∀ item ∈ bundle.items, ∃ operations, bundle.itemOperations item = .ok operations) ∧
      ∀ op, op ∈ bundle.operations ↔ ∃ item ∈ bundle.items, ∃ operations,
        bundle.itemOperations item = .ok operations ∧ op ∈ operations := by
  have hself : ∀ (l : List RouteOperation) identifier op,
      (identifier, op) ∈ (l.map fun op => (op.operationId, op)) ↔
        op ∈ l ∧ op.operationId = identifier := by
    intro l identifier op
    simp only [List.mem_map, Prod.mk.injEq]
    constructor
    · rintro ⟨_, hop, rfl, rfl⟩
      exact ⟨hop, rfl⟩
    · rintro ⟨hop, rfl⟩
      exact ⟨op, hop, rfl, rfl⟩
  have hfst : ∀ l : List RouteOperation,
      (l.map fun op => (op.operationId, op)).map (·.1) = l.map (·.operationId) := by
    intro l
    rw [List.map_map]
    rfl
  have hown : ∀ identifier op,
      Dict.get? (bundle.operations.map fun op => (op.operationId, op)) identifier = some op ↔
        op ∈ bundle.operations ∧ op.operationId = identifier := by
    intro identifier op
    rw [← hself]
    exact ⟨Dict.mem_of_get?, Dict.get?_of_mem (by rwa [Dict.Distinct, Dict.keys, hfst])⟩
  -- both sides list the same operations
  have hsame : ∀ {all : List (List RouteOperation)},
      bundle.items.mapM bundle.itemOperations = .ok all →
      (Dict.Same (bundle.operations.map fun op => (op.operationId, op))
        (Dict.ofList (all.flatten.map fun op => (op.operationId, op))) ↔
          ∀ op, op ∈ bundle.operations ↔ op ∈ all.flatten) := by
    intro all hall
    have hcanonical : ∀ identifier op,
        (Dict.ofList (all.flatten.map fun op => (op.operationId, op))).get? identifier = some op ↔
          op ∈ all.flatten ∧ op.operationId = identifier := by
      intro identifier op
      rw [Dict.ofList_get? (by rw [hfst]; exact canonical_nodup hdemands hassigned hall), hself]
    constructor
    · intro h op
      have hop := hown op.operationId op
      rw [h, hcanonical] at hop
      simpa using hop.symm
    · intro h identifier
      refine Option.ext fun op => ?_
      rw [hown, hcanonical, h]
  simp only [canonicalOperations, Checked.bind_ok, Checked.pure_ok]
  constructor
  · rintro ⟨_, ⟨all, hall, rfl⟩, h⟩
    refine ⟨fun item hitem => ?_, fun op => ((hsame hall).mp h op).trans (mem_itemOperations hall)⟩
    obtain ⟨operations, -, h⟩ := Checked.mapM_left hall hitem
    exact ⟨operations, h⟩
  · rintro ⟨hphysical, hlisted⟩
    obtain ⟨all, hall⟩ := Checked.mapM_total hphysical
    exact ⟨_, ⟨all, hall, rfl⟩, (hsame hall).mpr fun op => (hlisted op).trans (mem_itemOperations hall).symm⟩

/-- **The operations of a demand** are those of its route. -/
theorem operationsOf_perm (hdistinct : (bundle.operations.map (·.operationId)).Nodup)
    (hlisted : ∀ op, op ∈ bundle.operations ↔ ∃ item ∈ bundle.items, ∃ operations,
      bundle.itemOperations item = .ok operations ∧ op ∈ operations)
    (hmem : demand ∈ bundle.demands) (hitem : (demand.demandId, route) ∈ bundle.items)
    (hphysical : physicalOperation bundle.inputs bundle.topology demand route = .ok operations) :
    (bundle.operationsOf demand).Perm operations := by
  have hnodup : (bundle.operationsOf demand).Nodup :=
    (List.Nodup.of_map _ hdistinct).filter _
  refine (List.perm_ext_iff_of_nodup hnodup
    (List.Nodup.of_map _ (physicalOperation_nodup hphysical))).mpr fun op => ?_
  rw [RouteBundle.operationsOf, List.mem_filter, decide_eq_true_eq, hlisted]
  constructor
  · rintro ⟨⟨item, hin, operations', hoperations', hop⟩, hid⟩
    obtain ⟨-, demand', hmem', hdemand', hphysical'⟩ :=
      itemOperations_mem hdemands hassigned hin hoperations'
    have hsame : item.1 = demand.demandId := by
      rw [← hdemand', ← (physicalOperation_mem hphysical' hop).1, hid]
    obtain rfl : item = (demand.demandId, route) :=
      List.inj_on_of_nodup_map (items_nodup hdemands hassigned) hin hitem hsame
    rw [itemOperations_demand hdemands hmem, hphysical] at hoperations'
    rwa [← Except.ok.inj hoperations'] at hop
  · intro hop
    refine ⟨⟨_, hitem, operations, ?_, hop⟩, (physicalOperation_mem hphysical hop).1⟩
    rw [itemOperations_demand hdemands hmem, hphysical]

/-- What the constraints must allow. -/
theorem passes_iff {constraints : ConstraintSet}
    (hlisted : ∀ op, op ∈ bundle.operations ↔ ∃ item ∈ bundle.items, ∃ operations,
      bundle.itemOperations item = .ok operations ∧ op ∈ operations) {op : RouteOperation}
    (hop : op ∈ bundle.operations) : op.Passes bundle.inputs bundle.topology constraints ↔
      constraints.allows (sourceRanges bundle.inputs op.contributors) op.edge.1 op.edge.2 op.stageId =
        .ok true := by
  obtain ⟨item, hitem, operations, h, hmem⟩ := (hlisted op).mp hop
  obtain ⟨-, demand, -, -, hphysical⟩ := itemOperations_mem hdemands hassigned hitem h
  obtain ⟨-, -, hpayload, hlink⟩ := physicalOperation_mem hphysical hmem
  exact ⟨fun h => h.allowed, fun h => ⟨hpayload, hlink, h⟩⟩

/-- Every operation is one of a demand. -/
theorem operation_demand (hlisted : ∀ op, op ∈ bundle.operations ↔ ∃ item ∈ bundle.items,
      ∃ operations, bundle.itemOperations item = .ok operations ∧ op ∈ operations)
    {op : RouteOperation} (hop : op ∈ bundle.operations) :
    ∃ demand ∈ bundle.demands, op ∈ bundle.operationsOf demand := by
  obtain ⟨item, hitem, operations, h, hmem⟩ := (hlisted op).mp hop
  obtain ⟨-, demand, hdemand, -, hphysical⟩ := itemOperations_mem hdemands hassigned hitem h
  refine ⟨demand, hdemand, List.mem_filter.mpr ⟨hop, ?_⟩⟩
  rw [decide_eq_true_eq, (physicalOperation_mem hphysical hmem).1]

end Bundle

/-! ## The check -/

section Check
variable {bundle : RouteBundle}

/-- Batches carry every demand once. -/
theorem assigned_iff (hids : (bundle.demands.map (·.demandId)).Nodup) :
    ((bundle.batches.flatMap (·.demandIds)).Nodup ∧ (bundle.batches.flatMap (·.demandIds)).toFinset =
      (bundle.demands.map (·.demandId)).toFinset) ↔
    (bundle.batches.flatMap (·.demandIds)).Perm (bundle.demands.map (·.demandId)) := by
  constructor
  · rintro ⟨hnodup, hset⟩
    exact (List.perm_ext_iff_of_nodup hnodup hids).mpr fun identifier => by
      rw [← List.mem_toFinset, hset, List.mem_toFinset]
  · exact fun h => ⟨h.nodup_iff.mpr hids, List.toFinset_eq_of_perm _ _ h⟩

/-- **The check accepts exactly the right bundles.** -/
theorem checkRoutedSemantics_right (hdemands : routingDemands bundle.inputs = .ok bundle.demands) :
    checkRoutedSemantics bundle = .ok () ↔ bundle.Right := by
  have hids := routingDemands_nodup hdemands
  obtain ⟨required, hrequired, hsame, hlength⟩ := routingDemands_outputs hdemands
  simp only [checkRoutedSemantics, Checked.bind_ok, Checked.ensure_ok]
  constructor
  · rintro ⟨-, -, -, hassigned, -, hdistinct, canonical, hcanonical, -, hagrees, constraints,
      hconstraints, _, hreplays, -⟩
    have hassigned := (assigned_iff hids).mp hassigned
    obtain ⟨hphysical, hlisted⟩ := (canonicalOperations_same hdemands hassigned hdistinct).mp
      ⟨canonical, hcanonical, hagrees⟩
    have hreplay : ∀ demand ∈ bundle.demands, ∃ operations, (bundle.operationsOf demand).Perm operations ∧
        LinearExtension operations operations ∧ (operations.map (·.operationId)).Nodup ∧
        (∀ op ∈ bundle.operationsOf demand, op.Passes bundle.inputs bundle.topology constraints) ∧
        ∀ order, LinearExtension (bundle.operationsOf demand) order →
          demand.Delivers bundle.inputs order := by
      intro demand hmem
      obtain ⟨route, hitem⟩ := item_of_demand hassigned hmem
      obtain ⟨operations, hoperations⟩ := hphysical _ hitem
      rw [itemOperations_demand hdemands hmem] at hoperations
      have hperm := operationsOf_perm hdemands hassigned hdistinct hlisted hmem hitem hoperations
      obtain ⟨carried, transfers, hplanned, -⟩ :=
        physicalOperation_plan hoperations (carriedAlone bundle.inputs demand)
      have hd := routingDemands_ofRequest hdemands hmem
      exact ⟨operations, hperm, hplanned.linear, physicalOperation_nodup hoperations,
        (replayDemand_ok hd hoperations hperm).mp (Checked.forM_ok.mp hreplays demand hmem)⟩
    refine ⟨hassigned, hdistinct, hphysical, hlisted, ⟨constraints, hconstraints, fun op hop => ?_⟩,
      fun demand hmem identifier => ?_, fun demand hmem => ?_⟩
    · obtain ⟨demand, hmem, hin⟩ := operation_demand hdemands hassigned hlisted hop
      obtain ⟨-, -, -, -, hpasses, -⟩ := hreplay demand hmem
      exact (hpasses op hin).allowed
    · obtain ⟨operations, hperm, hlinear, hnodup, -⟩ := hreplay demand hmem
      exact (hlinear.of_perm hperm.symm).acyclic hnodup identifier
    · obtain ⟨-, -, -, -, -, hdelivers⟩ := hreplay demand hmem
      exact hdelivers
  · intro h
    obtain ⟨constraints, hconstraints, hallowed⟩ := h.allowed
    obtain ⟨canonical, hcanonical, hagrees⟩ :=
      (canonicalOperations_same hdemands h.assigned h.distinct).mpr ⟨h.physical, h.listed⟩
    refine ⟨(), hids, (), (assigned_iff hids).mpr h.assigned, (), h.distinct, canonical, hcanonical,
      (), hagrees, constraints, hconstraints, (), Checked.forM_ok.mpr fun demand hmem => ?_, (),
      hlength, required, hrequired, hsame⟩
    obtain ⟨route, hitem⟩ := item_of_demand h.assigned hmem
    obtain ⟨operations, hoperations⟩ := h.physical _ hitem
    rw [itemOperations_demand hdemands hmem] at hoperations
    have hperm := operationsOf_perm hdemands h.assigned h.distinct h.listed hmem hitem hoperations
    refine (replayDemand_ok (routingDemands_ofRequest hdemands hmem) hoperations hperm).mpr
      ⟨fun op hop => ?_, h.delivers demand hmem⟩
    have hop := (List.mem_filter.mp hop).1
    exact (passes_iff hdemands h.assigned h.listed hop).mpr (hallowed op hop)

end Check

/-! ## Routes and bundles of a request -/

section Request
variable {inputs : ResolvedInput} {demands : List RoutingDemand}

/-- **Every route is right in every order, and one order is all that the check needs.**  The
operations of a route that may be generated are one for every edge, and no matter in which
order they run, they deliver.  A bundle of the request's demands is accepted exactly when it
is right. -/
theorem routes_order_independent (hdemands : routingDemands inputs = .ok demands)
    (topology : Topology) :
    (∀ demand ∈ demands, ∀ route ∈ (columns inputs topology demand).routes, ∃ operations,
      physicalOperation inputs topology demand route = .ok operations ∧
      (operations.map fun op => (op.kind, op.edge)).Perm
        (route.reduceEdges.map (fun e => (RouteKind.rrc, e)) ++
          route.sendEdges.map (fun e => (RouteKind.send, e))) ∧
      (∀ identifier, ¬ TransGen (DependsOn operations) identifier identifier) ∧
      LinearExtension operations operations ∧
      ∀ order, LinearExtension operations order → demand.Delivers inputs order) ∧
    ∀ bundle : RouteBundle, bundle.inputs = inputs → bundle.demands = demands →
      (checkRoutedSemantics bundle = .ok () ↔ bundle.Right) := by
  refine ⟨fun demand hmem route hroute => ?_, fun bundle hinputs hbundle => ?_⟩
  · have hd := routingDemands_ofRequest hdemands hmem
    have htree := treeShaped_of_columns hd hroute
    obtain ⟨operations, hphysical⟩ := physical_of_columns hroute
    obtain ⟨carried, transfers, hplanned, -⟩ :=
      physicalOperation_plan hphysical (carriedAlone inputs demand)
    exact ⟨operations, hphysical, htree.one_each hphysical,
      hplanned.linear.acyclic (physicalOperation_nodup hphysical), hplanned.linear,
      fun order horder => htree.delivers hd hphysical horder⟩
  · exact checkRoutedSemantics_right (by rw [hinputs, hbundle, hdemands])

/-- On two ranks. -/
theorem routes_order_independent_pair : ∃ demands, routingDemands pairInputs = .ok demands ∧
    ∀ topology : Topology, ∀ demand ∈ demands,
      ∀ route ∈ (columns pairInputs topology demand).routes, ∃ operations,
        physicalOperation pairInputs topology demand route = .ok operations ∧
        ∀ order, LinearExtension operations order → demand.Delivers pairInputs order := by
  obtain ⟨outputs, houtputs⟩ : ∃ outputs, requiredOutputs pairInputs.collective
      pairInputs.rankCount pairInputs.sliceCount = .ok outputs := ⟨_, rfl⟩
  have hdemands : ∃ demands, routingDemands pairInputs = .ok demands := by
    rw [routingDemands, houtputs]
    exact ⟨_, rfl⟩
  obtain ⟨demands, hdemands⟩ := hdemands
  refine ⟨demands, hdemands, fun topology demand hmem route hroute => ?_⟩
  obtain ⟨operations, hphysical, -, -, -, hall⟩ :=
    (routes_order_independent hdemands topology).1 demand hmem route hroute
  exact ⟨operations, hphysical, hall⟩

end Request

end VeriCCL
