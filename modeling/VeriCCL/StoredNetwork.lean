import VeriCCL.HistoryAdaptation
import VeriCCL.StoragePlacement

/-! # The network of a storage plan

What `_network` reads back from a plan that was built is a sound network: each of its transfers
waits for those that made what it reads.  Reordering the instructions of a plan, or changing
what they wait for, changes nothing about that. -/
namespace VeriCCL

/-! ## One set of contributions for each output slot -/

section Entries
variable {spec : CollectiveSpec} {ranks n : ℕ}

/-- A number from its block and its place in the block. -/
theorem block_inj {q a b r s : ℕ} (hr : r < q) (hs : s < q) (h : a * q + r = b * q + s) : a = b ∧ r = s := by
  have ha := contribution_spec (r := a) hr
  have hb := contribution_spec (r := b) hs
  exact ⟨by rw [← ha.1, h, hb.1], by rw [← ha.2, h, hb.2]⟩

theorem divMod_inj {q l m : ℕ} (hdiv : l / q = m / q) (hmod : l % q = m % q) : l = m := by
  rw [← Nat.div_add_mod l q, hdiv, hmod, Nat.div_add_mod]

/-- **A slot is asked for one set of contributions.** -/
theorem requiredEntries_functional (hvalid : validateOutputProblem spec ranks n = .ok ()) {slot : OutputSlot}
    {c c' : Finset ℕ} (h : (slot, c) ∈ requiredEntries spec ranks n)
    (h' : (slot, c') ∈ requiredEntries spec ranks n) : c = c' := by
  obtain ⟨-, hn, -, hpart⟩ := validateOutputProblem_ok hvalid
  have hblock : spec.kind.partitioning = true → 0 < n / ranks := fun h =>
    (ScheduleHit.block_spec hn (hpart h) hn).1
  unfold requiredEntries at h h'
  cases hkind : spec.kind <;> rw [hkind] at h h' <;>
    simp only [List.mem_flatMap, List.mem_map, List.mem_range, Prod.mk.injEq] at h h'
  case broadcast | allReduce =>
    obtain ⟨rank, -, l, -, rfl, rfl⟩ := h
    obtain ⟨rank', -, l', -, heq, rfl⟩ := h'
    obtain ⟨-, rfl⟩ := OutputSlot.mk.inj heq
    rfl
  case reduce =>
    obtain ⟨l, -, rfl, rfl⟩ := h
    obtain ⟨l', -, heq, rfl⟩ := h'
    obtain ⟨-, rfl⟩ := OutputSlot.mk.inj heq
    rfl
  case scatter | reduceScatter =>
    obtain ⟨l, -, rfl, rfl⟩ := h
    obtain ⟨l', -, heq, rfl⟩ := h'
    obtain ⟨hdiv, hmod⟩ := OutputSlot.mk.inj heq
    obtain rfl := divMod_inj hdiv hmod
    rfl
  case gather =>
    obtain ⟨source, -, l, hl, rfl, rfl⟩ := h
    obtain ⟨source', -, l', hl', heq, rfl⟩ := h'
    obtain ⟨rfl, rfl⟩ := block_inj hl' hl (OutputSlot.mk.inj heq).2
    rfl
  case allGather =>
    obtain ⟨rank, -, source, -, l, hl, rfl, rfl⟩ := h
    obtain ⟨rank', -, source', -, l', hl', heq, rfl⟩ := h'
    obtain ⟨rfl, rfl⟩ := block_inj hl' hl (OutputSlot.mk.inj heq).2
    rfl
  case allToAll =>
    have hq := hblock (by rw [hkind]; rfl)
    obtain ⟨source, -, l, hl, rfl, rfl⟩ := h
    obtain ⟨source', -, l', hl', heq, rfl⟩ := h'
    obtain ⟨hdiv, hoffset⟩ := OutputSlot.mk.inj heq
    obtain ⟨rfl, hmod⟩ := block_inj (Nat.mod_lt _ hq) (Nat.mod_lt _ hq) hoffset
    obtain rfl := divMod_inj hdiv hmod
    rfl

/-- The outputs that are asked for are the collective's entries. -/
theorem requiredOutputs_get? {required : Dict OutputSlot (Finset ℕ)}
    (h : requiredOutputs spec ranks n = .ok required) {entry : OutputSlot × Finset ℕ} :
    required.get? entry.1 = some entry.2 ↔ entry ∈ requiredEntries spec ranks n := by
  simp only [requiredOutputs, Checked.bind_ok, Checked.pure_ok] at h
  obtain ⟨_, hvalid, rfl⟩ := h
  refine ⟨Dict.mem_of_ofList_get?, fun hentry => ?_⟩
  obtain ⟨c, hc⟩ := Dict.get?_isSome.mpr (Dict.mem_keys_ofList.mpr (List.mem_map_of_mem hentry))
  rw [hc, requiredEntries_functional hvalid (Dict.mem_of_ofList_get? hc) hentry]

end Entries

/-! ## Plans that were built -/

/-- What those who make candidates see to: participants are ranks, and transfers are not named
like copies to output slots. -/
structure Emitted (ranks : ℕ) (candidate : List NetworkOperation) : Prop where
  participants : ∀ op ∈ candidate, ∀ rank ∈ op.participants, rank < ranks
  names : ∀ op ∈ candidate, ∀ slot, op.operationId ≠ outputCopyId slot

/-- A plan with its instructions in another order, on other channels, or with other things to
wait for. -/
structure Rearranged (plan stored : StoragePlan) : Prop where
  values : stored.values = plan.values
  instructions : (stored.instructions.map Instruction.bare).Perm (plan.instructions.map Instruction.bare)

/-- **What a plan holds**: the states that were made, a placed instruction for every transfer,
and copies. -/
structure PlanHolds (inputs : ResolvedInput) (plan : StoragePlan) (operations : List NetworkOperation)
    (p : StatePlacement) : Prop where
  placed : PlacedStates inputs operations p
  distinct : (operations.map (·.operationId)).Nodup
  values : ∀ value ∈ p.made, plan.values.get? value.stateId = some value
  instructions : ∃ copies : List Instruction, (∀ i ∈ copies, i.kind = .copy) ∧
    ((p.instructions ++ copies).map (·.operationId)).Nodup ∧
    (plan.instructions.map Instruction.bare).Perm ((p.instructions ++ copies).map Instruction.bare)
  outputs : ∀ entry ∈ requiredEntries inputs.collective inputs.rankCount inputs.sliceCount,
    ∃ value ∈ p.made, value.rank = entry.1.rank ∧ value.contributors = entry.2

/-- A plan that is rearranged holds the same. -/
theorem PlanHolds.rearranged {inputs : ResolvedInput} {plan stored : StoragePlan}
    {operations : List NetworkOperation} {p : StatePlacement} (h : PlanHolds inputs plan operations p)
    (hstored : Rearranged plan stored) : PlanHolds inputs stored operations p where
  placed := h.placed
  distinct := h.distinct
  values := by rw [hstored.values]; exact h.values
  instructions := by
    obtain ⟨copies, hcopies, hnodup, hperm⟩ := h.instructions
    exact ⟨copies, hcopies, hnodup, hstored.instructions.trans hperm⟩
  outputs := h.outputs

theorem protect_map {inputs : ResolvedInput} {b : Binding} {instructions guarded : List Instruction}
    (h : instructions.mapM (protect inputs b) = .ok guarded) :
    guarded.map Instruction.bare = instructions.map Instruction.bare :=
  Checked.mapM_map h fun _ _ _ => protect_bare

theorem bare_ids {a b : List Instruction} (h : (a.map Instruction.bare).Perm (b.map Instruction.bare)) :
    (a.map (·.operationId)).Perm (b.map (·.operationId)) := by
  have hmap := h.map (·.operationId)
  rwa [List.map_map, List.map_map] at hmap

/-- **A plan that was built holds its transfers.** -/
theorem buildStoragePlan_holds {context : LoweringContext} {candidate : List NetworkOperation}
    {plan : StoragePlan} (h : buildStoragePlan context candidate = .ok plan)
    (hemitted : Emitted context.inputs.rankCount candidate) :
    ∃ operations p, operations.Perm candidate ∧ PlanHolds context.inputs plan operations p := by
  simp only [buildStoragePlan, Checked.bind_ok, Checked.pure_ok] at h
  obtain ⟨operations, horder, expected, hexpected, constraints, hconstraints, p, hplaced, b, hbound,
    guarded, hguarded, ordered, hordered, a, hallocated, rfl⟩ := h
  obtain ⟨hperm, -⟩ := networkOrder_linear horder
  have hdistinct : (operations.map (·.operationId)).Nodup := by
    simp only [networkOrder, Checked.bind_ok, Checked.ensure_ok] at horder
    obtain ⟨-, ⟨hlength, -⟩, -⟩ := horder
    exact (hperm.map _).nodup_iff.mpr (indexBy_length.mp hlength)
  have hranks : constraints.rankCount = context.inputs.rankCount := by
    simp only [bindConstraints, Checked.bind_ok, Checked.pure_ok] at hconstraints
    obtain ⟨bans, -, rfl⟩ := hconstraints
    rfl
  have hp := PlacedStates.run rfl hranks hdistinct hplaced
  obtain ⟨hfound, hstates, copies, hcopies, hsublist, hkinds⟩ := BoundOutputs.run hbound
  have hslots : (sortSlots expected).Perm expected := List.perm_insertionSort _ _
  have hexpectedKeys : expected.Distinct := by
    simp only [requiredOutputs, Checked.bind_ok, Checked.pure_ok] at hexpected
    obtain ⟨_, -, rfl⟩ := hexpected
    exact Dict.distinct_ofList _
  have hnames : ∀ key ∈ operations.map (·.operationId), ∀ slot, key ≠ outputCopyId slot := by
    intro key hkey
    obtain ⟨op, hop, rfl⟩ := List.mem_map.mp hkey
    exact hemitted.names op (hperm.mem_iff.mp hop)
  have hcopyNames : ((sortSlots expected).map fun entry => outputCopyId entry.1).Nodup := by
    have hkeys : ((sortSlots expected).map (·.1)).Nodup := (hslots.map _).nodup_iff.mpr hexpectedKeys
    have hmap := hkeys.map fun a b (hab : outputCopyId a = outputCopyId b) => outputCopyId_inj hab
    rwa [List.map_map] at hmap
  have hnodup : ((p.instructions ++ copies).map (·.operationId)).Nodup := by
    rw [List.map_append, hp.ids, List.nodup_append]
    refine ⟨hdistinct, hcopyNames.sublist hsublist, fun key hkey other hother => ?_⟩
    obtain ⟨entry, -, rfl⟩ := List.mem_map.mp (hsublist.subset hother)
    exact hnames key hkey entry.1
  have hguardedBare := protect_map hguarded
  have hguardedIds : (guarded.map (·.operationId)).Nodup := by
    rw [hcopies] at hguardedBare
    exact (bare_ids (List.Perm.of_eq hguardedBare)).nodup_iff.mpr hnodup
  refine ⟨operations, p, hperm, hp, hdistinct, fun value hvalue => ?_, ⟨copies, hkinds, hnodup, ?_⟩,
    fun entry hentry => ?_⟩
  · show b.states.get? value.stateId = some value
    rw [hstates, hp.states value hvalue]
    intro slot hname
    obtain ⟨hinitial, -⟩ | ⟨op, hop, -, hid, -⟩ := hp.origin value hvalue
    · obtain ⟨r, -, l, -, rfl⟩ := mem_initialValues.mp hinitial
      exact inputId_ne_state r l _ hname
    · exact hnames _ (List.mem_map_of_mem hop) slot (state_inj (hid.symm.trans hname))
  · show (a.instructions.map Instruction.bare).Perm _
    rw [allocate_run hallocated, ← hcopies, ← hguardedBare]
    exact (orderInstructions_perm hguardedIds hordered).map _
  · exact hfound entry (hslots.mem_iff.mpr (Dict.mem_of_get? ((requiredOutputs_get? hexpected).mpr hentry)))

/-! ## The instructions of a plan -/

section Instructions
variable {inputs : ResolvedInput} {plan : StoragePlan} {operations l r : List NetworkOperation}
  {p : StatePlacement} {op : NetworkOperation} {i j : Instruction} {made : List Value}

/-- How a transfer was placed does not depend on its channel, on when it starts or on what it
waits for. -/
theorem PlacedAs.bare (h : PlacedAs made l op j) (hbare : i.bare = j.bare) : PlacedAs made l op i where
  id := (congrArg (·.operationId) hbare).trans h.id
  kind := (congrArg (·.kind) hbare).trans h.kind
  rank := (congrArg (·.rank) hbare).trans h.rank
  participants := (congrArg (·.participants) hbare).trans h.participants
  output := (congrArg (·.output) hbare).trans h.output
  reads := by
    have hinputs : i.inputs = j.inputs := congrArg (·.inputs) hbare
    have houtput : i.output = j.output := congrArg (·.output) hbare
    rw [hinputs, houtput]
    exact h.reads

theorem PlacedAs.transfer (h : PlacedAs made l op i) : i.kind = .send ∨ i.kind = .rrc := by
  obtain ⟨-, -, -, -, -, -, -, -, -, -, -, -, ⟨hkind, -⟩ | ⟨hkind, -⟩⟩ := h.reads
  · exact .inl (h.kind.trans hkind)
  · exact .inr (h.kind.trans hkind)

theorem PlanHolds.ids_nodup (h : PlanHolds inputs plan operations p) :
    (plan.instructions.map (·.operationId)).Nodup := by
  obtain ⟨copies, -, hnodup, hperm⟩ := h.instructions
  exact (bare_ids hperm).nodup_iff.mpr hnodup

/-- Every transfer has its instruction. -/
theorem PlanHolds.instruction (h : PlanHolds inputs plan operations p) (hsplit : operations = l ++ op :: r) :
    ∃ i ∈ plan.instructions, PlacedAs p.made l op i := by
  obtain ⟨copies, -, -, hperm⟩ := h.instructions
  obtain ⟨j, hj, hplaced⟩ := h.placed.placed l op r hsplit
  have hmem : j.bare ∈ plan.instructions.map Instruction.bare :=
    hperm.mem_iff.mpr (List.mem_map_of_mem (List.mem_append_left _ hj))
  obtain ⟨i, hi, hbare⟩ := List.mem_map.mp hmem
  exact ⟨i, hi, hplaced.bare hbare⟩

/-- Every instruction of a transfer was placed. -/
theorem PlanHolds.transfer (h : PlanHolds inputs plan operations p) (hi : i ∈ plan.instructions)
    (hkind : i.kind = .send ∨ i.kind = .rrc) : ∃ l op r, operations = l ++ op :: r ∧ PlacedAs p.made l op i := by
  obtain ⟨copies, hcopies, hnodup, hperm⟩ := h.instructions
  have hmem : i.bare ∈ (p.instructions ++ copies).map Instruction.bare :=
    hperm.mem_iff.mp (List.mem_map_of_mem hi)
  obtain ⟨j, hj, hbare⟩ := List.mem_map.mp hmem
  obtain hj | hj := List.mem_append.mp hj
  · have hid : j.operationId ∈ operations.map (·.operationId) := h.placed.ids ▸ List.mem_map_of_mem hj
    obtain ⟨op, hop, hopId⟩ := List.mem_map.mp hid
    obtain ⟨l, r, hsplit⟩ := List.append_of_mem hop
    obtain ⟨j', hj', hplaced⟩ := h.placed.placed l op r hsplit
    have hids : (p.instructions.map (·.operationId)).Nodup := h.placed.ids ▸ h.distinct
    obtain rfl : j' = j := List.inj_on_of_nodup_map hids hj' hj (hplaced.id.trans hopId)
    exact ⟨l, op, r, hsplit, hplaced.bare hbare.symm⟩
  · have hcopy : i.kind = .copy := (congrArg (·.kind) hbare.symm).trans (hcopies j hj)
    rw [hcopy] at hkind
    simp at hkind

theorem PlanHolds.mem_networkIds (h : PlanHolds inputs plan operations p) {key : String}
    (hkey : key ∈ operations.map (·.operationId)) : key ∈ plan.networkIds := by
  obtain ⟨op, hop, rfl⟩ := List.mem_map.mp hkey
  obtain ⟨l, r, hsplit⟩ := List.append_of_mem hop
  obtain ⟨i, hi, hplaced⟩ := h.instruction hsplit
  rw [StoragePlan.networkIds, StoragePlan.operations, indexBy_eq h.ids_nodup, ← hplaced.id]
  refine List.mem_map.mpr ⟨(i.operationId, i), List.mem_filter.mpr ⟨List.mem_map_of_mem hi, ?_⟩, rfl⟩
  exact decide_eq_true hplaced.transfer

/-- The transfers that made a state are its producer. -/
theorem PlanHolds.upstream (h : PlanHolds inputs plan operations p) {value : Value} (hvalue : value ∈ p.made)
    (fuel : ℕ) : plan.upstream (fuel + 1) value.stateId = .ok value.producer.toFinset := by
  have hget : plan.value value.stateId = .ok value := Checked.required_ok.mpr (h.values value hvalue)
  refine Checked.bind_ok.mpr ⟨value, hget, ?_⟩
  cases hproducer : value.producer with
  | none => rfl
  | some producer =>
    have hmem := h.mem_networkIds (h.placed.producer hvalue hproducer)
    simp only [if_pos hmem]
    rfl

/-! ## Reading back -/

variable {startTimes : String → Option ℚ} {x : NetworkOperation}

/-- A transfer that is read back: as it was, but it waits for those that made what it reads. -/
structure ReadBack (made : List Value) (earlier : List NetworkOperation) (op x : NetworkOperation) : Prop where
  id : x.operationId = op.operationId
  kind : x.kind = op.kind
  src : x.srcRank = op.srcRank
  dst : x.dstRank = op.dstRank
  participants : x.participants = op.participants
  contributors : x.contributors = op.contributors
  waits : ∀ key ∈ x.dependencies, key ∈ earlier.map (·.operationId)
  target : ∃ target ∈ made, target.stateId = "state-" ++ op.operationId ∧ target.rank = op.dstRank ∧
    target.contributors = x.targetContributors
  source : ∃ source ∈ made, source.rank = op.srcRank ∧ source.contributors = op.contributors ∧
    ((op.kind = .send ∧ x.dependencies = producers [source] ∧ x.targetContributors = op.contributors) ∨
      op.kind = .rrc ∧ ∃ state ∈ made, x.dependencies = producers [source, state] ∧
        state.rank = op.dstRank ∧ Disjoint state.contributors op.contributors ∧
        x.targetContributors = state.contributors ∪ op.contributors)

theorem union_producers (read : List Value) :
    (read.map fun value => value.producer.toFinset).foldl (· ∪ ·) ∅ = producers read := by
  ext key
  rw [mem_foldl_union, producers, List.mem_toFinset, List.mem_filterMap]
  simp

/-- **A transfer of a plan is read back.** -/
theorem PlanHolds.readBack (h : PlanHolds inputs plan operations p) (hplaced : PlacedAs p.made l op i) :
    ∃ x, plan.networkOperation startTimes i = .ok x ∧ ReadBack p.made l op x := by
  obtain ⟨source, hsource, rest, hrest, hinputs, hearlier, hrank, hcontributors, target, htarget, houtput,
    htargetRank, hcases⟩ := hplaced.reads
  have hread : ∀ value ∈ source :: rest, value ∈ p.made := by
    intro value hvalue
    obtain rfl | hvalue := List.mem_cons.mp hvalue
    · exact hsource
    · exact hrest value hvalue
  have hvalue : ∀ value ∈ p.made, plan.value value.stateId = .ok value := fun value hvalue =>
    Checked.required_ok.mpr (h.values value hvalue)
  have hsets : i.inputs.mapM (plan.upstream (plan.instructions.length + 1)) =
      .ok ((source :: rest).map fun value => value.producer.toFinset) := by
    rw [hinputs, Checked.mapM_ok, List.forall₂_map_left_iff, List.forall₂_map_right_iff, List.forall₂_same]
    exact fun value hvalue => h.upstream (hread value hvalue) _
  refine ⟨_, Checked.bind_ok.mpr ⟨source.stateId, ?_, Checked.bind_ok.mpr ⟨source, hvalue _ hsource,
    Checked.bind_ok.mpr ⟨target, houtput ▸ hvalue _ htarget, Checked.bind_ok.mpr ⟨_, hsets, rfl⟩⟩⟩⟩, ?_⟩
  · rw [hinputs]
    rfl
  · rw [union_producers]
    refine ⟨hplaced.id, hplaced.kind, hrank, hplaced.rank, hplaced.participants, hcontributors, ?_,
      ⟨target, htarget, houtput.symm.trans hplaced.output, htargetRank, rfl⟩, source, hsource, hrank,
      hcontributors, ?_⟩
    · intro key hkey
      obtain ⟨value, hvalue, hproducer⟩ := List.mem_filterMap.mp (List.mem_toFinset.mp hkey)
      exact hearlier value hvalue key hproducer
    obtain ⟨hkind, rfl, hall⟩ | ⟨hkind, state, rfl, hstateRank, hdisjoint, hall⟩ := hcases
    · exact .inl ⟨hkind, rfl, hall⟩
    · exact .inr ⟨hkind, state, hrest state (by simp), rfl, hstateRank, hdisjoint,
        hall.trans (Finset.union_comm _ _)⟩

/-- What is read back from a plan: each of its transfers once. -/
structure NetworkOf (p : StatePlacement) (operations network : List NetworkOperation) : Prop where
  distinct : (network.map (·.operationId)).Nodup
  only : ∀ x ∈ network, ∃ l op r, operations = l ++ op :: r ∧ ReadBack p.made l op x
  every : ∀ l op r, operations = l ++ op :: r → ∃ x ∈ network, ReadBack p.made l op x

/-- **The transfers of a plan are read back.** -/
theorem PlanHolds.network (h : PlanHolds inputs plan operations p) :
    ∃ network, plan.network startTimes = .ok network ∧ NetworkOf p operations network := by
  have hvalues : plan.operations.values = plan.instructions := by
    rw [StoragePlan.operations, indexBy_eq h.ids_nodup, Dict.values, List.map_map]
    exact List.map_id _
  obtain ⟨network, hnetwork⟩ := Checked.mapM_total (f := plan.networkOperation startTimes)
    (l := plan.instructions.filter fun i => i.kind = .send ∨ i.kind = .rrc) (by
      intro i hi
      obtain ⟨hi, hkind⟩ := List.mem_filter.mp hi
      obtain ⟨l, op, r, -, hplaced⟩ := h.transfer hi (of_decide_eq_true hkind)
      exact (h.readBack hplaced).imp fun _ hx => hx.1)
  have hback : ∀ i ∈ plan.instructions, ∀ x, plan.networkOperation startTimes i = .ok x →
      ∀ l op r, operations = l ++ op :: r → PlacedAs p.made l op i → ReadBack p.made l op x := by
    intro i _ x hx l op r _ hplaced
    obtain ⟨x', hx', hread⟩ : ∃ x', plan.networkOperation startTimes i = .ok x' ∧ ReadBack p.made l op x' :=
      h.readBack hplaced
    obtain rfl : x' = x := Except.ok.inj (hx'.symm.trans hx)
    exact hread
  refine ⟨network, by rw [StoragePlan.network, hvalues]; exact hnetwork, ?_, fun x hx => ?_, fun l op r hsplit => ?_⟩
  · have hids := Checked.mapM_map hnetwork (g := (·.operationId)) (k := (·.operationId)) (by
      intro i hi x hx
      obtain ⟨hi, hkind⟩ := List.mem_filter.mp hi
      obtain ⟨l, op, r, hsplit, hplaced⟩ := h.transfer hi (of_decide_eq_true hkind)
      exact (hback i hi x hx l op r hsplit hplaced).id.trans hplaced.id.symm)
    rw [hids]
    exact h.ids_nodup.sublist ((List.filter_sublist).map _)
  · obtain ⟨i, hi, hx⟩ := Checked.mapM_right hnetwork hx
    obtain ⟨hi, hkind⟩ := List.mem_filter.mp hi
    obtain ⟨l, op, r, hsplit, hplaced⟩ := h.transfer hi (of_decide_eq_true hkind)
    exact ⟨l, op, r, hsplit, hback i hi x hx l op r hsplit hplaced⟩
  · obtain ⟨i, hi, hplaced⟩ := h.instruction hsplit
    obtain ⟨x, hx, hread⟩ := Checked.mapM_left hnetwork
      (List.mem_filter.mpr ⟨hi, decide_eq_true hplaced.transfer⟩)
    exact ⟨x, hx, hback i hi x hread l op r hsplit hplaced⟩

end Instructions

/-! ## Soundness -/

section Sound
variable {inputs : ResolvedInput} {plan : StoragePlan} {operations network : List NetworkOperation}
  {p : StatePlacement} {op x : NetworkOperation} {value : Value}

/-- A state is there at the start, or a transfer that is read back makes it. -/
theorem NetworkOf.supplies (h : NetworkOf p operations network) (hp : PlacedStates inputs operations p)
    (hvalue : value ∈ p.made) :
    (value.producer = none ∧
      value.contributors ∈ startHoldings inputs.collective inputs.rankCount inputs.sliceCount value.rank) ∨
      ∃ x ∈ network, value.producer = some x.operationId ∧ x.dstRank = value.rank ∧
        x.targetContributors = value.contributors := by
  obtain ⟨hinitial, hnone⟩ | ⟨op, hop, hproducer, hid, hrank⟩ := hp.origin value hvalue
  · refine .inl ⟨hnone, ?_⟩
    obtain ⟨rank, hsource, logical, hlogical, rfl⟩ := mem_initialValues.mp hinitial
    rw [startHoldings, if_pos hsource]
    exact List.mem_map.mpr ⟨logical, List.mem_range.mpr hlogical, rfl⟩
  · obtain ⟨l, r, hsplit⟩ := List.append_of_mem hop
    obtain ⟨x, hx, hread⟩ := h.every l op r hsplit
    obtain ⟨target, htarget, htargetId, -, hcontributors⟩ := hread.target
    have hsame : some target = some value := by
      rw [← hp.states target htarget, ← hp.states value hvalue, htargetId, hid]
    obtain rfl := Option.some.inj hsame
    exact .inr ⟨x, hx, by rw [hproducer, hread.id], hread.dst.trans hrank.symm, hcontributors.symm⟩

/-- What a transfer reads is supplied. -/
theorem NetworkOf.supplied (h : NetworkOf p operations network) (hp : PlacedStates inputs operations p)
    (hvalue : value ∈ p.made) {read : List Value} (hread : value ∈ read)
    (hwaits : x.dependencies = producers read) :
    Supplied inputs.collective inputs.rankCount inputs.sliceCount network x value.rank value.contributors := by
  obtain ⟨-, hstart⟩ | ⟨other, hother, hproducer, hrank, hcontributors⟩ := h.supplies hp hvalue
  · exact .inl hstart
  · refine .inr ⟨other, hother, ?_, hrank, hcontributors⟩
    rw [hwaits]
    exact List.mem_toFinset.mpr (List.mem_filterMap.mpr ⟨value, hread, hproducer⟩)

/-- A part of the contributions of a slice. -/
theorem AtSlice.of_subset {ranks n position : ℕ} {small large : Finset ℕ} (hlarge : AtSlice ranks n position large)
    (hsmall : small.Nonempty) (h : small ⊆ large) : AtSlice ranks n position small :=
  ⟨hsmall, fun value hvalue => hlarge.2 value (h hvalue)⟩

theorem ReadBack.subset {l : List NetworkOperation} (h : ReadBack p.made l op x) :
    x.contributors ⊆ x.targetContributors := by
  rw [h.contributors]
  obtain ⟨source, -, -, -, ⟨-, -, htarget⟩ | ⟨-, state, -, -, -, -, htarget⟩⟩ := h.source
  · rw [htarget]
  · rw [htarget]
    exact Finset.subset_union_right

/-- What a transfer waits for made a part of what it leaves. -/
theorem ReadBack.dependency {l : List NetworkOperation} (h : ReadBack p.made l op x) {key : String}
    (hkey : key ∈ x.dependencies) :
    ∃ value ∈ p.made, value.producer = some key ∧ value.contributors ⊆ x.targetContributors := by
  obtain ⟨source, hsource, -, hcontributors, ⟨-, hwaits, htarget⟩ |
    ⟨-, state, hstate, hwaits, -, -, htarget⟩⟩ := h.source
  · rw [hwaits, producers, List.mem_toFinset, List.mem_filterMap] at hkey
    obtain ⟨value, hvalue, hproducer⟩ := hkey
    obtain rfl := List.mem_singleton.mp hvalue
    exact ⟨value, hsource, hproducer, by rw [hcontributors, htarget]⟩
  · rw [hwaits, producers, List.mem_toFinset, List.mem_filterMap] at hkey
    obtain ⟨value, hvalue, hproducer⟩ := hkey
    rw [htarget]
    obtain rfl | hvalue := List.mem_cons.mp hvalue
    · exact ⟨value, hsource, hproducer, hcontributors ▸ Finset.subset_union_right⟩
    · obtain rfl := List.mem_singleton.mp hvalue
      exact ⟨value, hstate, hproducer, Finset.subset_union_left⟩

/-- **What is read back from a plan is a sound network.** -/
theorem NetworkOf.sound (h : NetworkOf p operations network) (hp : PlacedStates inputs operations p)
    (hdistinct : (operations.map (·.operationId)).Nodup)
    (hparticipants : ∀ op ∈ operations, ∀ rank ∈ op.participants, rank < inputs.rankCount)
    (houtputs : ∀ entry ∈ requiredEntries inputs.collective inputs.rankCount inputs.sliceCount,
      ∃ value ∈ p.made, value.rank = entry.1.rank ∧ value.contributors = entry.2) :
    NetworkSound inputs.collective inputs.rankCount inputs.sliceCount network where
  distinct := h.distinct
  ordered := by
    refine ⟨fun key => (operations.map (·.operationId)).idxOf key, fun x hx key hkey => ?_⟩
    obtain ⟨l, op, r, rfl, hread⟩ := h.only x hx
    have hearlier := hread.waits key hkey
    rw [List.map_append, List.map_cons, List.nodup_append] at hdistinct
    have hnew : op.operationId ∉ l.map (·.operationId) := fun hmem =>
      hdistinct.2.2 _ hmem _ List.mem_cons_self rfl
    beta_reduce
    rw [hread.id, List.map_append, List.map_cons, List.idxOf_append_of_mem hearlier,
      List.idxOf_append_of_notMem hnew, List.idxOf_cons_self, add_zero]
    exact List.idxOf_lt_length_of_mem hearlier
  sameSlice := by
    intro x hx
    obtain ⟨l, op, r, rfl, hread⟩ := h.only x hx
    obtain ⟨target, htarget, -, -, hcontributors⟩ := hread.target
    have hlarge := hcontributors ▸ (hp.slices target htarget).2
    have hnonempty : ∀ y ∈ network, y.contributors.Nonempty := by
      intro y hy
      obtain ⟨_, _, _, -, hy⟩ := h.only y hy
      obtain ⟨source, hsource, -, hsourceContributors, -⟩ := hy.source
      rw [hy.contributors, ← hsourceContributors]
      exact (hp.slices source hsource).2.1
    refine ⟨target.logicalPosition, ?_, hlarge.of_subset (hnonempty x hx) hread.subset, hlarge, fun key hkey => ?_⟩
    · obtain ⟨v, hv⟩ := hlarge.1
      rw [← (hlarge.2 v hv).2]
      exact Nat.mod_lt v inputs.sliceCount_pos
    · obtain ⟨value, hvalue, hproducer, hpart⟩ := hread.dependency hkey
      obtain ⟨hnone, -⟩ | ⟨other, hother, hmade, -, htargets⟩ := h.supplies hp hvalue
      · rw [hnone] at hproducer
        cases hproducer
      · obtain ⟨_, _, _, -, hotherRead⟩ := h.only other hother
        refine ⟨other, hother, Option.some.inj (hmade.symm.trans hproducer),
          hlarge.of_subset (hnonempty other hother) ?_⟩
        exact hotherRead.subset.trans (htargets ▸ hpart)
  inRange := by
    intro x hx
    obtain ⟨l, op, r, rfl, hread⟩ := h.only x hx
    obtain ⟨target, htarget, -, htargetRank, -⟩ := hread.target
    obtain ⟨source, hsource, hsourceRank, -⟩ := hread.source
    refine ⟨?_, ?_, ?_⟩
    · rw [hread.src, ← hsourceRank]
      exact (hp.slices source hsource).1
    · rw [hread.dst, ← htargetRank]
      exact (hp.slices target htarget).1
    · rw [hread.participants]
      exact hparticipants op (by simp)
  reads := by
    intro x hx
    obtain ⟨l, op, r, rfl, hread⟩ := h.only x hx
    obtain ⟨source, hsource, hrank, hcontributors, hcases⟩ := hread.source
    rw [hread.src, hread.contributors, ← hrank, ← hcontributors]
    obtain ⟨-, hwaits, -⟩ | ⟨-, state, -, hwaits, -⟩ := hcases
    · exact h.supplied hp hsource (List.mem_singleton_self _) hwaits
    · exact h.supplied hp hsource List.mem_cons_self hwaits
  delivers := by
    intro x hx
    obtain ⟨l, op, r, rfl, hread⟩ := h.only x hx
    obtain ⟨source, hsource, -, -, ⟨hkind, -, htarget⟩ |
      ⟨hkind, state, hstate, hwaits, hrank, hdisjoint, htarget⟩⟩ := hread.source
    · exact .inl ⟨hread.kind.trans hkind, htarget.trans hread.contributors.symm⟩
    · refine .inr ⟨hread.kind.trans hkind, state.contributors, ?_, ?_, ?_⟩
      · rwa [hread.contributors]
      · rw [htarget, hread.contributors]
      · rw [hread.dst, ← hrank]
        exact h.supplied hp hstate (by simp) hwaits
  outputs := by
    intro entry hentry
    obtain ⟨value, hvalue, hrank, hcontributors⟩ := houtputs entry hentry
    rw [← hrank, ← hcontributors]
    obtain ⟨-, hstart⟩ | ⟨x, hx, -, hdst, htargets⟩ := h.supplies hp hvalue
    · exact .inl hstart
    · exact .inr ⟨x, hx, hdst, htargets⟩

/-- **The network of a plan that was built, however rearranged, is sound.** -/
theorem network_sound {context : LoweringContext} {candidate : List NetworkOperation} {stored : StoragePlan}
    (h : buildStoragePlan context candidate = .ok plan) (hemitted : Emitted context.inputs.rankCount candidate)
    (hstored : Rearranged plan stored) (startTimes : String → Option ℚ) :
    ∃ network, stored.network startTimes = .ok network ∧
      NetworkSound context.inputs.collective context.inputs.rankCount context.inputs.sliceCount network := by
  obtain ⟨operations, p, hperm, hholds⟩ := buildStoragePlan_holds h hemitted
  obtain ⟨network, hnetwork, hof⟩ := (hholds.rearranged hstored).network
  exact ⟨network, hnetwork, hof.sound hholds.placed hholds.distinct
    (fun op hop => hemitted.participants op (hperm.mem_iff.mp hop)) hholds.outputs⟩

end Sound

end VeriCCL
