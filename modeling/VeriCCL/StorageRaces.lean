import VeriCCL.LocalOrder
import VeriCCL.SlotAllocation

/-! # When a built plan is race free

Every plan that `build_storage_plan` returns keeps the promises of `StorageLaid`
(`buildStoragePlan_laid`).  Its slots are handed on in the order of the instructions; in the order
of the waits only if nobody takes a slot whose state no instruction reads, or waits for the
producer of that state anyway (`FollowsUnread`).  This is exactly when the plan is race free
(`storage_plan_race_free_iff`). -/
namespace VeriCCL

/-! ## The plan -/

section Plan
variable {inputs : ResolvedInput} {b : Binding} {ordered : List Instruction} {a : Allocation}
  {plan : StoragePlan}

/-- A plan, and the run of the loop that made it. -/
structure SlotsGiven (inputs : ResolvedInput) (b : Binding) (ordered : List Instruction) (a : Allocation)
    (plan : StoragePlan) : Prop where
  ready : Readied inputs b ordered
  run : giveSlots inputs b ordered ordered = .ok a
  instructions : plan.instructions = a.instructions
  addresses : plan.addresses = a.addresses
  initialIds : plan.initialIds = inputNames inputs

theorem SlotsGiven.filled (h : SlotsGiven inputs b ordered a plan) : SlotsFilled b ordered a :=
  SlotsFilled.run h.ready (List.append_nil ordered).symm h.run

/-- The instructions of the plan, and those of which they come. -/
theorem SlotsGiven.mem (h : SlotsGiven inputs b ordered a plan) {i : Instruction} (hi : i ∈ plan.instructions) :
    ∃ op ∈ ordered, AddsWaits op i := by
  exact addsWaits_right h.filled.instructions (h.instructions ▸ hi)

theorem SlotsGiven.mem_of_ordered (h : SlotsGiven inputs b ordered a plan) {op : Instruction}
    (hop : op ∈ ordered) : ∃ i ∈ plan.instructions, AddsWaits op i := by
  rw [h.instructions]
  exact addsWaits_left h.filled.instructions hop

theorem SlotsGiven.ids (h : SlotsGiven inputs b ordered a plan) :
    plan.instructions.map (·.operationId) = ordered.map (·.operationId) := by
  rw [h.instructions, h.filled.ids]

/-- Where an instruction puts its output: in a bound slot, or in scratch storage of its rank. -/
theorem SlotsGiven.address (h : SlotsGiven inputs b ordered a plan) {op : Instruction} (hop : op ∈ ordered) :
    ∃ address, a.addresses.get? op.output = some address ∧
      plan.region inputs op.output = some (canonicalRegion inputs address) ∧
      ((b.address? op.output = some address ∧ address.buffer = .o) ∨ ∃ index, address = ⟨op.rank, .s, index⟩) := by
  obtain ⟨address, hget, hcases⟩ := h.filled.addresses op hop
  refine ⟨address, hget, by rw [StoragePlan.region, h.addresses, hget, Option.map_some], hcases.imp ?_ ?_⟩
  · exact fun hbound => ⟨hbound, h.ready.bound op hop address hbound⟩
  · rintro ⟨-, index, -, heq⟩
    exact ⟨index, heq⟩

/-- Where an input is. -/
theorem SlotsGiven.input (h : SlotsGiven inputs b ordered a plan) {value : Value}
    (hvalue : value ∈ initialValues inputs) : plan.region inputs value.stateId =
      some (canonicalRegion inputs ⟨value.rank, .i, value.logicalPosition⟩) := by
  have hother : ∀ op ∈ ordered, op.output ≠ value.stateId := by
    intro op hop heq
    obtain ⟨r, -, l, -, rfl⟩ := mem_initialValues.mp hvalue
    exact inputId_ne_state r l _ ((h.ready.output op hop).symm.trans heq).symm
  rw [StoragePlan.region, h.addresses, h.filled.others _ hother, h.ready.initial value hvalue, Option.map_some]

/-- Two instructions with one output region share a slot. -/
theorem SlotsGiven.shared (h : SlotsGiven inputs b ordered a plan) {x y : Instruction} (hx : x ∈ ordered)
    (hy : y ∈ ordered) (hne : x ≠ y) (hregion : plan.region inputs x.output = plan.region inputs y.output) :
    ∃ rank index, a.addresses.get? x.output = some ⟨rank, .s, index⟩ ∧
      a.addresses.get? y.output = some ⟨rank, .s, index⟩ := by
  obtain ⟨address, hget, hat, hcases⟩ := h.address hx
  obtain ⟨address', hget', hat', hcases'⟩ := h.address hy
  rw [hat, hat'] at hregion
  have hsame := Option.some.inj hregion
  obtain ⟨hbound, ho⟩ | ⟨index, rfl⟩ := hcases
  · obtain ⟨hbound', ho'⟩ | ⟨index', rfl⟩ := hcases'
    · obtain rfl := canonicalRegion_inj (ho.trans ho'.symm) hsame
      exact absurd (h.ready.apart x hx y hy address hbound hbound') hne
    · rw [canonicalRegion_scratch hsame.symm] at ho
      cases ho
  · obtain rfl := canonicalRegion_scratch hsame
    exact ⟨x.rank, index, hget, hget'⟩

/-- Who is listed earlier, from the places in the order. -/
theorem SlotsGiven.listed (h : SlotsGiven inputs b ordered a plan) {p x : String}
    (hp : p ∈ ordered.map (·.operationId)) (hx : x ∈ ordered.map (·.operationId))
    (hlt : positionIn ordered p < positionIn ordered x) : plan.Listed p x := by
  rw [← h.ids] at hp hx
  rw [positionIn, positionIn, ← h.ids] at hlt
  obtain ⟨i, hi, rfl⟩ := List.mem_map.mp hp
  obtain ⟨j, hj, rfl⟩ := List.mem_map.mp hx
  obtain ⟨l, r, hsplit⟩ := List.append_of_mem hj
  have hnodup : (plan.instructions.map (·.operationId)).Nodup := h.ids ▸ h.ready.distinct
  refine ⟨i, j, rfl, rfl, l, r, hsplit, ?_⟩
  rw [hsplit, List.map_append, List.map_cons] at hlt hnodup
  have hjl : j.operationId ∉ l.map (·.operationId) := fun hmem =>
    (List.nodup_append.mp hnodup).2.2 _ hmem _ List.mem_cons_self rfl
  rw [List.idxOf_append_of_notMem hjl, List.idxOf_cons_self, add_zero] at hlt
  by_contra hil
  have hil' : i.operationId ∉ l.map (·.operationId) := by
    intro hmem
    obtain ⟨k, hk, hid⟩ := List.mem_map.mp hmem
    have hki : k = i := List.inj_on_of_nodup_map (h.ids ▸ h.ready.distinct) (by simp [hsplit, hk]) hi hid
    exact hil (hki ▸ hk)
  rw [List.idxOf_append_of_notMem hil'] at hlt
  omega

/-- What is handed over in the loop is handed over in the plan. -/
theorem SlotsGiven.handed (h : SlotsGiven inputs b ordered a plan) {before before' : String → String → Prop}
    (hbefore : ∀ p ∈ ordered.map (·.operationId), ∀ x ∈ ordered.map (·.operationId), before p x → before' p x)
    {x y i j : Instruction} (hx : x ∈ ordered) (hy : y ∈ ordered) (hi : AddsWaits x i) (hj : AddsWaits y j)
    (hjmem : j ∈ plan.instructions) (hover : HandedOver b before x y) : plan.Handed before' i j := by
  obtain ⟨_, -, rfl⟩ := hi
  obtain ⟨_, -, rfl⟩ := hj
  have hyid : y.operationId ∈ ordered.map (·.operationId) := List.mem_map_of_mem hy
  refine ⟨hbefore _ (List.mem_map_of_mem hx) _ hyid hover.1, fun reader hreader hreads => ?_⟩
  obtain ⟨op, hop, hadds⟩ := h.mem hreader
  have hin : op.operationId ∈ readersOf b.instructions x.output := by
    obtain ⟨_, -, rfl⟩ := hadds
    exact h.ready.readers op hop _ hreads
  have hid : reader.operationId = op.operationId := by
    obtain ⟨_, -, rfl⟩ := hadds
    rfl
  obtain heq | hlt := hover.2 _ hin
  · exact .inl (List.inj_on_of_nodup_map (h.ids ▸ h.ready.distinct) hreader hjmem (hid.trans heq))
  · exact .inr (hid ▸ hbefore _ (List.mem_map_of_mem hop) _ hyid hlt)

/-- In the order of the instructions, every turn hands its slot on. -/
theorem SlotsGiven.handed_position (h : SlotsGiven inputs b ordered a plan) :
    SlotsHanded b (fun p x => positionIn ordered p < positionIn ordered x) ordered a := by
  refine SlotsHanded.run h.ready (List.append_nil ordered).symm (fun _ _ _ => lt_trans) ?_ h.run
  rintro front op back hsplit - before next address taken - - - choice - havailable w hw hprior
  constructor
  · have hnew := h.ready.id_notMem hsplit
    show (ordered.map (·.operationId)).idxOf _ < (ordered.map (·.operationId)).idxOf _
    rw [hsplit, List.map_append, List.map_cons, List.idxOf_append_of_mem (List.mem_map_of_mem hw), List.idxOf_append_of_notMem hnew,
      List.idxOf_cons_self, add_zero]
    exact List.idxOf_lt_length_of_mem (List.mem_map_of_mem hw)
  · intro reader hreader
    rw [hprior] at hreader
    obtain hprevious | ⟨heq, -⟩ := havailable.readers reader hreader
    · exact .inr (havailable.previous reader hprevious).2
    · exact .inl heq

/-- **What a built plan promises.** -/
theorem SlotsGiven.laid (h : SlotsGiven inputs b ordered a plan) : StorageLaid inputs plan := by
  have hfilled := h.filled
  have hdistinct : (plan.instructions.map (·.operationId)).Nodup := h.ids ▸ h.ready.distinct
  have hinitial : ∀ key ∈ plan.initialIds, ∃ value ∈ initialValues inputs, value.stateId = key := by
    rw [h.initialIds]
    exact fun key hkey => List.mem_map.mp hkey
  refine ⟨hdistinct, ⟨List.Perm.refl _, h.instructions ▸ hfilled.waits⟩, fun i hi => ?_, fun i hi key hkey => ?_,
    fun i hi => ?_, fun key hkey => ?_, fun key hkey key' hkey' hsame => ?_,
    fun i hi key hkey hsame reader hreader hreads => ?_, fun i hi j hj hne hsame => ?_⟩
  · obtain ⟨op, hop, _, -, rfl⟩ := h.mem hi
    exact h.ready.output op hop
  · obtain ⟨op, hop, dependencies, hsub, rfl⟩ := h.mem hi
    obtain ⟨value, hvalue, rfl⟩ | ⟨p, hp, rfl⟩ := h.ready.reads op hop key hkey
    · rw [h.initialIds]
      exact .inl (List.mem_map_of_mem hvalue)
    · exact .inr ⟨p, hsub hp, rfl⟩
  · obtain ⟨op, hop, _, -, rfl⟩ := h.mem hi
    obtain ⟨address, -, hat, -⟩ := h.address hop
    exact ⟨_, hat⟩
  · obtain ⟨value, hvalue, rfl⟩ := hinitial key hkey
    exact ⟨_, h.input hvalue⟩
  · obtain ⟨value, hvalue, rfl⟩ := hinitial key hkey
    obtain ⟨value', hvalue', rfl⟩ := hinitial key' hkey'
    rw [h.input hvalue, h.input hvalue'] at hsame
    have hregion := canonicalRegion_inj (by rfl) (Option.some.inj hsame)
    obtain ⟨r, -, l, -, rfl⟩ := mem_initialValues.mp hvalue
    obtain ⟨r', -, l', -, rfl⟩ := mem_initialValues.mp hvalue'
    obtain ⟨rfl, -, rfl⟩ := Address.mk.inj hregion
    rfl
  · obtain ⟨value, hvalue, rfl⟩ := hinitial key hkey
    obtain ⟨op, hop, dependencies, hsub, rfl⟩ := h.mem hi
    obtain ⟨other, hother, dependencies', -, rfl⟩ := h.mem hreader
    obtain ⟨address, -, hat, hcases⟩ := h.address hop
    rw [h.input hvalue] at hsame
    have hregion := Option.some.inj (hat.symm.trans hsame)
    obtain ⟨hbound, -⟩ | ⟨index, rfl⟩ := hcases
    · obtain heq | hmem := h.ready.guarded op hop address hbound value hvalue hregion _
        (h.ready.readers other hother _ hreads)
      · exact .inl (List.inj_on_of_nodup_map hdistinct hreader hi heq)
      · exact .inr (hsub hmem)
    · exact absurd (congrArg Address.buffer (canonicalRegion_scratch hregion)) (by simp)
  · obtain ⟨x, hx, hxi⟩ := h.mem hi
    obtain ⟨y, hy, hyj⟩ := h.mem hj
    have hxy : x ≠ y := by
      rintro rfl
      obtain ⟨_, -, rfl⟩ := hxi
      obtain ⟨_, -, rfl⟩ := hyj
      exact hne (List.inj_on_of_nodup_map hdistinct hi hj rfl)
    have hregion : plan.region inputs x.output = plan.region inputs y.output := by
      obtain ⟨_, -, rfl⟩ := hxi
      obtain ⟨_, -, rfl⟩ := hyj
      exact hsame
    obtain ⟨rank, index, hat, hat'⟩ := h.shared hx hy hxy hregion
    have hlisted : ∀ p ∈ ordered.map (·.operationId), ∀ q ∈ ordered.map (·.operationId),
        positionIn ordered p < positionIn ordered q → plan.Listed p q := fun p hp q hq => h.listed hp hq
    exact (h.handed_position.pairs x hx y hy hxy rank index hat hat').imp
      (h.handed hlisted hx hy hxi hyj hj) (h.handed hlisted hy hx hyj hxi hi)

end Plan

/-- **Every plan that is built keeps the promises.** -/
theorem buildStoragePlan_given {context : LoweringContext} {candidate : List NetworkOperation}
    {plan : StoragePlan} (h : buildStoragePlan context candidate = .ok plan) : ∃ b ordered a,
      prepareSlots context candidate = .ok (b, ordered) ∧ SlotsGiven context.inputs b ordered a plan := by
  obtain ⟨b, ordered, a, hprepare, hgive, hinstructions, haddresses, hids, -⟩ := buildStoragePlan_slots h
  exact ⟨b, ordered, a, hprepare, prepareSlots_readied hprepare, hgive, hinstructions, haddresses, hids⟩

theorem buildStoragePlan_laid {context : LoweringContext} {candidate : List NetworkOperation}
    {plan : StoragePlan} (h : buildStoragePlan context candidate = .ok plan) :
    StorageLaid context.inputs plan := by
  obtain ⟨b, ordered, a, -, hgiven⟩ := buildStoragePlan_given h
  exact hgiven.laid

/-! ## Slots whose states nobody reads -/

/-- **Whoever takes a slot whose state no instruction reads comes after the producer of the state
anyway**, by what it waits for and the ancestors of that: at every turn of the loop. -/
def FollowsUnread (context : LoweringContext) (candidate : List NetworkOperation) : Prop :=
  ∀ b ordered, prepareSlots context candidate = .ok (b, ordered) →
    ∀ done op rest, ordered = done ++ op :: rest → ∀ a, giveSlots context.inputs b ordered done = .ok a →
      b.address? op.output = none →
      ∀ upstream, withAncestors a.ancestors op.dependencies = .ok upstream → ∀ index choice,
        takeSlot b (context.inputs.scratchBytesPerRank / context.inputs.sliceSizeBytes) (positionIn ordered)
          (a.slots op.rank) op upstream = .ok (index, some choice) →
        (∀ reader ∈ ordered, choice.prior ∉ reader.inputs) →
          ∀ all, withAncestors a.ancestors (op.dependencies ∪ choice.previousReaders) = .ok all →
            ∃ producer ∈ all, choice.prior = "state-" ++ producer

section Races
variable {context : LoweringContext} {b : Binding} {ordered done rest : List Instruction}
  {a a' next : Allocation} {plan : StoragePlan} {op w : Instruction} {address : Address}
  {choice : SlotChoice} {inputs : ResolvedInput}

/-- One turn in the run of the loop. -/
theorem SlotsGiven.turn (h : SlotsGiven inputs b ordered a plan) (hsplit : ordered = done ++ op :: rest) :
    ∃ a' next, giveSlots inputs b ordered done = .ok a' ∧
      allocate b (inputs.scratchBytesPerRank / inputs.sliceSizeBytes) (positionIn ordered) a' op = .ok next ∧
      rest.foldlM (allocate b (inputs.scratchBytesPerRank / inputs.sliceSizeBytes) (positionIn ordered)) next =
        .ok a := by
  have hrun : (done ++ op :: rest).foldlM (allocate b (inputs.scratchBytesPerRank / inputs.sliceSizeBytes)
      (positionIn ordered)) ⟨b.addresses, [], fun _ => [], [], []⟩ = .ok a := by
    rw [← hsplit]
    exact h.run
  exact Checked.foldlM_turn hrun

theorem SlotsGiven.runsOn (h : SlotsGiven inputs b ordered a plan) (hsplit : ordered = done ++ op :: rest)
    (hdone : giveSlots inputs b ordered done = .ok a')
    (hturn : allocate b (inputs.scratchBytesPerRank / inputs.sliceSizeBytes) (positionIn ordered) a' op = .ok next) :
    rest.foldlM (allocate b (inputs.scratchBytesPerRank / inputs.sliceSizeBytes) (positionIn ordered)) next =
      .ok a := by
  obtain ⟨u, v, hu, hv, hrest⟩ := h.turn hsplit
  obtain rfl : u = a' := Except.ok.inj (hu.symm.trans hdone)
  obtain rfl : v = next := Except.ok.inj (hv.symm.trans hturn)
  exact hrest

/-- The ancestors of an instruction in the plan are those it got at its turn. -/
theorem SlotsGiven.ancestors (h : SlotsGiven inputs b ordered a plan) (hsplit : ordered = done ++ op :: rest)
    (hdone : giveSlots inputs b ordered done = .ok a')
    (hturn : allocate b (inputs.scratchBytesPerRank / inputs.sliceSizeBytes) (positionIn ordered) a' op = .ok next)
    {all : Finset String} (hall : next.ancestors.get? op.operationId = some all) {x : String} :
    x ∈ all ↔ Relation.TransGen plan.Waits x op.operationId := by
  have hlater := (giveSlots_later (h.runsOn hsplit hdone hturn)).2.2 op.operationId (by
    have hdistinct := h.ready.distinct
    rw [hsplit, List.map_append, List.map_cons, List.nodup_append, List.nodup_cons] at hdistinct
    exact hdistinct.2.1.1)
  obtain ⟨known, hknown, hspec⟩ := h.filled.ancestors op (by simp [hsplit])
  rw [hlater, hall] at hknown
  rw [Option.some.inj hknown, hspec]
  show Relation.TransGen (WaitsAmong a.instructions) _ _ ↔ Relation.TransGen (WaitsAmong plan.instructions) _ _
  rw [h.instructions]

/-- An instruction of the loop waits in the plan for all that it waited for at its turn. -/
theorem SlotsGiven.waits (h : SlotsGiven inputs b ordered a plan) (hsplit : ordered = done ++ op :: rest)
    (hdone : giveSlots inputs b ordered done = .ok a')
    (hturn : allocate b (inputs.scratchBytesPerRank / inputs.sliceSizeBytes) (positionIn ordered) a' op = .ok next)
    {taken : Option SlotChoice} (hslot : SlotTurn b (inputs.scratchBytesPerRank / inputs.sliceSizeBytes)
      (positionIn ordered) a' op next address taken) {key : String}
    (hkey : key ∈ (op.waitingFor taken).dependencies) : plan.Waits key op.operationId := by
  have hmem := (giveSlots_later (h.runsOn hsplit hdone hturn)).1 (op.waitingFor taken) (by
    rw [hslot.instructions]
    exact List.mem_append_right _ (List.mem_singleton_self _))
  exact ⟨op.waitingFor taken, h.instructions ▸ hmem, rfl, hkey⟩

/-- Who reads the output of an instruction waits for it. -/
theorem SlotsGiven.waits_of_read (h : SlotsGiven inputs b ordered a plan) (hw : w ∈ ordered)
    (hop : op ∈ ordered) (hread : w.output ∈ op.inputs) : plan.Waits w.operationId op.operationId := by
  obtain ⟨i, hi, dependencies, hsub, rfl⟩ := h.mem_of_ordered hop
  have houtput := h.ready.output w hw
  obtain ⟨value, hvalue, heq⟩ | ⟨p, hp, heq⟩ := h.ready.reads op hop w.output hread
  · obtain ⟨r, -, l, -, rfl⟩ := mem_initialValues.mp hvalue
    exact absurd (heq.trans houtput) (inputId_ne_state r l _)
  · obtain rfl := state_inj (houtput.symm.trans heq)
    exact ⟨_, hi, rfl, hsub hp⟩

/-- **Slots are handed on in the order of the waits**, if whoever takes the slot of an unread state
follows its producer. -/
theorem SlotsGiven.handed_waits {candidate : List NetworkOperation}
    (h : SlotsGiven context.inputs b ordered a plan) (hprepare : prepareSlots context candidate = .ok (b, ordered))
    (hfollows : FollowsUnread context candidate) :
    SlotsHanded b (Relation.TransGen plan.Waits) ordered a := by
  refine SlotsHanded.run h.ready (List.append_nil ordered).symm (fun _ _ _ => Relation.TransGen.trans) ?_ h.run
  rintro done op rest hsplit - a' next address taken hdone hturn hslot choice rfl havailable w hw hprior
  have hop : op ∈ ordered := by simp [hsplit]
  have hworder : w ∈ ordered := by simp [hsplit, hw]
  have hprevious : ∀ reader ∈ choice.previousReaders, plan.Waits reader op.operationId := by
    intro reader hreader
    exact h.waits hsplit hdone hturn hslot (Finset.mem_union_right _ hreader)
  refine ⟨?_, fun reader hreader => ?_⟩
  · by_cases hread : ∃ reader ∈ ordered, choice.prior ∈ reader.inputs
    · obtain ⟨reader, hreader, hin⟩ := hread
      have hwaits := h.waits_of_read hworder hreader (hprior ▸ hin)
      obtain hprev | ⟨hself, -⟩ := havailable.readers _ (h.ready.readers reader hreader _ hin)
      · exact .tail (.single hwaits) (hprevious _ hprev)
      · exact .single (hself ▸ hwaits)
    · obtain ⟨all, hall, hset⟩ := hslot.ancestors
      obtain ⟨-, hnone, -⟩ | ⟨hnone, upstream, index, hupstream, htake, -, -⟩ := hslot.slot
      · cases hnone
      have hfilled := SlotsFilled.run h.ready hsplit hdone
      have hunbound : b.address? op.output = none := by
        rwa [hfilled.others _ fun v hv => h.ready.output_ne hsplit hv] at hnone
      obtain ⟨producer, hmem, heq⟩ := hfollows b ordered hprepare done op rest hsplit a' hdone hunbound upstream
        hupstream index choice htake (by simpa using hread) all hall
      rw [← hprior, h.ready.output w hworder] at heq
      rw [state_inj heq]
      exact (h.ancestors hsplit hdone hturn (by rw [hset, Dict.get?_set_self])).mp hmem
  · rw [hprior] at hreader
    obtain hprev | ⟨hself, -⟩ := havailable.readers reader hreader
    · exact .inr (.single (hprevious _ hprev))
    · exact .inl hself

/-- **Where a race shows**: a plan without races orders whoever takes a slot after the producer of
what is in it. -/
theorem SlotsGiven.followsUnread {candidate : List NetworkOperation}
    (h : SlotsGiven context.inputs b ordered a plan) (hprepare : prepareSlots context candidate = .ok (b, ordered))
    (hfree : RaceFree plan context.inputs) : FollowsUnread context candidate := by
  rintro b' ordered' hprepare' done op rest hsplit a' hdone hunbound upstream hupstream index choice htake - all hall
  obtain ⟨rfl, rfl⟩ := Prod.mk.inj (Except.ok.inj (hprepare.symm.trans hprepare'))
  have hlaid := h.laid
  have hfilled := SlotsFilled.run h.ready hsplit hdone
  have hop : op ∈ ordered := by simp [hsplit]
  -- the owner of the slot
  obtain ⟨hnone, -⟩ | ⟨choice', heq, rfl, havailable⟩ := takeSlot_ok htake
  · cases hnone
  obtain rfl := Option.some.inj heq
  have hdistinct : (a'.slots op.rank).Distinct := by
    rw [Dict.Distinct, hfilled.pools]
    exact List.nodup_range
  obtain ⟨w, hw, hprior, hat⟩ := hfilled.held _ _ _ (Dict.get?_of_mem hdistinct havailable.pooled)
  have hworder : w ∈ ordered := by simp [hsplit, hw]
  -- the turn of the instruction
  obtain ⟨u, next, hu, hturn, hrest⟩ := h.turn hsplit
  obtain rfl : u = a' := Except.ok.inj (hu.symm.trans hdone)
  obtain ⟨address, taken, hslot⟩ := allocate_turn hturn
  have hbefore := hfilled.others _ fun v hv => h.ready.output_ne hsplit hv
  obtain ⟨hbound, -⟩ | ⟨-, upstream', index', hupstream', htake', rfl, -⟩ := hslot.slot
  · rw [hbefore] at hbound
    rw [Binding.address?, hbound] at hunbound
    cases hunbound
  obtain rfl := Except.ok.inj (hupstream.symm.trans hupstream')
  obtain ⟨rfl, rfl⟩ := Prod.mk.inj (Except.ok.inj (htake.symm.trans htake'))
  obtain ⟨all', hall', hset⟩ := hslot.ancestors
  obtain rfl : all = all' := Except.ok.inj (hall.symm.trans hall')
  -- owner and taker write one region
  have hlater : ∀ key, (∀ x ∈ rest, x.output ≠ key) → a.addresses.get? key = next.addresses.get? key :=
    (giveSlots_later hrest).2.1
  have houtputs : ∀ x ∈ ordered, ∀ y ∈ ordered, x.output = y.output → x = y := by
    intro x hx y hy heq
    rw [h.ready.output x hx, h.ready.output y hy] at heq
    exact List.inj_on_of_nodup_map h.ready.distinct hx hy (state_inj heq)
  have hnodup : (done ++ op :: rest).Nodup := hsplit ▸ List.Nodup.of_map _ h.ready.distinct
  have hwop : w ≠ op := by
    rintro rfl
    exact (List.nodup_append.mp hnodup).2.2 w hw w List.mem_cons_self rfl
  have hregion : ∀ x ∈ ordered, x ∉ rest → next.addresses.get? x.output = some ⟨op.rank, .s, choice.index⟩ →
      plan.region context.inputs x.output =
        some (canonicalRegion context.inputs ⟨op.rank, .s, choice.index⟩) := by
    intro x hx hxrest hnext
    rw [StoragePlan.region, h.addresses, hlater _ fun y hy heq => ?_, hnext, Option.map_some]
    exact hxrest (houtputs y (by simp [hsplit, hy]) x hx heq ▸ hy)
  have hwregion := hregion w hworder
    (fun hmem => (List.nodup_append.mp hnodup).2.2 w hw w (List.mem_cons_of_mem _ hmem) rfl)
    (by rw [hslot.addresses, if_neg (h.ready.output_ne hsplit hw).symm, hprior, hat])
  have hopregion := hregion op hop (List.nodup_cons.mp (List.nodup_append.mp hnodup).2.1).1
    (by rw [hslot.addresses, if_pos rfl])
  obtain ⟨i, hi, dependencies, hsub, rfl⟩ := h.mem_of_ordered hworder
  obtain ⟨j, hj, dependencies', hsub', rfl⟩ := h.mem_of_ordered hop
  have hne : ({ w with dependencies := dependencies } : Instruction) ≠ { op with dependencies := dependencies' } := by
    intro heq
    exact hwop (List.inj_on_of_nodup_map h.ready.distinct hworder hop (congrArg (·.operationId) heq))
  have hoverlaps : (canonicalRegion context.inputs ⟨op.rank, .s, choice.index⟩).overlaps
      (canonicalRegion context.inputs ⟨op.rank, .s, choice.index⟩) :=
    BufferRegion.overlaps_of_covers (BufferRegion.covers_first _) (BufferRegion.covers_first _)
  refine ⟨w.operationId, (h.ancestors hsplit hdone hturn (by rw [hset, Dict.get?_set_self])).mpr ?_, ?_⟩
  · obtain hwaits | hwaits := hfree.ordered _ hi _ hj hne _ hwregion _ List.mem_cons_self _ hopregion hoverlaps
    · exact hwaits
    · -- the owner is earlier
      have hback := hlaid.earlier_of_listed hj hi (hlaid.listed hwaits)
      have hlt : positionIn ordered w.operationId < positionIn ordered op.operationId := by
        show (ordered.map (·.operationId)).idxOf _ < (ordered.map (·.operationId)).idxOf _
        rw [hsplit, List.map_append, List.map_cons, List.idxOf_append_of_mem (List.mem_map_of_mem hw),
          List.idxOf_append_of_notMem (h.ready.id_notMem hsplit), List.idxOf_cons_self, add_zero]
        exact List.idxOf_lt_length_of_mem (List.mem_map_of_mem hw)
      have hlisted := h.listed (List.mem_map_of_mem hworder) (List.mem_map_of_mem hop) hlt
      have hforth := hlaid.earlier_of_listed hi hj hlisted
      exact absurd hback (not_earlier_both hlaid.nodup hforth)
  · rw [← hprior, h.ready.output w hworder]

end Races

/-! ## Two schedules between two ranks -/

/-- A send of the slice of rank 0 to rank 1. -/
def pairSend (key : String) (channel : ℤ) (priority : ℚ) : NetworkOperation where
  operationId := key
  kind := .send
  srcRank := 0
  dstRank := 1
  channel := channel
  stageId := 0
  contributors := {0}
  targetContributors := {0}
  participants := [0, 1]
  dependencies := ∅
  referenceDependencies := ∅
  priorityTime := priority

/-- What is built from a schedule between two ranks. -/
def pairStorage (candidate : List NetworkOperation) : StoragePlan :=
  match buildStoragePlan pairContext candidate with
  | .ok plan => plan
  | .error _ => pairPlan []

/-- The slice is sent three times: what is sent first is not read, and its slot is taken. -/
def resent : List NetworkOperation := [pairSend "a" 0 0, pairSend "b" 1 1, pairSend "c" 0 2]

theorem followsUnread_single : FollowsUnread pairContext [pairSend "a" 0 0] := by
  intro b ordered hprepare done op rest hsplit a hdone hnone
  have hbound : ((prepareSlots pairContext [pairSend "a" 0 0]).toOption.all fun given =>
      given.2.all fun op => (given.1.address? op.output).isSome) = true := by with_unfolding_all decide
  simp only [hprepare, Except.toOption, Option.all_some, List.all_eq_true] at hbound
  have := hbound op (by simp [hsplit])
  rw [hnone] at this
  cases this

/-- Two instructions of the plan write one slot, and nothing waits. -/
theorem resent_races : ¬ RaceFree (pairStorage resent) pairContext.inputs := by
  intro hfree
  obtain ⟨a, ha, b, hb, hne, target, hat, hbt⟩ : ∃ a ∈ (pairStorage resent).instructions,
      ∃ b ∈ (pairStorage resent).instructions, a ≠ b ∧
        ∃ target, (pairStorage resent).region pairContext.inputs a.output = some target ∧
          (pairStorage resent).region pairContext.inputs b.output = some target := by
    refine ⟨_, List.getElem_mem (n := 0) ?_, _, List.getElem_mem (n := 1) ?_, ?_,
      canonicalRegion pairContext.inputs ⟨1, .s, 0⟩, ?_, ?_⟩ <;> with_unfolding_all decide
  have hnone : ∀ p x, ¬ (pairStorage resent).Waits p x := by
    have hall : ∀ op ∈ (pairStorage resent).instructions, op.dependencies = ∅ := by
      with_unfolding_all decide
    rintro p x ⟨op, hop, -, hp⟩
    rw [hall op hop] at hp
    exact Finset.notMem_empty _ hp
  have hnever : ∀ p x, ¬ Relation.TransGen (pairStorage resent).Waits p x := by
    intro p x hpath
    obtain ⟨y, hwaits, -⟩ := Relation.TransGen.head'_iff.mp hpath
    exact hnone _ _ hwaits
  obtain h | h := hfree.ordered a ha b hb hne target hat b.output List.mem_cons_self target hbt
    (BufferRegion.overlaps_of_covers (BufferRegion.covers_first _) (BufferRegion.covers_first _))
  · exact hnever _ _ h
  · exact hnever _ _ h

/-- **A built plan is race free exactly when nobody takes a slot whose state no instruction reads
without coming after the producer of the state anyway.** -/
theorem storage_plan_race_free_iff {context : LoweringContext} {candidate : List NetworkOperation}
    {plan : StoragePlan} (h : buildStoragePlan context candidate = .ok plan) :
    RaceFree plan context.inputs ↔ FollowsUnread context candidate := by
  obtain ⟨b, ordered, a, hprepare, hgiven⟩ := buildStoragePlan_given h
  refine ⟨hgiven.followsUnread hprepare, fun hfollows => raceFree_of_handed hgiven.laid ?_⟩
  intro i hi j hj hne hsame
  have hdistinct := hgiven.laid.distinct
  obtain ⟨x, hx, hxi⟩ := hgiven.mem hi
  obtain ⟨y, hy, hyj⟩ := hgiven.mem hj
  have hxy : x ≠ y := by
    rintro rfl
    obtain ⟨_, -, rfl⟩ := hxi
    obtain ⟨_, -, rfl⟩ := hyj
    exact hne (List.inj_on_of_nodup_map hdistinct hi hj rfl)
  have hregion : plan.region context.inputs x.output = plan.region context.inputs y.output := by
    obtain ⟨_, -, rfl⟩ := hxi
    obtain ⟨_, -, rfl⟩ := hyj
    exact hsame
  obtain ⟨rank, index, hat, hat'⟩ := hgiven.shared hx hy hxy hregion
  exact ((hgiven.handed_waits hprepare hfollows).pairs x hx y hy hxy rank index hat hat').imp
    (hgiven.handed (fun _ _ _ _ h => h) hx hy hxi hyj hj) (hgiven.handed (fun _ _ _ _ h => h) hy hx hyj hxi hi)

theorem storage_plan_race_free_iff_resent :
    RaceFree (pairStorage [pairSend "a" 0 0]) pairContext.inputs ∧ ¬ FollowsUnread pairContext resent :=
  ⟨(@storage_plan_race_free_iff pairContext _ _ (by decide +kernel)).mpr followsUnread_single, fun hfollows =>
    resent_races ((@storage_plan_race_free_iff pairContext _ _ (by decide +kernel)).mpr hfollows)⟩

end VeriCCL
