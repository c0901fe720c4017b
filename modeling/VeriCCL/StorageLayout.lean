import VeriCCL.StorageHazards
import VeriCCL.StoragePlacement

/-! # What the slots are given for

Before scratch slots are given, the instructions are in an order that respects their waits, each
waits for the producers of what it reads, and the outputs have their addresses.  `Readied` collects
what the loop over the slots relies on; `prepareSlots` establishes it (`prepareSlots_readied`). -/
namespace VeriCCL

/-- An instruction reads inputs, and states whose producers it waits for. -/
def Instruction.WaitsForReads (op : Instruction) (inputs : ResolvedInput) : Prop :=
  ∀ key ∈ op.inputs, (∃ value ∈ initialValues inputs, value.stateId = key) ∨
    ∃ p ∈ op.dependencies, key = "state-" ++ p

theorem Instruction.WaitsForReads.of_subset {op op' : Instruction} {inputs : ResolvedInput}
    (h : op.WaitsForReads inputs) (hinputs : op'.inputs = op.inputs)
    (hdependencies : op.dependencies ⊆ op'.dependencies) : op'.WaitsForReads inputs := by
  intro key hkey
  rw [hinputs] at hkey
  exact (h key hkey).imp_right fun ⟨p, hp, heq⟩ => ⟨p, hdependencies hp, heq⟩

/-- The producers of what was read are waited for. -/
theorem Originates.waitsForReads {inputs : ResolvedInput} {done : List NetworkOperation} {read : List Value}
    (hread : ∀ value ∈ read, Originates inputs done value) {op : Instruction}
    (hinputs : op.inputs = read.map (·.stateId)) (hwaits : producers read ⊆ op.dependencies) :
    op.WaitsForReads inputs := by
  intro key hkey
  rw [hinputs] at hkey
  obtain ⟨value, hvalue, rfl⟩ := List.mem_map.mp hkey
  obtain ⟨hinitial, -⟩ | ⟨other, -, hproducer, hid, -⟩ := hread value hvalue
  · exact .inl ⟨value, hinitial, rfl⟩
  · refine .inr ⟨other.operationId, hwaits ?_, hid⟩
    exact List.mem_toFinset.mpr (List.mem_filterMap.mpr ⟨value, hvalue, hproducer⟩)

/-! ## Transfers -/

section Transfers
variable {context : LoweringContext} {constraints : ConstraintSet} {byId : Dict String NetworkOperation}
  {operations : List NetworkOperation} {p : StatePlacement}

/-- **Transfers wait for what they read.** -/
theorem placed_waits (hranks : constraints.rankCount = context.inputs.rankCount)
    (hids : (operations.map (·.operationId)).Nodup)
    (hrun : operations.foldlM (placeOperation context constraints byId)
      (StatePlacement.start context.inputs) = .ok p) :
    ∀ i ∈ p.instructions, i.kind ≠ .copy ∧ i.output = "state-" ++ i.operationId ∧
      i.WaitsForReads context.inputs := by
  induction operations using List.reverseRecOn generalizing p with
  | nil =>
    obtain rfl : StatePlacement.start context.inputs = p := by simpa using hrun
    simp [StatePlacement.start]
  | append_singleton done op ih =>
    obtain ⟨before, hbefore, hturn⟩ := Checked.foldlM_snoc_ok.mp hrun
    rw [List.map_append, List.nodup_append] at hids
    have hplaced := PlacedStates.run rfl hranks hids.1 hbefore
    simp only [placeOperation, Checked.bind_ok, Checked.required_ok, Checked.ensure_ok,
      Checked.pure_ok] at hturn
    obtain ⟨_, -, source, hlatest, found, hfound, -, -, rfl⟩ := hturn
    intro i hi
    obtain hi | hi := List.mem_append.mp hi
    · exact ih hids.1 hbefore i hi
    obtain rfl := List.mem_singleton.mp hi
    have haccumulator := accumulator_spec hfound
    refine ⟨?_, rfl, @Originates.waitsForReads _ done (source :: found) ?_ _ rfl ?_⟩
    · obtain ⟨hkind, -⟩ | ⟨hkind, -⟩ := haccumulator <;> simp [hkind]
    · intro value hvalue
      obtain rfl | hvalue := List.mem_cons.mp hvalue
      · exact hplaced.origin value (latest_spec hlatest).1
      · obtain ⟨-, rfl⟩ | ⟨-, state, hstate, rfl, -⟩ := haccumulator
        · cases hvalue
        · exact List.mem_singleton.mp hvalue ▸ hplaced.origin state hstate
    · exact fun key hkey => Finset.mem_union_left _ (Finset.mem_union_right _ hkey)

end Transfers

/-! ## Outputs -/

/-- The address of an output slot. -/
def OutputSlot.address (slot : OutputSlot) : Address := ⟨slot.rank, .o, slot.offset⟩

theorem OutputSlot.address_inj {slot slot' : OutputSlot} (h : slot.address = slot'.address) : slot = slot' := by
  cases slot
  cases slot'
  simpa [OutputSlot.address] using h

/-- A state has an address before slots are given. -/
def Binding.Binds (b : Binding) (key : String) (address : Address) : Prop :=
  b.directOutputs.get? key = some address ∨ b.addresses.get? key = some address

/-- **What the loop over the output slots binds.** -/
structure BoundAddresses (inputs : ResolvedInput) (placed : StatePlacement) (slots : List OutputSlot)
    (b : Binding) : Prop where
  initial : ∀ value ∈ initialValues inputs,
    b.addresses.get? value.stateId = some ⟨value.rank, .i, value.logicalPosition⟩
  binds : ∀ key address, b.Binds key address →
    (address.buffer = .i ∧ ∃ value ∈ initialValues inputs, key = value.stateId) ∨
      ∃ slot ∈ slots, address = slot.address
  apart : ∀ (slot : OutputSlot) key key', b.Binds key slot.address → b.Binds key' slot.address → key = key'
  direct : ∀ key address, b.directOutputs.get? key = some address →
    inputs.collective.inplace = false ∧ ∃ producer, key = "state-" ++ producer
  copies : ∃ copies : List Instruction, b.instructions = placed.instructions ++ copies ∧
    (copies.map (·.operationId)).Nodup ∧ (∀ c ∈ copies, c.operationId ∈ slots.map outputCopyId) ∧
    (∀ c ∈ copies, c.kind = .copy ∧ c.output = "state-" ++ c.operationId ∧ c.WaitsForReads inputs) ∧
    ∀ (slot : OutputSlot) key, b.addresses.get? key = some slot.address → ∃ c ∈ copies, c.output = key

section Outputs
variable {inputs : ResolvedInput} {placed : StatePlacement} {stage : ℕ} {priority : ℚ} {b next : Binding}
  {operations : List NetworkOperation}

/-- At the start only the inputs have addresses. -/
theorem boundAddresses_start (inputs : ResolvedInput) (placed : StatePlacement) :
    BoundAddresses inputs placed [] (Binding.start inputs placed) := by
  have haddress : ∀ key address, (Binding.start inputs placed).addresses.get? key = some address →
      ∃ value ∈ initialValues inputs, value.stateId = key ∧ ⟨value.rank, .i, value.logicalPosition⟩ = address := by
    intro key address h
    obtain ⟨value, hvalue, heq⟩ := List.mem_map.mp (Dict.mem_of_get? h)
    obtain ⟨hkey, haddress⟩ := Prod.mk.inj heq
    exact ⟨value, hvalue, hkey, haddress⟩
  have hdistinct : Dict.Distinct ((initialValues inputs).map fun value =>
      (value.stateId, (⟨value.rank, .i, value.logicalPosition⟩ : Address))) := by
    have h := initialValues_distinct inputs
    rwa [Dict.Distinct, Dict.keys, List.map_map]
  refine ⟨fun value hvalue => ?_, ?_, ?_, by simp [Binding.start], [], by simp [Binding.start], by simp,
    by simp, by simp, ?_⟩
  · exact Dict.get?_of_mem hdistinct (List.mem_map.mpr ⟨value, hvalue, rfl⟩)
  · rintro key address (h | h)
    · simp [Binding.start] at h
    · obtain ⟨value, hvalue, rfl, rfl⟩ := haddress key address h
      exact .inl ⟨rfl, value, hvalue, rfl⟩
  · rintro slot key key' (h | h) -
    · simp [Binding.start] at h
    · obtain ⟨value, -, -, heq⟩ := haddress key _ h
      simp [OutputSlot.address] at heq
  · intro slot key h
    obtain ⟨value, -, -, heq⟩ := haddress key _ h
    simp [OutputSlot.address] at heq

/-- A slot that was not met yet is not bound. -/
theorem BoundAddresses.fresh {slots : List OutputSlot} {slot : OutputSlot}
    (h : BoundAddresses inputs placed slots b) (hslot : slot ∉ slots) (key : String) :
    ¬ b.Binds key slot.address := by
  intro hbinds
  obtain ⟨hbuffer, -⟩ | ⟨other, hother, heq⟩ := h.binds key _ hbinds
  · simp [OutputSlot.address] at hbuffer
  · exact hslot (OutputSlot.address_inj heq ▸ hother)

/-- A slot that was met adds nothing where its state is there already. -/
theorem BoundAddresses.more {slots : List OutputSlot} {slot : OutputSlot}
    (h : BoundAddresses inputs placed slots b) (hdirect : next.directOutputs = b.directOutputs)
    (haddresses : next.addresses = b.addresses) (hinstructions : next.instructions = b.instructions) :
    BoundAddresses inputs placed (slots ++ [slot]) next := by
  have hbinds : ∀ key address, next.Binds key address ↔ b.Binds key address := by
    intro key address
    rw [Binding.Binds, Binding.Binds, hdirect, haddresses]
  obtain ⟨copies, hcopies, hnodup, hslots, hkinds, hbound⟩ := h.copies
  refine ⟨by rw [haddresses]; exact h.initial, fun key address hkey => ?_, fun slot key key' hkey hkey' => ?_,
    by rw [hdirect]; exact h.direct, copies, hinstructions.trans hcopies, hnodup, fun c hc => ?_, hkinds,
    by rw [haddresses]; exact hbound⟩
  · exact (h.binds key address ((hbinds key address).mp hkey)).imp_right fun ⟨slot, hslot, heq⟩ =>
      ⟨slot, List.mem_append_left _ hslot, heq⟩
  · exact h.apart slot key key' ((hbinds _ _).mp hkey) ((hbinds _ _).mp hkey')
  · rw [List.map_append]
    exact List.mem_append_left _ (hslots c hc)

/-- A state that is made in its output slot. -/
theorem BoundAddresses.direct_output {slots : List OutputSlot} {slot : OutputSlot} {value : Value}
    (h : BoundAddresses inputs placed slots b) (hslot : slot ∉ slots)
    (horiginates : Originates inputs operations value) (hproducer : value.producer.isSome = true)
    (hinplace : inputs.collective.inplace = false)
    (hdirect : next.directOutputs = b.directOutputs.set value.stateId slot.address)
    (haddresses : next.addresses = b.addresses) (hinstructions : next.instructions = b.instructions) :
    BoundAddresses inputs placed (slots ++ [slot]) next := by
  obtain ⟨producer, hid⟩ : ∃ producer, value.stateId = "state-" ++ producer := by
    obtain ⟨-, hnone⟩ | ⟨op, -, -, hid, -⟩ := horiginates
    · simp [hnone] at hproducer
    · exact ⟨op.operationId, hid⟩
  have hbinds : ∀ key address, next.Binds key address →
      b.Binds key address ∨ (key = value.stateId ∧ address = slot.address) := by
    rintro key address (hkey | hkey)
    · rw [hdirect, Dict.get?_set] at hkey
      split at hkey
      next heq => exact .inr ⟨heq.symm, (Option.some.inj hkey).symm⟩
      next => exact .inl (.inl hkey)
    · exact .inl (.inr (haddresses ▸ hkey))
  obtain ⟨copies, hcopies, hnodup, hslots, hkinds, hbound⟩ := h.copies
  refine ⟨by rw [haddresses]; exact h.initial, fun key address hkey => ?_, fun other key key' hkey hkey' => ?_,
    fun key address hkey => ?_, copies, hinstructions.trans hcopies, hnodup, fun c hc => ?_, hkinds,
    by rw [haddresses]; exact hbound⟩
  · obtain hkey | ⟨-, rfl⟩ := hbinds key address hkey
    · exact (h.binds key address hkey).imp_right fun ⟨slot, hslot, heq⟩ =>
        ⟨slot, List.mem_append_left _ hslot, heq⟩
    · exact .inr ⟨slot, by simp, rfl⟩
  · obtain hkey | ⟨rfl, heq⟩ := hbinds key _ hkey <;> obtain hkey' | ⟨rfl, heq'⟩ := hbinds key' _ hkey'
    · exact h.apart other key key' hkey hkey'
    · exact absurd (heq' ▸ hkey) (h.fresh hslot key)
    · exact absurd (heq ▸ hkey') (h.fresh hslot key')
    · rfl
  · rw [hdirect, Dict.get?_set] at hkey
    split at hkey
    next heq => exact ⟨hinplace, producer, heq.symm.trans hid⟩
    next => exact h.direct key address hkey
  · rw [List.map_append]
    exact List.mem_append_left _ (hslots c hc)

/-- A copy to an output slot. -/
theorem BoundAddresses.copied {slots : List OutputSlot} {slot : OutputSlot} {value : Value}
    (h : BoundAddresses inputs placed slots b) (hslot : slot ∉ slots)
    (horiginates : Originates inputs operations value) (hdirect : next.directOutputs = b.directOutputs)
    (haddresses : next.addresses = b.addresses.set ("state-" ++ outputCopyId slot) slot.address)
    (hinstructions : next.instructions = b.instructions ++ [copyToOutput slot value stage priority]) :
    BoundAddresses inputs placed (slots ++ [slot]) next := by
  have hget : ∀ key address, next.addresses.get? key = some address →
      b.addresses.get? key = some address ∨ (key = "state-" ++ outputCopyId slot ∧ address = slot.address) := by
    intro key address hkey
    rw [haddresses, Dict.get?_set] at hkey
    split at hkey
    next heq => exact .inr ⟨heq.symm, (Option.some.inj hkey).symm⟩
    next => exact .inl hkey
  have hbinds : ∀ key address, next.Binds key address →
      b.Binds key address ∨ (key = "state-" ++ outputCopyId slot ∧ address = slot.address) := by
    rintro key address (hkey | hkey)
    · exact .inl (.inl (hdirect ▸ hkey))
    · exact (hget key address hkey).imp_left .inr
  obtain ⟨copies, hcopies, hnodup, hslots, hkinds, hbound⟩ := h.copies
  refine ⟨fun v hv => ?_, fun key address hkey => ?_, fun other key key' hkey hkey' => ?_,
    by rw [hdirect]; exact h.direct, copies ++ [copyToOutput slot value stage priority],
    by rw [hinstructions, hcopies, List.append_assoc], ?_, fun c hc => ?_, fun c hc => ?_,
    fun other key hkey => ?_⟩
  · obtain ⟨r, -, l, -, rfl⟩ := mem_initialValues.mp hv
    rw [haddresses, Dict.get?_set_ne _ _ (inputId_ne_state r l _).symm]
    exact h.initial _ hv
  · obtain hkey | ⟨-, rfl⟩ := hbinds key address hkey
    · exact (h.binds key address hkey).imp_right fun ⟨slot, hslot, heq⟩ =>
        ⟨slot, List.mem_append_left _ hslot, heq⟩
    · exact .inr ⟨slot, by simp, rfl⟩
  · obtain hkey | ⟨rfl, heq⟩ := hbinds key _ hkey <;> obtain hkey' | ⟨rfl, heq'⟩ := hbinds key' _ hkey'
    · exact h.apart other key key' hkey hkey'
    · exact absurd (heq' ▸ hkey) (h.fresh hslot key)
    · exact absurd (heq ▸ hkey') (h.fresh hslot key')
    · rfl
  · rw [List.map_append, List.nodup_append]
    refine ⟨hnodup, by simp, fun id hid other hother => ?_⟩
    obtain ⟨c, hc, rfl⟩ := List.mem_map.mp hid
    obtain ⟨s, hs, heq⟩ := List.mem_map.mp (hslots c hc)
    obtain rfl := List.mem_singleton.mp hother
    intro hsame
    exact hslot (outputCopyId_inj (heq.trans hsame) ▸ hs)
  · rw [List.map_append]
    obtain hc | hc := List.mem_append.mp hc
    · exact List.mem_append_left _ (hslots c hc)
    · rw [List.mem_singleton.mp hc]
      exact List.mem_append_right _ (List.mem_singleton_self _)
  · obtain hc | hc := List.mem_append.mp hc
    · exact hkinds c hc
    · obtain rfl := List.mem_singleton.mp hc
      refine ⟨rfl, rfl, @Originates.waitsForReads _ operations [value] ?_ _ rfl ?_⟩
      · exact fun v hv => List.mem_singleton.mp hv ▸ horiginates
      · intro key hkey
        obtain ⟨v, hv, hproducer⟩ := List.mem_filterMap.mp (List.mem_toFinset.mp hkey)
        obtain rfl := List.mem_singleton.mp hv
        simpa [copyToOutput] using hproducer
  · obtain hkey | ⟨rfl, -⟩ := hget key _ hkey
    · obtain ⟨c, hc, heq⟩ := hbound other key hkey
      exact ⟨c, List.mem_append_left _ hc, heq⟩
    · exact ⟨copyToOutput slot value stage priority, by simp, rfl⟩

/-- **The run of the loop over the output slots.** -/
theorem BoundAddresses.run (hplaced : ∀ value ∈ placed.made, Originates inputs operations value)
    {entries : List (OutputSlot × Finset ℕ)} (hslots : (entries.map (·.1)).Nodup)
    (h : entries.foldlM (bindOutput inputs placed stage priority) (Binding.start inputs placed) = .ok b) :
    BoundAddresses inputs placed (entries.map (·.1)) b := by
  induction entries using List.reverseRecOn generalizing b with
  | nil =>
    obtain rfl : Binding.start inputs placed = b := by simpa using h
    exact boundAddresses_start inputs placed
  | append_singleton entries entry ih =>
    obtain ⟨before, hbefore, hturn⟩ := Checked.foldlM_snoc_ok.mp h
    rw [List.map_append, List.nodup_append] at hslots
    have hbound := ih hslots.1 hbefore
    have hfresh : entry.1 ∉ entries.map (·.1) := fun hmem =>
      hslots.2.2 _ hmem _ (List.mem_singleton_self _) rfl
    rw [List.map_append, List.map_singleton]
    simp only [bindOutput, Checked.bind_ok, Checked.required_ok] at hturn
    obtain ⟨value, hlatest, hturn⟩ := hturn
    have horiginates := hplaced value (latest_spec hlatest).1
    split at hturn
    · obtain rfl := Checked.pure_ok.mp hturn
      exact hbound.more rfl rfl rfl
    · split at hturn
      next hmade =>
        obtain rfl := Checked.pure_ok.mp hturn
        exact hbound.direct_output hfresh horiginates hmade.1 hmade.2 rfl rfl rfl
      next =>
        obtain rfl := Checked.pure_ok.mp hturn
        exact hbound.copied hfresh horiginates rfl rfl rfl

end Outputs

/-! ## Guarded copies -/

/-- What a guarded instruction is, and what a copy waits for. -/
theorem protect_spec {inputs : ResolvedInput} {b : Binding} {i j : Instruction} (h : protect inputs b i = .ok j) :
    (j.operationId = i.operationId ∧ j.kind = i.kind ∧ j.inputs = i.inputs ∧ j.output = i.output ∧
      j.rank = i.rank ∧ i.dependencies ⊆ j.dependencies) ∧
    (i.kind = .copy → ∃ address, b.addresses.get? i.output = some address ∧
      ∀ value ∈ initialValues inputs,
        canonicalRegion inputs address = canonicalRegion inputs ⟨value.rank, .i, value.logicalPosition⟩ →
          ∀ reader ∈ readersOf b.instructions value.stateId, reader = i.operationId ∨ reader ∈ j.dependencies) := by
  unfold protect at h
  split at h
  next hcopy =>
    simp only [Checked.bind_ok, Checked.required_ok, Checked.pure_ok] at h
    obtain ⟨address, haddress, rfl⟩ := h
    refine ⟨⟨rfl, rfl, rfl, rfl, rfl, Finset.subset_union_left⟩, fun _ => ⟨address, haddress, ?_⟩⟩
    intro value hvalue hsame reader hreader
    by_cases hself : reader = i.operationId
    · exact .inl hself
    refine .inr (Finset.mem_union_right _ (Finset.mem_sdiff.mpr ⟨mem_foldl_union.mpr (.inr ?_), by simpa using hself⟩))
    refine ⟨_, List.mem_map_of_mem (List.mem_filter.mpr ⟨hvalue, decide_eq_true ?_⟩), hreader⟩
    rw [hsame]
    refine ⟨⟨rfl, rfl, rfl⟩, ⟨rfl, rfl⟩, ?_⟩
    have := (canonicalRegion inputs ⟨value.rank, .i, value.logicalPosition⟩).size_pos
    omega
  next hcopy =>
    obtain rfl := Checked.pure_ok.mp h
    exact ⟨⟨rfl, rfl, rfl, rfl, rfl, Finset.Subset.refl _⟩, fun hkind => absurd hkind hcopy⟩

/-! ## The order of the instructions -/

section Order
variable {b : Binding} {capacity : ℕ} {instructions ordered : List Instruction}

/-- An index is the index of its values. -/
theorem indexBy_values {α : Type} (ident : α → String) (items : List α) :
    ((indexBy ident items).values.map ident).Nodup ∧
      indexBy ident (indexBy ident items).values = indexBy ident items := by
  have hident : ∀ e ∈ indexBy ident items, e.1 = ident e.2 := by
    intro e he
    have hget := Dict.get?_of_mem (indexBy_distinct ident items) (k := e.1) (v := e.2) he
    obtain ⟨op, -, heq⟩ := List.mem_map.mp (Dict.mem_of_ofList_get? hget)
    obtain ⟨hkey, hvalue⟩ := Prod.mk.inj heq
    rw [← hkey, ← hvalue]
  have hmap : (indexBy ident items).values.map ident = (indexBy ident items).keys := by
    rw [Dict.values, Dict.keys, List.map_map]
    exact List.map_congr_left fun e he => (hident e he).symm
  have hnodup : ((indexBy ident items).values.map ident).Nodup := hmap ▸ indexBy_distinct ident items
  refine ⟨hnodup, ?_⟩
  rw [indexBy_eq hnodup, Dict.values, List.map_map]
  conv_rhs => rw [← List.map_id (indexBy ident items)]
  exact List.map_congr_left fun e he => Prod.ext (hident e he).symm rfl

/-- Where scratch storage is tight, too, an operation comes after what it waits for. -/
theorem tightOrder_waits {scratch : List String} (fuel : ℕ) {pending result : List Instruction}
    {remaining : String → ℕ} (h : tightOrder scratch fuel pending remaining ordered = .ok result)
    (hdone : ∀ l op r, ordered = l ++ op :: r → ∀ key ∈ op.dependencies, key ∈ l.map (·.operationId)) :
    ∀ l op r, result = l ++ op :: r → ∀ key ∈ op.dependencies, key ∈ l.map (·.operationId) := by
  induction fuel generalizing pending ordered remaining with
  | zero =>
    cases pending with
    | nil =>
      obtain rfl : ordered = result := by simpa [tightOrder] using h
      exact hdone
    | cons i pending => simp [tightOrder] at h
  | succ fuel ih =>
    cases pending with
    | nil =>
      obtain rfl : ordered = result := by simpa [tightOrder] using h
      exact hdone
    | cons i pending =>
      simp only [tightOrder, Checked.bind_ok, Checked.required_ok] at h
      obtain ⟨op, hchoice, h⟩ := h
      have hready : op ∈ (i :: pending).filter _ := List.argmin_mem hchoice
      refine ih h fun l x r hsplit => ?_
      obtain ⟨-, rfl, hl⟩ | ⟨r', -, hr'⟩ := split_snoc hsplit
      · exact hl ▸ of_decide_eq_true (List.mem_filter.mp hready).2
      · exact hdone l x r' hr'

/-- **The order lists the last instruction of every name**, each after what it waits for. -/
theorem orderInstructions_linear (h : orderInstructions capacity b instructions = .ok ordered) :
    LinearOrderOf (·.operationId) (·.dependencies) (instructionById instructions).values ordered := by
  obtain ⟨hnodup, hindex⟩ := indexBy_values (·.operationId) instructions
  unfold orderInstructions at h
  dsimp only at h
  split at h
  · exact ⟨by simpa using tightOrder_perm _ h, tightOrder_waits _ h (by simp)⟩
  · refine storageOrder_linear hnodup ?_
    have hsame : instructionById (instructionById instructions).values = instructionById instructions := hindex
    rwa [storageOrder, hsame]

/-- What is listed is the last of its name. -/
theorem mem_values_index {α : Type} {ident : α → String} {items : List α} {op : α}
    (h : op ∈ (indexBy ident items).values) : op ∈ items ∧ (indexBy ident items).get? (ident op) = some op := by
  obtain ⟨hnodup, hindex⟩ := indexBy_values ident items
  have hget := (indexBy_get? hnodup).mpr ⟨h, rfl⟩
  rw [hindex] at hget
  obtain ⟨other, hother, heq⟩ := List.mem_map.mp (Dict.mem_of_ofList_get? hget)
  obtain ⟨-, rfl⟩ := Prod.mk.inj heq
  exact ⟨hother, hget⟩

end Order

/-! ## What the loop over the slots works on -/

/-- `build_storage_plan` before it gives scratch slots: the bound outputs, and the instructions in
their order. -/
def prepareSlots (context : LoweringContext) (candidate : List NetworkOperation) :
    Except Fault (Binding × List Instruction) := do
  let inputs := context.inputs
  let operations ← networkOrder candidate
  let expected ← requiredOutputs inputs.collective inputs.rankCount inputs.sliceCount
  let constraints ← bindConstraints inputs
  let placed ← operations.foldlM (placeOperation context constraints (networkById operations))
    (StatePlacement.start inputs)
  let priority := maxDefault 0 (operations.map (·.priorityTime)) + 1
  let bound ← (sortSlots expected).foldlM (bindOutput inputs placed (lastStage operations) priority)
    (Binding.start inputs placed)
  let guarded ← bound.instructions.mapM (protect inputs bound)
  let ordered ← orderInstructions (inputs.scratchBytesPerRank / inputs.sliceSizeBytes) bound guarded
  return (bound, ordered)

/-- Where an instruction is in the order. -/
def positionIn (ordered : List Instruction) (key : String) : ℕ := (ordered.map (·.operationId)).idxOf key

/-- The loop over the slots, for some of the instructions. -/
def giveSlots (inputs : ResolvedInput) (bound : Binding) (ordered done : List Instruction) :
    Except Fault Allocation :=
  done.foldlM (allocate bound (inputs.scratchBytesPerRank / inputs.sliceSizeBytes) (positionIn ordered))
    ⟨bound.addresses, [], fun _ => [], [], []⟩

/-- The names of the states that are there at the start. -/
def inputNames (inputs : ResolvedInput) : List String := (initialValues inputs).map (·.stateId)

/-- A plan is what the slots are given for, with the slots. -/
theorem buildStoragePlan_slots {context : LoweringContext} {candidate : List NetworkOperation}
    {plan : StoragePlan} (h : buildStoragePlan context candidate = .ok plan) :
    ∃ bound ordered a, prepareSlots context candidate = .ok (bound, ordered) ∧
      giveSlots context.inputs bound ordered ordered = .ok a ∧ plan.instructions = a.instructions ∧
      plan.addresses = a.addresses ∧ plan.initialIds = inputNames context.inputs ∧
      plan.values = bound.states ∧ plan.reuse = a.reuse ∧ plan.outputs = bound.outputs := by
  simp only [buildStoragePlan, Checked.bind_ok, Checked.pure_ok] at h
  obtain ⟨operations, horder, expected, hexpected, constraints, hconstraints, p, hplaced, bound, hbound,
    guarded, hguarded, ordered, hordered, a, hallocated, rfl⟩ := h
  refine ⟨bound, ordered, a, ?_, hallocated, rfl, rfl, rfl, rfl, rfl, rfl⟩
  simp only [prepareSlots, Checked.bind_ok, Checked.pure_ok]
  exact ⟨operations, horder, expected, hexpected, constraints, hconstraints, p, hplaced, bound, hbound,
    guarded, hguarded, ordered, hordered, rfl⟩

/-- The address that a state has before slots are given. -/
def Binding.address? (b : Binding) (key : String) : Option Address :=
  (b.directOutputs.get? key).or (b.addresses.get? key)

/-- **What the loop over the slots relies on.** -/
structure Readied (inputs : ResolvedInput) (b : Binding) (ordered : List Instruction) : Prop where
  distinct : (ordered.map (·.operationId)).Nodup
  waits : ∀ l op r, ordered = l ++ op :: r → ∀ key ∈ op.dependencies, key ∈ l.map (·.operationId)
  output : ∀ op ∈ ordered, op.output = "state-" ++ op.operationId
  reads : ∀ op ∈ ordered, op.WaitsForReads inputs
  readers : ∀ op ∈ ordered, ∀ key ∈ op.inputs, op.operationId ∈ readersOf b.instructions key
  known : ∀ key, ∀ reader ∈ readersOf b.instructions key, reader ∈ ordered.map (·.operationId)
  initial : ∀ value ∈ initialValues inputs,
    b.addresses.get? value.stateId = some ⟨value.rank, .i, value.logicalPosition⟩
  bound : ∀ op ∈ ordered, ∀ address, b.address? op.output = some address → address.buffer = .o
  apart : ∀ x ∈ ordered, ∀ y ∈ ordered, ∀ address, b.address? x.output = some address →
    b.address? y.output = some address → x = y
  guarded : ∀ op ∈ ordered, ∀ address, b.address? op.output = some address →
    ∀ value ∈ initialValues inputs,
      canonicalRegion inputs address = canonicalRegion inputs ⟨value.rank, .i, value.logicalPosition⟩ →
        ∀ reader ∈ readersOf b.instructions value.stateId, reader = op.operationId ∨ reader ∈ op.dependencies

section Prepare
variable {inputs : ResolvedInput} {b : Binding} {key : String} {address : Address}

theorem Binding.binds_of_address? (h : b.address? key = some address) : b.Binds key address := by
  rw [Binding.address?, Option.or_eq_some_iff] at h
  exact h.imp id fun h => h.2

/-- A state of an instruction that is bound is bound to an output slot. -/
theorem BoundAddresses.output {placed : StatePlacement} {slots : List OutputSlot}
    (h : BoundAddresses inputs placed slots b) {producer : String}
    (hkey : b.address? ("state-" ++ producer) = some address) : ∃ slot ∈ slots, address = slot.address := by
  obtain ⟨-, value, hvalue, heq⟩ | hslot := h.binds _ _ (Binding.binds_of_address? hkey)
  · obtain ⟨r, -, l, -, rfl⟩ := mem_initialValues.mp hvalue
    exact absurd heq.symm (inputId_ne_state r l _)
  · exact hslot

/-- The last of a name, where the last ones have different names. -/
theorem indexBy_append_right {α : Type} {ident : α → String} {items items' : List α} {op : α}
    (hnodup : (items'.map ident).Nodup) (hop : op ∈ items') :
    (indexBy ident (items ++ items')).get? (ident op) = some op := by
  have hentries : ((items'.map fun op => (ident op, op)).map (·.1)).Nodup := by rwa [List.map_map]
  have hentry : (ident op, op) ∈ items'.map fun op => (ident op, op) := List.mem_map.mpr ⟨op, hop, rfl⟩
  rw [indexBy, List.map_append, Dict.ofList, List.foldl_append]
  exact Dict.get?_foldl_set_of_mem hentries hentry _

/-- **Before the slots are given, all is ready.** -/
theorem prepareSlots_readied {context : LoweringContext} {candidate : List NetworkOperation}
    {ordered : List Instruction} (h : prepareSlots context candidate = .ok (b, ordered)) :
    Readied context.inputs b ordered := by
  simp only [prepareSlots, Checked.bind_ok, Checked.pure_ok, Prod.mk.injEq] at h
  obtain ⟨operations, horder, expected, hexpected, constraints, hconstraints, p, hplaced, b, hbound,
    guarded, hguarded, ordered, hordered, rfl, rfl⟩ := h
  have hids : (operations.map (·.operationId)).Nodup := by
    obtain ⟨hperm, -⟩ := networkOrder_linear horder
    simp only [networkOrder, Checked.bind_ok, Checked.ensure_ok] at horder
    obtain ⟨-, ⟨hlength, -⟩, -⟩ := horder
    exact (hperm.map _).nodup_iff.mpr (indexBy_length.mp hlength)
  have hranks : constraints.rankCount = context.inputs.rankCount := by
    simp only [bindConstraints, Checked.bind_ok, Checked.pure_ok] at hconstraints
    obtain ⟨bans, -, rfl⟩ := hconstraints
    rfl
  have hslots : ((sortSlots expected).map (·.1)).Nodup := by
    have hkeys : expected.Distinct := by
      simp only [requiredOutputs, Checked.bind_ok, Checked.pure_ok] at hexpected
      obtain ⟨_, -, rfl⟩ := hexpected
      exact Dict.distinct_ofList _
    exact ((List.perm_insertionSort _ _).map _).nodup_iff.mpr hkeys
  have htransfers := placed_waits hranks hids hplaced
  have haddresses := BoundAddresses.run (PlacedStates.run rfl hranks hids hplaced).origin hslots hbound
  obtain ⟨copies, hcopies, hcopyIds, -, hkinds, hcopied⟩ := haddresses.copies
  -- every instruction that was made waits for what it reads
  have hmade : ∀ i ∈ b.instructions, i.output = "state-" ++ i.operationId ∧ i.WaitsForReads context.inputs := by
    intro i hi
    rw [hcopies, List.mem_append] at hi
    exact hi.elim (fun hi => (htransfers i hi).2) fun hi => (hkinds i hi).2
  obtain ⟨hperm, hwaits⟩ := orderInstructions_linear hordered
  have hfrom : ∀ op ∈ ordered, ∃ i ∈ b.instructions, protect context.inputs b i = .ok op := by
    intro op hop
    exact Checked.mapM_right hguarded (mem_values_index (hperm.mem_iff.mp hop)).1
  have hids' : ∀ key, key ∈ ordered.map (·.operationId) ↔ key ∈ b.instructions.map (·.operationId) := by
    intro key
    have hguardedIds : guarded.map (·.operationId) = b.instructions.map (·.operationId) :=
      Checked.mapM_map hguarded fun _ _ _ h => (protect_spec h).1.1
    have hvalues : (instructionById guarded).values.map (·.operationId) = (instructionById guarded).keys := by
      obtain ⟨hnodup, hindex⟩ := indexBy_values (·.operationId) guarded
      rw [indexBy_eq hnodup] at hindex
      rw [instructionById, ← hindex, Dict.keys, List.map_map, Dict.values, List.map_map, List.map_map]
      rfl
    rw [(hperm.map _).mem_iff, hvalues, instructionById, mem_indexBy_keys, hguardedIds]
  have houtput : ∀ op ∈ ordered, op.output = "state-" ++ op.operationId := by
    intro op hop
    obtain ⟨i, hi, hprotect⟩ := hfrom op hop
    obtain ⟨hid, -, -, hout, -⟩ := (protect_spec hprotect).1
    rw [hout, hid]
    exact (hmade i hi).1
  have hdistinct : (ordered.map (·.operationId)).Nodup := (hperm.map _).nodup_iff.mpr (indexBy_values _ _).1
  refine ⟨hdistinct, hwaits, houtput, fun op hop => ?_,
    fun op hop key hkey => ?_, fun key reader hreader => ?_, haddresses.initial, fun op hop address h => ?_,
    fun x hx y hy address h h' => ?_, fun op hop address h value hvalue hsame reader hreader => ?_⟩
  · obtain ⟨i, hi, hprotect⟩ := hfrom op hop
    obtain ⟨-, -, hinputs, -, -, hdependencies⟩ := (protect_spec hprotect).1
    exact (hmade i hi).2.of_subset hinputs hdependencies
  · obtain ⟨i, hi, hprotect⟩ := hfrom op hop
    obtain ⟨hid, -, hinputs, -⟩ := (protect_spec hprotect).1
    rw [readersOf, List.mem_toFinset, hid]
    exact List.mem_map_of_mem (List.mem_filter.mpr ⟨hi, decide_eq_true (hinputs ▸ hkey)⟩)
  · rw [readersOf, List.mem_toFinset] at hreader
    obtain ⟨i, hi, rfl⟩ := List.mem_map.mp hreader
    exact (hids' _).mpr (List.mem_map_of_mem (List.mem_filter.mp hi).1)
  · obtain ⟨slot, -, rfl⟩ := haddresses.output (houtput op hop ▸ h)
    rfl
  · obtain ⟨slot, -, rfl⟩ := haddresses.output (houtput x hx ▸ h)
    have hsame := haddresses.apart slot _ _ (Binding.binds_of_address? h) (Binding.binds_of_address? h')
    rw [houtput x hx, houtput y hy] at hsame
    exact List.inj_on_of_nodup_map hdistinct hx hy (state_inj hsame)
  · obtain ⟨slot, -, rfl⟩ := haddresses.output (houtput op hop ▸ h)
    -- an output slot that overlaps an input is bound to a copy
    have hinplace := inplace_of_canonicalRegion hsame
    have hget : b.addresses.get? op.output = some slot.address := by
      refine (Binding.binds_of_address? h).resolve_left fun hdirect => ?_
      rw [(haddresses.direct _ _ hdirect).1] at hinplace
      cases hinplace
    obtain ⟨c, hc, hcopy⟩ := hcopied slot _ hget
    have hid : c.operationId = op.operationId := by
      rw [(hkinds c hc).2.1, houtput op hop] at hcopy
      exact state_inj hcopy
    obtain ⟨transfers, guards, htransfersGuarded, hguards, rfl⟩ :
        ∃ transfers guards, p.instructions.mapM (protect context.inputs b) = .ok transfers ∧
          copies.mapM (protect context.inputs b) = .ok guards ∧ guarded = transfers ++ guards := by
      rw [hcopies, List.mapM_append] at hguarded
      simp only [Checked.bind_ok, Checked.pure_ok] at hguarded
      obtain ⟨transfers, htransfers, guards, hguards, rfl⟩ := hguarded
      exact ⟨transfers, guards, htransfers, hguards, rfl⟩
    obtain ⟨guard, hguard, hprotect⟩ := Checked.mapM_left hguards hc
    have hguardIds : (guards.map (·.operationId)).Nodup := by
      rw [Checked.mapM_map hguards fun _ _ _ h => (protect_spec h).1.1]
      exact hcopyIds
    obtain ⟨⟨hguardId, -⟩, hwaitsReaders⟩ := protect_spec hprotect
    have hlast := @indexBy_append_right _ (·.operationId) transfers guards guard hguardIds hguard
    have hop' := (mem_values_index (hperm.mem_iff.mp hop)).2
    rw [hguardId, hid, hop'] at hlast
    obtain rfl := Option.some.inj hlast
    obtain ⟨address, haddress, hreaders⟩ := hwaitsReaders (hkinds c hc).1
    rw [hcopy, hget] at haddress
    obtain rfl := Option.some.inj haddress
    rw [← hid]
    exact hreaders value hvalue hsame reader hreader

end Prepare

end VeriCCL
