import VeriCCL.Identifiers
import VeriCCL.NetworkExecution

/-! # What a storage plan holds

A plan keeps every state that was made: its instructions are the transfers of the candidate and
copies to output slots, in some order, and every transfer reads states that were made before
it. -/
namespace VeriCCL

/-- The union of a list of sets, and a first one. -/
theorem mem_foldl_union {key : String} {sets : List (Finset String)} {start : Finset String} :
    key ∈ sets.foldl (· ∪ ·) start ↔ key ∈ start ∨ ∃ set ∈ sets, key ∈ set := by
  induction sets generalizing start with
  | nil => simp
  | cons set sets ih => rw [List.foldl_cons, ih, Finset.mem_union, List.exists_mem_cons_iff, or_assoc]

/-! ## PlacedStates operations -/

/-- A transfer as it was placed: the states that it read and the one that it made, among all
states that were made; `earlier` are the transfers before it. -/
structure PlacedAs (made : List Value) (earlier : List NetworkOperation) (op : NetworkOperation)
    (i : Instruction) : Prop where
  id : i.operationId = op.operationId
  kind : i.kind = op.kind
  rank : i.rank = op.dstRank
  participants : i.participants = op.participants
  output : i.output = "state-" ++ op.operationId
  reads : ∃ source ∈ made, ∃ rest : List Value, (∀ value ∈ rest, value ∈ made) ∧
    i.inputs = (source :: rest).map (·.stateId) ∧
    (∀ value ∈ source :: rest, ∀ producer ∈ value.producer, producer ∈ earlier.map (·.operationId)) ∧
    source.rank = op.srcRank ∧ source.contributors = op.contributors ∧
    ∃ target ∈ made, i.output = target.stateId ∧ target.rank = op.dstRank ∧
      ((op.kind = .send ∧ rest = [] ∧ target.contributors = op.contributors) ∨
        op.kind = .rrc ∧ ∃ state, rest = [state] ∧ state.rank = op.dstRank ∧
          Disjoint state.contributors op.contributors ∧
          target.contributors = op.contributors ∪ state.contributors)

/-- Where a state comes from: the inputs, or a transfer to its rank. -/
def Originates (inputs : ResolvedInput) (done : List NetworkOperation) (value : Value) : Prop :=
  (value ∈ initialValues inputs ∧ value.producer = none) ∨ ∃ op ∈ done,
    value.producer = some op.operationId ∧ value.stateId = "state-" ++ op.operationId ∧ value.rank = op.dstRank

/-- **The invariant of the loop over the operations.** -/
structure PlacedStates (inputs : ResolvedInput) (done : List NetworkOperation) (p : StatePlacement) : Prop where
  states : ∀ value ∈ p.made, p.states.get? value.stateId = some value
  origin : ∀ value ∈ p.made, Originates inputs done value
  made : ∀ op ∈ done, ∃ value ∈ p.made, value.producer = some op.operationId
  initial : ∀ value ∈ initialValues inputs, value ∈ p.made
  slices : ∀ value ∈ p.made, value.rank < inputs.rankCount ∧
    AtSlice inputs.rankCount inputs.sliceCount value.logicalPosition value.contributors
  ids : p.instructions.map (·.operationId) = done.map (·.operationId)
  placed : ∀ l op r, done = l ++ op :: r → ∃ i ∈ p.instructions, PlacedAs p.made l op i

section Initial
variable {inputs : ResolvedInput} {value : Value}

theorem mem_initialValues : value ∈ initialValues inputs ↔
    ∃ rank ∈ sourceRanks inputs.collective inputs.rankCount, ∃ logical < inputs.sliceCount,
      ⟨inputId rank logical, rank, logical, {rank * inputs.sliceCount + logical}, none⟩ = value := by
  simp [initialValues]

/-- The ranks that supply inputs are ranks. -/
theorem sourceRanks_lt {rank : ℕ} (h : rank ∈ sourceRanks inputs.collective inputs.rankCount) :
    rank < inputs.rankCount := by
  unfold sourceRanks at h
  split at h
  next hkind =>
    obtain ⟨root, hroot, hlt⟩ := inputs.root_ok (by rw [hkind]; rfl)
    rw [Option.mem_toList, hroot] at h
    exact Option.some.inj h ▸ hlt
  next => exact List.mem_range.mp h

/-- An input's name determines its rank and slice. -/
theorem inputId_inj {r s l m : ℕ} (h : inputId r l = inputId s m) : r = s ∧ l = m := by
  have hlist := congrArg String.toList h
  have hmark : ("-s" : String).toList = ['-', 's'] := by decide
  simp only [inputId, String.toList_append, hmark] at hlist
  obtain ⟨hrank, hslice⟩ := Identifiers.letter_nat_inj (x := 's') (by decide)
    (by simpa only [List.append_assoc, List.cons_append, List.nil_append] using hlist :
      ("input-r".toList ++ (toString r).toList ++ ['-']) ++ 's' :: (toString l).toList =
        ("input-r".toList ++ (toString s).toList ++ ['-']) ++ 's' :: (toString m).toList)
  exact ⟨Identifiers.nat_inj (String.ext (List.append_cancel_left (List.append_cancel_right hrank))), hslice⟩

/-- States of transfers and inputs have different names. -/
theorem inputId_ne_state (r l : ℕ) (key : String) : inputId r l ≠ "state-" ++ key := by
  intro h
  have hlist := congrArg String.toList h
  have hi : ("input-r" : String).toList = 'i' :: "nput-r".toList := by decide
  have hs : ("state-" : String).toList = 's' :: "tate-".toList := by decide
  simp only [inputId, String.toList_append, hi, hs, List.cons_append] at hlist
  exact absurd (List.cons.inj hlist).1 (by decide)

theorem state_inj {key key' : String} (h : "state-" ++ key = "state-" ++ key') : key = key' := by
  have hlist := congrArg String.toList h
  rw [String.toList_append, String.toList_append, List.append_right_inj] at hlist
  exact String.ext hlist

theorem sourceRanks_nodup (spec : CollectiveSpec) (ranks : ℕ) : (sourceRanks spec ranks).Nodup := by
  unfold sourceRanks
  split
  · cases spec.root <;> simp
  · exact List.nodup_range

theorem initialValues_distinct (inputs : ResolvedInput) :
    ((initialValues inputs).map (·.stateId)).Nodup := by
  rw [initialValues, List.map_flatMap, List.nodup_flatMap]
  refine ⟨fun rank _ => ?_, (sourceRanks_nodup _ _).imp fun {r s} hne => ?_⟩
  · rw [List.map_map]
    exact List.nodup_range.map fun l m heq => (inputId_inj heq).2
  · rw [Function.onFun, List.disjoint_left]
    intro name hname hname'
    rw [List.map_map] at hname hname'
    obtain ⟨l, -, rfl⟩ := List.mem_map.mp hname
    obtain ⟨m, -, heq⟩ := List.mem_map.mp hname'
    exact hne (inputId_inj heq).1.symm

/-- **At the start the inputs are there.** -/
theorem placed_start (inputs : ResolvedInput) : PlacedStates inputs [] (StatePlacement.start inputs) where
  states := by
    intro value hvalue
    refine (Dict.ofList_get? ?_).mpr (List.mem_map_of_mem hvalue)
    rw [List.map_map]
    exact initialValues_distinct inputs
  origin := fun value hvalue => .inl ⟨hvalue, by obtain ⟨_, -, _, -, rfl⟩ := mem_initialValues.mp hvalue; rfl⟩
  made := by simp
  initial := fun _ h => h
  slices := by
    intro value hvalue
    obtain ⟨rank, hrank, logical, hlogical, rfl⟩ := mem_initialValues.mp hvalue
    refine ⟨sourceRanks_lt hrank, Finset.singleton_nonempty _, fun v hv => ?_⟩
    rw [Finset.mem_singleton.mp hv, (contribution_spec hlogical).1, (contribution_spec hlogical).2]
    exact ⟨sourceRanks_lt hrank, rfl⟩
  ids := rfl
  placed := by simp

end Initial

/-! ## One turn -/

section Turn
variable {context : LoweringContext} {constraints : ConstraintSet} {byId : Dict String NetworkOperation}
  {done : List NetworkOperation} {op : NetworkOperation} {p next : StatePlacement} {value : Value}

theorem mem_byPosition {rank logical : ℕ} :
    value ∈ p.byPosition rank logical ↔ value ∈ p.made ∧ value.rank = rank ∧ value.logicalPosition = logical := by
  simp [StatePlacement.byPosition]

theorem latest_spec {rank logical : ℕ} {contributors : Finset ℕ}
    (h : p.latest rank logical contributors = some value) :
    value ∈ p.made ∧ value.rank = rank ∧ value.logicalPosition = logical ∧ value.contributors = contributors := by
  have hmem := List.mem_of_getLast? h
  rw [List.mem_filter, mem_byPosition, decide_eq_true_iff] at hmem
  exact ⟨hmem.1.1, hmem.1.2.1, hmem.1.2.2, hmem.2⟩

/-- What a transfer combines: with nothing, or with a state of its destination. -/
theorem accumulator_spec {logical : ℕ} {found : List Value} (h : p.accumulator op logical = .ok found) :
    (op.kind = .send ∧ found = []) ∨ op.kind = .rrc ∧ ∃ state ∈ p.made, found = [state] ∧
      state.rank = op.dstRank ∧ state.logicalPosition = logical ∧ Disjoint state.contributors op.contributors := by
  unfold StatePlacement.accumulator at h
  split at h
  next hkind =>
    simp only [Checked.bind_ok, Checked.required_ok, Checked.pure_ok] at h
    obtain ⟨state, hlargest, rfl⟩ := h
    have hmem := largest_mem hlargest
    rw [List.mem_filter, mem_byPosition, decide_eq_true_iff] at hmem
    exact .inr ⟨hkind, state, hmem.1.1, rfl, hmem.1.2.1, hmem.1.2.2, hmem.2.1⟩
  next hkind =>
    exact .inl ⟨hkind, (Checked.pure_ok.mp h).symm⟩
  next => cases h

/-- What an admitted transfer is checked for. -/
theorem admitOperation_spec {inputs : ResolvedInput} {u : Unit}
    (hcontext : context.inputs = inputs) (hranks : constraints.rankCount = inputs.rankCount)
    (h : admitOperation context constraints op = .ok u) :
    op.contributors.Nonempty ∧ op.srcRank < inputs.rankCount ∧ op.dstRank < inputs.rankCount := by
  subst hcontext
  simp only [admitOperation, Checked.bind_ok, Checked.ensure_ok] at h
  obtain ⟨-, ⟨hcontributors, -⟩, edge, -, -, -, -, -, allowed, hallowed, rfl⟩ := h
  obtain ⟨hsrc, hdst, -⟩ := allows_ok.mp hallowed
  exact ⟨Finset.nonempty_iff_ne_empty.mpr hcontributors, hranks ▸ hsrc, hranks ▸ hdst⟩

theorem PlacedAs.mono {made more : List Value} {earlier : List NetworkOperation} {i : Instruction}
    (h : PlacedAs made earlier op i) (hmore : ∀ v ∈ made, v ∈ more) : PlacedAs more earlier op i where
  id := h.id
  kind := h.kind
  rank := h.rank
  participants := h.participants
  output := h.output
  reads := by
    obtain ⟨source, hsource, rest, hrest, hinputs, hearlier, hrank, hcontributors, target, htarget, h⟩ := h.reads
    exact ⟨source, hmore _ hsource, rest, fun v hv => hmore v (hrest v hv), hinputs, hearlier, hrank,
      hcontributors, target, hmore _ htarget, h⟩

/-- What is read was made by a transfer that came before. -/
theorem PlacedStates.producer {inputs : ResolvedInput} (h : PlacedStates inputs done p) (hvalue : value ∈ p.made)
    {producer : String} (hproducer : producer ∈ value.producer) : producer ∈ done.map (·.operationId) := by
  obtain ⟨-, hnone⟩ | ⟨op, hop, hsome, -⟩ := h.origin value hvalue
  · rw [hnone] at hproducer
    cases hproducer
  · rw [hsome] at hproducer
    exact List.mem_map.mpr ⟨op, hop, Option.some.inj hproducer⟩

/-- **One turn.** -/
theorem PlacedStates.turn {inputs : ResolvedInput} (h : PlacedStates inputs done p) (hcontext : context.inputs = inputs)
    (hranks : constraints.rankCount = inputs.rankCount) (hnew : op.operationId ∉ done.map (·.operationId))
    (hturn : placeOperation context constraints byId p op = .ok next) : PlacedStates inputs (done ++ [op]) next := by
  simp only [placeOperation, Checked.bind_ok, Checked.required_ok, Checked.ensure_ok, Checked.pure_ok] at hturn
  obtain ⟨_, hadmit, source, hlatest, found, hfound, -, -, rfl⟩ := hturn
  obtain ⟨-, -, hdst⟩ := admitOperation_spec hcontext hranks hadmit
  obtain ⟨hsource, hrank, hposition, hcontributors⟩ := latest_spec hlatest
  have haccumulator := accumulator_spec hfound
  set logical := logicalPosition op.contributors context.inputs.sliceCount
  set value := op.makes logical found with hvalue
  have hslice : AtSlice inputs.rankCount inputs.sliceCount logical op.contributors := by
    rw [← hposition, ← hcontributors]
    exact (h.slices source hsource).2
  have hfoundMade : ∀ v ∈ found, v ∈ p.made := by
    obtain ⟨-, rfl⟩ | ⟨-, state, hstate, rfl, -⟩ := haccumulator
    · simp
    · simpa using hstate
  have htarget : AtSlice inputs.rankCount inputs.sliceCount logical value.contributors := by
    obtain ⟨-, rfl⟩ | ⟨-, state, hstate, rfl, -, hat, -⟩ := haccumulator
    · exact hslice
    · refine ⟨hslice.1.mono Finset.subset_union_left, fun v hv => ?_⟩
      obtain hv | hv := Finset.mem_union.mp hv
      · exact hslice.2 v hv
      · exact (hat ▸ (h.slices state hstate).2).2 v hv
  have hfresh : ∀ v ∈ p.made, v.stateId ≠ value.stateId := by
    intro v hv heq
    obtain ⟨hinitial, -⟩ | ⟨other, hother, -, hid, -⟩ := h.origin v hv
    · obtain ⟨r, -, l, -, rfl⟩ := mem_initialValues.mp hinitial
      exact inputId_ne_state r l _ heq
    · exact hnew (List.mem_map.mpr ⟨other, hother, state_inj (hid.symm.trans heq)⟩)
  exact {
    states := by
      intro v hv
      obtain hv | hv := List.mem_append.mp hv
      · rw [Dict.get?_set_ne _ _ (hfresh v hv).symm]
        exact h.states v hv
      · rw [List.mem_singleton.mp hv, Dict.get?_set_self]
    origin := by
      intro v hv
      obtain hv | hv := List.mem_append.mp hv
      · obtain hinitial | ⟨other, hother, hrest⟩ := h.origin v hv
        · exact .inl hinitial
        · exact .inr ⟨other, List.mem_append_left _ hother, hrest⟩
      · rw [List.mem_singleton.mp hv]
        exact .inr ⟨op, by simp, rfl, rfl, rfl⟩
    made := by
      intro other hother
      obtain hother | hother := List.mem_append.mp hother
      · obtain ⟨v, hv, hproducer⟩ := h.made other hother
        exact ⟨v, List.mem_append_left _ hv, hproducer⟩
      · rw [List.mem_singleton.mp hother]
        exact ⟨value, by simp, rfl⟩
    initial := fun v hv => List.mem_append_left _ (h.initial v hv)
    slices := by
      intro v hv
      obtain hv | hv := List.mem_append.mp hv
      · exact h.slices v hv
      · rw [List.mem_singleton.mp hv]
        exact ⟨hdst, htarget⟩
    ids := by rw [List.map_append, List.map_append, h.ids]; rfl
    placed := by
      intro l op' r hsplit
      obtain ⟨-, rfl, hl⟩ | ⟨r', -, hr'⟩ := split_snoc hsplit
      · refine ⟨_, List.mem_append_right _ (List.mem_singleton_self _), rfl, rfl, rfl, rfl, rfl,
          source, by simp [hsource], found, by simpa using fun v hv => .inl (hfoundMade v hv), rfl, ?_, hrank,
          hcontributors, value, by simp, rfl, rfl, ?_⟩
        · intro v hv producer hproducer
          refine hl ▸ h.producer ?_ hproducer
          obtain rfl | hv := List.mem_cons.mp hv
          · exact hsource
          · exact hfoundMade v hv
        · obtain ⟨hkind, rfl⟩ | ⟨hkind, state, -, rfl, hstateRank, -, hdisjoint⟩ := haccumulator
          · exact .inl ⟨hkind, rfl, rfl⟩
          · exact .inr ⟨hkind, state, rfl, hstateRank, hdisjoint, rfl⟩
      · obtain ⟨i, hi, hplaced⟩ := h.placed l op' r' hr'
        exact ⟨i, List.mem_append_left _ hi, hplaced.mono fun v hv => List.mem_append_left _ hv⟩ }

/-- **The run of the loop.** -/
theorem PlacedStates.run {inputs : ResolvedInput} (hcontext : context.inputs = inputs)
    (hranks : constraints.rankCount = inputs.rankCount) {operations : List NetworkOperation}
    (hids : (operations.map (·.operationId)).Nodup)
    (hrun : operations.foldlM (placeOperation context constraints byId) (StatePlacement.start inputs) = .ok p) :
    PlacedStates inputs operations p := by
  induction operations using List.reverseRecOn generalizing p with
  | nil =>
    obtain rfl : StatePlacement.start inputs = p := by simpa using hrun
    exact placed_start inputs
  | append_singleton done op ih =>
    obtain ⟨before, hbefore, hturn⟩ := Checked.foldlM_snoc_ok.mp hrun
    rw [List.map_append, List.nodup_append] at hids
    exact (ih hids.1 hbefore).turn hcontext hranks
      (fun hmem => hids.2.2 _ hmem _ (List.mem_singleton_self _) rfl) hturn

end Turn

/-! ## Outputs -/

section Outputs
variable {inputs : ResolvedInput} {placed : StatePlacement} {stage : ℕ} {priority : ℚ} {b next : Binding}
  {entry : OutputSlot × Finset ℕ} {entries : List (OutputSlot × Finset ℕ)}

theorem bindOutput_spec (h : bindOutput inputs placed stage priority b entry = .ok next) :
    ∃ value ∈ placed.made, value.rank = entry.1.rank ∧ value.contributors = entry.2 ∧
      ((next.states = b.states ∧ next.instructions = b.instructions) ∨
        (∃ state, next.states = b.states.set ("state-" ++ outputCopyId entry.1) state) ∧
          next.instructions = b.instructions ++ [copyToOutput entry.1 value stage priority]) := by
  simp only [bindOutput, Checked.bind_ok, Checked.required_ok] at h
  obtain ⟨value, hlatest, h⟩ := h
  obtain ⟨hmade, hrank, -, hcontributors⟩ := latest_spec hlatest
  refine ⟨value, hmade, hrank, hcontributors, ?_⟩
  split at h
  · obtain rfl := Checked.pure_ok.mp h
    exact .inl ⟨rfl, rfl⟩
  · split at h
    · obtain rfl := Checked.pure_ok.mp h
      exact .inl ⟨rfl, rfl⟩
    · obtain rfl := Checked.pure_ok.mp h
      exact .inr ⟨⟨_, rfl⟩, rfl⟩

/-- **What the loop over the output slots adds**: copies, and the states that they make. -/
structure BoundOutputs (placed : StatePlacement) (entries : List (OutputSlot × Finset ℕ)) (b : Binding) : Prop where
  found : ∀ entry ∈ entries, ∃ value ∈ placed.made, value.rank = entry.1.rank ∧ value.contributors = entry.2
  states : ∀ key, (∀ slot, key ≠ "state-" ++ outputCopyId slot) → b.states.get? key = placed.states.get? key
  instructions : ∃ copies : List Instruction, b.instructions = placed.instructions ++ copies ∧
    (copies.map (·.operationId)).Sublist (entries.map fun entry => outputCopyId entry.1) ∧
    ∀ i ∈ copies, i.kind = .copy

theorem BoundOutputs.run (h : entries.foldlM (bindOutput inputs placed stage priority)
    (Binding.start inputs placed) = .ok b) : BoundOutputs placed entries b := by
  induction entries using List.reverseRecOn generalizing b with
  | nil =>
    obtain rfl : Binding.start inputs placed = b := by simpa using h
    exact ⟨by simp, fun _ _ => rfl, [], by simp [Binding.start], by simp, by simp⟩
  | append_singleton entries entry ih =>
    obtain ⟨before, hbefore, hturn⟩ := Checked.foldlM_snoc_ok.mp h
    obtain ⟨hfound, hstates, copies, hcopies, hsublist, hkinds⟩ := ih hbefore
    obtain ⟨value, hmade, hrank, hcontributors, hnext⟩ := bindOutput_spec hturn
    have hfoundAll : ∀ e ∈ entries ++ [entry],
        ∃ value ∈ placed.made, value.rank = e.1.rank ∧ value.contributors = e.2 := by
      intro e he
      obtain he | he := List.mem_append.mp he
      · exact hfound e he
      · rw [List.mem_singleton.mp he]
        exact ⟨value, hmade, hrank, hcontributors⟩
    obtain ⟨hsame, hinstructions⟩ | ⟨⟨state, hset⟩, hinstructions⟩ := hnext
    · refine ⟨hfoundAll, by rwa [hsame], copies, hinstructions.trans hcopies, ?_, hkinds⟩
      rw [List.map_append]
      exact hsublist.trans (List.sublist_append_left _ _)
    · refine ⟨hfoundAll, fun key hkey => ?_, copies ++ [copyToOutput entry.1 value stage priority], ?_, ?_, ?_⟩
      · rw [hset, Dict.get?_set_ne _ _ (hkey entry.1).symm]
        exact hstates key hkey
      · rw [hinstructions, hcopies, List.append_assoc]
      · rw [List.map_append, List.map_append]
        exact hsublist.append (List.Sublist.refl _)
      · intro i hi
        obtain hi | hi := List.mem_append.mp hi
        · exact hkinds i hi
        · rw [List.mem_singleton.mp hi]
          rfl

/-- A copy's name determines its slot. -/
theorem outputCopyId_inj {slot slot' : OutputSlot} (h : outputCopyId slot = outputCopyId slot') : slot = slot' := by
  have hlist := congrArg String.toList h
  have hmark : ("-o" : String).toList = ['-', 'o'] := by decide
  simp only [outputCopyId, String.toList_append, hmark] at hlist
  obtain ⟨hrank, hoffset⟩ := Identifiers.letter_nat_inj (x := 'o') (by decide)
    (by simpa only [List.append_assoc, List.cons_append, List.nil_append] using hlist :
      ("output-copy-r".toList ++ (toString slot.rank).toList ++ ['-']) ++ 'o' :: (toString slot.offset).toList =
        ("output-copy-r".toList ++ (toString slot'.rank).toList ++ ['-']) ++ 'o' :: (toString slot'.offset).toList)
  have hranks := Identifiers.nat_inj (String.ext (List.append_cancel_left (List.append_cancel_right hrank)))
  cases slot
  cases slot'
  exact OutputSlot.mk.injEq .. ▸ ⟨hranks, hoffset⟩

end Outputs

/-! ## The order, and the slots -/

/-- An instruction without what later passes change. -/
def Instruction.bare (i : Instruction) : Instruction :=
  { i with dependencies := ∅, priorityTime := 0, channel := 0 }

theorem protect_bare {inputs : ResolvedInput} {b : Binding} {i j : Instruction}
    (h : protect inputs b i = .ok j) : j.bare = i.bare := by
  unfold protect at h
  split at h
  · obtain ⟨address, -, h⟩ := Checked.bind_ok.mp h
    obtain rfl := Checked.pure_ok.mp h
    rfl
  · obtain rfl := Checked.pure_ok.mp h
    rfl

/-- Where scratch storage is tight, the operations are only reordered, too. -/
theorem tightOrder_perm {scratch : List String} (fuel : ℕ) {pending ordered result : List Instruction}
    {remaining : String → ℕ} (h : tightOrder scratch fuel pending remaining ordered = .ok result) :
    result.Perm (ordered ++ pending) := by
  induction fuel generalizing pending ordered remaining with
  | zero =>
    cases pending with
    | nil =>
      obtain rfl : ordered = result := by simpa [tightOrder] using h
      simp
    | cons i pending => simp [tightOrder] at h
  | succ fuel ih =>
    cases pending with
    | nil =>
      obtain rfl : ordered = result := by simpa [tightOrder] using h
      simp
    | cons i pending =>
      simp only [tightOrder, Checked.bind_ok, Checked.required_ok] at h
      obtain ⟨op, hchoice, h⟩ := h
      have hop : op ∈ i :: pending := by
        have hready : op ∈ (i :: pending).filter _ := List.argmin_mem hchoice
        exact (List.mem_filter.mp hready).1
      refine (ih h).trans ?_
      rw [List.append_assoc]
      exact ((List.perm_cons_erase hop).symm).append_left ordered

theorem orderInstructions_perm {capacity : ℕ} {b : Binding} {instructions ordered : List Instruction}
    (hids : (instructions.map (·.operationId)).Nodup)
    (h : orderInstructions capacity b instructions = .ok ordered) : ordered.Perm instructions := by
  unfold orderInstructions at h
  dsimp only at h
  split at h
  · refine (tightOrder_perm _ h).trans ?_
    rw [instructionById, indexBy_eq hids, Dict.values, List.map_map]
    simp [Function.comp_def]
  · exact (storageOrder_linear hids h).1

/-- The loop over the slots changes only what operations wait for. -/
theorem allocate_spec {b : Binding} {capacity : ℕ} {position : String → ℕ} {a next : Allocation}
    {op : Instruction} (h : allocate b capacity position a op = .ok next) :
    ∃ dependencies, next.instructions = a.instructions ++ [{ op with dependencies := dependencies }] := by
  simp only [allocate, Checked.bind_ok] at h
  obtain ⟨upstream, -, h⟩ := h
  split at h
  · obtain ⟨all, -, h⟩ := Checked.bind_ok.mp h
    obtain rfl := Checked.pure_ok.mp h
    exact ⟨_, rfl⟩
  · split at h
    · obtain ⟨all, -, h⟩ := Checked.bind_ok.mp h
      obtain rfl := Checked.pure_ok.mp h
      exact ⟨_, rfl⟩
    · obtain ⟨⟨index, taken⟩, -, h⟩ := Checked.bind_ok.mp h
      obtain ⟨all, -, h⟩ := Checked.bind_ok.mp h
      obtain rfl := Checked.pure_ok.mp h
      exact ⟨_, rfl⟩

theorem allocate_run {b : Binding} {capacity : ℕ} {position : String → ℕ} {a : Allocation}
    {addresses : Dict String Address} {instructions : List Instruction}
    (h : instructions.foldlM (allocate b capacity position) ⟨addresses, [], fun _ => [], [], []⟩ = .ok a) :
    a.instructions.map Instruction.bare = instructions.map Instruction.bare := by
  induction instructions using List.reverseRecOn generalizing a with
  | nil =>
    obtain rfl : (⟨addresses, [], fun _ => [], [], []⟩ : Allocation) = a := by simpa using h
    rfl
  | append_singleton done op ih =>
    obtain ⟨before, hbefore, hturn⟩ := Checked.foldlM_snoc_ok.mp h
    obtain ⟨dependencies, hnext⟩ := allocate_spec hturn
    rw [hnext, List.map_append, List.map_append, ih hbefore]
    rfl

end VeriCCL
