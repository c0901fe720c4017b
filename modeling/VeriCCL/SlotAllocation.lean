import VeriCCL.StorageLayout

/-! # Scratch slots

The loop of `build_storage_plan` that gives scratch slots, and adds what their new owners wait for.
`SlotsFilled` is what it keeps about addresses and ancestors; `SlotsHanded` says that the owners of
a slot take it over one after the other, in any order of events that every single turn respects. -/
namespace VeriCCL

/-! ## One turn -/

section Turn
variable {b : Binding} {capacity : ℕ} {position : String → ℕ} {a next : Allocation} {op : Instruction}
  {upstream : Finset String} {pool : Dict ℕ String}

theorem withAncestors_ok {ancestors : Dict String (Finset String)} {dependencies all : Finset String}
    (h : withAncestors ancestors dependencies = .ok all) :
    (∀ key ∈ dependencies, ∃ known, ancestors.get? key = some known) ∧ ∀ x, x ∈ all ↔
      x ∈ dependencies ∨ ∃ key ∈ dependencies, ∃ known, ancestors.get? key = some known ∧ x ∈ known := by
  simp only [withAncestors, Checked.bind_ok, Checked.pure_ok] at h
  obtain ⟨sets, hsets, rfl⟩ := h
  have hleft : ∀ key ∈ dependencies, ∃ known ∈ sets, ancestors.get? key = some known := by
    intro key hkey
    obtain ⟨known, hknown, hget⟩ := Checked.mapM_left hsets ((Finset.mem_sort _).mpr hkey)
    exact ⟨known, hknown, Checked.required_ok.mp hget⟩
  refine ⟨fun key hkey => (hleft key hkey).imp fun _ h => h.2, fun x => ?_⟩
  rw [mem_foldl_union]
  refine or_congr_right ⟨?_, ?_⟩
  · rintro ⟨known, hknown, hx⟩
    obtain ⟨key, hkey, hget⟩ := Checked.mapM_right hsets hknown
    exact ⟨key, (Finset.mem_sort _).mp hkey, known, Checked.required_ok.mp hget, hx⟩
  · rintro ⟨key, hkey, known, hget, hx⟩
    obtain ⟨known', hknown, hget'⟩ := hleft key hkey
    rw [hget] at hget'
    exact ⟨known', hknown, Option.some.inj hget' ▸ hx⟩

/-- A slot that may be taken: those who read its state are done, but for the one who takes it. -/
structure Available (b : Binding) (position : String → ℕ) (pool : Dict ℕ String) (op : Instruction)
    (choice : SlotChoice) : Prop where
  pooled : (choice.index, choice.prior) ∈ pool
  readers : ∀ reader ∈ readersOf b.instructions choice.prior,
    reader ∈ choice.previousReaders ∨ (reader = op.operationId ∧ choice.prior ∈ op.inputs)
  previous : ∀ reader ∈ choice.previousReaders, reader ∈ readersOf b.instructions choice.prior ∧
    position reader < position op.operationId

theorem available_of_mem {choice : SlotChoice} (h : choice ∈ availableSlots b position pool op upstream) :
    Available b position pool op choice := by
  obtain ⟨e, he, hchoice⟩ := List.mem_filterMap.mp h
  dsimp only at hchoice
  split at hchoice
  next hinput =>
    split at hchoice
    next hdone =>
      obtain rfl := Option.some.inj hchoice
      refine ⟨he, fun reader hreader => ?_, fun reader hreader =>
        ⟨(Finset.mem_sdiff.mp hreader).1, hdone reader hreader⟩⟩
      by_cases hself : reader = op.operationId
      · exact .inr ⟨hself, hinput.1⟩
      · exact .inl (Finset.mem_sdiff.mpr ⟨hreader, by simpa using hself⟩)
    next => cases hchoice
  next =>
    split at hchoice
    next hdone =>
      obtain rfl := Option.some.inj hchoice
      exact ⟨he, fun reader hreader => .inl hreader, fun reader hreader => ⟨hreader, hdone reader hreader⟩⟩
    next => cases hchoice

theorem takeSlot_ok {index : ℕ} {taken : Option SlotChoice}
    (h : takeSlot b capacity position pool op upstream = .ok (index, taken)) :
    (taken = none ∧ index = pool.length) ∨
      ∃ choice, taken = some choice ∧ index = choice.index ∧ Available b position pool op choice := by
  unfold takeSlot at h
  dsimp only at h
  split at h
  · simp only [Checked.bind_ok, Checked.required_ok, Checked.pure_ok, Prod.mk.injEq] at h
    obtain ⟨choice, hleast, rfl, rfl⟩ := h
    refine .inr ⟨choice, rfl, rfl, ?_⟩
    have hmem := List.argmin_mem hleast
    split at hmem
    · exact available_of_mem hmem
    · exact available_of_mem (List.mem_filter.mp hmem).1
  · split at h
    · obtain ⟨rfl, rfl⟩ := Prod.mk.inj (Except.ok.inj h)
      exact .inl ⟨rfl, rfl⟩
    · cases h

/-- What an instruction waits for in the end. -/
def Instruction.waitingFor (op : Instruction) (taken : Option SlotChoice) : Instruction :=
  { op with dependencies := op.dependencies ∪ taken.elim ∅ (·.previousReaders) }

theorem Instruction.waitingFor_none (op : Instruction) : op.waitingFor none = op := by
  rw [waitingFor, Option.elim_none, Finset.union_empty]

/-- **One turn of the loop.** -/
structure SlotTurn (b : Binding) (capacity : ℕ) (position : String → ℕ) (a : Allocation) (op : Instruction)
    (next : Allocation) (address : Address) (taken : Option SlotChoice) : Prop where
  ancestors : ∃ all, withAncestors a.ancestors (op.waitingFor taken).dependencies = .ok all ∧
    next.ancestors = a.ancestors.set op.operationId all
  instructions : next.instructions = a.instructions ++ [op.waitingFor taken]
  addresses : ∀ key, next.addresses.get? key = if op.output = key then some address else a.addresses.get? key
  reuse : next.reuse = a.reuse ++ taken.toList.map fun choice =>
    ⟨op.operationId, choice.prior, op.output, choice.previousReaders, op.rank, choice.index⟩
  slot : ((b.directOutputs.get? op.output).or (a.addresses.get? op.output) = some address ∧ taken = none ∧
      next.slots = a.slots) ∨
    ((b.directOutputs.get? op.output).or (a.addresses.get? op.output) = none ∧ ∃ upstream index,
      withAncestors a.ancestors op.dependencies = .ok upstream ∧
      takeSlot b capacity position (a.slots op.rank) op upstream = .ok (index, taken) ∧
      address = ⟨op.rank, .s, index⟩ ∧
      next.slots = Function.update a.slots op.rank ((a.slots op.rank).set index op.output))

theorem allocate_turn (h : allocate b capacity position a op = .ok next) :
    ∃ address taken, SlotTurn b capacity position a op next address taken := by
  simp only [allocate, Checked.bind_ok] at h
  obtain ⟨upstream, hupstream, h⟩ := h
  split at h
  next target htarget =>
    obtain ⟨all, hall, h⟩ := Checked.bind_ok.mp h
    obtain rfl := Checked.pure_ok.mp h
    refine ⟨target, none, ⟨⟨all, by rwa [op.waitingFor_none], rfl⟩, by rw [op.waitingFor_none],
      fun key => Dict.get?_set _ _ _ _, by simp, .inl ⟨by rw [htarget, Option.some_or], rfl, rfl⟩⟩⟩
  next hnone =>
    split at h
    next hknown =>
      obtain ⟨all, hall, h⟩ := Checked.bind_ok.mp h
      obtain rfl := Checked.pure_ok.mp h
      obtain ⟨address, haddress⟩ := Dict.get?_isSome.mpr hknown
      refine ⟨address, none, ⟨⟨all, by rwa [op.waitingFor_none], rfl⟩, by rw [op.waitingFor_none],
        fun key => ?_, by simp, .inl ⟨by rw [hnone, Option.none_or, haddress], rfl, rfl⟩⟩⟩
      dsimp only
      split
      next heq => rw [← heq, haddress]
      next => rfl
    next hknown =>
      obtain ⟨⟨index, taken⟩, htake, h⟩ := Checked.bind_ok.mp h
      obtain ⟨all, hall, h⟩ := Checked.bind_ok.mp h
      obtain rfl := Checked.pure_ok.mp h
      refine ⟨⟨op.rank, .s, index⟩, taken, ⟨⟨all, hall, rfl⟩, rfl, fun key => Dict.get?_set _ _ _ _, ?_,
        .inr ⟨by rw [hnone, Option.none_or, Dict.get?_eq_none.mpr hknown], upstream, index, hupstream, htake,
          rfl, rfl⟩⟩⟩
      obtain ⟨rfl, -⟩ | ⟨choice, rfl, rfl, -⟩ := takeSlot_ok htake <;> rfl

end Turn

/-! ## Waiting among more instructions -/

section Waits
variable {l : List Instruction} {i : Instruction} {p x : String}

/-- Every instruction waits for earlier ones only. -/
def WaitsBack (l : List Instruction) : Prop :=
  ∀ front op back, l = front ++ op :: back → ∀ key ∈ op.dependencies, key ∈ front.map (·.operationId)

theorem WaitsBack.known (h : WaitsBack l) (hwaits : WaitsAmong l p x) : p ∈ l.map (·.operationId) := by
  obtain ⟨op, hop, -, hp⟩ := hwaits
  obtain ⟨front, back, rfl⟩ := List.append_of_mem hop
  rw [List.map_append]
  exact List.mem_append_left _ (h front op back rfl p hp)

theorem WaitsBack.snoc (h : WaitsBack l) (hi : ∀ key ∈ i.dependencies, key ∈ l.map (·.operationId)) :
    WaitsBack (l ++ [i]) := by
  intro front op back hsplit
  obtain ⟨-, rfl, rfl⟩ | ⟨back', -, hback⟩ := split_snoc hsplit
  · exact hi
  · exact h front op back' hback

theorem waitsAmong_mono {l' : List Instruction} (hsub : ∀ i ∈ l, i ∈ l')
    (h : Relation.TransGen (WaitsAmong l) p x) : Relation.TransGen (WaitsAmong l') p x := by
  refine h.lift id fun p x ⟨op, hop, hwaits⟩ => ?_
  exact ⟨op, hsub op hop, hwaits⟩

/-- A new instruction is not among the ancestors of those that were there. -/
theorem transGen_waits_snoc (h : WaitsBack l) (hnew : i.operationId ∉ l.map (·.operationId))
    (hx : x ∈ l.map (·.operationId)) :
    Relation.TransGen (WaitsAmong (l ++ [i])) p x ↔ Relation.TransGen (WaitsAmong l) p x := by
  refine ⟨fun htrans => ?_, waitsAmong_mono fun _ h => List.mem_append_left _ h⟩
  have hold : ∀ {q y : String}, y ∈ l.map (·.operationId) → WaitsAmong (l ++ [i]) q y → WaitsAmong l q y := by
    rintro q y hy ⟨op, hop, rfl, hq⟩
    obtain hop | hop := List.mem_append.mp hop
    · exact ⟨op, hop, rfl, hq⟩
    · exact absurd (List.mem_singleton.mp hop ▸ hy) hnew
  induction htrans with
  | single hwaits => exact .single (hold hx hwaits)
  | tail _ hwaits ih =>
    have hwaits := hold hx hwaits
    exact (ih (h.known hwaits)).tail hwaits

/-- The ancestors of a new instruction. -/
theorem transGen_waits_new (h : WaitsBack l) (hnew : i.operationId ∉ l.map (·.operationId))
    (hi : ∀ key ∈ i.dependencies, key ∈ l.map (·.operationId)) :
    Relation.TransGen (WaitsAmong (l ++ [i])) p i.operationId ↔
      p ∈ i.dependencies ∨ ∃ key ∈ i.dependencies, Relation.TransGen (WaitsAmong l) p key := by
  have hlast : ∀ {q : String}, WaitsAmong (l ++ [i]) q i.operationId ↔ q ∈ i.dependencies := by
    intro q
    constructor
    · rintro ⟨op, hop, hid, hq⟩
      obtain hop | hop := List.mem_append.mp hop
      · exact absurd (List.mem_map.mpr ⟨op, hop, hid⟩) hnew
      · exact List.mem_singleton.mp hop ▸ hq
    · exact fun hq => ⟨i, by simp, rfl, hq⟩
  constructor
  · intro htrans
    obtain ⟨q, hpq, hq⟩ := Relation.TransGen.tail'_iff.mp htrans
    have hq := hlast.mp hq
    obtain rfl | hpq := Relation.reflTransGen_iff_eq_or_transGen.mp hpq
    · exact .inl hq
    · exact .inr ⟨q, hq, (transGen_waits_snoc h hnew (hi q hq)).mp hpq⟩
  · rintro (hp | ⟨key, hkey, htrans⟩)
    · exact .single (hlast.mpr hp)
    · exact (waitsAmong_mono (fun _ h => List.mem_append_left _ h) htrans).tail (hlast.mpr hkey)

end Waits

/-! ## What the loop keeps -/

/-- An instruction with more to wait for. -/
def AddsWaits (op final : Instruction) : Prop :=
  ∃ dependencies, op.dependencies ⊆ dependencies ∧ final = { op with dependencies := dependencies }

/-- **What the loop keeps about addresses and ancestors.** -/
structure SlotsFilled (b : Binding) (done : List Instruction) (a : Allocation) : Prop where
  instructions : List.Forall₂ AddsWaits done a.instructions
  waits : WaitsBack a.instructions
  ancestors : ∀ op ∈ done, ∃ all, a.ancestors.get? op.operationId = some all ∧
    ∀ x, x ∈ all ↔ Relation.TransGen (WaitsAmong a.instructions) x op.operationId
  known : ∀ key all, a.ancestors.get? key = some all → key ∈ done.map (·.operationId)
  addresses : ∀ op ∈ done, ∃ address, a.addresses.get? op.output = some address ∧
    (b.address? op.output = some address ∨
      (b.address? op.output = none ∧ ∃ index ∈ (a.slots op.rank).keys, address = ⟨op.rank, .s, index⟩))
  others : ∀ key, (∀ op ∈ done, op.output ≠ key) → a.addresses.get? key = b.addresses.get? key
  pools : ∀ rank, (a.slots rank).keys = List.range (a.slots rank).length
  held : ∀ rank index key, (a.slots rank).get? index = some key →
    ∃ w ∈ done, w.output = key ∧ a.addresses.get? key = some ⟨rank, .s, index⟩

section Filled
variable {inputs : ResolvedInput} {b : Binding} {ordered done rest : List Instruction} {a next : Allocation}
  {op : Instruction} {capacity : ℕ} {position : String → ℕ} {address : Address} {taken : Option SlotChoice}

theorem addsWaits_ids {l finals : List Instruction} (h : List.Forall₂ AddsWaits l finals) :
    finals.map (·.operationId) = l.map (·.operationId) := by
  induction h with
  | nil => rfl
  | cons hhead _ ih =>
    obtain ⟨dependencies, -, rfl⟩ := hhead
    rw [List.map_cons, List.map_cons, ih]

theorem addsWaits_right {l finals : List Instruction} (h : List.Forall₂ AddsWaits l finals) {i : Instruction}
    (hi : i ∈ finals) : ∃ op ∈ l, AddsWaits op i := by
  induction h with
  | nil => cases hi
  | cons hhead _ ih =>
    obtain rfl | hi := List.mem_cons.mp hi
    · exact ⟨_, List.mem_cons_self, hhead⟩
    · obtain ⟨op, hop, hadds⟩ := ih hi
      exact ⟨op, List.mem_cons_of_mem _ hop, hadds⟩

theorem addsWaits_left {l finals : List Instruction} (h : List.Forall₂ AddsWaits l finals) {op : Instruction}
    (hop : op ∈ l) : ∃ i ∈ finals, AddsWaits op i := by
  induction h with
  | nil => cases hop
  | cons hhead _ ih =>
    obtain rfl | hop := List.mem_cons.mp hop
    · exact ⟨_, List.mem_cons_self, hhead⟩
    · obtain ⟨i, hi, hadds⟩ := ih hop
      exact ⟨i, List.mem_cons_of_mem _ hi, hadds⟩

theorem SlotsFilled.ids (h : SlotsFilled b done a) :
    a.instructions.map (·.operationId) = done.map (·.operationId) := addsWaits_ids h.instructions

theorem slotsFilled_start (b : Binding) :
    SlotsFilled b [] ⟨b.addresses, [], fun _ => [], [], []⟩ where
  instructions := .nil
  waits := by simp [WaitsBack]
  ancestors := by simp
  known := by simp
  addresses := by simp
  others := fun _ _ => rfl
  pools := fun _ => rfl
  held := by simp

/-- Outputs of instructions that are ready are different. -/
theorem Readied.output_ne (h : Readied inputs b ordered) (hsplit : ordered = done ++ op :: rest)
    {w : Instruction} (hw : w ∈ done) : w.output ≠ op.output := by
  intro heq
  have hdistinct := h.distinct
  rw [h.output w (by simp [hsplit, hw]), h.output op (by simp [hsplit])] at heq
  rw [hsplit, List.map_append, List.nodup_append] at hdistinct
  exact hdistinct.2.2 _ (List.mem_map_of_mem hw) _ List.mem_cons_self (state_inj heq)

theorem Readied.id_notMem (h : Readied inputs b ordered) (hsplit : ordered = done ++ op :: rest) :
    op.operationId ∉ done.map (·.operationId) := by
  intro hmem
  have hdistinct := h.distinct
  rw [hsplit, List.map_append, List.nodup_append] at hdistinct
  exact hdistinct.2.2 _ hmem _ List.mem_cons_self rfl

/-- What an instruction waits for is done, whatever slot it takes. -/
theorem SlotsFilled.waits_done (h : SlotsFilled b done a)
    (hturn : SlotTurn b capacity position a op next address taken) {key : String}
    (hkey : key ∈ (op.waitingFor taken).dependencies) : key ∈ done.map (·.operationId) := by
  obtain ⟨all, hall, -⟩ := hturn.ancestors
  obtain ⟨known, hknown⟩ := (withAncestors_ok hall).1 key hkey
  exact h.known key known hknown

/-- **One turn keeps it.** -/
theorem SlotsFilled.turn (hready : Readied inputs b ordered) (hsplit : ordered = done ++ op :: rest)
    (h : SlotsFilled b done a) (hturn : SlotTurn b capacity position a op next address taken) :
    SlotsFilled b (done ++ [op]) next := by
  have hnew : (op.waitingFor taken).operationId ∉ a.instructions.map (·.operationId) := by
    rw [h.ids]
    show op.operationId ∉ _
    exact hready.id_notMem hsplit
  have hwaits : ∀ key ∈ (op.waitingFor taken).dependencies, key ∈ a.instructions.map (·.operationId) := by
    intro key hkey
    rw [h.ids]
    exact h.waits_done hturn hkey
  have haddress : ∀ w ∈ done, next.addresses.get? w.output = a.addresses.get? w.output := by
    intro w hw
    rw [hturn.addresses, if_neg (hready.output_ne hsplit hw).symm]
  obtain ⟨all, hall, hancestors⟩ := hturn.ancestors
  have hother : ∀ w ∈ done, w.operationId ≠ op.operationId := by
    intro w hw heq
    exact hready.id_notMem hsplit (heq ▸ List.mem_map_of_mem hw)
  -- what is free on the rank of the instruction, and elsewhere
  have hslots : ∀ rank, (next.slots rank).keys = List.range (next.slots rank).length ∧
      (∀ index ∈ (a.slots rank).keys, index ∈ (next.slots rank).keys) := by
    intro rank
    obtain ⟨-, -, hsame⟩ | ⟨-, upstream, index, -, htake, -, hslots⟩ := hturn.slot
    · rw [hsame]
      exact ⟨h.pools rank, fun _ h => h⟩
    rw [hslots]
    by_cases hrank : rank = op.rank
    · subst hrank
      rw [Function.update_self]
      refine ⟨?_, fun index' hindex' => Dict.mem_keys_set.mpr (.inr hindex')⟩
      obtain ⟨-, rfl⟩ | ⟨choice, -, rfl, havailable⟩ := takeSlot_ok htake
      · have hfresh : (a.slots op.rank).length ∉ (a.slots op.rank).keys := by
          rw [h.pools, List.mem_range]
          exact lt_irrefl _
        rw [Dict.set_of_notMem hfresh, List.length_append, List.length_singleton, List.range_succ, ← h.pools]
        simp [Dict.keys]
      · have hkey : choice.index ∈ (a.slots op.rank).keys :=
          Dict.mem_keys.mpr ⟨choice.prior, havailable.pooled⟩
        have hkeys : ((a.slots op.rank).set choice.index op.output).keys = (a.slots op.rank).keys := by
          rw [Dict.keys_set, if_pos hkey]
        have hlength : ((a.slots op.rank).set choice.index op.output).length = (a.slots op.rank).length := by
          have := congrArg List.length hkeys
          rwa [Dict.keys, Dict.keys, List.length_map, List.length_map] at this
        rw [hkeys, hlength, h.pools]
    · rw [Function.update_of_ne hrank]
      exact ⟨h.pools rank, fun _ h => h⟩
  refine ⟨?_, ?_, ?_, ?_, ?_, ?_, fun rank => (hslots rank).1, ?_⟩
  · rw [hturn.instructions]
    exact List.rel_append h.instructions (.cons ⟨_, Finset.subset_union_left, rfl⟩ .nil)
  · rw [hturn.instructions]
    exact h.waits.snoc hwaits
  · intro w hw
    rw [hturn.instructions, hancestors]
    obtain hw | hw := List.mem_append.mp hw
    · obtain ⟨known, hknown, hspec⟩ := h.ancestors w hw
      refine ⟨known, by rw [Dict.get?_set_ne _ _ (hother w hw).symm, hknown], fun x => ?_⟩
      rw [hspec, transGen_waits_snoc h.waits hnew]
      rw [h.ids]
      exact List.mem_map_of_mem hw
    · obtain rfl := List.mem_singleton.mp hw
      refine ⟨all, Dict.get?_set_self _ _ _, fun x => ?_⟩
      have hnewSpec := transGen_waits_new (p := x) h.waits hnew hwaits
      rw [show (w.waitingFor taken).operationId = w.operationId from rfl] at hnewSpec
      rw [hnewSpec, (withAncestors_ok hall).2]
      refine or_congr_right (exists_congr fun key => and_congr_right fun hkey => ?_)
      obtain ⟨q, hq, rfl⟩ := List.mem_map.mp (h.waits_done hturn hkey)
      obtain ⟨known, hknown, hspec⟩ := h.ancestors q hq
      rw [hknown, ← hspec]
      simp
  · intro key known hknown
    rw [hancestors, Dict.get?_set] at hknown
    rw [List.map_append, List.mem_append]
    split at hknown
    next heq => exact .inr (List.mem_singleton.mpr heq.symm)
    next => exact .inl (h.known key known hknown)
  · intro w hw
    obtain hw | hw := List.mem_append.mp hw
    · obtain ⟨address, hget, hcases⟩ := h.addresses w hw
      refine ⟨address, (haddress w hw).trans hget, hcases.imp_right ?_⟩
      rintro ⟨hnone, index, hindex, heq⟩
      exact ⟨hnone, index, (hslots w.rank).2 index hindex, heq⟩
    · obtain rfl := List.mem_singleton.mp hw
      have hbefore : a.addresses.get? w.output = b.addresses.get? w.output :=
        h.others _ fun v hv => hready.output_ne hsplit hv
      refine ⟨address, by rw [hturn.addresses, if_pos rfl], ?_⟩
      rw [Binding.address?, ← hbefore]
      obtain ⟨hbound, -⟩ | ⟨hnone, upstream, index, -, -, rfl, hslots⟩ := hturn.slot
      · exact .inl hbound
      · refine .inr ⟨hnone, index, ?_, rfl⟩
        rw [hslots, Function.update_self]
        exact Dict.mem_keys_set.mpr (.inl rfl)
  · intro key hkey
    rw [hturn.addresses, if_neg (hkey op (by simp)), h.others key fun w hw => hkey w (by simp [hw])]
  · intro rank index key hget
    have hold : (a.slots rank).get? index = some key →
        ∃ w ∈ done ++ [op], w.output = key ∧ next.addresses.get? key = some ⟨rank, .s, index⟩ := by
      intro hget
      obtain ⟨w, hw, rfl, hat⟩ := h.held rank index key hget
      exact ⟨w, List.mem_append_left _ hw, rfl, (haddress w hw).trans hat⟩
    obtain ⟨-, -, hsame⟩ | ⟨-, upstream, index', -, -, rfl, hnext⟩ := hturn.slot
    · exact hold (hsame ▸ hget)
    rw [hnext] at hget
    by_cases hrank : rank = op.rank
    · subst hrank
      rw [Function.update_self, Dict.get?_set] at hget
      split at hget
      next heq =>
        obtain rfl := Option.some.inj hget
        exact ⟨op, by simp, rfl, by rw [hturn.addresses, if_pos rfl, heq]⟩
      next => exact hold hget
    · rw [Function.update_of_ne hrank] at hget
      exact hold hget

/-- The loop runs its turns. -/
theorem SlotsFilled.run (hready : Readied inputs b ordered) (hsplit : ordered = done ++ rest)
    (hrun : giveSlots inputs b ordered done = .ok a) : SlotsFilled b done a := by
  induction done using List.reverseRecOn generalizing rest a with
  | nil =>
    obtain rfl : (⟨b.addresses, [], fun _ => [], [], []⟩ : Allocation) = a := by simpa [giveSlots] using hrun
    exact slotsFilled_start b
  | append_singleton done op ih =>
    obtain ⟨before, hbefore, hturn⟩ := Checked.foldlM_snoc_ok.mp hrun
    rw [List.append_assoc] at hsplit
    obtain ⟨address, taken, hturn⟩ := allocate_turn hturn
    exact (ih hsplit hbefore).turn hready hsplit hturn

/-- Later turns leave alone what was given before. -/
theorem giveSlots_later {more : List Instruction} {a' : Allocation}
    (hrun : more.foldlM (allocate b capacity position) a = .ok a') :
    (∀ i ∈ a.instructions, i ∈ a'.instructions) ∧
      (∀ key, (∀ op ∈ more, op.output ≠ key) → a'.addresses.get? key = a.addresses.get? key) ∧
      ∀ key, key ∉ more.map (·.operationId) → a'.ancestors.get? key = a.ancestors.get? key := by
  induction more using List.reverseRecOn generalizing a' with
  | nil =>
    obtain rfl : a = a' := by simpa using hrun
    exact ⟨fun _ h => h, fun _ _ => rfl, fun _ _ => rfl⟩
  | append_singleton more op ih =>
    obtain ⟨before, hbefore, hturn⟩ := Checked.foldlM_snoc_ok.mp hrun
    obtain ⟨address, taken, hturn⟩ := allocate_turn hturn
    obtain ⟨hinstructions, haddresses, hancestors⟩ := ih hbefore
    refine ⟨fun i hi => ?_, fun key hkey => ?_, fun key hkey => ?_⟩
    · rw [hturn.instructions]
      exact List.mem_append_left _ (hinstructions i hi)
    · rw [hturn.addresses, if_neg (hkey op (by simp)), haddresses key fun w hw => hkey w (by simp [hw])]
    · obtain ⟨all, -, hset⟩ := hturn.ancestors
      rw [List.map_append, List.mem_append, not_or] at hkey
      rw [hset, Dict.get?_set_ne _ _ (by simpa [eq_comm] using hkey.2), hancestors key hkey.1]

end Filled

/-! ## Slots are handed on -/

/-- The second instruction comes after the first, and after all others that read what the first
made. -/
def HandedOver (b : Binding) (before : String → String → Prop) (w w' : Instruction) : Prop :=
  before w.operationId w'.operationId ∧
    ∀ reader ∈ readersOf b.instructions w.output, reader = w'.operationId ∨ before reader w'.operationId

/-- **Slots are handed on** from each owner to the next. -/
structure SlotsHanded (b : Binding) (before : String → String → Prop) (done : List Instruction)
    (a : Allocation) : Prop where
  latest : ∀ rank index key, (a.slots rank).get? index = some key → ∀ w ∈ done, w.output = key →
    ∀ w' ∈ done, w' ≠ w → a.addresses.get? w'.output = some ⟨rank, .s, index⟩ → HandedOver b before w' w
  pairs : ∀ w ∈ done, ∀ w' ∈ done, w ≠ w' → ∀ rank index, a.addresses.get? w.output = some ⟨rank, .s, index⟩ →
    a.addresses.get? w'.output = some ⟨rank, .s, index⟩ → HandedOver b before w w' ∨ HandedOver b before w' w

section Handed
variable {inputs : ResolvedInput} {b : Binding} {ordered done rest : List Instruction} {a next : Allocation}
  {op : Instruction} {capacity : ℕ} {position : String → ℕ} {address : Address} {taken : Option SlotChoice}
  {before : String → String → Prop}

theorem HandedOver.trans {w w' w'' : Instruction} (htrans : ∀ p q x, before p q → before q x → before p x)
    (h : HandedOver b before w w') (h' : HandedOver b before w' w'') : HandedOver b before w w'' := by
  refine ⟨htrans _ _ _ h.1 h'.1, fun reader hreader => ?_⟩
  obtain rfl | hbefore := h.2 reader hreader
  · exact .inr h'.1
  · exact .inr (htrans _ _ _ hbefore h'.1)

/-- **One turn hands a slot on**, if it comes after the owner and its readers. -/
theorem SlotsHanded.turn (hready : Readied inputs b ordered) (hsplit : ordered = done ++ op :: rest)
    (htrans : ∀ p q x, before p q → before q x → before p x) (hfilled : SlotsFilled b done a)
    (h : SlotsHanded b before done a) (hturn : SlotTurn b capacity position a op next address taken)
    (hstep : ∀ choice, taken = some choice → Available b position (a.slots op.rank) op choice →
      ∀ w ∈ done, w.output = choice.prior → HandedOver b before w op) :
    SlotsHanded b before (done ++ [op]) next := by
  have haddress : ∀ w ∈ done, next.addresses.get? w.output = a.addresses.get? w.output := by
    intro w hw
    rw [hturn.addresses, if_neg (hready.output_ne hsplit hw).symm]
  have hown : next.addresses.get? op.output = some address := by rw [hturn.addresses, if_pos rfl]
  have hmem : ∀ {w}, w ∈ done ++ [op] → w ≠ op → w ∈ done := by
    intro w hw hne
    obtain hw | hw := List.mem_append.mp hw
    · exact hw
    · exact absurd (List.mem_singleton.mp hw) hne
  have hbuffer : (b.directOutputs.get? op.output).or (a.addresses.get? op.output) = some address →
      address.buffer = .o := by
    intro hbound
    rw [hfilled.others _ fun v hv => hready.output_ne hsplit hv] at hbound
    exact hready.bound op (by simp [hsplit]) address hbound
  -- all who had the slot before
  have hprevious : ∀ w ∈ done, ∀ rank index, a.addresses.get? w.output = some ⟨rank, .s, index⟩ →
      address = ⟨rank, .s, index⟩ → HandedOver b before w op := by
    rintro w hw rank index hw' haddr
    obtain ⟨hbound, -⟩ | ⟨-, upstream, index', -, htake, rfl, -⟩ := hturn.slot
    · have houtput := hbuffer hbound
      rw [haddr] at houtput
      cases houtput
    obtain ⟨rfl, -, rfl⟩ := Address.mk.inj haddr
    obtain ⟨-, rfl⟩ | ⟨choice, rfl, rfl, havailable⟩ := takeSlot_ok htake
    · -- a slot that nobody had
      obtain ⟨found, hfound, hbound | ⟨-, index, hindex, hat⟩⟩ := hfilled.addresses w hw
      · rw [hw'] at hfound
        have houtput := hready.bound w (by simp [hsplit, hw]) found hbound
        rw [← Option.some.inj hfound] at houtput
        cases houtput
      · rw [hw'] at hfound
        obtain ⟨hrank, -, hlength⟩ := Address.mk.inj ((Option.some.inj hfound).trans hat)
        rw [← hrank, hfilled.pools, List.mem_range, ← hlength] at hindex
        exact absurd hindex (lt_irrefl _)
    · have hdistinct : (a.slots op.rank).Distinct := by
        rw [Dict.Distinct, hfilled.pools]
        exact List.nodup_range
      have hget := Dict.get?_of_mem hdistinct havailable.pooled
      obtain ⟨owner, howner, hprior, -⟩ := hfilled.held _ _ _ hget
      have hlast := hstep choice rfl havailable owner howner hprior
      by_cases hsame : w = owner
      · exact hsame ▸ hlast
      · exact (h.latest _ _ _ hget owner howner hprior w hw hsame hw').trans htrans hlast
  constructor
  · intro rank index key hget w hw hkey w' hw' hne hat
    by_cases hopw : w = op
    · subst hopw
      have hw' := hmem hw' hne
      rw [haddress w' hw'] at hat
      refine hprevious w' hw' rank index hat ?_
      -- the slot that holds the output of the instruction is its own
      subst hkey
      obtain ⟨-, -, hsame⟩ | ⟨-, upstream, index', -, -, rfl, hnext⟩ := hturn.slot
      · rw [hsame] at hget
        obtain ⟨v, hv, heq, -⟩ := hfilled.held _ _ _ hget
        exact absurd heq (hready.output_ne hsplit hv)
      rw [hnext] at hget
      by_cases hrank : rank = w.rank
      · subst hrank
        rw [Function.update_self, Dict.get?_set] at hget
        split at hget
        next heq => rw [heq]
        next =>
          obtain ⟨v, hv, heq, -⟩ := hfilled.held _ _ _ hget
          exact absurd heq (hready.output_ne hsplit hv)
      · rw [Function.update_of_ne hrank] at hget
        obtain ⟨v, hv, heq, -⟩ := hfilled.held _ _ _ hget
        exact absurd heq (hready.output_ne hsplit hv)
    have hwdone := hmem hw hopw
    have hold : (a.slots rank).get? index = some key := by
      obtain ⟨-, -, hsame⟩ | ⟨-, upstream, index', -, -, rfl, hnext⟩ := hturn.slot
      · rwa [hsame] at hget
      rw [hnext] at hget
      by_cases hrank : rank = op.rank
      · subst hrank
        rw [Function.update_self, Dict.get?_set] at hget
        split at hget
        next => exact absurd (hkey.trans (Option.some.inj hget).symm) (hready.output_ne hsplit hwdone)
        next => exact hget
      · rwa [Function.update_of_ne hrank] at hget
    by_cases hopw' : w' = op
    · -- the instruction did not take this slot
      subst hopw'
      have hat := Option.some.inj (hown.symm.trans hat)
      obtain ⟨hbound, -⟩ | ⟨-, upstream, index', -, -, rfl, hnext⟩ := hturn.slot
      · have houtput := hbuffer hbound
        rw [hat] at houtput
        cases houtput
      · obtain ⟨rfl, -, rfl⟩ := Address.mk.inj hat
        rw [hnext, Function.update_self, Dict.get?_set_self] at hget
        exact absurd (hkey.trans (Option.some.inj hget).symm) (hready.output_ne hsplit hwdone)
    · have hw' := hmem hw' hopw'
      rw [haddress w' hw'] at hat
      exact h.latest rank index key hold w hwdone hkey w' hw' hne hat
  · intro w hw w' hw' hne rank index hat hat'
    by_cases hopw : w = op
    · subst hopw
      have hw' := hmem hw' (Ne.symm hne)
      rw [haddress w' hw'] at hat'
      exact .inr (hprevious w' hw' rank index hat' (Option.some.inj (hown.symm.trans hat)))
    · have hwdone := hmem hw hopw
      rw [haddress w hwdone] at hat
      by_cases hopw' : w' = op
      · subst hopw'
        exact .inl (hprevious w hwdone rank index hat (Option.some.inj (hown.symm.trans hat')))
      · have hwdone' := hmem hw' hopw'
        rw [haddress w' hwdone'] at hat'
        exact h.pairs w hwdone w' hwdone' hne rank index hat hat'

/-- **The run of the loop hands slots on**, in any order of events that every turn respects. -/
theorem SlotsHanded.run (hready : Readied inputs b ordered) (hsplit : ordered = done ++ rest)
    (htrans : ∀ p q x, before p q → before q x → before p x)
    (hstep : ∀ front op back, ordered = front ++ op :: back → op ∈ done → ∀ a next address taken,
      giveSlots inputs b ordered front = .ok a →
      allocate b (inputs.scratchBytesPerRank / inputs.sliceSizeBytes) (positionIn ordered) a op = .ok next →
      SlotTurn b (inputs.scratchBytesPerRank / inputs.sliceSizeBytes) (positionIn ordered) a op next address taken →
      ∀ choice, taken = some choice → Available b (positionIn ordered) (a.slots op.rank) op choice →
        ∀ w ∈ front, w.output = choice.prior → HandedOver b before w op)
    (hrun : giveSlots inputs b ordered done = .ok a) : SlotsHanded b before done a := by
  induction done using List.reverseRecOn generalizing rest a with
  | nil =>
    obtain rfl : (⟨b.addresses, [], fun _ => [], [], []⟩ : Allocation) = a := by simpa [giveSlots] using hrun
    exact ⟨by simp, by simp⟩
  | append_singleton done op ih =>
    obtain ⟨mid, hmid, hallocate⟩ := Checked.foldlM_snoc_ok.mp hrun
    rw [List.append_assoc] at hsplit
    obtain ⟨address, taken, hturn⟩ := allocate_turn hallocate
    exact (ih hsplit (fun front x back hx hmem => hstep front x back hx (List.mem_append_left _ hmem)) hmid).turn
      hready hsplit htrans (SlotsFilled.run hready hsplit hmid) hturn
      (hstep done op rest hsplit (by simp) mid a address taken hmid hallocate hturn)

end Handed

end VeriCCL
