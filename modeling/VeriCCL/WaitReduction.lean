import VeriCCL.LowerProgram

/-! # Wait reduction loses no order

`lower_program` drops a wait when its bit is already covered.  The masks are sound: a
bit in the mask of an endpoint, or of a block, stands for an endpoint of the rank that
reaches it through block order and waits (`Lowering.Inv`).  So an endpoint whose wait
was dropped is still an ancestor, and in the finished program the endpoints of each rank
keep every dependency of the plan.

The argument needs that an instruction has at most one endpoint per rank, and that
instructions have different identities: the tables are keyed by operation and rank. -/
namespace VeriCCL

/-- Operation and rank of a step. -/
def StepId.owner : StepId → String × ℕ
  | .nop operation rank _ => (operation, rank)
  | .endpoint operation _ rank => (operation, rank)

namespace Lowering

/-- The steps placed so far on a block. -/
def stepsAt (s : Lowering) (key : BlockKey) : List RawStep := (s.blocks.get? key).getD []

/-- Block order and waits, among steps. -/
inductive RawEdge (s : Lowering) : StepId → StepId → Prop where
  | next {key : BlockKey} {l r : List RawStep} {a b : RawStep}
      (steps : s.stepsAt key = l ++ a :: b :: r) : RawEdge s a.id b.id
  | wait {a t : StepId} (target : s.targets.get? a = some t) : RawEdge s t a

/-- A working step of an operation on a rank. -/
def Placed (s : Lowering) (operation : String) (rank : ℕ) (id : StepId) : Prop :=
  ∃ key, key.rank = rank ∧ ∃ step ∈ s.stepsAt key, step.id = id ∧ step.operationId = operation ∧
    step.kind ≠ .nop

/-- **The masks are sound**, and the tables agree with the blocks. -/
structure Inv (s : Lowering) : Prop where
  distinct : s.blocks.Distinct
  locations_distinct : s.locations.Distinct
  nodup : ∀ key, ((s.stepsAt key).map (·.id)).Nodup
  apart : ∀ key key' a b, a ∈ s.stepsAt key → b ∈ s.stepsAt key' → a.id = b.id → key = key'
  owned : ∀ key, ∀ a ∈ s.stepsAt key, a.id.owner ∈ s.locations.keys
  ranked : ∀ key, ∀ a ∈ s.stepsAt key, a.id.owner.2 = key.rank
  located : ∀ o r id, s.locations.get? (o, r) = some id ↔ s.Placed o r id
  sequence_lt : ∀ o r id, s.locations.get? (o, r) = some id → s.sequence id < s.rankSequence r
  sequence_inj : ∀ o o' r id id', s.locations.get? (o, r) = some id →
    s.locations.get? (o', r) = some id' → s.sequence id = s.sequence id' → id = id'
  own_bit : ∀ o r id, s.locations.get? (o, r) = some id → s.sequence id ∈ s.endpointAncestors id
  /-- The bits of an endpoint are endpoints that reach it. -/
  ancestors : ∀ o r id, s.locations.get? (o, r) = some id → ∀ m ∈ s.endpointAncestors id,
    ∃ o' id', s.locations.get? (o', r) = some id' ∧ s.sequence id' = m ∧
      Relation.ReflTransGen s.RawEdge id' id
  /-- The bits of a block are endpoints that reach its last step. -/
  block_ancestors : ∀ key, ∀ m ∈ s.blockAncestors key, ∃ o' id' steps last,
    s.locations.get? (o', key.rank) = some id' ∧ s.sequence id' = m ∧
      s.stepsAt key = steps ++ [last] ∧ Relation.ReflTransGen s.RawEdge id' last.id
  /-- A wait is for an endpoint of the rank, and for an earlier step if it is of the
  same block. -/
  waits : ∀ a t, s.targets.get? a = some t → ∃ key l step r, s.stepsAt key = l ++ step :: r ∧
    step.id = a ∧ (∃ o, s.locations.get? (o, key.rank) = some t) ∧
      ∀ st ∈ s.stepsAt key, st.id = t → st ∈ l

/-! ## Selecting waits -/

section Select
variable {sequence : StepId → ℕ} {ancestors : StepId → Finset ℕ}

theorem selectWaits_cons (covered : Finset ℕ) (target : StepId) (rest : List StepId) :
    selectWaits sequence ancestors covered (target :: rest) =
      if sequence target ∈ covered then selectWaits sequence ancestors covered rest
      else (target :: (selectWaits sequence ancestors (covered ∪ ancestors target) rest).1,
        (selectWaits sequence ancestors (covered ∪ ancestors target) rest).2) := rfl

theorem subset_selectWaits (l : List StepId) (covered : Finset ℕ) :
    covered ⊆ (selectWaits sequence ancestors covered l).2 := by
  induction l generalizing covered with
  | nil => exact Finset.Subset.refl _
  | cons t l ih =>
    rw [selectWaits_cons]
    split
    · exact ih covered
    · exact Finset.subset_union_left.trans (ih _)

/-- **Every wanted endpoint is covered in the end.** -/
theorem mem_selectWaits {l : List StepId} (hself : ∀ t ∈ l, sequence t ∈ ancestors t)
    (covered : Finset ℕ) : ∀ t ∈ l, sequence t ∈ (selectWaits sequence ancestors covered l).2 := by
  induction l generalizing covered with
  | nil => simp
  | cons t l ih =>
    have hrest := ih fun u hu => hself u (List.mem_cons_of_mem _ hu)
    intro u hu
    rw [selectWaits_cons]
    split
    · rename_i hin
      rcases List.mem_cons.mp hu with rfl | hu
      · exact subset_selectWaits l covered hin
      · exact hrest covered u hu
    · rcases List.mem_cons.mp hu with rfl | hu
      · exact subset_selectWaits l _ (Finset.mem_union_right _ (hself u List.mem_cons_self))
      · exact hrest _ u hu

/-- What is covered was covered before or comes with a wait that was kept. -/
theorem selectWaits_cases (l : List StepId) (covered : Finset ℕ) {m : ℕ}
    (hm : m ∈ (selectWaits sequence ancestors covered l).2) :
    m ∈ covered ∨ ∃ w ∈ (selectWaits sequence ancestors covered l).1, m ∈ ancestors w := by
  induction l generalizing covered with
  | nil => exact Or.inl hm
  | cons t l ih =>
    rw [selectWaits_cons] at hm ⊢
    split at hm
    · rename_i hin
      rw [if_pos hin]
      exact ih covered hm
    · rename_i hout
      rw [if_neg hout]
      rcases ih _ hm with h | ⟨w, hw, hmw⟩
      · rcases Finset.mem_union.mp h with h | h
        · exact Or.inl h
        · exact Or.inr ⟨t, List.mem_cons_self, h⟩
      · exact Or.inr ⟨w, List.mem_cons_of_mem _ hw, hmw⟩

theorem selectWaits_subset (l : List StepId) (covered : Finset ℕ) :
    ∀ w ∈ (selectWaits sequence ancestors covered l).1, w ∈ l := by
  induction l generalizing covered with
  | nil => exact fun w hw => hw
  | cons t l ih =>
    rw [selectWaits_cons]
    split
    · exact fun w hw => List.mem_cons_of_mem _ (ih covered w hw)
    · intro w hw
      rcases List.mem_cons.mp hw with rfl | hw
      · exact List.mem_cons_self
      · exact List.mem_cons_of_mem _ (ih _ w hw)

end Select

/-! ## The steps of one endpoint -/

section Steps
variable {op : Instruction} {spec : EndpointSpec} {waits : List StepId}

theorem nopWaits_keys_nodup (rank : ℕ) : ((nopWaits op rank waits).map (·.1)).Nodup := by
  have hkeys : (nopWaits op rank waits).map (·.1) =
      (List.range waits.dropLast.length).map fun i => StepId.nop op.operationId rank i := by
    unfold nopWaits
    rw [List.map_map, List.range_eq_range', ← List.zipIdx_map_snd 0 waits.dropLast, List.map_map]
    rfl
  rw [hkeys]
  refine List.Nodup.map ?_ List.nodup_range
  intro i j hij
  exact (StepId.nop.inj hij).2.2

theorem endpointSteps_ids : (endpointSteps op spec waits).map (·.id) =
    (nopWaits op spec.rank waits).map (·.1) ++ [.endpoint op.operationId spec.side spec.rank] := by
  simp [endpointSteps, endpointStep, Function.comp_def]

theorem endpointSteps_nodup : ((endpointSteps op spec waits).map (·.id)).Nodup := by
  rw [endpointSteps_ids, List.nodup_append]
  refine ⟨nopWaits_keys_nodup _, List.nodup_singleton _, ?_⟩
  rintro a ha b hb rfl
  obtain rfl := List.mem_singleton.mp hb
  obtain ⟨e, he, heq⟩ := List.mem_map.mp ha
  obtain ⟨w, -, rfl⟩ := List.mem_map.mp he
  simp at heq

theorem endpointSteps_owner {step : RawStep} (h : step ∈ endpointSteps op spec waits) :
    step.id.owner = (op.operationId, spec.rank) := by
  have hid : step.id ∈ (endpointSteps op spec waits).map (·.id) := List.mem_map.mpr ⟨step, h, rfl⟩
  rw [endpointSteps_ids] at hid
  rcases List.mem_append.mp hid with hid | hid
  · obtain ⟨e, he, heq⟩ := List.mem_map.mp hid
    obtain ⟨w, -, rfl⟩ := List.mem_map.mp he
    rw [← heq]
    rfl
  · rw [List.mem_singleton.mp hid]
    rfl

/-- The working step among them is the endpoint. -/
theorem endpointSteps_work {step : RawStep} (h : step ∈ endpointSteps op spec waits)
    (hk : step.kind ≠ .nop) : step.id = .endpoint op.operationId spec.side spec.rank ∧
      step.operationId = op.operationId := by
  rcases List.mem_append.mp h with h | h
  · obtain ⟨e, -, rfl⟩ := List.mem_map.mp h
    simp at hk
  · rw [List.mem_singleton.mp h]
    exact ⟨rfl, rfl⟩

/-- The steps that carry waits are among the steps. -/
theorem stepWaits_mem {e : StepId × StepId} (h : e ∈ stepWaits op spec waits) :
    e.1 ∈ (endpointSteps op spec waits).map (·.id) ∧ e.2 ∈ waits := by
  rw [endpointSteps_ids]
  rcases List.mem_append.mp h with h | h
  · refine ⟨List.mem_append_left _ (List.mem_map.mpr ⟨e, h, rfl⟩), ?_⟩
    obtain ⟨⟨w, i⟩, hw, rfl⟩ := List.mem_map.mp h
    exact List.dropLast_subset _ (List.fst_mem_of_mem_zipIdx hw)
  · obtain ⟨t, ht, rfl⟩ := by simpa using h
    exact ⟨List.mem_append_right _ (List.mem_singleton_self _), List.mem_of_getLast? ht⟩

theorem stepWaits_keys_nodup : ((stepWaits op spec waits).map (·.1)).Nodup := by
  have hsub : ((stepWaits op spec waits).map (·.1)).Sublist
      ((endpointSteps op spec waits).map (·.id)) := by
    rw [endpointSteps_ids, stepWaits, List.map_append]
    refine (List.Sublist.refl _).append ?_
    cases waits.getLast? <;> simp
  exact endpointSteps_nodup.sublist hsub

/-- Every wait that was kept is carried by a step. -/
theorem exists_stepWaits {w : StepId} (h : w ∈ waits) :
    ∃ a, (a, w) ∈ stepWaits op spec waits := by
  rcases List.eq_nil_or_concat waits with rfl | ⟨init, last, rfl⟩
  · simp at h
  · rw [List.concat_eq_append] at h ⊢
    rcases List.mem_append.mp h with h | h
    · obtain ⟨i, hi⟩ := List.mem_iff_getElem?.mp h
      refine ⟨.nop op.operationId spec.rank i, List.mem_append_left _ (List.mem_map.mpr ?_)⟩
      exact ⟨(w, i), by simpa [List.mem_zipIdx_iff_getElem?] using hi, rfl⟩
    · obtain rfl := List.mem_singleton.mp h
      exact ⟨.endpoint op.operationId spec.side spec.rank, List.mem_append_right _ (by simp)⟩

end Steps

/-! ## One endpoint -/

theorem inv_start : Inv start where
  distinct := Dict.distinct_nil
  locations_distinct := Dict.distinct_nil
  nodup := by simp [stepsAt, start]
  apart := by simp [stepsAt, start]
  owned := by simp [stepsAt, start]
  ranked := by simp [stepsAt, start]
  located := by simp [Placed, stepsAt, start]
  sequence_lt := by simp [start]
  sequence_inj := by simp [start]
  own_bit := by simp [start]
  ancestors := by simp [start]
  block_ancestors := by simp [start]
  waits := by simp [start]

/-- Later steps of a block come after earlier ones. -/
theorem chain {s : Lowering} {key : BlockKey} {r : List RawStep} {b : RawStep} (m l : List RawStep)
    (a : RawStep) (h : s.stepsAt key = l ++ a :: (m ++ b :: r)) :
    Relation.TransGen s.RawEdge a.id b.id := by
  induction m generalizing l a with
  | nil => exact .single (.next h)
  | cons x m ih =>
    refine .head (.next h) (ih (l ++ [a]) x ?_)
    rw [h]
    simp

/-- What later turns keep: the order there is, and where the endpoints are. -/
structure Grows (s s' : Lowering) : Prop where
  edges : ∀ a b, s.RawEdge a b → s'.RawEdge a b
  locations : ∀ k id, s.locations.get? k = some id → s'.locations.get? k = some id

theorem Grows.refl (s : Lowering) : Grows s s := ⟨fun _ _ h => h, fun _ _ h => h⟩

theorem Grows.trans {s t u : Lowering} (h : Grows s t) (h' : Grows t u) : Grows s u :=
  ⟨fun a b he => h'.edges a b (h.edges a b he), fun k id hk => h'.locations k id (h.locations k id hk)⟩

theorem Grows.reach {s s' : Lowering} (h : Grows s s') {a b : StepId}
    (hab : Relation.ReflTransGen s.RawEdge a b) : Relation.ReflTransGen s'.RawEdge a b :=
  hab.lift id h.edges

theorem Grows.reach' {s s' : Lowering} (h : Grows s s') {a b : StepId}
    (hab : Relation.TransGen s.RawEdge a b) : Relation.TransGen s'.RawEdge a b :=
  hab.lift id h.edges

section Endpoint
variable {layout : Layout} {op : Instruction} {wanted : ℕ → List StepId} {s : Lowering}
  {spec : EndpointSpec}

theorem blockKey_rank : (blockKey layout spec).rank = spec.rank := rfl

theorem stepsAt_lowerEndpoint (key : BlockKey) :
    (lowerEndpoint layout op wanted s spec).stepsAt key =
      if blockKey layout spec = key then
        s.stepsAt key ++ endpointSteps op spec (keptWaits layout wanted s spec).1
      else s.stepsAt key := by
  show (Dict.get? (Dict.set _ _ _) key).getD [] = _
  rw [Dict.get?_set]
  split
  · rename_i hkey
    subst hkey
    rfl
  · rfl

theorem mem_stepsAt_lowerEndpoint {key : BlockKey} {a : RawStep} :
    a ∈ (lowerEndpoint layout op wanted s spec).stepsAt key ↔ a ∈ s.stepsAt key ∨
      (key = blockKey layout spec ∧
        a ∈ endpointSteps op spec (keptWaits layout wanted s spec).1) := by
  rw [stepsAt_lowerEndpoint]
  split
  · rename_i hkey
    rw [List.mem_append]
    simp [hkey]
  · rename_i hkey
    simp [Ne.symm hkey]

theorem locations_lowerEndpoint (k : String × ℕ) :
    (lowerEndpoint layout op wanted s spec).locations.get? k =
      if (op.operationId, spec.rank) = k then
        some (.endpoint op.operationId spec.side spec.rank) else s.locations.get? k :=
  Dict.get?_set _ _ _ _

theorem targets_lowerEndpoint : (lowerEndpoint layout op wanted s spec).targets =
    (stepWaits op spec (keptWaits layout wanted s spec).1).foldl (fun d e => d.set e.1 e.2)
      s.targets := rfl

/-- An instruction that has no endpoint on the rank yet. -/
structure Fresh (s : Lowering) (op : Instruction) (wanted : ℕ → List StepId) (spec : EndpointSpec) :
    Prop where
  unused : s.locations.get? (op.operationId, spec.rank) = none
  wanted : ∀ t ∈ wanted spec.rank, ∃ o, s.locations.get? (o, spec.rank) = some t
  works : spec.kind ≠ .nop

section Turn
variable (hinv : s.Inv) (hnew : s.Fresh op wanted spec)
include hinv hnew

/-- A step there is belongs to another operation, or to another rank. -/
theorem Inv.owner_ne {key : BlockKey} {a : RawStep} (ha : a ∈ s.stepsAt key) :
    a.id.owner ≠ (op.operationId, spec.rank) := by
  intro howner
  have hkey := hinv.owned key a ha
  rw [howner] at hkey
  exact Dict.get?_eq_none.mp hnew.unused hkey

theorem Inv.located_ne {o : String} {r : ℕ} {id : StepId} (h : s.locations.get? (o, r) = some id) :
    id.owner ≠ (op.operationId, spec.rank) := by
  obtain ⟨key, -, a, ha, rfl, -⟩ := (hinv.located o r id).mp h
  exact hinv.owner_ne hnew ha

theorem Inv.located_ne_new {o : String} {r : ℕ} {id : StepId}
    (h : s.locations.get? (o, r) = some id) : id ≠ .endpoint op.operationId spec.side spec.rank := by
  rintro rfl
  exact hinv.located_ne hnew h rfl

theorem Inv.target_old {a t : StepId} (h : s.targets.get? a = some t) :
    (lowerEndpoint layout op wanted s spec).targets.get? a = some t := by
  rw [targets_lowerEndpoint, Dict.get?_foldl_set_of_notMem, h]
  intro hmem
  obtain ⟨e, he, rfl⟩ := List.mem_map.mp hmem
  obtain ⟨step, hstep, hid⟩ := List.mem_map.mp (stepWaits_mem he).1
  obtain ⟨key, l, old, r, hsteps, hold, -⟩ := hinv.waits _ _ h
  have hmem : old ∈ s.stepsAt key := by
    rw [hsteps]
    exact List.mem_append_right _ List.mem_cons_self
  apply hinv.owner_ne hnew hmem
  rw [hold, ← hid]
  exact endpointSteps_owner hstep

/-- Order and places are kept. -/
theorem Inv.grows (layout : Layout) : Grows s (lowerEndpoint layout op wanted s spec) where
  edges := by
    rintro _ _ (⟨hsteps⟩ | ⟨htarget⟩)
    · rename_i key l r a b
      by_cases hkey : blockKey layout spec = key
      · refine @RawEdge.next _ key l (r ++ endpointSteps op spec (keptWaits layout wanted s spec).1)
          a b ?_
        rw [stepsAt_lowerEndpoint, if_pos hkey, hsteps, List.append_assoc]
        rfl
      · refine @RawEdge.next _ key l r a b ?_
        rw [stepsAt_lowerEndpoint, if_neg hkey, hsteps]
    · exact .wait (hinv.target_old hnew htarget)
  locations := by
    intro k id hk
    rw [locations_lowerEndpoint, if_neg, hk]
    rintro rfl
    rw [hnew.unused] at hk
    cases hk

/-- **What is covered reaches the new endpoint.** -/
theorem Inv.covered_reach (layout : Layout) {m : ℕ} (hm : m ∈ (keptWaits layout wanted s spec).2) :
    ∃ o id, s.locations.get? (o, spec.rank) = some id ∧ s.sequence id = m ∧
      Relation.TransGen (lowerEndpoint layout op wanted s spec).RawEdge id
        (.endpoint op.operationId spec.side spec.rank) := by
  have hgrows := hinv.grows hnew layout
  have hblock : (lowerEndpoint layout op wanted s spec).stepsAt (blockKey layout spec) =
      s.stepsAt (blockKey layout spec) ++ endpointSteps op spec (keptWaits layout wanted s spec).1 := by
    rw [stepsAt_lowerEndpoint, if_pos rfl]
  have hcases : m ∈ s.blockAncestors (blockKey layout spec) ∨
      ∃ w ∈ (keptWaits layout wanted s spec).1, m ∈ s.endpointAncestors w := selectWaits_cases _ _ hm
  rcases hcases with hm | ⟨w, hw, hm⟩
  · -- through the block's own order
    obtain ⟨o, id, steps, last, hid, hseq, hsteps, hpath⟩ := hinv.block_ancestors _ m hm
    refine ⟨o, id, hid, hseq, .trans_right (hgrows.reach hpath) ?_⟩
    refine @chain _ (blockKey layout spec) [] (endpointStep op spec)
      ((nopWaits op spec.rank (keptWaits layout wanted s spec).1).map fun e =>
        ⟨e.1, op.operationId, .nop, none, none⟩) steps last ?_
    rw [hblock, hsteps, List.append_assoc]
    rfl
  · -- through a wait
    have hwanted : w ∈ wanted spec.rank :=
      (List.mem_insertionSort _).mp (selectWaits_subset _ _ w hw)
    obtain ⟨ow, how⟩ := hnew.wanted w hwanted
    obtain ⟨o, id, hid, hseq, hpath⟩ := hinv.ancestors _ _ _ how m hm
    refine ⟨o, id, hid, hseq, .trans_right (hgrows.reach hpath) ?_⟩
    obtain ⟨a, ha⟩ := exists_stepWaits hw
    have hedge : (lowerEndpoint layout op wanted s spec).RawEdge w a := by
      refine .wait ?_
      rw [targets_lowerEndpoint]
      exact Dict.get?_foldl_set_of_mem stepWaits_keys_nodup ha _
    obtain ⟨step, hstep, rfl⟩ := List.mem_map.mp (stepWaits_mem ha).1
    refine .head' hedge ?_
    rcases List.mem_append.mp hstep with hnop | hend
    · obtain ⟨l, r, hlr⟩ := List.append_of_mem hnop
      refine (@chain _ (blockKey layout spec) [] (endpointStep op spec) r
        (s.stepsAt (blockKey layout spec) ++ l) step ?_).to_reflTransGen
      rw [hblock, endpointSteps, hlr]
      simp
    · obtain rfl := List.mem_singleton.mp hend
      exact .refl

/-- The new endpoint comes after everything it must follow. -/
theorem Inv.wanted_reach (layout : Layout) {t : StepId} (ht : t ∈ wanted spec.rank) :
    Relation.TransGen (lowerEndpoint layout op wanted s spec).RawEdge t
      (.endpoint op.operationId spec.side spec.rank) := by
  obtain ⟨o, ho⟩ := hnew.wanted t ht
  have hself : ∀ u ∈ (wanted spec.rank).insertionSort (fun a b => s.sequence b ≤ s.sequence a),
      s.sequence u ∈ s.endpointAncestors u := by
    intro u hu
    obtain ⟨o', ho'⟩ := hnew.wanted u ((List.mem_insertionSort _).mp hu)
    exact hinv.own_bit _ _ _ ho'
  have hcovered := mem_selectWaits hself (s.blockAncestors (blockKey layout spec)) t
    ((List.mem_insertionSort _).mpr ht)
  obtain ⟨o', id, hid, hseq, hpath⟩ := hinv.covered_reach hnew layout hcovered
  obtain rfl := hinv.sequence_inj _ _ _ _ _ hid ho hseq
  exact hpath

omit hinv in
theorem placed_lowerEndpoint (layout : Layout) (o : String) (r : ℕ) (id : StepId) :
    (lowerEndpoint layout op wanted s spec).Placed o r id ↔ s.Placed o r id ∨
      (o = op.operationId ∧ r = spec.rank ∧ id = .endpoint op.operationId spec.side spec.rank) := by
  constructor
  · rintro ⟨key, hr, step, hstep, hid, ho, hk⟩
    rcases mem_stepsAt_lowerEndpoint.mp hstep with hold | ⟨hkey, hmine⟩
    · exact Or.inl ⟨key, hr, step, hold, hid, ho, hk⟩
    · obtain ⟨hid', ho'⟩ := endpointSteps_work hmine hk
      rw [hkey] at hr
      exact Or.inr ⟨ho.symm.trans ho', hr.symm, hid.symm.trans hid'⟩
  · rintro (⟨key, hr, step, hstep, hid, ho, hk⟩ | ⟨rfl, rfl, rfl⟩)
    · exact ⟨key, hr, step, mem_stepsAt_lowerEndpoint.mpr (Or.inl hstep), hid, ho, hk⟩
    · refine ⟨blockKey layout spec, rfl, endpointStep op spec,
        mem_stepsAt_lowerEndpoint.mpr (Or.inr ⟨rfl, ?_⟩), rfl, rfl, hnew.works⟩
      exact List.mem_append_right _ (List.mem_singleton_self _)

omit hinv hnew in
/-- Where an endpoint is after the turn. -/
theorem location_cases (layout : Layout) {o : String} {r : ℕ} {id : StepId}
    (h : (lowerEndpoint layout op wanted s spec).locations.get? (o, r) = some id) :
    s.locations.get? (o, r) = some id ∨
      (o = op.operationId ∧ r = spec.rank ∧ id = .endpoint op.operationId spec.side spec.rank) := by
  rw [locations_lowerEndpoint] at h
  split at h
  · rename_i hk
    obtain ⟨rfl, rfl⟩ := Prod.mk.inj hk
    exact Or.inr ⟨rfl, rfl, (Option.some.inj h).symm⟩
  · exact Or.inl h

theorem Inv.sequence_old (layout : Layout) {o : String} {r : ℕ} {id : StepId}
    (h : s.locations.get? (o, r) = some id) :
    (lowerEndpoint layout op wanted s spec).sequence id = s.sequence id :=
  Function.update_of_ne (hinv.located_ne_new hnew h) _ _

theorem Inv.ancestors_old (layout : Layout) {o : String} {r : ℕ} {id : StepId}
    (h : s.locations.get? (o, r) = some id) :
    (lowerEndpoint layout op wanted s spec).endpointAncestors id = s.endpointAncestors id :=
  Function.update_of_ne (hinv.located_ne_new hnew h) _ _

omit hinv hnew in
theorem sequence_new (layout : Layout) : (lowerEndpoint layout op wanted s spec).sequence
    (.endpoint op.operationId spec.side spec.rank) = s.rankSequence spec.rank :=
  Function.update_self _ _ _

omit hinv hnew in
theorem ancestors_new (layout : Layout) : (lowerEndpoint layout op wanted s spec).endpointAncestors
    (.endpoint op.operationId spec.side spec.rank) =
      insert (s.rankSequence spec.rank) (keptWaits layout wanted s spec).2 :=
  Function.update_self _ _ _

/-- The bits of the new mask. -/
theorem Inv.mask_reach (layout : Layout) {m : ℕ}
    (hm : m ∈ insert (s.rankSequence spec.rank) (keptWaits layout wanted s spec).2) :
    ∃ o id, (lowerEndpoint layout op wanted s spec).locations.get? (o, spec.rank) = some id ∧
      (lowerEndpoint layout op wanted s spec).sequence id = m ∧
      Relation.ReflTransGen (lowerEndpoint layout op wanted s spec).RawEdge id
        (.endpoint op.operationId spec.side spec.rank) := by
  rcases Finset.mem_insert.mp hm with rfl | hm
  · refine ⟨op.operationId, _, ?_, sequence_new layout, .refl⟩
    rw [locations_lowerEndpoint, if_pos rfl]
  · obtain ⟨o, id, hid, hseq, hpath⟩ := hinv.covered_reach hnew layout hm
    refine ⟨o, id, (hinv.grows hnew layout).locations _ _ hid, ?_, hpath.to_reflTransGen⟩
    rw [hinv.sequence_old hnew layout hid, hseq]

/-- **Placing an endpoint keeps the masks sound.** -/
theorem Inv.lowerEndpoint (layout : Layout) : (lowerEndpoint layout op wanted s spec).Inv where
  distinct := hinv.distinct.set _ _
  locations_distinct := hinv.locations_distinct.set _ _
  nodup := by
    intro key
    rw [stepsAt_lowerEndpoint]
    split
    · rw [List.map_append, List.nodup_append]
      refine ⟨hinv.nodup key, endpointSteps_nodup, ?_⟩
      intro _ hold _ hmine heq
      obtain ⟨a, ha, rfl⟩ := List.mem_map.mp hold
      obtain ⟨b, hb, rfl⟩ := List.mem_map.mp hmine
      exact hinv.owner_ne hnew ha (heq ▸ endpointSteps_owner hb)
    · exact hinv.nodup key
  apart := by
    intro key key' a b ha hb hab
    rcases mem_stepsAt_lowerEndpoint.mp ha with hold | ⟨hkey, hmine⟩ <;>
      rcases mem_stepsAt_lowerEndpoint.mp hb with hold' | ⟨hkey', hmine'⟩
    · exact hinv.apart key key' a b hold hold' hab
    · exact absurd (hab ▸ endpointSteps_owner hmine') (hinv.owner_ne hnew hold)
    · exact absurd (hab ▸ endpointSteps_owner hmine) (hinv.owner_ne hnew hold')
    · rw [hkey, hkey']
  owned := by
    intro key a ha
    rw [← Dict.get?_isSome]
    rcases mem_stepsAt_lowerEndpoint.mp ha with ha | ⟨-, ha⟩
    · obtain ⟨id, hid⟩ := Dict.get?_isSome.mpr (hinv.owned key a ha)
      exact ⟨id, (hinv.grows hnew layout).locations _ _ hid⟩
    · rw [endpointSteps_owner ha, locations_lowerEndpoint, if_pos rfl]
      exact ⟨_, rfl⟩
  ranked := by
    intro key a ha
    rcases mem_stepsAt_lowerEndpoint.mp ha with hold | ⟨hkey, hmine⟩
    · exact hinv.ranked key a hold
    · rw [endpointSteps_owner hmine, hkey]
      rfl
  located := by
    intro o r id
    rw [placed_lowerEndpoint hnew layout, ← hinv.located]
    constructor
    · exact location_cases layout
    · rintro (h | ⟨rfl, rfl, rfl⟩)
      · exact (hinv.grows hnew layout).locations _ _ h
      · rw [locations_lowerEndpoint, if_pos rfl]
  sequence_lt := by
    intro o r id h
    show _ < Function.update s.rankSequence spec.rank (s.rankSequence spec.rank + 1) r
    rcases location_cases layout h with h | ⟨rfl, rfl, rfl⟩
    · have hlt := hinv.sequence_lt o r id h
      rw [hinv.sequence_old hnew layout h, Function.update_apply]
      split
      · rename_i hr
        subst hr
        omega
      · exact hlt
    · rw [sequence_new, Function.update_self]
      omega
  sequence_inj := by
    intro o o' r id id' h h' heq
    rcases location_cases layout h with h | ⟨rfl, rfl, rfl⟩ <;>
      rcases location_cases layout h' with h' | ⟨rfl, hr, rfl⟩
    · rw [hinv.sequence_old hnew layout h, hinv.sequence_old hnew layout h'] at heq
      exact hinv.sequence_inj o o' r id id' h h' heq
    · subst hr
      have hlt := hinv.sequence_lt _ _ _ h
      rw [hinv.sequence_old hnew layout h, sequence_new] at heq
      omega
    · have hlt := hinv.sequence_lt _ _ _ h'
      rw [hinv.sequence_old hnew layout h', sequence_new] at heq
      omega
    · rfl
  own_bit := by
    intro o r id h
    rcases location_cases layout h with h | ⟨rfl, rfl, rfl⟩
    · rw [hinv.sequence_old hnew layout h, hinv.ancestors_old hnew layout h]
      exact hinv.own_bit o r id h
    · rw [sequence_new, ancestors_new]
      exact Finset.mem_insert_self _ _
  ancestors := by
    intro o r id h m hm
    rcases location_cases layout h with h | ⟨rfl, rfl, rfl⟩
    · rw [hinv.ancestors_old hnew layout h] at hm
      obtain ⟨o', id', hid', hseq, hpath⟩ := hinv.ancestors o r id h m hm
      refine ⟨o', id', (hinv.grows hnew layout).locations _ _ hid', ?_,
        (hinv.grows hnew layout).reach hpath⟩
      rw [hinv.sequence_old hnew layout hid', hseq]
    · rw [ancestors_new] at hm
      exact hinv.mask_reach hnew layout hm
  block_ancestors := by
    intro key m hm
    rw [stepsAt_lowerEndpoint]
    by_cases hkey : blockKey layout spec = key
    · subst hkey
      rw [if_pos rfl]
      have hmask : m ∈ insert (s.rankSequence spec.rank) (keptWaits layout wanted s spec).2 := by
        simpa [Lowering.lowerEndpoint] using hm
      obtain ⟨o, id, hid, hseq, hpath⟩ := hinv.mask_reach hnew layout hmask
      exact ⟨o, id, _, endpointStep op spec, hid, hseq, (List.append_assoc _ _ _).symm, hpath⟩
    · rw [if_neg hkey]
      have hmask : m ∈ s.blockAncestors key := by
        simpa [Lowering.lowerEndpoint, Function.update_of_ne (Ne.symm hkey)] using hm
      obtain ⟨o, id, steps, last, hid, hseq, hsteps, hpath⟩ := hinv.block_ancestors key m hmask
      refine ⟨o, id, steps, last, (hinv.grows hnew layout).locations _ _ hid, ?_, hsteps,
        (hinv.grows hnew layout).reach hpath⟩
      rw [hinv.sequence_old hnew layout hid, hseq]
  waits := by
    intro a t ht
    rw [targets_lowerEndpoint] at ht
    by_cases hmem : a ∈ (stepWaits op spec (keptWaits layout wanted s spec).1).map (·.1)
    · -- a wait of the new steps
      obtain ⟨e, he, rfl⟩ := List.mem_map.mp hmem
      rw [Dict.get?_foldl_set_of_mem stepWaits_keys_nodup he, Option.some.injEq] at ht
      subst ht
      obtain ⟨hstep, hkept⟩ := stepWaits_mem he
      obtain ⟨step, hstep, hid⟩ := List.mem_map.mp hstep
      obtain ⟨l, r, hlr⟩ := List.append_of_mem hstep
      obtain ⟨o, ho⟩ := hnew.wanted _ ((List.mem_insertionSort _).mp (selectWaits_subset _ _ _ hkept))
      refine ⟨blockKey layout spec, s.stepsAt (blockKey layout spec) ++ l, step, r, ?_, hid,
        ⟨o, (hinv.grows hnew layout).locations _ _ ho⟩, ?_⟩
      · rw [stepsAt_lowerEndpoint, if_pos rfl, hlr, List.append_assoc]
      · intro st hst hsame
        rcases mem_stepsAt_lowerEndpoint.mp hst with hold | ⟨-, hmine⟩
        · exact List.mem_append_left _ hold
        · exact absurd (hsame ▸ endpointSteps_owner hmine) (hinv.located_ne hnew ho)
    · rw [Dict.get?_foldl_set_of_notMem hmem] at ht
      obtain ⟨key, l, step, r, hsteps, hid, ⟨o, ho⟩, hearlier⟩ := hinv.waits a t ht
      have hafter : ∃ r', (Lowering.lowerEndpoint layout op wanted s spec).stepsAt key =
          l ++ step :: r' := by
        rw [stepsAt_lowerEndpoint, hsteps]
        split
        · exact ⟨r ++ _, by rw [List.append_assoc]; rfl⟩
        · exact ⟨r, rfl⟩
      obtain ⟨r', hr'⟩ := hafter
      refine ⟨key, l, step, r', hr', hid, ⟨o, (hinv.grows hnew layout).locations _ _ ho⟩, ?_⟩
      intro st hst hsame
      rcases mem_stepsAt_lowerEndpoint.mp hst with hold | ⟨-, hmine⟩
      · exact hearlier st hold hsame
      · exact absurd (hsame ▸ endpointSteps_owner hmine) (hinv.located_ne hnew ho)

end Turn

end Endpoint

/-! ## One instruction and the whole plan -/

theorem mem_assigned {s : Lowering} (hinv : s.Inv) {op : Instruction} {rank : ℕ} {t : StepId} :
    t ∈ s.assigned op rank ↔ ∃ p ∈ op.dependencies, s.locations.get? (p, rank) = some t := by
  unfold assigned
  simp only [List.mem_dedup, List.mem_map, List.mem_filter, decide_eq_true_eq]
  constructor
  · rintro ⟨⟨⟨p, r⟩, id⟩, ⟨hmem, hr, hp⟩, rfl⟩
    obtain rfl : r = rank := hr
    exact ⟨p, hp, Dict.get?_of_mem hinv.locations_distinct hmem⟩
  · rintro ⟨p, hp, hget⟩
    exact ⟨((p, rank), t), ⟨Dict.mem_of_get? hget, rfl, hp⟩, rfl⟩

/-- What placing the endpoints of an instruction does. -/
structure Lowered (s s' : Lowering) (op : Instruction) (wanted : ℕ → List StepId)
    (specs : List EndpointSpec) : Prop where
  inv : s'.Inv
  grows : Grows s s'
  others : ∀ o r, o ≠ op.operationId ∨ r ∉ specs.map (·.rank) →
    s'.locations.get? (o, r) = s.locations.get? (o, r)
  waits : ∀ spec ∈ specs, ∃ id, s'.locations.get? (op.operationId, spec.rank) = some id ∧
    ∀ t ∈ wanted spec.rank, Relation.TransGen s'.RawEdge t id

theorem lowered_foldl (layout : Layout) (op : Instruction) (wanted : ℕ → List StepId)
    (specs : List EndpointSpec) {s : Lowering} (hinv : s.Inv)
    (hranks : (specs.map (·.rank)).Nodup) (hnew : ∀ spec ∈ specs, s.Fresh op wanted spec) :
    Lowered s (specs.foldl (lowerEndpoint layout op wanted) s) op wanted specs := by
  induction specs generalizing s with
  | nil => exact ⟨hinv, .refl s, fun _ _ _ => rfl, by simp⟩
  | cons spec specs ih =>
    rw [List.map_cons, List.nodup_cons] at hranks
    have hone := hnew spec List.mem_cons_self
    have hgrows := hinv.grows hone layout
    have hrest : ∀ later ∈ specs, (lowerEndpoint layout op wanted s spec).Fresh op wanted later := by
      intro later hlater
      have hfresh := hnew later (List.mem_cons_of_mem _ hlater)
      have hne : (op.operationId, spec.rank) ≠ (op.operationId, later.rank) := by
        intro heq
        apply hranks.1
        rw [(Prod.mk.inj heq).2]
        exact List.mem_map.mpr ⟨later, hlater, rfl⟩
      refine ⟨?_, ?_, hfresh.works⟩
      · rw [locations_lowerEndpoint, if_neg hne]
        exact hfresh.unused
      · intro t ht
        obtain ⟨o, ho⟩ := hfresh.wanted t ht
        exact ⟨o, hgrows.locations _ _ ho⟩
    have hlow := ih (hinv.lowerEndpoint hone layout) hranks.2 hrest
    refine ⟨hlow.inv, hgrows.trans hlow.grows, ?_, ?_⟩
    · intro o r hor
      rw [List.map_cons] at hor
      rw [List.foldl_cons, hlow.others o r, locations_lowerEndpoint, if_neg]
      · rintro heq
        obtain ⟨rfl, rfl⟩ := Prod.mk.inj heq
        rcases hor with hor | hor
        · exact hor rfl
        · exact hor List.mem_cons_self
      · rcases hor with hor | hor
        · exact Or.inl hor
        · exact Or.inr fun hmem => hor (List.mem_cons_of_mem _ hmem)
    · intro later hlater
      rcases List.mem_cons.mp hlater with rfl | hlater
      · refine ⟨.endpoint op.operationId later.side later.rank, ?_, ?_⟩
        · apply hlow.grows.locations
          rw [locations_lowerEndpoint, if_pos rfl]
        · intro t ht
          exact hlow.grows.reach' (hinv.wanted_reach hone layout ht)
      · exact hlow.waits later hlater

/-- The endpoints an instruction asks for do work. -/
theorem endpointSpecs_works {op : Instruction} {storage : StoragePlan} {specs : List EndpointSpec}
    (h : endpointSpecs op storage = .ok specs) : ∀ spec ∈ specs, spec.kind ≠ .nop := by
  unfold endpointSpecs at h
  simp only [Checked.bind_ok] at h
  obtain ⟨-, -, source, -, destination, -, h⟩ := h
  split at h
  · rw [Checked.pure_ok] at h
    subst h
    simp
  · simp only [Checked.bind_ok, Checked.pure_ok] at h
    obtain ⟨receiver, -, rfl⟩ := h
    intro spec hspec
    simp only [List.mem_cons, List.not_mem_nil, or_false] at hspec
    rcases hspec with rfl | rfl
    · simp
    · show (if op.kind = .rrc then StepKind.rrc else .r) ≠ .nop
      split <;> simp

/-- Every dependency has an endpoint on a rank of the instruction. -/
theorem checkLocal_ok {s : Lowering} {op : Instruction} {specs : List EndpointSpec} {u : Unit}
    (h : s.checkLocal op specs = .ok u) :
    ∀ p ∈ op.dependencies, ∃ spec ∈ specs, (p, spec.rank) ∈ s.locations.keys := by
  intro p hp
  by_contra hnone
  have hmem : p ∈ op.dependencies.filter fun p =>
      ¬ ∃ spec ∈ specs, (p, spec.rank) ∈ s.locations.keys := Finset.mem_filter.mpr ⟨hp, hnone⟩
  obtain ⟨m, hm⟩ := Finset.min_of_mem hmem
  unfold checkLocal at h
  rw [hm] at h
  cases h

/-- After a part of the plan: the masks are sound, and the endpoints on each rank keep
the dependencies so far. -/
structure Run (done : List Instruction) (s : Lowering) : Prop where
  inv : s.Inv
  known : ∀ o r id, s.locations.get? (o, r) = some id → o ∈ done.map (·.operationId)
  closed : ∀ op ∈ done, ∀ p ∈ op.dependencies, p ∈ done.map (·.operationId)
  covers : ∀ op ∈ done, ∀ p ∈ op.dependencies, ∀ r a b, s.locations.get? (p, r) = some a →
    s.locations.get? (op.operationId, r) = some b → Relation.TransGen s.RawEdge a b

/-- **An instruction keeps its dependencies on each of its ranks.** -/
theorem Run.lowerInstruction {done : List Instruction} {s s' : Lowering} (hrun : Run done s)
    {storage : StoragePlan} {layout : Layout} {op : Instruction}
    (hid : op.operationId ∉ done.map (·.operationId))
    (hranks : ∀ specs, endpointSpecs op storage = .ok specs → (specs.map (·.rank)).Nodup)
    (h : lowerInstruction storage layout s op = .ok s') : Run (done ++ [op]) s' := by
  unfold Lowering.lowerInstruction at h
  simp only [Checked.bind_ok, Checked.pure_ok] at h
  obtain ⟨specs, hspecs, _, hlocal, rfl⟩ := h
  have hunused : ∀ r, s.locations.get? (op.operationId, r) = none := by
    intro r
    cases hget : s.locations.get? (op.operationId, r) with
    | none => rfl
    | some id => exact absurd (hrun.known _ _ _ hget) hid
  have hfresh : ∀ spec ∈ specs, s.Fresh op (s.assigned op) spec := by
    intro spec hspec
    refine ⟨hunused spec.rank, ?_, endpointSpecs_works hspecs spec hspec⟩
    intro t ht
    obtain ⟨p, -, hp⟩ := (mem_assigned hrun.inv).mp ht
    exact ⟨p, hp⟩
  have hlow := lowered_foldl layout op (s.assigned op) specs hrun.inv (hranks specs hspecs) hfresh
  -- every dependency has an endpoint already
  have hdeps : ∀ p ∈ op.dependencies, p ∈ done.map (·.operationId) := by
    intro p hp
    obtain ⟨spec, -, hkey⟩ := checkLocal_ok hlocal p hp
    obtain ⟨id, hget⟩ := Dict.get?_isSome.mpr hkey
    exact hrun.known p spec.rank id hget
  refine ⟨hlow.inv, ?_, ?_, ?_⟩
  · intro o r id hget
    rw [List.map_append, List.mem_append]
    by_cases ho : o = op.operationId
    · exact Or.inr (by simp [ho])
    · rw [hlow.others o r (Or.inl ho)] at hget
      exact Or.inl (hrun.known o r id hget)
  · intro x hx p hp
    rw [List.map_append, List.mem_append]
    rcases List.mem_append.mp hx with hx | hx
    · exact Or.inl (hrun.closed x hx p hp)
    · rw [List.mem_singleton.mp hx] at hp
      exact Or.inl (hdeps p hp)
  · intro x hx p hp r a b ha hb
    have hne : ∀ q ∈ done.map (·.operationId), q ≠ op.operationId := fun q hq heq => hid (heq ▸ hq)
    rcases List.mem_append.mp hx with hx | hx
    · rw [hlow.others p r (Or.inl (hne p (hrun.closed x hx p hp)))] at ha
      rw [hlow.others _ r (Or.inl (hne _ (List.mem_map.mpr ⟨x, hx, rfl⟩)))] at hb
      exact hlow.grows.reach' (hrun.covers x hx p hp r a b ha hb)
    · obtain rfl := List.mem_singleton.mp hx
      rw [hlow.others p r (Or.inl (hne p (hdeps p hp)))] at ha
      by_cases hr : r ∈ specs.map (·.rank)
      · obtain ⟨spec, hspec, rfl⟩ := List.mem_map.mp hr
        obtain ⟨id, hget, hwait⟩ := hlow.waits spec hspec
        obtain rfl : id = b := Option.some.inj (hget.symm.trans hb)
        exact hwait a ((mem_assigned hrun.inv).mpr ⟨p, hp, ha⟩)
      · rw [hlow.others _ r (Or.inr hr), hunused r] at hb
        cases hb

theorem Run.foldlM {storage : StoragePlan} {layout : Layout} (l : List Instruction)
    (hranks : ∀ op ∈ l, ∀ specs, endpointSpecs op storage = .ok specs → (specs.map (·.rank)).Nodup)
    {done : List Instruction} {s s' : Lowering} (hrun : Run done s)
    (hids : ((done ++ l).map (·.operationId)).Nodup)
    (h : l.foldlM (Lowering.lowerInstruction storage layout) s = .ok s') : Run (done ++ l) s' := by
  induction l generalizing done s with
  | nil =>
    rw [List.foldlM_nil, Checked.pure_ok] at h
    subst h
    simpa using hrun
  | cons op l ih =>
    rw [List.foldlM_cons, Checked.bind_ok] at h
    obtain ⟨u, hu, h⟩ := h
    have hid : op.operationId ∉ done.map (·.operationId) := by
      rw [List.map_append, List.nodup_append] at hids
      exact fun hmem => hids.2.2 _ hmem _ (by simp) rfl
    have hstep := hrun.lowerInstruction hid (hranks op List.mem_cons_self) hu
    have hsplit : done ++ op :: l = done ++ [op] ++ l := by simp
    rw [hsplit] at hids ⊢
    exact ih (fun x hx => hranks x (List.mem_cons_of_mem _ hx)) hstep hids h

end Lowering

end VeriCCL
