import VeriCCL.Identifiers
import VeriCCL.NetworkExecution

/-! # Adapting a stored schedule

The copies of a stored transfer carry the same ranks' contributions, under the new names of the
ranks, at another slice.  So what was supplied stays supplied, and the adapted transfers are a
sound network again (`ScheduleHit.adapt_sound`). -/
namespace VeriCCL

/-! ## Ranks -/

/-- A mapping of the ranks of one request to those of another with the same operator: one to
one, and the root to the root. -/
structure RanksMapped (mapping : Dict ℕ ℕ) (ranks : ℕ) (old new : CollectiveSpec) : Prop where
  keys : mapping.keys.Perm (List.range ranks)
  values : mapping.values.Perm (List.range ranks)
  kind : new.kind = old.kind
  root : ∀ root ∈ old.root, ∃ mapped ∈ mapping.get? root, new.root = some mapped

/-- The rank that a rank is mapped to. -/
def mappedRank (mapping : Dict ℕ ℕ) (r : ℕ) : ℕ := (mapping.get? r).getD 0

namespace RanksMapped
variable {mapping : Dict ℕ ℕ} {ranks : ℕ} {old new : CollectiveSpec} {r s : ℕ}

theorem distinct (h : RanksMapped mapping ranks old new) : mapping.Distinct :=
  h.keys.nodup_iff.mpr List.nodup_range

theorem get? (h : RanksMapped mapping ranks old new) (hr : r < ranks) :
    mapping.get? r = some (mappedRank mapping r) := by
  obtain ⟨s, hs⟩ := Dict.get?_isSome.mpr (h.keys.mem_iff.mpr (List.mem_range.mpr hr))
  rw [mappedRank, hs]
  rfl

theorem mem (h : RanksMapped mapping ranks old new) (hr : r < ranks) :
    (r, mappedRank mapping r) ∈ mapping := Dict.mem_of_get? (h.get? hr)

theorem lt (h : RanksMapped mapping ranks old new) (hr : r < ranks) : mappedRank mapping r < ranks :=
  List.mem_range.mp (h.values.mem_iff.mp (List.mem_map_of_mem (h.mem hr)))

theorem inj (h : RanksMapped mapping ranks old new) (hr : r < ranks) (hs : s < ranks)
    (heq : mappedRank mapping r = mappedRank mapping s) : r = s := by
  have hnodup : (mapping.map (·.2)).Nodup := h.values.nodup_iff.mpr List.nodup_range
  exact congrArg Prod.fst (List.inj_on_of_nodup_map hnodup (h.mem hr) (h.mem hs) heq)

/-- Where an entry of the mapping comes from. -/
theorem of_mem (h : RanksMapped mapping ranks old new) (he : (r, s) ∈ mapping) :
    r < ranks ∧ mappedRank mapping r = s := by
  have hr : r < ranks := List.mem_range.mp (h.keys.mem_iff.mp (List.mem_map_of_mem he))
  exact ⟨hr, Option.some.inj ((h.get? hr).symm.trans (Dict.get?_of_mem h.distinct he))⟩

theorem surj (h : RanksMapped mapping ranks old new) (hs : s < ranks) :
    ∃ r < ranks, mappedRank mapping r = s := by
  obtain ⟨⟨r, s'⟩, he, rfl⟩ := List.mem_map.mp (h.values.mem_iff.mpr (List.mem_range.mpr hs))
  exact ⟨r, h.of_mem he⟩

theorem image_range (h : RanksMapped mapping ranks old new) :
    (Finset.range ranks).image (mappedRank mapping) = Finset.range ranks := by
  ext s
  simp only [Finset.mem_image, Finset.mem_range]
  constructor
  · rintro ⟨r, hr, rfl⟩
    exact h.lt hr
  · exact h.surj

/-- Ranks that supply inputs are mapped to ranks that do. -/
theorem sourceRank (h : RanksMapped mapping ranks old new) (hlt : r < ranks) (hr : r ∈ sourceRanks old ranks) :
    mappedRank mapping r ∈ sourceRanks new ranks := by
  unfold sourceRanks at hr ⊢
  rw [h.kind]
  by_cases hbroadcast : old.kind = .broadcast
  · rw [if_pos hbroadcast] at hr ⊢
    obtain ⟨mapped, hmapped, hroot⟩ := h.root r (by simpa using hr)
    obtain rfl : mapped = mappedRank mapping r := Option.some.inj (hmapped.symm.trans (h.get? hlt))
    simp [hroot]
  · rw [if_neg hbroadcast] at hr ⊢
    exact List.mem_range.mpr (h.lt hlt)

end RanksMapped

/-! ## Required outputs, by rank and slice -/

/-- A rank must hold the sum of the inputs of the source ranks at a slice. -/
def Requires (spec : CollectiveSpec) (ranks n rank position : ℕ) (sources : Finset ℕ) : Prop :=
  let quotient := n / ranks
  match spec.kind with
  | .broadcast => rank < ranks ∧ sources = {spec.root.getD 0}
  | .reduce => rank = spec.root.getD 0 ∧ sources = Finset.range ranks
  | .scatter => rank = position / quotient ∧ sources = {spec.root.getD 0}
  | .gather => rank = spec.root.getD 0 ∧ ∃ source < ranks, sources = {source}
  | .allGather => rank < ranks ∧ ∃ source < ranks, sources = {source}
  | .allReduce => rank < ranks ∧ sources = Finset.range ranks
  | .allToAll => rank = position / quotient ∧ ∃ source < ranks, sources = {source}
  | .reduceScatter => rank = position / quotient ∧ sources = Finset.range ranks

/-- The contributions of source ranks at a slice. -/
def sliceOf (n position : ℕ) (sources : Finset ℕ) : Finset ℕ := sources.image fun rank => rank * n + position

theorem sliceOf_singleton (n position source : ℕ) :
    sliceOf n position {source} = {source * n + position} := Finset.image_singleton _ _

section Requires
variable {spec : CollectiveSpec} {ranks n : ℕ}

theorem mem_requiredEntries {entry : OutputSlot × Finset ℕ} (h : entry ∈ requiredEntries spec ranks n) :
    ∃ position < n, ∃ sources, Requires spec ranks n entry.1.rank position sources ∧
      entry.2 = sliceOf n position sources := by
  unfold requiredEntries at h
  unfold Requires
  cases hkind : spec.kind <;> rw [hkind] at h <;>
    simp only [List.mem_flatMap, List.mem_map, List.mem_range] at h
  case broadcast =>
    obtain ⟨rank, hrank, l, hl, rfl⟩ := h
    exact ⟨l, hl, _, ⟨hrank, rfl⟩, (sliceOf_singleton ..).symm⟩
  case reduce | reduceScatter =>
    obtain ⟨l, hl, rfl⟩ := h
    exact ⟨l, hl, _, ⟨rfl, rfl⟩, rfl⟩
  case scatter =>
    obtain ⟨l, hl, rfl⟩ := h
    exact ⟨l, hl, _, ⟨rfl, rfl⟩, (sliceOf_singleton ..).symm⟩
  case gather | allToAll =>
    obtain ⟨source, hsource, l, hl, rfl⟩ := h
    exact ⟨l, hl, _, ⟨rfl, source, hsource, rfl⟩, (sliceOf_singleton ..).symm⟩
  case allGather =>
    obtain ⟨rank, hrank, source, hsource, l, hl, rfl⟩ := h
    exact ⟨l, hl, _, ⟨hrank, source, hsource, rfl⟩, (sliceOf_singleton ..).symm⟩
  case allReduce =>
    obtain ⟨rank, hrank, l, hl, rfl⟩ := h
    exact ⟨l, hl, _, ⟨hrank, rfl⟩, rfl⟩

theorem exists_requiredEntry {rank position : ℕ} {sources : Finset ℕ} (hposition : position < n)
    (h : Requires spec ranks n rank position sources) :
    ∃ offset, (⟨rank, offset⟩, sliceOf n position sources) ∈ requiredEntries spec ranks n := by
  unfold Requires at h
  unfold requiredEntries
  cases hkind : spec.kind <;> rw [hkind] at h <;>
    simp only [List.mem_flatMap, List.mem_map, List.mem_range]
  case broadcast =>
    obtain ⟨hrank, rfl⟩ := h
    exact ⟨position, rank, hrank, position, hposition, by rw [sliceOf_singleton]⟩
  case reduce =>
    obtain ⟨rfl, rfl⟩ := h
    exact ⟨position, position, hposition, rfl⟩
  case scatter =>
    obtain ⟨rfl, rfl⟩ := h
    exact ⟨_, position, hposition, by rw [sliceOf_singleton]⟩
  case gather =>
    obtain ⟨rfl, source, hsource, rfl⟩ := h
    exact ⟨_, source, hsource, position, hposition, by rw [sliceOf_singleton]⟩
  case allGather =>
    obtain ⟨hrank, source, hsource, rfl⟩ := h
    exact ⟨_, rank, hrank, source, hsource, position, hposition, by rw [sliceOf_singleton]⟩
  case allReduce =>
    obtain ⟨hrank, rfl⟩ := h
    exact ⟨position, rank, hrank, position, hposition, rfl⟩
  case allToAll =>
    obtain ⟨rfl, source, hsource, rfl⟩ := h
    exact ⟨_, source, hsource, position, hposition, by rw [sliceOf_singleton]⟩
  case reduceScatter =>
    obtain ⟨rfl, rfl⟩ := h
    exact ⟨_, position, hposition, rfl⟩

end Requires

/-! ## Old positions -/

namespace ScheduleHit
variable {hit : ScheduleHit} {inputs : ResolvedInput} {old : CollectiveSpec}

/-- What an adaptation is asked for: both numbers of slices are admissible for the operator, and
the ranks of the stored schedule are mapped to those of the request. -/
structure Admissible (hit : ScheduleHit) (old : CollectiveSpec) (inputs : ResolvedInput) : Prop where
  oldOutputs : ∃ required, requiredOutputs old inputs.rankCount hit.sliceCount = .ok required
  newOutputs : ∃ required, requiredOutputs inputs.collective inputs.rankCount inputs.sliceCount = .ok required
  mapped : RanksMapped hit.rankMapping inputs.rankCount old inputs.collective

/-- The old slice lies in the destination block of the same rank. -/
def SameOwner (hit : ScheduleHit) (inputs : ResolvedInput) (position q : ℕ) : Prop :=
  q / (hit.sliceCount / inputs.rankCount) < inputs.rankCount ∧
    mappedRank hit.rankMapping (q / (hit.sliceCount / inputs.rankCount)) =
      position / (inputs.sliceCount / inputs.rankCount)

/-- Blocks of equal size: the slices of an input that the ranks own. -/
theorem block_spec {ranks n position : ℕ} (hn : 0 < n) (hdvd : n % ranks = 0) (hp : position < n) :
    0 < n / ranks ∧ position / (n / ranks) < ranks ∧ ranks * (n / ranks) = n := by
  have hsplit : ranks * (n / ranks) = n := Nat.mul_div_cancel' (Nat.dvd_of_mod_eq_zero hdvd)
  have hpos : 0 < n / ranks := by
    rcases Nat.eq_zero_or_pos (n / ranks) with h | h
    · rw [h] at hsplit
      omega
    · exact h
  exact ⟨hpos, Nat.div_lt_of_lt_mul (by rw [mul_comm, hsplit]; exact hp), hsplit⟩

/-- A slice of a block, scaled to blocks of another size, stays in the block. -/
theorem scaled_spec {ranks perOld perNew r l : ℕ} (hper : 0 < perOld) (hl : l < perNew) (hr : r < ranks) :
    (r * perOld + l * perOld / perNew) / perOld = r ∧ r * perOld + l * perOld / perNew < ranks * perOld := by
  have hscaled : l * perOld / perNew < perOld :=
    Nat.div_lt_of_lt_mul (Nat.mul_lt_mul_of_pos_right hl hper)
  constructor
  · rw [mul_comm r, Nat.mul_add_div hper, Nat.div_eq_of_lt hscaled, add_zero]
  · calc r * perOld + l * perOld / perNew < r * perOld + perOld := Nat.add_lt_add_left hscaled _
      _ = (r + 1) * perOld := by ring
      _ ≤ ranks * perOld := Nat.mul_le_mul_right _ hr

theorem Admissible.oldPosition_ok (h : Admissible hit old inputs) {position : ℕ} (hp : position < inputs.sliceCount) :
    ∃ q < hit.sliceCount, hit.oldPosition inputs position = .ok q ∧
      (inputs.collective.kind = .allToAll ∨ inputs.collective.kind = .reduceScatter →
        SameOwner hit inputs position q) := by
  obtain ⟨_, hold⟩ := h.oldOutputs
  obtain ⟨_, hnew⟩ := h.newOutputs
  simp only [requiredOutputs, Checked.bind_ok] at hold hnew
  obtain ⟨-, holdPos, -, holdDvd⟩ := validateOutputProblem_ok hold.choose_spec.1
  obtain ⟨-, hnewPos, -, hnewDvd⟩ := validateOutputProblem_ok hnew.choose_spec.1
  rw [← h.mapped.kind] at holdDvd
  by_cases hblock : inputs.collective.kind = .allToAll ∨ inputs.collective.kind = .reduceScatter
  · have hpart : inputs.collective.kind.partitioning = true := by
      obtain hkind | hkind := hblock <;> rw [hkind] <;> rfl
    obtain ⟨hperNew, howner, -⟩ := block_spec hnewPos (hnewDvd hpart) hp
    obtain ⟨hperOld, -, hsplit⟩ := block_spec holdPos (holdDvd hpart) holdPos
    obtain ⟨r, hr, hmapped⟩ := h.mapped.surj howner
    -- The first entry of the mapping with this owner is the only one.
    obtain ⟨⟨r', s⟩, hfind⟩ : ∃ e, hit.rankMapping.find? (fun e => e.2 = position /
        (inputs.sliceCount / inputs.rankCount)) = some e := by
      rw [← Option.isSome_iff_exists, List.find?_isSome]
      exact ⟨_, h.mapped.mem hr, by simpa using hmapped⟩
    obtain rfl : s = position / (inputs.sliceCount / inputs.rankCount) := by
      simpa using List.find?_some hfind
    obtain ⟨hr', hmapped'⟩ := h.mapped.of_mem (List.mem_of_find?_eq_some hfind)
    obtain ⟨hdiv, hlt⟩ := scaled_spec hperOld (Nat.mod_lt position hperNew) hr'
    refine ⟨r' * (hit.sliceCount / inputs.rankCount) + position % (inputs.sliceCount / inputs.rankCount) *
      (hit.sliceCount / inputs.rankCount) / (inputs.sliceCount / inputs.rankCount),
      lt_of_lt_of_eq hlt hsplit, ?_, fun _ => ⟨hdiv.symm ▸ hr', hdiv.symm ▸ hmapped'⟩⟩
    simp only [oldPosition, if_pos hblock]
    rw [hfind]
    rfl
  · refine ⟨_, Nat.div_lt_of_lt_mul (Nat.mul_lt_mul_of_pos_right hp holdPos), ?_, fun h => absurd h hblock⟩
    rw [oldPosition, if_neg hblock]
    rfl

/-! ## Copies -/

/-- A set of contributions of an old slice, carried to a new one. -/
def carriedSet (hit : ScheduleHit) (inputs : ResolvedInput) (position : ℕ) (values : Finset ℕ) : Finset ℕ :=
  values.image fun value => mappedRank hit.rankMapping (value / hit.sliceCount) * inputs.sliceCount + position

/-- A stored transfer, carried to a new slice. -/
def carried (hit : ScheduleHit) (inputs : ResolvedInput) (op : NetworkOperation) (position : ℕ) :
    NetworkOperation where
  operationId := identifier op.operationId position
  kind := op.kind
  srcRank := mappedRank hit.rankMapping op.srcRank
  dstRank := mappedRank hit.rankMapping op.dstRank
  channel := op.channel
  stageId := op.stageId
  contributors := carriedSet hit inputs position op.contributors
  targetContributors := carriedSet hit inputs position op.targetContributors
  participants := op.participants.map (mappedRank hit.rankMapping)
  dependencies := op.dependencies.image fun key => identifier key position
  referenceDependencies := ∅
  priorityTime := 0

theorem Admissible.rank_ok (h : Admissible hit old inputs) {r : ℕ} (hr : r < inputs.rankCount) :
    hit.rank r = .ok (mappedRank hit.rankMapping r) := by
  rw [rank, h.mapped.get? hr]
  rfl

theorem Admissible.contributors_ok (h : Admissible hit old inputs) {q : ℕ} {values : Finset ℕ}
    (hvalues : AtSlice inputs.rankCount hit.sliceCount q values) (position : ℕ) :
    hit.contributors inputs position values = .ok (carriedSet hit inputs position values) := by
  rw [contributors, Checked.mapM_pure (g := fun value =>
    mappedRank hit.rankMapping (value / hit.sliceCount) * inputs.sliceCount + position)]
  · refine congrArg Except.ok ?_
    ext value
    simp [carriedSet]
  · intro value hvalue
    rw [h.rank_ok (hvalues.2 value (by simpa using hvalue)).1]
    rfl

/-! ## The adapted schedule -/

section Adapted
variable {pos : ℕ → ℕ} {operations : List NetworkOperation} {op : NetworkOperation}

/-- The new slices that an old slice is carried to. -/
def newPositions (inputs : ResolvedInput) (pos : ℕ → ℕ) (q : ℕ) : List ℕ :=
  (List.range inputs.sliceCount).filter fun position => pos position = q

theorem mem_newPositions {position q : ℕ} :
    position ∈ newPositions inputs pos q ↔ position < inputs.sliceCount ∧ pos position = q := by
  simp [newPositions]

theorem targets_ok (hpos : ∀ position < inputs.sliceCount, hit.oldPosition inputs position = .ok (pos position)) :
    ∃ targets, hit.targets inputs = .ok targets ∧
      ∀ q, (targets.get? q).getD [] = newPositions inputs pos q := by
  have hloop : ∀ (l : List ℕ) (d : Dict ℕ (List ℕ)), (∀ position ∈ l, position < inputs.sliceCount) →
      ∃ e : Dict ℕ (List ℕ), l.foldlM (fun targets position => do
          let old ← hit.oldPosition inputs position
          return Dict.set targets old ((Dict.get? targets old).getD [] ++ [position])) d = .ok e ∧
        ∀ q, (e.get? q).getD [] = (d.get? q).getD [] ++ l.filter fun position => pos position = q := by
    intro l
    induction l with
    | nil => exact fun d _ => ⟨d, rfl, by simp⟩
    | cons position l ih =>
      intro d hl
      obtain ⟨e, he, hget⟩ := ih (d.set (pos position) ((d.get? (pos position)).getD [] ++ [position]))
        fun p hp => hl p (List.mem_cons_of_mem _ hp)
      refine ⟨e, ?_, fun q => ?_⟩
      · rw [List.foldlM_cons, hpos position (hl position List.mem_cons_self)]
        exact he
      · rw [hget, Dict.get?_set]
        by_cases hq : pos position = q
        · subst hq
          simp
        · simp [hq]
  obtain ⟨targets, htargets, hget⟩ := hloop (List.range inputs.sliceCount) [] (by simp)
  exact ⟨targets, htargets, fun q => by rw [hget]; simp [newPositions]⟩

/-- The slice of a stored transfer. -/
def sliceAt (hit : ScheduleHit) (op : NetworkOperation) : ℕ := logicalPosition op.contributors hit.sliceCount

/-- The copies of all stored transfers. -/
def carriedAll (hit : ScheduleHit) (inputs : ResolvedInput) (pos : ℕ → ℕ) : List NetworkOperation :=
  hit.operations.flatMap fun op => (newPositions inputs pos (hit.sliceAt op)).map (hit.carried inputs op)

variable (hsound : NetworkSound old inputs.rankCount hit.sliceCount hit.operations)

include hsound in
/-- The dependencies of a copy are the copies of the dependencies at the same slice. -/
theorem copy_ok (h : Admissible hit old inputs) {cloned : Dict String (List ℕ)}
    (hcloned : ∀ op ∈ hit.operations, cloned.get? op.operationId =
      some (newPositions inputs pos (hit.sliceAt op))) (hop : op ∈ hit.operations) {position : ℕ}
    (hposition : position ∈ newPositions inputs pos (hit.sliceAt op)) :
    hit.copy inputs cloned op position = .ok (hit.carried inputs op position) := by
  obtain ⟨q, -, hsource, htarget, hwaits⟩ := hsound.sameSlice op hop
  obtain ⟨hsrc, hdst, hparticipants⟩ := hsound.inRange op hop
  have hdependencies : ((op.dependencies.sort (· ≤ ·)).flatMap (copiedDependencies cloned position)).toFinset =
      op.dependencies.image fun key => identifier key position := by
    have hone : ∀ key ∈ op.dependencies.sort (· ≤ ·),
        copiedDependencies cloned position key = [identifier key position] := by
      intro key hkey
      obtain ⟨other, hother, rfl, hslice⟩ := hwaits key (by simpa using hkey)
      have hsame : hit.sliceAt other = hit.sliceAt op := by
        rw [sliceAt, sliceAt, logicalPosition_eq hslice, logicalPosition_eq hsource]
      rw [copiedDependencies, hcloned other hother, hsame, Option.getD_some, if_pos hposition]
      rfl
    rw [List.flatMap_congr hone]
    ext key
    simp [eq_comm]
  rw [copy, h.rank_ok hsrc, h.rank_ok hdst, h.contributors_ok hsource, h.contributors_ok htarget,
    Checked.mapM_pure fun rank hrank => h.rank_ok (hparticipants rank hrank)]
  simp only [bind, Except.bind, pure, Except.pure, hdependencies]
  rfl

include hsound in
/-- **What the adaptation returns.** -/
theorem adapt_ok (h : Admissible hit old inputs)
    (hpos : ∀ position < inputs.sliceCount, hit.oldPosition inputs position = .ok (pos position)) :
    hit.adapt inputs = .ok ⟨inputs.rankCount, inputs.sliceCount, inputs.sliceSizeBytes,
      carriedAll hit inputs pos, "history"⟩ := by
  obtain ⟨targets, htargets, hget⟩ := targets_ok hpos
  have hcopies : hit.operations.mapM (hit.copies targets) =
      .ok (hit.operations.map fun op => (op.operationId, newPositions inputs pos (hit.sliceAt op))) := by
    refine Checked.mapM_pure fun op hop => ?_
    obtain ⟨q, -, hsource, -⟩ := hsound.sameSlice op hop
    rw [copies, hget, Checked.ensure, if_pos (image_slice hsource)]
    rfl
  have hcloned : ∀ op ∈ hit.operations, (Dict.ofList (hit.operations.map fun op =>
      (op.operationId, newPositions inputs pos (hit.sliceAt op)))).get? op.operationId =
        some (newPositions inputs pos (hit.sliceAt op)) := by
    intro op hop
    refine (Dict.ofList_get? ?_).mpr (List.mem_map_of_mem hop)
    rw [List.map_map]
    exact hsound.distinct
  simp only [adapt, Checked.bind_ok]
  refine ⟨targets, htargets, _, hcopies, _, Checked.mapM_pure (g := fun op =>
    (newPositions inputs pos (hit.sliceAt op)).map (hit.carried inputs op)) fun op hop => ?_, rfl⟩
  rw [hcloned op hop]
  exact Checked.mapM_pure fun position hposition => copy_ok hsound h hcloned hop hposition

end Adapted

/-! ## The adapted schedule is sound -/

/-- The name of a copy determines the transfer and the slice. -/
theorem identifier_inj {key key' : String} {position position' : ℕ}
    (h : identifier key position = identifier key' position') : key = key' ∧ position = position' := by
  have hlist := congrArg String.toList h
  have hmark : ("-p" : String).toList = ['-', 'p'] := by decide
  simp only [identifier, String.toList_append, hmark] at hlist
  obtain ⟨hkey, hposition⟩ := Identifiers.letter_nat_inj (x := 'p') (by decide)
    (by simpa only [List.append_assoc, List.cons_append, List.nil_append] using hlist :
      ("history-".toList ++ key.toList ++ ['-']) ++ 'p' :: (toString position).toList =
        ("history-".toList ++ key'.toList ++ ['-']) ++ 'p' :: (toString position').toList)
  exact ⟨String.ext (List.append_cancel_left (List.append_cancel_right hkey)), hposition⟩

section Carried
variable {q position r : ℕ} {values : Finset ℕ}

theorem atSlice_carried (h : Admissible hit old inputs)
    (hvalues : AtSlice inputs.rankCount hit.sliceCount q values) (hposition : position < inputs.sliceCount) :
    AtSlice inputs.rankCount inputs.sliceCount position (carriedSet hit inputs position values) := by
  refine ⟨hvalues.1.image _, fun value hvalue => ?_⟩
  obtain ⟨v, hv, rfl⟩ := Finset.mem_image.mp hvalue
  rw [(contribution_spec hposition).1, (contribution_spec hposition).2]
  exact ⟨h.mapped.lt (hvalues.2 v hv).1, rfl⟩

/-- Different contributions of one slice stay different. -/
theorem disjoint_carried (h : Admissible hit old inputs) {values' : Finset ℕ}
    (hvalues : AtSlice inputs.rankCount hit.sliceCount q values)
    (hvalues' : AtSlice inputs.rankCount hit.sliceCount q values') (hdisjoint : Disjoint values values')
    (hposition : position < inputs.sliceCount) :
    Disjoint (carriedSet hit inputs position values) (carriedSet hit inputs position values') := by
  rw [Finset.disjoint_left]
  intro value hvalue hvalue'
  obtain ⟨v, hv, rfl⟩ := Finset.mem_image.mp hvalue
  obtain ⟨w, hw, heq⟩ := Finset.mem_image.mp hvalue'
  have hrank : mappedRank hit.rankMapping (w / hit.sliceCount) =
      mappedRank hit.rankMapping (v / hit.sliceCount) := by
    have hdiv := congrArg (· / inputs.sliceCount) heq
    simpa only [(contribution_spec hposition).1] using hdiv
  have hdiv := h.mapped.inj (hvalues'.2 w hw).1 (hvalues.2 v hv).1 hrank
  have hmod : w % hit.sliceCount = v % hit.sliceCount := by rw [(hvalues'.2 w hw).2, (hvalues.2 v hv).2]
  obtain rfl : w = v := by rw [← Nat.div_add_mod w hit.sliceCount, hdiv, hmod, Nat.div_add_mod]
  exact Finset.disjoint_left.mp hdisjoint hv hw

/-- The contributions of source ranks are carried to those of the mapped ranks. -/
theorem carried_sliceOf {sources : Finset ℕ} (hq : q < hit.sliceCount) :
    carriedSet hit inputs position (sliceOf hit.sliceCount q sources) =
      sliceOf inputs.sliceCount position (sources.image (mappedRank hit.rankMapping)) := by
  rw [carriedSet, sliceOf, sliceOf, Finset.image_image, Finset.image_image]
  refine Finset.image_congr fun rank _ => ?_
  simp only [Function.comp_apply, (contribution_spec hq).1]

/-- What a rank holds at the start, the mapped rank holds at the start at every new slice. -/
theorem start_carried (h : Admissible hit old inputs) (hr : r < inputs.rankCount)
    (hvalues : AtSlice inputs.rankCount hit.sliceCount q values) (hposition : position < inputs.sliceCount)
    (hstart : values ∈ startHoldings old inputs.rankCount hit.sliceCount r) :
    carriedSet hit inputs position values ∈ startHoldings inputs.collective inputs.rankCount
      inputs.sliceCount (mappedRank hit.rankMapping r) := by
  unfold startHoldings at hstart ⊢
  split at hstart
  next hsource =>
    obtain ⟨l, hl, rfl⟩ := List.mem_map.mp hstart
    rw [if_pos (h.mapped.sourceRank hr hsource), ← sliceOf_singleton, carried_sliceOf (List.mem_range.mp hl),
      Finset.image_singleton, sliceOf_singleton]
    exact List.mem_map_of_mem (List.mem_range.mpr hposition)
  next => simp at hstart

end Carried

section Soundness
variable {pos : ℕ → ℕ} {op x : NetworkOperation} {position : ℕ}

theorem mem_carriedAll : x ∈ carriedAll hit inputs pos ↔ ∃ op ∈ hit.operations,
    ∃ position ∈ newPositions inputs pos (hit.sliceAt op), hit.carried inputs op position = x := by
  simp [carriedAll]

variable (hsound : NetworkSound old inputs.rankCount hit.sliceCount hit.operations)
include hsound

/-- The transfers that a transfer waits for carry its slice. -/
theorem sliceAt_dependency (hop : op ∈ hit.operations) {other : NetworkOperation}
    (hother : other ∈ hit.operations) (hkey : other.operationId ∈ op.dependencies) :
    hit.sliceAt other = hit.sliceAt op := by
  obtain ⟨q, -, hsource, -, hwaits⟩ := hsound.sameSlice op hop
  obtain ⟨same, hsame, hid, hslice⟩ := hwaits _ hkey
  obtain rfl : same = other := List.inj_on_of_nodup_map hsound.distinct hsame hother hid
  rw [sliceAt, sliceAt, logicalPosition_eq hslice, logicalPosition_eq hsource]

/-- What a transfer finds, its copy finds. -/
theorem supplied_carried (h : Admissible hit old inputs) (hop : op ∈ hit.operations) {r : ℕ}
    (hr : r < inputs.rankCount) {state : Finset ℕ}
    (hstate : AtSlice inputs.rankCount hit.sliceCount (hit.sliceAt op) state)
    (hposition : position ∈ newPositions inputs pos (hit.sliceAt op))
    (hsupplied : Supplied old inputs.rankCount hit.sliceCount hit.operations op r state) :
    Supplied inputs.collective inputs.rankCount inputs.sliceCount (carriedAll hit inputs pos)
      (hit.carried inputs op position) (mappedRank hit.rankMapping r) (carriedSet hit inputs position state) := by
  obtain hstart | ⟨other, hother, hkey, rfl, rfl⟩ := hsupplied
  · exact .inl (start_carried h hr hstate (mem_newPositions.mp hposition).1 hstart)
  · refine .inr ⟨hit.carried inputs other position, mem_carriedAll.mpr ⟨other, hother, position, ?_, rfl⟩,
      Finset.mem_image_of_mem _ hkey, rfl, rfl⟩
    rwa [sliceAt_dependency hsound hop hother hkey]

/-- The parts of a stored transfer's target are at its slice. -/
theorem delivers_carried (h : Admissible hit old inputs) (hop : op ∈ hit.operations)
    (hposition : position ∈ newPositions inputs pos (hit.sliceAt op)) :
    Delivers inputs.collective inputs.rankCount inputs.sliceCount (carriedAll hit inputs pos)
      (hit.carried inputs op position) := by
  obtain ⟨q, -, hsource, htarget, -⟩ := hsound.sameSlice op hop
  obtain ⟨-, hdst, -⟩ := hsound.inRange op hop
  obtain rfl : q = hit.sliceAt op := (logicalPosition_eq hsource).symm
  obtain ⟨hkind, hequal⟩ | ⟨hkind, state, hdisjoint, hequal, hsupplied⟩ := hsound.delivers op hop
  · exact .inl ⟨hkind, congrArg (carriedSet hit inputs position) hequal⟩
  · have hnonempty : state.Nonempty := by
      obtain hstart | ⟨other, hother, -, -, rfl⟩ := hsupplied
      · unfold startHoldings at hstart
        split at hstart
        · obtain ⟨l, -, rfl⟩ := List.mem_map.mp hstart
          exact Finset.singleton_nonempty _
        · simp at hstart
      · obtain ⟨_, -, -, hslice, -⟩ := hsound.sameSlice other hother
        exact hslice.1
    have hstate : AtSlice inputs.rankCount hit.sliceCount (hit.sliceAt op) state :=
      ⟨hnonempty, fun value hvalue => htarget.2 value (hequal ▸ Finset.mem_union_left _ hvalue)⟩
    refine .inr ⟨hkind, carriedSet hit inputs position state,
      disjoint_carried h hstate hsource hdisjoint (mem_newPositions.mp hposition).1, ?_,
      supplied_carried hsound h hop hdst hstate hposition hsupplied⟩
    show carriedSet hit inputs position op.targetContributors = _
    rw [hequal, carriedSet, Finset.image_union]
    rfl

end Soundness

/-! ## Outputs -/

section Outputs
variable {rank position q : ℕ} {sources : Finset ℕ}

/-- The contributions of ranks at a slice are at that slice. -/
theorem atSlice_sliceOf {ranks n : ℕ} (hq : q < n) (hnonempty : sources.Nonempty)
    (hsources : ∀ source ∈ sources, source < ranks) : AtSlice ranks n q (sliceOf n q sources) := by
  refine ⟨hnonempty.image _, fun value hvalue => ?_⟩
  obtain ⟨source, hsource, rfl⟩ := Finset.mem_image.mp hvalue
  rw [(contribution_spec hq).1, (contribution_spec hq).2]
  exact ⟨hsources source hsource, rfl⟩

/-- **What a rank must hold comes from what a rank of the stored schedule had to hold**, for the
operators that a request may name. -/
theorem requires_old (h : Admissible hit old inputs) (hkind : inputs.collective.kind ≠ .scatter)
    (howner : inputs.collective.kind = .allToAll ∨ inputs.collective.kind = .reduceScatter →
      SameOwner hit inputs position q)
    (hrequires : Requires inputs.collective inputs.rankCount inputs.sliceCount rank position sources) :
    ∃ oldRank < inputs.rankCount, ∃ oldSources, Requires old inputs.rankCount hit.sliceCount oldRank q oldSources ∧
      mappedRank hit.rankMapping oldRank = rank ∧ oldSources.image (mappedRank hit.rankMapping) = sources ∧
        oldSources.Nonempty ∧ ∀ source ∈ oldSources, source < inputs.rankCount := by
  obtain ⟨_, hold⟩ := h.oldOutputs
  simp only [requiredOutputs, Checked.bind_ok] at hold
  obtain ⟨hranks, -, hroot, -⟩ := validateOutputProblem_ok hold.choose_spec.1
  have hroot' : old.kind.rooted = true → ∃ root < inputs.rankCount, old.root = some root ∧
      inputs.collective.root = some (mappedRank hit.rankMapping root) := by
    intro hrooted
    obtain ⟨root, hsome, hlt⟩ := hroot hrooted
    obtain ⟨mapped, hmapped, hnew⟩ := h.mapped.root root hsome
    exact ⟨root, hlt, hsome, by rw [hnew, mappedRank, hmapped]; rfl⟩
  have hall : (Finset.range inputs.rankCount).Nonempty := Finset.nonempty_range_iff.mpr hranks.ne'
  have hone : ∀ source < inputs.rankCount, ∃ oldSource < inputs.rankCount,
      ({oldSource} : Finset ℕ).image (mappedRank hit.rankMapping) = {source} := by
    intro source hsource
    obtain ⟨r, hr, rfl⟩ := h.mapped.surj hsource
    exact ⟨r, hr, Finset.image_singleton _ _⟩
  unfold Requires at hrequires ⊢
  have hsame := h.mapped.kind
  cases hold : old.kind <;> rw [hold] at hsame hroot' <;> rw [hsame] at hrequires hkind howner
  case broadcast =>
    obtain ⟨hrank, rfl⟩ := hrequires
    obtain ⟨root, hlt, hsome, hnew⟩ := hroot' rfl
    obtain ⟨r, hr, rfl⟩ := h.mapped.surj hrank
    exact ⟨r, hr, _, ⟨hr, rfl⟩, rfl, by simp [hsome, hnew], by simp, by simpa [hsome] using hlt⟩
  case reduce =>
    obtain ⟨rfl, rfl⟩ := hrequires
    obtain ⟨root, hlt, hsome, hnew⟩ := hroot' rfl
    exact ⟨root, hlt, _, ⟨by simp [hsome], rfl⟩, by simp [hnew], h.mapped.image_range, hall, by simp⟩
  case scatter => exact absurd rfl hkind
  case gather =>
    obtain ⟨rfl, source, hsource, rfl⟩ := hrequires
    obtain ⟨root, hlt, hsome, hnew⟩ := hroot' rfl
    obtain ⟨oldSource, holdSource, himage⟩ := hone source hsource
    exact ⟨root, hlt, _, ⟨by simp [hsome], oldSource, holdSource, rfl⟩, by simp [hnew], himage, by simp,
      by simpa using holdSource⟩
  case allGather =>
    obtain ⟨hrank, source, hsource, rfl⟩ := hrequires
    obtain ⟨r, hr, rfl⟩ := h.mapped.surj hrank
    obtain ⟨oldSource, holdSource, himage⟩ := hone source hsource
    exact ⟨r, hr, _, ⟨hr, oldSource, holdSource, rfl⟩, rfl, himage, by simp, by simpa using holdSource⟩
  case allReduce =>
    obtain ⟨hrank, rfl⟩ := hrequires
    obtain ⟨r, hr, rfl⟩ := h.mapped.surj hrank
    exact ⟨r, hr, _, ⟨hr, rfl⟩, rfl, h.mapped.image_range, hall, by simp⟩
  case allToAll =>
    obtain ⟨rfl, source, hsource, rfl⟩ := hrequires
    obtain ⟨hlt, howned⟩ := howner (.inl rfl)
    obtain ⟨oldSource, holdSource, himage⟩ := hone source hsource
    exact ⟨_, hlt, _, ⟨rfl, oldSource, holdSource, rfl⟩, howned, himage, by simp, by simpa using holdSource⟩
  case reduceScatter =>
    obtain ⟨rfl, rfl⟩ := hrequires
    obtain ⟨hlt, howned⟩ := howner (.inr rfl)
    exact ⟨_, hlt, _, ⟨rfl, rfl⟩, howned, h.mapped.image_range, hall, by simp⟩

end Outputs

/-! ## The result -/

section Result
variable {pos : ℕ → ℕ}

/-- Where new slices come from: slices of the stored schedule, in the blocks of the same ranks. -/
structure Positions (hit : ScheduleHit) (inputs : ResolvedInput) (pos : ℕ → ℕ) : Prop where
  found : ∀ position < inputs.sliceCount, hit.oldPosition inputs position = .ok (pos position)
  lt : ∀ position < inputs.sliceCount, pos position < hit.sliceCount
  owner : inputs.collective.kind = .allToAll ∨ inputs.collective.kind = .reduceScatter →
    ∀ position < inputs.sliceCount, SameOwner hit inputs position (pos position)

theorem Admissible.positions (h : Admissible hit old inputs) : ∃ pos, Positions hit inputs pos := by
  choose! pos hlt hfound howner using fun position (hp : position < inputs.sliceCount) => h.oldPosition_ok hp
  exact ⟨pos, hfound, hlt, fun hblock position hp => howner position hp hblock⟩

variable (hsound : NetworkSound old inputs.rankCount hit.sliceCount hit.operations)

include hsound in
/-- Names of copies are not repeated. -/
theorem carriedAll_distinct : ((carriedAll hit inputs pos).map (·.operationId)).Nodup := by
  have hflat : (carriedAll hit inputs pos).map (·.operationId) = hit.operations.flatMap fun op =>
      (newPositions inputs pos (hit.sliceAt op)).map (identifier op.operationId) := by
    rw [carriedAll, List.map_flatMap]
    exact List.flatMap_congr fun op _ => by rw [List.map_map]; rfl
  rw [hflat, List.nodup_flatMap]
  refine ⟨fun op _ => (List.nodup_range.filter _).map fun a b hab => (identifier_inj hab).2, ?_⟩
  refine (List.pairwise_map.mp hsound.distinct).imp fun {op other} hne => ?_
  rw [Function.onFun, List.disjoint_left]
  intro name hname hname'
  obtain ⟨a, -, rfl⟩ := List.mem_map.mp hname
  obtain ⟨b, -, heq⟩ := List.mem_map.mp hname'
  exact hne (identifier_inj heq).1.symm

include hsound in
/-- **The adapted transfers are a sound network.** -/
theorem adapt_sound (h : Admissible hit old inputs) (hkind : inputs.collective.kind ≠ .scatter)
    (hpos : Positions hit inputs pos) :
    NetworkSound inputs.collective inputs.rankCount inputs.sliceCount (carriedAll hit inputs pos) where
  distinct := carriedAll_distinct hsound
  ordered := by
    obtain ⟨level, hlevel⟩ := hsound.ordered
    -- The name of a copy determines the name of the transfer, and so its level.
    obtain ⟨source, hsource⟩ : ∃ source : String → String, ∀ key position,
        source (identifier key position) = key := by
      refine ⟨fun name => Classical.epsilon fun key => ∃ position, identifier key position = name,
        fun key position => ?_⟩
      obtain ⟨_, hname⟩ := Classical.epsilon_spec (p := fun k => ∃ p, identifier k p = identifier key position)
        ⟨key, position, rfl⟩
      exact (identifier_inj hname).1
    refine ⟨fun name => level (source name), fun x hx key hkey => ?_⟩
    obtain ⟨op, hop, position, -, rfl⟩ := mem_carriedAll.mp hx
    obtain ⟨dependency, hdependency, rfl⟩ := Finset.mem_image.mp hkey
    show level (source (identifier dependency position)) < level (source (identifier op.operationId position))
    rw [hsource, hsource]
    exact hlevel op hop dependency hdependency
  sameSlice := by
    intro x hx
    obtain ⟨op, hop, position, hposition, rfl⟩ := mem_carriedAll.mp hx
    obtain ⟨q, -, hsource, htarget, hwaits⟩ := hsound.sameSlice op hop
    have hlt := (mem_newPositions.mp hposition).1
    refine ⟨position, hlt, atSlice_carried h hsource hlt, atSlice_carried h htarget hlt, fun key hkey => ?_⟩
    obtain ⟨dependency, hdependency, rfl⟩ := Finset.mem_image.mp hkey
    obtain ⟨other, hother, rfl, hslice⟩ := hwaits dependency hdependency
    refine ⟨hit.carried inputs other position, mem_carriedAll.mpr ⟨other, hother, position, ?_, rfl⟩, rfl,
      atSlice_carried h hslice hlt⟩
    rwa [sliceAt_dependency hsound hop hother hdependency]
  inRange := by
    intro x hx
    obtain ⟨op, hop, position, -, rfl⟩ := mem_carriedAll.mp hx
    obtain ⟨hsrc, hdst, hparticipants⟩ := hsound.inRange op hop
    refine ⟨h.mapped.lt hsrc, h.mapped.lt hdst, fun rank hrank => ?_⟩
    obtain ⟨r, hr, rfl⟩ := List.mem_map.mp hrank
    exact h.mapped.lt (hparticipants r hr)
  reads := by
    intro x hx
    obtain ⟨op, hop, position, hposition, rfl⟩ := mem_carriedAll.mp hx
    obtain ⟨q, -, hsource, -⟩ := hsound.sameSlice op hop
    obtain rfl : q = hit.sliceAt op := (logicalPosition_eq hsource).symm
    exact supplied_carried hsound h hop (hsound.inRange op hop).1 hsource hposition (hsound.reads op hop)
  delivers := by
    intro x hx
    obtain ⟨op, hop, position, hposition, rfl⟩ := mem_carriedAll.mp hx
    exact delivers_carried hsound h hop hposition
  outputs := by
    rintro ⟨slot, contributors⟩ hentry
    obtain ⟨position, hlt, sources, hrequires, rfl⟩ := mem_requiredEntries hentry
    obtain ⟨oldRank, holdRank, oldSources, hold, hrank, rfl, hnonempty, hin⟩ := requires_old h hkind
      (fun hblock => hpos.owner hblock position hlt) hrequires
    obtain ⟨offset, hmem⟩ := exists_requiredEntry (hpos.lt position hlt) hold
    have hslice := atSlice_sliceOf (hpos.lt position hlt) hnonempty hin
    rw [← carried_sliceOf (hpos.lt position hlt), ← hrank]
    obtain hstart | ⟨op, hop, hdst, htarget⟩ := hsound.outputs _ hmem
    · exact .inl (start_carried h holdRank hslice hlt hstart)
    · obtain ⟨q, -, hsource, hat, -⟩ := hsound.sameSlice op hop
      obtain rfl : q = hit.sliceAt op := (logicalPosition_eq hsource).symm
      have hq : hit.sliceAt op = pos position := hat.unique (htarget ▸ hslice)
      exact .inr ⟨hit.carried inputs op position,
        mem_carriedAll.mpr ⟨op, hop, position, mem_newPositions.mpr ⟨hlt, hq.symm⟩, rfl⟩,
        congrArg (mappedRank hit.rankMapping) hdst, congrArg (carriedSet hit inputs position) htarget⟩

end Result

end ScheduleHit

end VeriCCL
