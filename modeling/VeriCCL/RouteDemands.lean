import VeriCCL.RouteColumns
import VeriCCL.Identifiers

/-! # The demands of a request

`routing_demands` makes one demand of all output slots that need the same contributions.
What its mode says of the contributions and of the destinations (`RoutingDemand.OfRequest`)
comes from the collective's assignments (`requiredEntries_mem`). -/
namespace VeriCCL

/-! ## What collectives assign -/

section Entries
variable {spec : CollectiveSpec} {ranks n : ℕ}

@[simp] theorem leastContribution_singleton (c : ℕ) : leastContribution {c} = c := by
  rw [leastContribution, Finset.min_singleton]
  rfl

theorem mem_aggregate {l c : ℕ} : c ∈ aggregateContributors l ranks n ↔
    ∃ rank < ranks, rank * n + l = c := by
  simp [aggregateContributors]

theorem leastContribution_aggregate (hranks : 0 < ranks) (l : ℕ) :
    leastContribution (aggregateContributors l ranks n) = l := by
  have hmin : (aggregateContributors l ranks n).min = (l : WithTop ℕ) := by
    refine le_antisymm (Finset.min_le (mem_aggregate.mpr ⟨0, hranks, by simp⟩)) ?_
    refine Finset.le_min fun c hc => ?_
    obtain ⟨rank, -, rfl⟩ := mem_aggregate.mp hc
    exact WithTop.coe_le_coe.mpr (Nat.le_add_left _ _)
  rw [leastContribution, hmin]
  rfl

/-- A mode whose demands have one source. -/
def RouteMode.spreading (mode : RouteMode) : Prop := mode = .broadcast ∨ mode = .path

/-- A mode whose demands have one destination. -/
def RouteMode.pointed (mode : RouteMode) : Prop := mode = .path ∨ mode = .reduce

instance (mode : RouteMode) : Decidable mode.spreading := inferInstanceAs (Decidable (_ ∨ _))
instance (mode : RouteMode) : Decidable mode.pointed := inferInstanceAs (Decidable (_ ∨ _))

/-- What a collective assigns to a slot: a slice of one rank, or of all of them. -/
structure RequiredEntry (spec : CollectiveSpec) (ranks n : ℕ) (entry : OutputSlot × Finset ℕ)
    (l : ℕ) : Prop where
  position : l < n
  rank : entry.1.rank < ranks
  least : leastContribution entry.2 % n = l
  spread : spec.kind.routeMode.spreading → ∃ source < ranks, entry.2 = {source * n + l}
  gather : ¬ spec.kind.routeMode.spreading → entry.2 = aggregateContributors l ranks n
  pointed : spec.kind.routeMode.pointed →
    entry.1.rank = if spec.kind = .reduce then spec.root.getD 0 else l / (n / ranks)

theorem part_lt {l : ℕ} (hpart : n % ranks = 0) (hl : l < n) :
    l / (n / ranks) < ranks := by
  have hn : ranks * (n / ranks) = n := Nat.mul_div_cancel' (Nat.dvd_of_mod_eq_zero hpart)
  have hpos : 0 < n / ranks := by
    by_contra h
    have : n / ranks = 0 := Nat.le_zero.mp (not_lt.mp h)
    rw [this] at hn
    omega
  rwa [Nat.div_lt_iff_lt_mul hpos, hn]

/-- **What a collective assigns.** -/
theorem requiredEntries_mem (hvalid : validateOutputProblem spec ranks n = .ok ())
    {entry : OutputSlot × Finset ℕ} (hmem : entry ∈ requiredEntries spec ranks n) :
    ∃ l, RequiredEntry spec ranks n entry l := by
  obtain ⟨hranks, hn, hrooted, hpart⟩ := validateOutputProblem_ok hvalid
  have hroot : spec.kind.rooted = true → spec.root.getD 0 < ranks := by
    intro h
    obtain ⟨root, hsome, hlt⟩ := hrooted h
    rwa [hsome]
  have hslice : ∀ source l, l < n → leastContribution {source * n + l} % n = l := by
    intro source l hl
    rw [leastContribution_singleton, Nat.mul_comm, Nat.mul_add_mod, Nat.mod_eq_of_lt hl]
  have hall : ∀ l, l < n → leastContribution (aggregateContributors l ranks n) % n = l := by
    intro l hl
    rw [leastContribution_aggregate hranks, Nat.mod_eq_of_lt hl]
  unfold requiredEntries at hmem
  cases hkind : spec.kind with
  | broadcast =>
    simp only [hkind, List.mem_flatMap, List.mem_map, List.mem_range] at hmem
    obtain ⟨rank, hrank, l, hl, rfl⟩ := hmem
    exact ⟨l, hl, hrank, hslice _ l hl, fun _ => ⟨_, hroot (by rw [hkind]; rfl), rfl⟩,
      fun h => absurd (by rw [hkind]; exact .inl rfl) h,
      by simp [hkind, CollectiveKind.routeMode, RouteMode.pointed]⟩
  | reduce =>
    simp only [hkind, List.mem_map, List.mem_range] at hmem
    obtain ⟨l, hl, rfl⟩ := hmem
    exact ⟨l, hl, hroot (by rw [hkind]; rfl), hall l hl,
      by simp [hkind, CollectiveKind.routeMode, RouteMode.spreading], fun _ => rfl, by simp [hkind]⟩
  | scatter =>
    simp only [hkind, List.mem_map, List.mem_range] at hmem
    obtain ⟨l, hl, rfl⟩ := hmem
    exact ⟨l, hl, part_lt (hpart (by rw [hkind]; rfl)) hl, hslice _ l hl,
      fun _ => ⟨_, hroot (by rw [hkind]; rfl), rfl⟩,
      fun h => absurd (by rw [hkind]; exact .inl rfl) h,
      by simp [hkind, CollectiveKind.routeMode, RouteMode.pointed]⟩
  | gather =>
    simp only [hkind, List.mem_flatMap, List.mem_map, List.mem_range] at hmem
    obtain ⟨source, hsource, l, hl, rfl⟩ := hmem
    exact ⟨l, hl, hroot (by rw [hkind]; rfl), hslice _ l hl, fun _ => ⟨_, hsource, rfl⟩,
      fun h => absurd (by rw [hkind]; exact .inl rfl) h,
      by simp [hkind, CollectiveKind.routeMode, RouteMode.pointed]⟩
  | allGather =>
    simp only [hkind, List.mem_flatMap, List.mem_map, List.mem_range] at hmem
    obtain ⟨rank, hrank, source, hsource, l, hl, rfl⟩ := hmem
    exact ⟨l, hl, hrank, hslice _ l hl, fun _ => ⟨_, hsource, rfl⟩,
      fun h => absurd (by rw [hkind]; exact .inl rfl) h,
      by simp [hkind, CollectiveKind.routeMode, RouteMode.pointed]⟩
  | allReduce =>
    simp only [hkind, List.mem_flatMap, List.mem_map, List.mem_range] at hmem
    obtain ⟨rank, hrank, l, hl, rfl⟩ := hmem
    exact ⟨l, hl, hrank, hall l hl,
      by simp [hkind, CollectiveKind.routeMode, RouteMode.spreading], fun _ => rfl,
      by simp [hkind, CollectiveKind.routeMode, RouteMode.pointed]⟩
  | allToAll =>
    simp only [hkind, List.mem_flatMap, List.mem_map, List.mem_range] at hmem
    obtain ⟨source, hsource, l, hl, rfl⟩ := hmem
    exact ⟨l, hl, part_lt (hpart (by rw [hkind]; rfl)) hl, hslice _ l hl,
      fun _ => ⟨_, hsource, rfl⟩, fun h => absurd (by rw [hkind]; exact .inr rfl) h, by simp [hkind]⟩
  | reduceScatter =>
    simp only [hkind, List.mem_map, List.mem_range] at hmem
    obtain ⟨l, hl, rfl⟩ := hmem
    exact ⟨l, hl, part_lt (hpart (by rw [hkind]; rfl)) hl, hall l hl,
      by simp [hkind, CollectiveKind.routeMode, RouteMode.spreading], fun _ => rfl, by simp [hkind]⟩

end Entries

/-! ## Grouping the slots -/

/-- **A group has the slots that need its contributions**, in their order. -/
theorem groupedOutputs_spec (outputs : Dict OutputSlot (Finset ℕ)) :
    (groupedOutputs outputs).Distinct ∧ ∀ c, (groupedOutputs outputs).get? c =
      if (outputs.filter (·.2 = c)) = [] then none
      else some ((outputs.filter (·.2 = c)).map (·.1)) := by
  unfold groupedOutputs
  induction outputs using List.reverseRecOn with
  | nil => exact ⟨Dict.distinct_nil, fun c => rfl⟩
  | append_singleton outputs entry ih =>
    rw [List.foldl_append, List.foldl_cons, List.foldl_nil]
    refine ⟨ih.1.set _ _, fun c => ?_⟩
    rw [List.filter_append, Dict.get?_set]
    by_cases hc : entry.2 = c
    · subst hc
      have hone : [entry].filter (fun e => decide (e.2 = entry.2)) = [entry] := by simp
      rw [if_pos rfl, hone, if_neg (by simp), ih.2, List.map_append]
      split
      · next hnil => simp [hnil]
      · simp
    · have hnone : [entry].filter (fun e => decide (e.2 = c)) = [] := by simp [hc]
      rw [if_neg hc, hnone, List.append_nil, ih.2]

theorem mem_groupedOutputs {outputs : Dict OutputSlot (Finset ℕ)} {c : Finset ℕ}
    {slots : List OutputSlot} : (c, slots) ∈ groupedOutputs outputs ↔
      slots ≠ [] ∧ slots = (outputs.filter (·.2 = c)).map (·.1) := by
  obtain ⟨hdistinct, hget⟩ := groupedOutputs_spec outputs
  have hget := hget c
  constructor
  · intro hmem
    rw [Dict.get?_of_mem hdistinct hmem] at hget
    split at hget
    · cases hget
    · next hne =>
      obtain rfl := Option.some.inj hget
      exact ⟨by simpa using hne, rfl⟩
  · rintro ⟨hne, rfl⟩
    rw [if_neg (by simpa using hne)] at hget
    exact Dict.mem_of_get? hget

/-- The text of a padded number determines it. -/
theorem paddedText_inj {i j : ℕ} (h : paddedText i = paddedText j) : i = j := by
  have hvalue : ∀ i, Nat.ofDigitChars 10 (paddedText i).toList 0 = i := by
    intro i
    rw [paddedText, String.toList_append, String.toList_ofList]
    exact Identifiers.ofDigitChars_zeros _ i
  rw [← hvalue i, h, hvalue j]

/-! ## Demands -/

section Demands
variable {inputs : ResolvedInput} {demands : List RoutingDemand} {demand : RoutingDemand}

/-- What a demand of a request is like. -/
structure RoutingDemand.OfRequest (inputs : ResolvedInput) (demand : RoutingDemand) : Prop where
  mode : demand.mode = inputs.collective.kind.routeMode
  position : demand.logicalPosition < inputs.sliceCount
  spread : demand.mode.spreading → ∃ source < inputs.rankCount, demand.sourceRank = some source ∧
    demand.contributors = {source * inputs.sliceCount + demand.logicalPosition}
  gather : ¬ demand.mode.spreading → demand.contributors =
    aggregateContributors demand.logicalPosition inputs.rankCount inputs.sliceCount
  ranks : ∀ rank ∈ demand.destinations, rank < inputs.rankCount
  pointed : demand.mode.pointed → ∃ rank, demand.destinations = [rank]

/-- Where demands come from. -/
theorem routingDemands_ok (h : routingDemands inputs = .ok demands) : ∃ outputs, ∃ groups : Dict (Finset ℕ) (List OutputSlot),
    requiredOutputs inputs.collective inputs.rankCount inputs.sliceCount = .ok outputs ∧
      groups.Perm (groupedOutputs outputs) ∧
        demands = groups.mapIdx (RoutingDemand.ofGroup inputs) := by
  simp only [routingDemands, Checked.bind_ok, Checked.pure_ok] at h
  obtain ⟨outputs, houtputs, rfl⟩ := h
  exact ⟨outputs, _, houtputs, List.mergeSort_perm _ _, rfl⟩

/-- The demand of a group. -/
theorem ofGroup_ofRequest {outputs : Dict OutputSlot (Finset ℕ)}
    (houtputs : requiredOutputs inputs.collective inputs.rankCount inputs.sliceCount = .ok outputs)
    {c : Finset ℕ} {slots : List OutputSlot} (hmem : (c, slots) ∈ groupedOutputs outputs) (i : ℕ) :
    (RoutingDemand.ofGroup inputs i (c, slots)).OfRequest inputs := by
  obtain ⟨hne, hslots⟩ := mem_groupedOutputs.mp hmem
  simp only [requiredOutputs, Checked.bind_ok, Checked.pure_ok] at houtputs
  obtain ⟨_, hvalid, rfl⟩ := houtputs
  have hentries : ∀ slot ∈ slots, ∃ l,
      RequiredEntry inputs.collective inputs.rankCount inputs.sliceCount (slot, c) l := by
    intro slot hslot
    rw [hslots] at hslot
    obtain ⟨entry, hentry, rfl⟩ := List.mem_map.mp hslot
    obtain ⟨hentry, hc⟩ := List.mem_filter.mp hentry
    have hget := Dict.get?_of_mem (Dict.distinct_ofList _) hentry
    rw [← of_decide_eq_true hc]
    exact requiredEntries_mem hvalid (Dict.mem_of_ofList_get? hget)
  obtain ⟨slot, hslot⟩ := List.exists_mem_of_ne_nil _ hne
  obtain ⟨l, hl⟩ := hentries slot hslot
  have hleast : leastContribution c % inputs.sliceCount = l := hl.least
  have hranks : ∀ rank, rank ∈ ((slots.map (·.rank)).toFinset.sort (· ≤ ·)) ↔
      ∃ slot ∈ slots, slot.rank = rank := by
    intro rank
    simp
  refine ⟨rfl, hleast.trans_lt hl.position, fun hspread => ?_, fun hgather => ?_,
    fun rank hrank => ?_, fun hpointed => ?_⟩
  · obtain ⟨source, hsource, hcontributors⟩ := hl.spread hspread
    obtain rfl : c = {source * inputs.sliceCount + l} := hcontributors
    refine ⟨source, hsource, ?_, ?_⟩
    · simp only [RoutingDemand.ofGroup]
      rw [if_pos (Finset.card_singleton _), leastContribution_singleton, Nat.mul_comm,
        Nat.mul_add_div inputs.sliceCount_pos, Nat.div_eq_of_lt hl.position, Nat.add_zero]
    · simp only [RoutingDemand.ofGroup, hleast]
  · simp only [RoutingDemand.ofGroup, hleast]
    exact hl.gather hgather
  · obtain ⟨slot', hslot', rfl⟩ := (hranks rank).mp hrank
    obtain ⟨l', hl'⟩ := hentries slot' hslot'
    exact hl'.rank
  · -- all slots that need the same contributions are on one rank
    refine ⟨slot.rank, ?_⟩
    have hset : (slots.map (·.rank)).toFinset = {slot.rank} := by
      ext rank
      simp only [List.mem_toFinset, List.mem_map, Finset.mem_singleton]
      constructor
      · rintro ⟨slot', hslot', rfl⟩
        obtain ⟨l', hl'⟩ := hentries slot' hslot'
        have hsame : l' = l := hl'.least.symm.trans hl.least
        have h1 : slot'.rank = _ := hl'.pointed hpointed
        have h2 : slot.rank = _ := hl.pointed hpointed
        rw [h1, h2, hsame]
      · rintro rfl
        exact ⟨slot, hslot, rfl⟩
    show (slots.map (·.rank)).toFinset.sort (· ≤ ·) = [slot.rank]
    rw [hset, Finset.sort_singleton]

/-- **Demands are what their mode says.** -/
theorem routingDemands_ofRequest (h : routingDemands inputs = .ok demands) (hmem : demand ∈ demands) :
    demand.OfRequest inputs := by
  obtain ⟨outputs, groups, houtputs, hperm, rfl⟩ := routingDemands_ok h
  obtain ⟨i, hi, rfl⟩ := List.mem_mapIdx.mp hmem
  exact ofGroup_ofRequest houtputs (hperm.mem_iff.mp (List.getElem_mem hi)) i

/-- How demands are called. -/
theorem routingDemands_id (h : routingDemands inputs = .ok demands) (hmem : demand ∈ demands) :
    ∃ i, demand.demandId = "d-" ++ paddedText i := by
  obtain ⟨outputs, groups, houtputs, hperm, rfl⟩ := routingDemands_ok h
  obtain ⟨i, hi, rfl⟩ := List.mem_mapIdx.mp hmem
  exact ⟨i, rfl⟩

/-- A demand's identity ends at the next dash. -/
theorem demandText_inj {i j : ℕ} {a b : String}
    (h : "d-" ++ paddedText i ++ ("-" ++ a) = "d-" ++ paddedText j ++ ("-" ++ b)) : i = j ∧ a = b := by
  have hdash : ∀ i, '-' ∉ (paddedText i).toList := by
    intro i hmem
    rw [paddedText, String.toList_append, String.toList_ofList, List.mem_append] at hmem
    rcases hmem with hmem | hmem
    · exact absurd (List.eq_of_mem_replicate hmem) (by decide)
    · exact Identifiers.dash_notMem_nat i hmem
  have hlist := congrArg String.toList h
  have hone : ("-" : String).toList = ['-'] := by decide
  simp only [String.toList_append, List.append_assoc, List.append_right_inj, hone,
    List.singleton_append] at hlist
  obtain ⟨h1, h2⟩ := Identifiers.list_separator_inj (hdash i) (hdash j) hlist
  exact ⟨paddedText_inj (String.ext h1), String.ext h2⟩

/-- Demands have different identities. -/
theorem routingDemands_nodup (h : routingDemands inputs = .ok demands) :
    (demands.map (·.demandId)).Nodup := by
  obtain ⟨outputs, groups, houtputs, hperm, rfl⟩ := routingDemands_ok h
  have hids : (groups.mapIdx (RoutingDemand.ofGroup inputs)).map (·.demandId) =
      (List.range groups.length).map fun i => "d-" ++ paddedText i := by
    rw [List.mapIdx_eq_zipIdx_map, List.map_map, List.range_eq_range', ← List.zipIdx_map_snd,
      List.map_map]
    rfl
  rw [hids]
  refine List.nodup_range.map fun i j hij => paddedText_inj ?_
  have hlist := congrArg String.toList hij
  simp only [String.toList_append, List.append_right_inj] at hlist
  exact String.ext hlist

/-- The slots of demands with what they need. -/
def outputEntries (demands : List RoutingDemand) : List (OutputSlot × Finset ℕ) :=
  demands.flatMap fun demand => demand.outputSlots.map fun slot => (slot, demand.contributors)

/-- The groups have all entries, each once. -/
theorem groupedOutputs_perm {outputs : Dict OutputSlot (Finset ℕ)} (hdistinct : outputs.Distinct) :
    ((groupedOutputs outputs).flatMap fun group => group.2.map fun slot => (slot, group.1)).Perm
      outputs := by
  have hnodup : outputs.Nodup := List.Nodup.of_map _ hdistinct
  refine (List.perm_ext_iff_of_nodup ?_ hnodup).mpr ?_
  · rw [List.nodup_flatMap]
    refine ⟨fun group hgroup => ?_, ?_⟩
    · obtain ⟨-, hslots⟩ := mem_groupedOutputs.mp hgroup
      rw [hslots]
      refine List.Nodup.map (fun a b hab => (Prod.ext_iff.mp hab).1) ?_
      exact hdistinct.sublist (List.filter_sublist.map _)
    · have hkeys : (groupedOutputs outputs).Pairwise fun a b => a.1 ≠ b.1 :=
        List.pairwise_map.mp (groupedOutputs_spec outputs).1
      refine hkeys.imp fun {a b} hne => ?_
      rw [Function.onFun, List.disjoint_left]
      intro entry ha hb
      obtain ⟨_, -, rfl⟩ := List.mem_map.mp ha
      obtain ⟨_, -, heq⟩ := List.mem_map.mp hb
      exact hne (Prod.ext_iff.mp heq).2.symm
  · intro entry
    rw [List.mem_flatMap]
    constructor
    · rintro ⟨group, hgroup, hentry⟩
      obtain ⟨slot, hslot, rfl⟩ := List.mem_map.mp hentry
      obtain ⟨-, hslots⟩ := mem_groupedOutputs.mp hgroup
      rw [hslots] at hslot
      obtain ⟨entry, hmem, rfl⟩ := List.mem_map.mp hslot
      obtain ⟨hmem, hc⟩ := List.mem_filter.mp hmem
      rw [← of_decide_eq_true hc]
      exact hmem
    · intro hentry
      have hslot : entry.1 ∈ (outputs.filter (·.2 = entry.2)).map (·.1) :=
        List.mem_map_of_mem (List.mem_filter.mpr ⟨hentry, by simp⟩)
      refine ⟨(entry.2, _), mem_groupedOutputs.mpr ⟨List.ne_nil_of_mem hslot, rfl⟩, ?_⟩
      exact List.mem_map.mpr ⟨entry.1, hslot, rfl⟩

/-- **The demands have the slots that the collective requires**, each once. -/
theorem routingDemands_outputs (h : routingDemands inputs = .ok demands) : ∃ required,
    requiredOutputs inputs.collective inputs.rankCount inputs.sliceCount = .ok required ∧
      (Dict.ofList (outputEntries demands)).Same required ∧
      (Dict.ofList (outputEntries demands)).length = (demands.map (·.outputSlots.length)).sum := by
  obtain ⟨outputs, groups, houtputs, hperm, rfl⟩ := routingDemands_ok h
  have hdistinct : outputs.Distinct := by
    simp only [requiredOutputs, Checked.bind_ok, Checked.pure_ok] at houtputs
    obtain ⟨-, -, rfl⟩ := houtputs
    exact Dict.distinct_ofList _
  have hentries : (outputEntries (groups.mapIdx (RoutingDemand.ofGroup inputs))).Perm outputs := by
    have hgroups : outputEntries (groups.mapIdx (RoutingDemand.ofGroup inputs)) =
        groups.flatMap fun group => (group.2.mergeSort OutputSlot.le).map fun slot => (slot, group.1) := by
      rw [outputEntries, List.mapIdx_eq_zipIdx_map, List.flatMap_map]
      conv_rhs => rw [← List.zipIdx_map_fst 0 groups, List.flatMap_map]
      rfl
    rw [hgroups]
    refine List.Perm.trans ?_ (groupedOutputs_perm hdistinct)
    refine (List.Perm.flatMap_left _ fun group _ => ?_).trans (hperm.flatMap_right _)
    exact (List.mergeSort_perm _ _).map _
  have hnodup : ((outputEntries (groups.mapIdx (RoutingDemand.ofGroup inputs))).map (·.1)).Nodup :=
    (hentries.map _).nodup_iff.mpr hdistinct
  refine ⟨outputs, houtputs, fun slot => ?_, ?_⟩
  · refine Option.ext fun c => ?_
    rw [Dict.ofList_get? hnodup, hentries.mem_iff]
    exact ⟨Dict.get?_of_mem hdistinct, Dict.mem_of_get?⟩
  · have hkeys : (Dict.ofList (outputEntries (groups.mapIdx (RoutingDemand.ofGroup inputs)))).keys.Perm
        ((outputEntries (groups.mapIdx (RoutingDemand.ofGroup inputs))).map (·.1)) :=
      (List.perm_ext_iff_of_nodup (Dict.distinct_ofList _) hnodup).mpr fun _ => Dict.mem_keys_ofList
    have hlength := hkeys.length_eq
    rw [Dict.keys, List.length_map, List.length_map] at hlength
    rw [hlength, outputEntries, List.length_flatMap]
    simp

end Demands

end VeriCCL
