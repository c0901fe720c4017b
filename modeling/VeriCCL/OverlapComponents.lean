import VeriCCL.TraceCausality
import VeriCCL.Identifiers

/-! # Tails and groups are the pairwise ones

`tails` compares every key with the largest bounds only (`tails_exact`).  `overlapGroups` compares
every observation with the one that ends last: its groups are the blocks of the sweep
(`overlapGroups_spec`), and these are the components of the overlap graph unless an instant is
swept after an observation that begins with it and is inside no other (`groupsExact_iff`). -/
namespace VeriCCL

/-! ## Tails -/

/-- The tails are those that the bounds of the other keys leave, each once. -/
structure TailsExact (bounds : Dict String TimeBounds) : Prop where
  possible_nodup : (tails bounds).1.Nodup
  definite_nodup : (tails bounds).2.Nodup
  possible : ∀ key, key ∈ (tails bounds).1 ↔
    ∃ row, (key, row) ∈ bounds ∧ ∀ other ∈ bounds, other.1 ≠ key → other.2.lo ≤ row.hi
  definite : ∀ key, key ∈ (tails bounds).2 ↔
    ∃ row, (key, row) ∈ bounds ∧ ∀ other ∈ bounds, other.1 ≠ key → other.2.hi ≤ row.lo

/-- Of rows in descending order, the first of another key has the largest bound. -/
theorem otherLatest_le {rows : List (ℚ ×ₗ String)} (hsorted : rows.Pairwise fun a b => b ≤ a)
    (hnodup : (rows.map fun row => (ofLex row).2).Nodup) {key : String} {bound : ℚ} :
    (∀ other, otherLatest rows key = some other → other ≤ bound) ↔
      ∀ row ∈ rows, (ofLex row).2 ≠ key → (ofLex row).1 ≤ bound := by
  have hfirst : ∀ {a b : ℚ ×ₗ String}, b ≤ a → (ofLex b).1 ≤ (ofLex a).1 := fun h =>
    (Prod.Lex.le_iff.mp h).elim le_of_lt fun h => h.1.le
  match rows with
  | [] => simp [otherLatest]
  | first :: rest =>
    rw [List.pairwise_cons] at hsorted
    rw [List.map_cons, List.nodup_cons] at hnodup
    by_cases hkey : (ofLex first).2 = key
    · have hothers : ∀ row ∈ rest, (ofLex row).2 ≠ key := fun row hrow h =>
        hnodup.1 (List.mem_map.mpr ⟨row, hrow, h.trans hkey.symm⟩)
      match rest with
      | [] => simp [otherLatest, hkey]
      | second :: rest =>
        have hnext : otherLatest (first :: second :: rest) key = some (ofLex second).1 := by
          simp [otherLatest, hkey]
        rw [hnext]
        constructor
        · intro h row hrow hne
          rcases List.mem_cons.mp hrow with rfl | hrow
          · exact absurd hkey hne
          · rcases List.mem_cons.mp hrow with rfl | hrow
            · exact h _ rfl
            · exact (hfirst ((List.pairwise_cons.mp hsorted.2).1 row hrow)).trans (h _ rfl)
        · intro h other hother
          obtain rfl := Option.some.inj hother
          exact h second (by simp) (hothers second List.mem_cons_self)
    · have hnext : otherLatest (first :: rest) key = some (ofLex first).1 := by
        simp [otherLatest, hkey]
      rw [hnext]
      constructor
      · intro h row hrow _
        rcases List.mem_cons.mp hrow with rfl | hrow
        · exact h _ rfl
        · exact (hfirst (hsorted.1 row hrow)).trans (h _ rfl)
      · intro h other hother
        obtain rfl := Option.some.inj hother
        exact h first List.mem_cons_self hkey

section Tails
variable {bounds : Dict String TimeBounds}

/-- A key begins after every other has ended exactly if the sorted bounds say so. -/
theorem isDefinite_iff (hd : bounds.Distinct) {key : String} {row : TimeBounds}
    (hrow : (key, row) ∈ bounds) :
    isDefinite bounds ((bounds.map fun row => toLex (row.2.hi, row.1)).insertionSort fun a b => b ≤ a)
        key = true ↔
      ∀ other ∈ bounds, other.1 ≠ key → other.2.hi ≤ row.lo := by
  set rows := (bounds.map fun row => toLex (row.2.hi, row.1)).insertionSort fun a b => b ≤ a
    with hrows
  have hperm : rows.Perm (bounds.map fun row => toLex (row.2.hi, row.1)) := List.perm_insertionSort _ _
  have hsorted : rows.Pairwise fun a b => b ≤ a := by
    have : Std.Total fun a b : ℚ ×ₗ String => b ≤ a := ⟨fun a b => le_total b a⟩
    have : IsTrans (ℚ ×ₗ String) fun a b => b ≤ a := ⟨fun _ _ _ h h' => h'.trans h⟩
    exact List.pairwise_insertionSort _ _
  have hnodup : (rows.map fun row => (ofLex row).2).Nodup := by
    rw [(hperm.map _).nodup_iff, List.map_map]
    exact hd
  have hmeans : isDefinite bounds rows key = true ↔
      ∀ other, otherLatest rows key = some other → other ≤ row.lo := by
    rw [isDefinite, Dict.get?_of_mem hd hrow]
    cases otherLatest rows key <;> simp
  rw [hmeans, otherLatest_le hsorted hnodup]
  constructor
  · intro h other hother hne
    exact h (toLex (other.2.hi, other.1))
      (hperm.mem_iff.mpr (List.mem_map.mpr ⟨other, hother, rfl⟩)) hne
  · intro h latest hlatest hne
    obtain ⟨other, hother, rfl⟩ := List.mem_map.mp (hperm.mem_iff.mp hlatest)
    exact h other hother hne

/-- **The tails are exact.** -/
theorem tails_exact (hd : bounds.Distinct) : TailsExact bounds := by
  by_cases hempty : bounds = []
  · subst hempty
    constructor <;> simp [tails]
  have htails : tails bounds = _ := if_neg hempty
  have hsame : ∀ {key : String} {row : TimeBounds} {other : String × TimeBounds},
      (key, row) ∈ bounds → other ∈ bounds → other.1 = key → other.2 = row := by
    rintro key row ⟨_, other⟩ hrow hother rfl
    exact Option.some.inj ((Dict.get?_of_mem hd hother).symm.trans (Dict.get?_of_mem hd hrow))
  have hpossible : ∀ key, key ∈ (tails bounds).1 ↔
      ∃ row, (key, row) ∈ bounds ∧ ∀ other ∈ bounds, other.1 ≠ key → other.2.lo ≤ row.hi := by
    intro key
    rw [htails]
    simp only [mem_sortStrings, List.mem_map, List.mem_filter, decide_eq_true_eq, Prod.exists,
      exists_and_right, exists_eq_right]
    refine exists_congr fun row => and_congr_right fun hrow => ?_
    constructor
    · intro h other hother _
      exact (le_maxDefault (List.mem_map.mpr ⟨_, List.mem_map.mpr ⟨other, hother, rfl⟩, rfl⟩)).trans h
    · intro h
      have hne : bounds.values.map (·.lo) ≠ [] := by simpa [Dict.values] using hempty
      obtain ⟨bound, hbound, heq⟩ := List.mem_map.mp (maxDefault_mem (a := 0) hne)
      obtain ⟨other, hother, rfl⟩ := List.mem_map.mp hbound
      rw [← heq]
      by_cases hkey : other.1 = key
      · rw [hsame hrow hother hkey]
        exact row.valid
      · exact h other hother hkey
  refine ⟨?_, ?_, hpossible, fun key => ?_⟩
  · rw [htails]
    exact nodup_sortStrings (List.Nodup.sublist (List.Sublist.map _ List.filter_sublist) hd)
  · rw [htails]
    exact (nodup_sortStrings
      (List.Nodup.sublist (List.Sublist.map _ List.filter_sublist) hd)).filter _
  · have hdefinite : key ∈ (tails bounds).2 ↔ key ∈ (tails bounds).1 ∧ isDefinite bounds
        ((bounds.map fun row => toLex (row.2.hi, row.1)).insertionSort fun a b => b ≤ a) key = true := by
      rw [htails]
      exact List.mem_filter
    rw [hdefinite, hpossible]
    constructor
    · rintro ⟨⟨row, hrow, -⟩, h⟩
      exact ⟨row, hrow, (isDefinite_iff hd hrow).mp h⟩
    · rintro ⟨row, hrow, h⟩
      refine ⟨⟨row, hrow, fun other hother hne => ?_⟩, (isDefinite_iff hd hrow).mpr h⟩
      calc other.2.lo ≤ other.2.hi := other.2.valid
        _ ≤ row.lo := h other hother hne
        _ ≤ row.hi := row.valid

end Tails

/-! ## Groups -/

theorem overlapIdentity_inj {i j : ℕ} (h : overlapIdentity i = overlapIdentity j) : i = j := by
  have hlist := congrArg String.toList h
  simp only [overlapIdentity, String.toList_append, List.append_right_inj] at hlist
  rw [← Identifiers.ofDigitChars_zeros (6 - (toString i).length) i,
    ← Identifiers.ofDigitChars_zeros (6 - (toString j).length) j]
  simpa using congrArg (fun digits => Nat.ofDigitChars 10 digits 0) hlist

/-- The first instant that an observation may cover. -/
def Observation.earliest (o : Observation) : ℚ := o.start.lo

/-- The last instant that an observation may cover. -/
def Observation.latest (o : Observation) : ℚ := o.stop.hi

/-- Two observations have more than an instant in common at all times that their bounds admit. -/
def AlwaysOverlap (a b : Observation) : Prop :=
  ∀ start ∈ Set.Icc a.start.lo a.start.hi, ∀ stop ∈ Set.Icc a.stop.lo a.stop.hi,
    ∀ start' ∈ Set.Icc b.start.lo b.start.hi, ∀ stop' ∈ Set.Icc b.stop.lo b.stop.hi,
      max start start' < min stop stop'

theorem alwaysOverlap_of_certain {a b : Observation} (h : a.certain b) : AlwaysOverlap a b := by
  intro start hstart stop hstop start' hstart' stop' hstop'
  calc max start start' ≤ max a.start.hi b.start.hi := max_le_max hstart.2 hstart'.2
    _ < min a.stop.lo b.stop.lo := h
    _ ≤ min stop stop' := min_le_min hstop.1 hstop'.1

/-- A definite witness is one at all times. -/
def OverlapWitness.Justified (part : List Observation) (witness : OverlapWitness) : Prop :=
  witness.overlap = .definite →
    ∃ a ∈ part, ∃ b ∈ part, a.key = witness.left ∧ b.key = witness.right ∧ AlwaysOverlap a b

/-- A group tells of some observations. -/
structure OverlapGroup.Of (resource clockDomain : String) (part : List Observation)
    (group : OverlapGroup) : Prop where
  resource : group.resource = resource
  clockDomain : group.clockDomain = clockDomain
  members : group.operationIds = part.map (·.key)
  witnesses : ∀ witness ∈ group.witnesses, witness.Justified part

/-- The groups are the components of the graphs of possible overlaps, one graph for a resource and
a clock: two observations are joined if each may begin before the other ends. -/
structure GroupsExact (sets : Dict (String × String) (List Observation))
    (groups : Dict String OverlapGroup) : Prop where
  components : ∀ entry ∈ sets, ∃ parts : List (List (Fin entry.2.length)),
    IntervalSweep.Components (IntervalSweep.Meets (fun i => (entry.2.get i).earliest)
      fun i => (entry.2.get i).latest) parts ∧
    List.Forall₂ (OverlapGroup.Of entry.1.1 entry.1.2) (parts.map (·.map entry.2.get))
      (groups.values.filter fun group => (group.resource, group.clockDomain) = entry.1)
  known : ∀ group ∈ groups.values, (group.resource, group.clockDomain) ∈ sets.keys

/-- The parts of a sweep over observations. -/
abbrev observedBlocks (observations : List Observation) : List (List Observation) :=
  IntervalSweep.blocks Observation.earliest Observation.latest observations

/-- The groups that were added are those of some parts. -/
def Added (resource clockDomain : String) (before : Dict String OverlapGroup)
    (parts : List (List Observation)) (groups : Dict String OverlapGroup) : Prop :=
  ∃ added, groups = before ++ added ∧
    List.Forall₂ (OverlapGroup.Of resource clockDomain) (parts.filter fun part => 1 < part.length)
      (added.map (·.2))

/-- Groups are named in order. -/
def Named (groups : Dict String OverlapGroup) : Prop :=
  groups.keys = (List.range groups.length).map overlapIdentity

/-- Operations are added to groups, and none is added or removed. -/
def SameOperations (operations after : Dict String (List String)) : Prop :=
  ∀ key, key ∈ after.keys ↔ key ∈ operations.keys

section Groups
variable {resource clockDomain : String} {before : Dict String OverlapGroup}
  {operations : Dict String (List String)} {s : OverlapSweep}
  {t : IntervalSweep.State Observation}

theorem Named.fresh {groups : Dict String OverlapGroup} (h : Named groups) :
    overlapIdentity groups.length ∉ groups.keys := by
  rw [h]
  intro hmem
  obtain ⟨i, hi, heq⟩ := List.mem_map.mp hmem
  rw [overlapIdentity_inj heq, List.mem_range] at hi
  exact absurd hi (lt_irrefl _)

theorem Named.set {groups : Dict String OverlapGroup} (h : Named groups) (group : OverlapGroup) :
    groups.set (overlapIdentity groups.length) group =
        groups ++ [(overlapIdentity groups.length, group)] ∧
      Named (groups ++ [(overlapIdentity groups.length, group)]) := by
  refine ⟨Dict.set_of_notMem h.fresh group, ?_⟩
  rw [Named, Dict.keys, List.map_append, List.length_append, List.length_singleton,
    List.range_succ, List.map_append]
  exact congrArg (· ++ _) h

/-- The operations of a group are told of it. -/
theorem foldlM_joinGroup (identity : String) {members : List String}
    {current : Dict String (List String)} (hmembers : ∀ key ∈ members, key ∈ current.keys) :
    ∃ after, members.foldlM (joinGroup identity) current = .ok after ∧
      SameOperations current after := by
  induction members generalizing current with
  | nil => exact ⟨current, rfl, fun key => Iff.rfl⟩
  | cons key members ih =>
    obtain ⟨groups, hgroups⟩ := Dict.get?_isSome.mpr (hmembers key List.mem_cons_self)
    have hjoin : joinGroup identity current key = .ok (current.set key (groups ++ [identity])) :=
      Checked.bind_ok.mpr ⟨groups, Checked.required_ok.mpr hgroups, rfl⟩
    have hsame : ∀ other, other ∈ (current.set key (groups ++ [identity])).keys ↔
        other ∈ current.keys := by
      intro other
      rw [Dict.mem_keys_set]
      constructor
      · rintro (rfl | h)
        · exact hmembers other List.mem_cons_self
        · exact h
      · exact .inr
    obtain ⟨after, hafter, hkeys⟩ := ih fun other hother =>
      (hsame other).mpr (hmembers other (List.mem_cons_of_mem _ hother))
    refine ⟨after, ?_, fun other => (hkeys other).trans (hsame other)⟩
    rw [List.foldlM_cons]
    exact Checked.bind_ok.mpr ⟨_, hjoin, hafter⟩

/-- The loop over the observations of a resource and the sweep that cuts them into blocks. -/
structure OverlapSweep.Follows (resource clockDomain : String) (before : Dict String OverlapGroup)
    (operations : Dict String (List String)) (s : OverlapSweep)
    (t : IntervalSweep.State Observation) : Prop where
  members : s.members = t.members.map (·.key)
  bridge : s.bridge = t.bridge
  witnesses : ∀ witness ∈ s.witnesses, witness.Justified t.members
  groups : Added resource clockDomain before t.done s.groups
  named : Named s.groups
  known : SameOperations operations s.operations

theorem Added.snoc {parts : List (List Observation)} {groups : Dict String OverlapGroup}
    (h : Added resource clockDomain before parts groups) {part : List Observation}
    {group : OverlapGroup} (hpart : 1 < part.length) (hgroup : group.Of resource clockDomain part)
    (identity : String) :
    Added resource clockDomain before (parts ++ [part]) (groups ++ [(identity, group)]) := by
  obtain ⟨added, rfl, hadded⟩ := h
  refine ⟨added ++ [(identity, group)], List.append_assoc _ _ _, ?_⟩
  rw [List.filter_append, List.map_append]
  have hkept : [part].filter (fun part => 1 < part.length) = [part] := by simp [hpart]
  rw [hkept]
  exact List.rel_append hadded (.cons hgroup .nil)

theorem Added.skip {parts : List (List Observation)} {groups : Dict String OverlapGroup}
    (h : Added resource clockDomain before parts groups) {part : List Observation}
    (hpart : ¬ 1 < part.length) : Added resource clockDomain before (parts ++ [part]) groups := by
  obtain ⟨added, rfl, hadded⟩ := h
  refine ⟨added, rfl, ?_⟩
  rw [List.filter_append, List.filter_cons_of_neg (by simpa using hpart), List.filter_nil,
    List.append_nil]
  exact hadded

/-- **`finish` adds the block at hand to the groups** if it has two members. -/
theorem OverlapSweep.Follows.finish (h : s.Follows resource clockDomain before operations t)
    (hknown : ∀ o ∈ t.members, o.key ∈ operations.keys) :
    ∃ last, s.finish resource clockDomain = .ok last ∧
      Added resource clockDomain before t.blocks last.groups ∧ Named last.groups ∧
      SameOperations operations last.operations := by
  have hlength : s.members.length = t.members.length := by rw [h.members, List.length_map]
  unfold OverlapSweep.finish
  by_cases hseveral : 1 < t.members.length
  · rw [if_pos (hlength ▸ hseveral)]
    have hmembers : ∀ key ∈ s.members, key ∈ s.operations.keys := by
      intro key hkey
      rw [h.members] at hkey
      obtain ⟨o, ho, rfl⟩ := List.mem_map.mp hkey
      exact (h.known o.key).mpr (hknown o ho)
    obtain ⟨after, hafter, hsame⟩ := foldlM_joinGroup (overlapIdentity s.groups.length) hmembers
    obtain ⟨hset, hnamed⟩ := h.named.set
      ⟨resource, clockDomain, s.members, s.witnesses, overlapInterpretation⟩
    refine ⟨_, Checked.bind_ok.mpr ⟨after, hafter, rfl⟩, ?_⟩
    refine ⟨?_, ?_, fun key => (hsame key).trans (h.known key)⟩
    · show Added _ _ _ _ (s.groups.set _ _)
      rw [hset]
      exact h.groups.snoc hseveral ⟨rfl, rfl, h.members, h.witnesses⟩ _
    · show Named (s.groups.set _ _)
      rw [hset]
      exact hnamed
  · rw [if_neg (hlength ▸ hseveral)]
    exact ⟨s, rfl, h.groups.skip hseveral, h.named, h.known⟩

/-- A component begins where a block does. -/
theorem OverlapSweep.Follows.restart (h : s.Follows resource clockDomain before operations t)
    (hknown : ∀ o ∈ t.members, o.key ∈ operations.keys) (item : Observation) :
    ∃ next, s.restart resource clockDomain item = .ok next ∧
      next.Follows resource clockDomain before operations ⟨t.blocks, [item], some item⟩ := by
  obtain ⟨last, hlast, hgroups, hnamed, hsame⟩ := h.finish hknown
  refine ⟨_, Checked.bind_ok.mpr ⟨last, hlast, rfl⟩, ?_⟩
  exact ⟨rfl, rfl, fun witness hwitness => (by cases hwitness), hgroups, hnamed, hsame⟩

/-- **A turn of the loop is a turn of the sweep.** -/
theorem OverlapSweep.Follows.visit (h : s.Follows resource clockDomain before operations t)
    (hbridge : ∀ b, t.bridge = some b → b ∈ t.members)
    (hknown : ∀ o ∈ t.members, o.key ∈ operations.keys) (item : Observation) :
    ∃ next, s.visit resource clockDomain item = .ok next ∧
      next.Follows resource clockDomain before operations
        (t.visit Observation.earliest Observation.latest item) := by
  obtain ⟨next, hnext, hfollows⟩ := h.restart hknown item
  rcases t.visit_cases Observation.earliest Observation.latest item with
    ⟨hcut, hvisit⟩ | ⟨b, hb, hlt, hvisit⟩
  · have hrestart : s.visit resource clockDomain item = s.restart resource clockDomain item := by
      unfold OverlapSweep.visit
      rw [h.bridge]
      cases hb : t.bridge with
      | none => rfl
      | some b => exact if_pos (hcut b hb)
    rw [hrestart, hvisit]
    exact ⟨next, hnext, hfollows⟩
  · rw [hvisit]
    refine ⟨_, by rw [OverlapSweep.visit, h.bridge, hb]; exact if_neg (not_le.mpr hlt), ?_⟩
    refine ⟨?_, rfl, ?_, h.groups, h.named, h.known⟩
    · show s.members ++ [item.key] = (t.members ++ [item]).map (·.key)
      rw [h.members, List.map_append]
      rfl
    · intro witness hwitness hdefinite
      rcases List.mem_append.mp hwitness with hwitness | hwitness
      · obtain ⟨a, ha, c, hc, hrest⟩ := h.witnesses witness hwitness hdefinite
        exact ⟨a, List.mem_append_left _ ha, c, List.mem_append_left _ hc, hrest⟩
      · obtain rfl := List.mem_singleton.mp hwitness
        have hcertain : b.certain item := by
          by_contra hpossible
          rw [if_neg hpossible] at hdefinite
          cases hdefinite
        exact ⟨b, List.mem_append_left _ (hbridge b hb), item, by simp, rfl, rfl,
          alwaysOverlap_of_certain hcertain⟩

/-- **The loop over the observations of a resource is the sweep.** -/
theorem OverlapSweep.Follows.loop {observations : List Observation}
    (h : s.Follows resource clockDomain before operations ⟨[], [], none⟩)
    (hknown : ∀ o ∈ observations, o.key ∈ operations.keys) :
    ∃ last, observations.foldlM (OverlapSweep.visit resource clockDomain) s = .ok last ∧
      last.Follows resource clockDomain before operations
        (IntervalSweep.sweep Observation.earliest Observation.latest observations) := by
  induction observations using List.reverseRecOn with
  | nil => exact ⟨s, rfl, h⟩
  | append_singleton observations item ih =>
    obtain ⟨middle, hmiddle, hfollows⟩ := ih fun o ho => hknown o (List.mem_append_left _ ho)
    have hbridged := IntervalSweep.bridged_sweep Observation.ordered observations
    obtain ⟨last, hlast, hfollows⟩ := hfollows.visit (fun b hb => (hbridged.some b hb).1)
      (fun o ho => hknown o (List.mem_append_left _ (IntervalSweep.mem_of_blocks
        (List.mem_append_right _ (List.mem_singleton_self _)) ho))) item
    refine ⟨last, Checked.foldlM_snoc_ok.mpr ⟨middle, hmiddle, hlast⟩, ?_⟩
    rw [IntervalSweep.sweep_snoc]
    exact hfollows

/-- **The groups that a resource adds are the blocks** of its observations. -/
theorem groupIntervals_spec {entry : (String × String) × List Observation}
    {current : Dict String (List String)} (hnamed : Named before)
    (hsame : SameOperations operations current)
    (hknown : ∀ o ∈ entry.2, o.key ∈ operations.keys) :
    ∃ groups after added, groupIntervals (before, current) entry = .ok (groups, after) ∧
      groups = before ++ added ∧ Named groups ∧ SameOperations operations after ∧
      List.Forall₂ (OverlapGroup.Of entry.1.1 entry.1.2) (observedBlocks (sortObservations entry.2))
        (added.map (·.2)) := by
  have hsorted : ∀ o ∈ sortObservations entry.2, o.key ∈ operations.keys := fun o ho =>
    hknown o ((List.mem_insertionSort _).mp ho)
  have hstart : (⟨before, current, [], [], none⟩ : OverlapSweep).Follows entry.1.1 entry.1.2 before
      operations ⟨[], [], none⟩ :=
    ⟨rfl, rfl, fun _ h => (by cases h), ⟨[], (List.append_nil _).symm, .nil⟩, hnamed, hsame⟩
  obtain ⟨middle, hmiddle, hfollows⟩ := hstart.loop hsorted
  obtain ⟨last, hlast, ⟨added, hgroups, hadded⟩, hnamed, hsame⟩ := hfollows.finish fun o ho =>
    hsorted o (IntervalSweep.mem_of_blocks
      (List.mem_append_right _ (List.mem_singleton_self _)) ho)
  refine ⟨last.groups, last.operations, added, ?_, hgroups, hnamed, hsame, hadded⟩
  exact Checked.bind_ok.mpr ⟨middle, hmiddle, Checked.bind_ok.mpr ⟨last, hlast, rfl⟩⟩

theorem key_of_added {parts : List (List Observation)} {added : Dict String OverlapGroup}
    (h : List.Forall₂ (OverlapGroup.Of resource clockDomain) parts (added.map (·.2)))
    {group : OverlapGroup} (hgroup : group ∈ added.map (·.2)) :
    (group.resource, group.clockDomain) = (resource, clockDomain) := by
  obtain ⟨i, hi, rfl⟩ := List.mem_iff_getElem.mp hgroup
  have hof := h.get (h.length_eq ▸ hi) hi
  exact Prod.ext hof.resource hof.clockDomain

/-- What the groups are after some resources: for each of them its blocks. -/
structure GroupsOf (entries : Dict (String × String) (List Observation))
    (groups : Dict String OverlapGroup) : Prop where
  blocks : ∀ entry ∈ entries, List.Forall₂ (OverlapGroup.Of entry.1.1 entry.1.2)
    (observedBlocks (sortObservations entry.2))
    (groups.values.filter fun group => (group.resource, group.clockDomain) = entry.1)
  known : ∀ group ∈ groups.values, (group.resource, group.clockDomain) ∈ entries.keys

/-- **The loop over the resources gives every resource its blocks.** -/
theorem foldlM_groupIntervals {entries : Dict (String × String) (List Observation)}
    (hdistinct : entries.Distinct)
    (hknown : ∀ entry ∈ entries, ∀ o ∈ entry.2, o.key ∈ operations.keys) :
    ∃ groups after, entries.foldlM groupIntervals ([], operations) = .ok (groups, after) ∧
      Named groups ∧ SameOperations operations after ∧ GroupsOf entries groups := by
  induction entries using List.reverseRecOn with
  | nil =>
    exact ⟨[], operations, rfl, rfl, fun _ => Iff.rfl, fun _ h => (by cases h), fun _ h => (by cases h)⟩
  | append_singleton entries entry ih =>
    have hkeys : (Dict.keys entries).Nodup ∧ entry.1 ∉ Dict.keys entries := by
      rw [Dict.Distinct, Dict.keys, List.map_append, List.nodup_append] at hdistinct
      exact ⟨hdistinct.1, fun h => hdistinct.2.2 _ h _ (by simp) rfl⟩
    obtain ⟨groups, after, hrun, hnamed, hsame, hgroups⟩ :=
      ih hkeys.1 fun e he => hknown e (List.mem_append_left _ he)
    obtain ⟨groups', after', added, hturn, rfl, hnamed', hsame', hadded⟩ :=
      groupIntervals_spec hnamed hsame (hknown entry (by simp))
    have hvalues : Dict.values (groups ++ added) = groups.values ++ added.map (·.2) :=
      List.map_append
    refine ⟨_, _, Checked.foldlM_snoc_ok.mpr ⟨_, hrun, hturn⟩, hnamed', hsame', ?_, ?_⟩
    · intro e he
      rw [hvalues, List.filter_append]
      rcases List.mem_append.mp he with he | he
      · have hnone : (added.map (·.2)).filter
            (fun group => (group.resource, group.clockDomain) = e.1) = [] := by
          refine List.filter_eq_nil_iff.mpr fun group hgroup h => hkeys.2 ?_
          have hkey : entry.1 = e.1 := (key_of_added hadded hgroup).symm.trans (of_decide_eq_true h)
          exact hkey ▸ List.mem_map.mpr ⟨e, he, rfl⟩
        rw [hnone, List.append_nil]
        exact hgroups.blocks e he
      · obtain rfl := List.mem_singleton.mp he
        have hnone : groups.values.filter
            (fun group => (group.resource, group.clockDomain) = e.1) = [] := by
          refine List.filter_eq_nil_iff.mpr fun group hgroup h => hkeys.2 ?_
          exact of_decide_eq_true h ▸ hgroups.known group hgroup
        have hall : (added.map (·.2)).filter
            (fun group => (group.resource, group.clockDomain) = e.1) = added.map (·.2) :=
          List.filter_eq_self.mpr fun group hgroup => decide_eq_true (key_of_added hadded hgroup)
        rw [hnone, hall, List.nil_append]
        exact hadded
    · intro group hgroup
      have hsplit : Dict.keys (entries ++ [entry]) = Dict.keys entries ++ [entry.1] := List.map_append
      rw [hvalues] at hgroup
      rw [hsplit]
      rcases List.mem_append.mp hgroup with hgroup | hgroup
      · exact List.mem_append_left _ (hgroups.known group hgroup)
      · exact List.mem_append_right _ (List.mem_singleton.mpr (key_of_added hadded hgroup))

/-- **`overlapGroups` gives every resource the blocks of its observations.** -/
theorem overlapGroups_spec {sets : Dict (String × String) (List Observation)}
    (hdistinct : sets.Distinct) (hknown : ∀ entry ∈ sets, ∀ o ∈ entry.2, o.key ∈ operations.keys) :
    ∃ groups after, overlapGroups sets operations = .ok (groups, after) ∧ GroupsOf sets groups := by
  have hperm := List.perm_insertionSort
    (fun a b : (String × String) × List Observation => toLex a.1 ≤ toLex b.1) sets
  obtain ⟨groups, after, hrun, -, -, hgroups⟩ := foldlM_groupIntervals
    ((hperm.map Prod.fst).nodup_iff.mpr hdistinct)
    fun entry hentry => hknown entry (hperm.mem_iff.mp hentry)
  exact ⟨groups, after, hrun, fun entry hentry => hgroups.blocks entry (hperm.mem_iff.mpr hentry),
    fun group hgroup => (hperm.map Prod.fst).mem_iff.mp (hgroups.known group hgroup)⟩

end Groups

/-- An instant is swept after an observation that begins with it, and is inside no other: the
sweep joins it to the group of that observation. -/
def JoinsInstant (intervals : List Observation) : Prop :=
  ∃ y z, IntervalSweep.Touches Observation.earliest Observation.latest (sortObservations intervals) y z

section Positions
variable (intervals : List Observation)

/-- The order of the places of the observations. -/
def sortPlaces : List (Fin intervals.length) :=
  (List.finRange intervals.length).insertionSort fun i j =>
    (intervals.get i).sortKey ≤ (intervals.get j).sortKey

theorem map_sortPlaces : (sortPlaces intervals).map intervals.get = sortObservations intervals := by
  rw [sortPlaces, sortObservations,
    List.map_insertionSort (s := fun a b : Observation => a.sortKey ≤ b.sortKey) _ _ _
      (fun i _ j _ => Iff.rfl), List.map_get_finRange]

theorem perm_sortPlaces : (sortPlaces intervals).Perm (List.finRange intervals.length) :=
  List.perm_insertionSort _ _

theorem nodup_sortPlaces : (sortPlaces intervals).Nodup :=
  (perm_sortPlaces intervals).nodup_iff.mpr (List.nodup_finRange _)

theorem mem_sortPlaces (i : Fin intervals.length) : i ∈ sortPlaces intervals :=
  (perm_sortPlaces intervals).mem_iff.mpr (List.mem_finRange i)

theorem pairwise_sortPlaces : (sortPlaces intervals).Pairwise fun i j =>
    (intervals.get i).earliest ≤ (intervals.get j).earliest := by
  let r (i j : Fin intervals.length) : Prop := (intervals.get i).sortKey ≤ (intervals.get j).sortKey
  have : Std.Total r := ⟨fun i j => le_total (intervals.get i).sortKey (intervals.get j).sortKey⟩
  have : IsTrans _ r := ⟨fun _ _ _ h h' => h.trans h'⟩
  have hsorted : (sortPlaces intervals).Pairwise r := List.pairwise_insertionSort r _
  refine hsorted.imp fun {i j} h => ?_
  exact (Prod.Lex.le_iff.mp h).elim le_of_lt fun h => h.1.le

end Positions

/-- Groups have as many members as the parts that they tell of. -/
theorem length_of_groups {resource clockDomain : String} {parts : List (List Observation)}
    {groups : List OverlapGroup}
    (h : List.Forall₂ (OverlapGroup.Of resource clockDomain) parts groups) :
    parts.flatten.length = (groups.map (·.operationIds.length)).sum := by
  induction h with
  | nil => rfl
  | cons hof _ ih =>
    rw [List.flatten_cons, List.length_append, ih, List.map_cons, List.sum_cons, hof.members,
      List.length_map]

/-- **The groups are exact as long as no instant joins one.** -/
theorem groupsExact_iff {sets : Dict (String × String) (List Observation)}
    {groups : Dict String OverlapGroup} (h : GroupsOf sets groups) :
    GroupsExact sets groups ↔ ∀ entry ∈ sets, ¬ JoinsInstant entry.2 := by
  have hle : ∀ (intervals : List Observation) (i : Fin intervals.length),
      (intervals.get i).earliest ≤ (intervals.get i).latest := fun intervals i =>
    (intervals.get i).ordered
  have hblocks : ∀ intervals : List Observation, observedBlocks (sortObservations intervals) =
      (IntervalSweep.blocks (fun i => (intervals.get i).earliest)
        (fun i => (intervals.get i).latest) (sortPlaces intervals)).map (·.map intervals.get) := by
    intro intervals
    rw [observedBlocks, ← map_sortPlaces, IntervalSweep.blocks_map]
    rfl
  constructor
  · intro hexact entry hentry hjoins
    obtain ⟨parts, hparts, hgroups⟩ := hexact.components entry hentry
    rw [JoinsInstant, ← map_sortPlaces, IntervalSweep.exists_touches_map] at hjoins
    obtain ⟨y, z, htouch⟩ := hjoins
    have hlt := htouch.length_lt (hle entry.2) (pairwise_sortPlaces entry.2)
      (nodup_sortPlaces entry.2) (mem_sortPlaces entry.2) hparts
    have hsame := (length_of_groups hgroups).trans (length_of_groups (h.blocks entry hentry)).symm
    rw [hblocks] at hsame
    simp only [← List.map_flatten, List.length_map] at hsame
    exact absurd hlt (hsame ▸ lt_irrefl _)
  · refine fun hinstant => ⟨fun entry hentry => ?_, h.known⟩
    have htouch : ∀ y z, ¬ IntervalSweep.Touches (fun i => (entry.2.get i).earliest)
        (fun i => (entry.2.get i).latest) (sortPlaces entry.2) y z := by
      intro y z hyz
      refine hinstant entry hentry ?_
      rw [JoinsInstant, ← map_sortPlaces, IntervalSweep.exists_touches_map]
      exact ⟨y, z, hyz⟩
    refine ⟨_, IntervalSweep.components_blocks (hle entry.2) (pairwise_sortPlaces entry.2)
      (nodup_sortPlaces entry.2) (mem_sortPlaces entry.2) htouch, ?_⟩
    rw [← hblocks]
    exact h.blocks entry hentry

end VeriCCL
