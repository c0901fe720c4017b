import VeriCCL.LazySelection
import VeriCCL.RouteTiming

/-! # The list scheduler of routed operations

`_initial` is the naive greedy scheduler (`LazyQueue.run_start`), and its timelines are valid
(`Timeline.Valid`): every operation starts when its recorded predecessors are finished, and
operations that occupy the same thing do not overlap.  So `_earliest` finds the same times. -/
namespace VeriCCL

/-! ## Finishes -/

theorem latestFinish_nonneg {finish : Dict String ℚ} {predecessors : Finset String}
    (h : ∀ p ∈ predecessors, 0 ≤ (finish.get? p).getD 0) : 0 ≤ latestFinish finish predecessors := by
  refine default_le fun x hx => ?_
  obtain ⟨p, hp, rfl⟩ := List.mem_map.mp hx
  exact h p ((Finset.mem_sort _).mp hp)

theorem le_latestFinish {finish : Dict String ℚ} {predecessors : Finset String} {p : String}
    (h : p ∈ predecessors) : (finish.get? p).getD 0 ≤ latestFinish finish predecessors :=
  le_maxDefault (List.mem_map.mpr ⟨p, (Finset.mem_sort _).mpr h, rfl⟩)

theorem latestFinish_le {finish : Dict String ℚ} {predecessors : Finset String} {b : ℚ}
    (hb : 0 ≤ b) (h : ∀ p ∈ predecessors, (finish.get? p).getD 0 ≤ b) :
    latestFinish finish predecessors ≤ b := by
  refine maxDefault_le hb fun x hx => ?_
  obtain ⟨p, hp, rfl⟩ := List.mem_map.mp hx
  exact h p ((Finset.mem_sort _).mp hp)

/-- Only the finishes of the predecessors matter. -/
theorem latestFinish_congr {finish finish' : Dict String ℚ} {predecessors : Finset String}
    (h : ∀ p ∈ predecessors, finish'.get? p = finish.get? p) :
    latestFinish finish' predecessors = latestFinish finish predecessors := by
  unfold latestFinish
  refine congrArg _ (List.map_congr_left fun p hp => ?_)
  rw [h p ((Finset.mem_sort _).mp hp)]

namespace Timeline

variable {t : Timeline} {operations : List RouteOperation} {domains : String → List ℕ}
  {durations : String → ℚ} {identifier other : String}

/-- The start of an operation. -/
def start (t : Timeline) (identifier : String) : ℚ := (t.starts.get? identifier).getD 0

/-- The finish of an operation. -/
def finish (t : Timeline) (identifier : String) : ℚ := (t.finishes.get? identifier).getD 0

/-- The recorded predecessors of an operation. -/
def predecessors (t : Timeline) (identifier : String) : Finset String :=
  (t.dependencies.get? identifier).getD ∅

/-- What an operation occupies. -/
def occupied (operations : List RouteOperation) (t : Timeline) (identifier : String) :
    List ResourceKey :=
  match operationOf operations identifier, t.selected.get? identifier with
  | some op, some channel => resourceKeys op channel
  | _, _ => []

/-- **A valid timeline.** -/
structure Valid (operations : List RouteOperation) (domains : String → List ℕ)
    (durations : String → ℚ) (t : Timeline) : Prop where
  distinct : t.finishes.keys.Nodup
  selected : t.selected.keys = t.finishes.keys
  starts : t.starts.keys = t.finishes.keys
  dependencies : t.dependencies.keys = t.finishes.keys
  known : ∀ k ∈ t.finishes.keys, k ∈ operations.map (·.operationId)
  channel : ∀ k ∈ t.finishes.keys, ∃ channel ∈ domains k, t.selected.get? k = some channel
  nonneg : ∀ k ∈ t.finishes.keys, 0 ≤ t.start k
  lasts : ∀ k ∈ t.finishes.keys, t.finish k = t.start k + durations k
  needs : ∀ k ∈ t.finishes.keys, dependenciesOf operations k ⊆ t.predecessors k
  explained : ∀ k ∈ t.finishes.keys, t.start k = latestFinish t.finishes (t.predecessors k)
  order : Kahn.Topological t.predecessors t.finishes.keys
  tails : ∀ key tail, t.tails.get? key = some tail → tail ∈ t.finishes.keys
  covered : ∀ k ∈ t.finishes.keys, ∀ key ∈ t.occupied operations k,
    ∃ tail, t.tails.get? key = some tail ∧ t.finish k ≤ t.finish tail
  apart : t.finishes.keys.Pairwise fun a b =>
    ∀ key ∈ t.occupied operations a, key ∈ t.occupied operations b → t.finish a ≤ t.start b

theorem mem_tailsOf {keys : List ResourceKey} {tail : String} :
    tail ∈ t.tailsOf keys ↔ ∃ key ∈ keys, t.tails.get? key = some tail :=
  List.mem_filterMap

/-- The frontier covers what was last on a key. -/
theorem le_frontier {keys : List ResourceKey} {key : ResourceKey} {tail : String} (hkey : key ∈ keys)
    (htail : t.tails.get? key = some tail) : t.finish tail ≤ t.frontier keys :=
  le_maxDefault (List.mem_map.mpr ⟨tail, mem_tailsOf.mpr ⟨key, hkey, htail⟩, rfl⟩)

theorem Valid.finish_nonneg (ht : t.Valid operations domains durations)
    (hpositive : ∀ op ∈ operations, 0 ≤ durations op.operationId) (k : String) : 0 ≤ t.finish k := by
  by_cases hk : k ∈ t.finishes.keys
  · obtain ⟨op, hop, hid⟩ := List.mem_map.mp (ht.known k hk)
    have h1 := ht.nonneg k hk
    have h2 := hpositive op hop
    rw [hid] at h2
    rw [ht.lasts k hk]
    exact add_nonneg h1 h2
  · unfold finish
    rw [Dict.get?_eq_none.mpr hk]
    exact le_rfl

/-- What was last on the keys after an operation has been placed on some. -/
theorem tails_foldl (keys : List ResourceKey) (identifier : String) (key : ResourceKey) :
    ∀ tails : Dict ResourceKey String,
      (keys.foldl (fun tails key => tails.set key identifier) tails).get? key =
        if key ∈ keys then some identifier else tails.get? key := by
  induction keys with
  | nil => exact fun tails => by simp
  | cons k keys ih =>
    intro tails
    rw [List.foldl_cons, ih]
    by_cases hmem : key ∈ keys
    · rw [if_pos hmem, if_pos (List.mem_cons_of_mem _ hmem)]
    · rw [if_neg hmem, Dict.get?_set]
      by_cases hk : k = key
      · rw [if_pos hk, if_pos (hk ▸ List.mem_cons_self)]
      · rw [if_neg hk, if_neg]
        intro h
        rcases List.mem_cons.mp h with h | h
        · exact hk h.symm
        · exact hmem h

section Place
variable (t) (operations : List RouteOperation) (dependencies : Finset String)
  (keys : List ResourceKey) (channel : ℕ) (duration time : ℚ)

/-- A placement does not change the times of the others. -/
theorem place_other (hne : other ≠ identifier) :
    (t.place dependencies keys channel duration time identifier).start other = t.start other ∧
    (t.place dependencies keys channel duration time identifier).finish other = t.finish other ∧
    (t.place dependencies keys channel duration time identifier).predecessors other =
      t.predecessors other ∧
    (t.place dependencies keys channel duration time identifier).occupied operations other =
      t.occupied operations other := by
  have hne' := Ne.symm hne
  refine ⟨?_, ?_, ?_, ?_⟩
  · exact congrArg (Option.getD · 0) (Dict.get?_set_ne _ _ hne')
  · exact congrArg (Option.getD · 0) (Dict.get?_set_ne _ _ hne')
  · exact congrArg (Option.getD · ∅) (Dict.get?_set_ne _ _ hne')
  · unfold occupied
    rw [show (t.place dependencies keys channel duration time identifier).selected.get? other =
      t.selected.get? other from Dict.get?_set_ne _ _ hne']

/-- The new operation. -/
theorem place_self (identifier : String) :
    (t.place dependencies keys channel duration time identifier).start identifier = time ∧
    (t.place dependencies keys channel duration time identifier).finish identifier =
      time + duration ∧
    (t.place dependencies keys channel duration time identifier).predecessors identifier =
      dependencies ∪ (t.tailsOf keys).toFinset := by
  refine ⟨?_, ?_, ?_⟩
  · exact congrArg (Option.getD · 0) (Dict.get?_set_self _ _ _)
  · exact congrArg (Option.getD · 0) (Dict.get?_set_self _ _ _)
  · exact congrArg (Option.getD · ∅) (Dict.get?_set_self _ _ _)

theorem keys_place (hnew : identifier ∉ t.finishes.keys) :
    (t.place dependencies keys channel duration time identifier).finishes.keys =
      t.finishes.keys ++ [identifier] := by
  show (t.finishes.set _ _).keys = _
  rw [Dict.keys_set, if_neg hnew]

end Place

/-! ## Placements -/

theorem operationOf_mem {op : RouteOperation} (h : operationOf operations identifier = some op) :
    op ∈ operations ∧ op.operationId = identifier := by
  refine ⟨List.mem_of_find?_eq_some h, ?_⟩
  simpa using List.find?_some h

/-- A choice: a ready operation on a channel of its domain, as early as possible. -/
structure Placement (operations : List RouteOperation) (domains : String → List ℕ)
    (durations : String → ℚ) (t : Timeline) (c : LazyQueue.Choice ReadySite String ℚ ReadyKey)
    (op : RouteOperation) (channel : ℕ) : Prop where
  found : operationOf operations op.operationId = some op
  fresh : op.operationId ∉ t.finishes.keys
  met : ∀ p ∈ op.dependencies, p ∈ t.finishes.keys
  domain : channel ∈ domains op.operationId
  choice : c = (initialProblem operations domains durations).choice t op.operationId
    ⟨resourceKeys op channel, channel, durations op.operationId⟩

namespace Placement

variable {c : LazyQueue.Choice ReadySite String ℚ ReadyKey} {op : RouteOperation} {channel : ℕ}

theorem dependencies (h : Placement operations domains durations t c op channel) :
    dependenciesOf operations op.operationId = op.dependencies := by
  unfold dependenciesOf
  rw [h.found]
  rfl

theorem start_eq (h : Placement operations domains durations t c op channel) :
    c.start = max (latestFinish t.finishes op.dependencies)
      (t.frontier (resourceKeys op channel)) := by
  rw [h.choice, ← h.dependencies]
  rfl

/-- The timeline after the choice. -/
theorem placed (h : Placement operations domains durations t c op channel) :
    (initialProblem operations domains durations).placed t c =
      t.place op.dependencies (resourceKeys op channel) channel (durations op.operationId) c.start
        op.operationId := by
  rw [h.choice, ← h.dependencies]
  rfl

end Placement

/-- The start of a placement is explained by its recorded predecessors. -/
theorem start_explained (hpositive : ∀ op ∈ operations, 0 ≤ durations op.operationId)
    (ht : t.Valid operations domains durations) (predecessors : Finset String)
    (keys : List ResourceKey) :
    max (latestFinish t.finishes predecessors) (t.frontier keys) =
      latestFinish t.finishes (predecessors ∪ (t.tailsOf keys).toFinset) := by
  have hnonneg := ht.finish_nonneg hpositive
  refine le_antisymm (max_le ?_ ?_) ?_
  · exact latestFinish_le (latestFinish_nonneg fun p _ => hnonneg p) fun p hp =>
      le_latestFinish (Finset.mem_union_left _ hp)
  · refine maxDefault_le (latestFinish_nonneg fun p _ => hnonneg p) fun x hx => ?_
    obtain ⟨tail, htail, rfl⟩ := List.mem_map.mp hx
    exact le_latestFinish (Finset.mem_union_right _ (List.mem_toFinset.mpr htail))
  · refine latestFinish_le (le_max_of_le_left (latestFinish_nonneg fun p _ => hnonneg p)) fun p hp => ?_
    rcases Finset.mem_union.mp hp with hp | hp
    · exact le_max_of_le_left (le_latestFinish hp)
    · obtain ⟨key, hkey, htail⟩ := mem_tailsOf.mp (List.mem_toFinset.mp hp)
      exact le_max_of_le_right (le_frontier hkey htail)

/-- **A placement keeps a timeline valid.** -/
theorem Valid.place (hpositive : ∀ op ∈ operations, 0 ≤ durations op.operationId)
    (ht : t.Valid operations domains durations)
    {c : LazyQueue.Choice ReadySite String ℚ ReadyKey} {op : RouteOperation} {channel : ℕ}
    (h : Placement operations domains durations t c op channel) :
    (t.place op.dependencies (resourceKeys op channel) channel (durations op.operationId) c.start
      op.operationId).Valid operations domains durations := by
  set t' := t.place op.dependencies (resourceKeys op channel) channel (durations op.operationId)
    c.start op.operationId with ht'
  obtain ⟨hstart, hfinish, hpreds⟩ :
    t'.start op.operationId = c.start ∧ t'.finish op.operationId = c.start + durations op.operationId ∧
      t'.predecessors op.operationId = op.dependencies ∪ (t.tailsOf (resourceKeys op channel)).toFinset :=
    place_self t _ _ _ _ _ _
  have hold := fun (k : String) (hk : k ∈ t.finishes.keys) =>
    place_other t operations op.dependencies (resourceKeys op channel) channel
      (durations op.operationId) c.start (fun heq : k = op.operationId => h.fresh (heq ▸ hk))
  have hkeys : t'.finishes.keys = t.finishes.keys ++ [op.operationId] :=
    keys_place t _ _ _ _ _ h.fresh
  have hmem : ∀ k, k ∈ t'.finishes.keys ↔ k ∈ t.finishes.keys ∨ k = op.operationId := by
    intro k
    rw [hkeys, List.mem_append, List.mem_singleton]
  have hrecorded : ∀ p ∈ op.dependencies ∪ (t.tailsOf (resourceKeys op channel)).toFinset,
      p ∈ t.finishes.keys := by
    intro p hp
    rcases Finset.mem_union.mp hp with hp | hp
    · exact h.met p hp
    · obtain ⟨key, -, htail⟩ := mem_tailsOf.mp (List.mem_toFinset.mp hp)
      exact ht.tails key p htail
  have hfinishes : ∀ k ∈ t.finishes.keys, t'.finishes.get? k = t.finishes.get? k := fun k hk =>
    Dict.get?_set_ne _ _ fun heq => h.fresh (heq ▸ hk)
  have hearlier : ∀ k ∈ t.finishes.keys, t.predecessors k ⊆ t.finishes.keys.toFinset := by
    intro k hk p hp
    obtain ⟨l, r, hsplit⟩ := List.append_of_mem hk
    have := ht.order l k r hsplit p hp
    rw [hsplit]
    exact List.mem_toFinset.mpr (List.mem_append_left _ this)
  have hnonneg : 0 ≤ c.start := by
    rw [h.start_eq]
    refine le_max_of_le_left (latestFinish_nonneg fun p _ => ht.finish_nonneg hpositive p)
  have hoccupied : t'.occupied operations op.operationId = resourceKeys op channel := by
    unfold occupied
    rw [h.found, show t'.selected.get? op.operationId = some channel from Dict.get?_set_self _ _ _]
  have htails : ∀ key, t'.tails.get? key =
      if key ∈ resourceKeys op channel then some op.operationId else t.tails.get? key :=
    fun key => tails_foldl _ _ _ _
  have hfrontier : t.frontier (resourceKeys op channel) ≤ c.start := h.start_eq ▸ le_max_right _ _
  have hduration := hpositive op (operationOf_mem h.found).1
  have hset : ∀ {ν : Type} (d : Dict String ν) (v : ν), d.keys = t.finishes.keys →
      (d.set op.operationId v).keys = t'.finishes.keys := by
    intro ν d v hd
    rw [Dict.keys_set, hd, if_neg h.fresh, hkeys]
  -- what finished on a key before is the frontier's
  have hbefore : ∀ k ∈ t.finishes.keys, ∀ key ∈ t.occupied operations k,
      key ∈ resourceKeys op channel → t.finish k ≤ c.start := by
    intro k hk key hkey hplaced
    obtain ⟨tail, htail, hle⟩ := ht.covered k hk key hkey
    exact hle.trans ((le_frontier hplaced htail).trans hfrontier)
  refine
    { distinct := ?_
      selected := hset _ _ ht.selected
      starts := hset _ _ ht.starts
      dependencies := hset _ _ ht.dependencies
      known := fun k hk => ?_
      channel := fun k hk => ?_
      nonneg := fun k hk => ?_
      lasts := fun k hk => ?_
      needs := fun k hk => ?_
      explained := fun k hk => ?_
      order := ?_
      tails := fun key tail htail => ?_
      covered := fun k hk key hkey => ?_
      apart := ?_ }
  · rw [hkeys]
    exact List.nodup_append.mpr ⟨ht.distinct, List.nodup_singleton _, fun a ha b hb heq => by
      rw [List.mem_singleton.mp hb] at heq
      exact h.fresh (heq ▸ ha)⟩
  · rcases (hmem k).mp hk with hk | rfl
    · exact ht.known k hk
    · exact List.mem_map.mpr ⟨op, (operationOf_mem h.found).1, rfl⟩
  · rcases (hmem k).mp hk with hk | rfl
    · obtain ⟨channel, hchannel, hget⟩ := ht.channel k hk
      refine ⟨channel, hchannel, ?_⟩
      rw [show t'.selected.get? k = t.selected.get? k from
        Dict.get?_set_ne _ _ fun heq => h.fresh (heq ▸ hk)]
      exact hget
    · exact ⟨channel, h.domain, Dict.get?_set_self _ _ _⟩
  · rcases (hmem k).mp hk with hk | rfl
    · rw [(hold k hk).1]
      exact ht.nonneg k hk
    · rw [hstart]
      exact hnonneg
  · rcases (hmem k).mp hk with hk | rfl
    · rw [(hold k hk).1, (hold k hk).2.1]
      exact ht.lasts k hk
    · rw [hstart, hfinish]
  · rcases (hmem k).mp hk with hk | rfl
    · rw [(hold k hk).2.2.1]
      exact ht.needs k hk
    · rw [hpreds, h.dependencies]
      exact Finset.subset_union_left
  · rcases (hmem k).mp hk with hk | rfl
    · rw [(hold k hk).1, (hold k hk).2.2.1, ht.explained k hk]
      exact (latestFinish_congr fun p hp =>
        hfinishes p (List.mem_toFinset.mp (hearlier k hk hp))).symm
    · rw [hstart, hpreds, h.start_eq, start_explained hpositive ht]
      exact (latestFinish_congr fun p hp => hfinishes p (hrecorded p hp)).symm
  · rw [hkeys]
    have hsame : Kahn.Topological t'.predecessors t.finishes.keys := by
      intro l k r hsplit p hp
      rw [(hold k (by rw [hsplit]; simp)).2.2.1] at hp
      exact ht.order l k r hsplit p hp
    refine hsame.snoc fun p hp => ?_
    rw [hpreds] at hp
    exact hrecorded p hp
  · rw [htails] at htail
    refine (hmem tail).mpr ?_
    split at htail
    · exact .inr (Option.some.inj htail).symm
    · exact .inl (ht.tails key tail htail)
  · rw [htails]
    rcases (hmem k).mp hk with hk | rfl
    · rw [(hold k hk).2.2.2] at hkey
      rw [(hold k hk).2.1]
      by_cases hplaced : key ∈ resourceKeys op channel
      · refine ⟨op.operationId, if_pos hplaced, ?_⟩
        rw [hfinish]
        have := hbefore k hk key hkey hplaced
        linarith
      · obtain ⟨tail, htail, hle⟩ := ht.covered k hk key hkey
        refine ⟨tail, by rw [if_neg hplaced]; exact htail, ?_⟩
        rw [(hold tail (ht.tails key tail htail)).2.1]
        exact hle
    · rw [hoccupied] at hkey
      exact ⟨op.operationId, if_pos hkey, le_rfl⟩
  · rw [hkeys]
    refine List.pairwise_append.mpr ⟨?_, List.pairwise_singleton _ _, fun a ha b hb key hkey hkey' => ?_⟩
    · refine ht.apart.imp_of_mem fun {a b} ha hb hab key hkey hkey' => ?_
      rw [(hold a ha).2.2.2] at hkey
      rw [(hold b hb).2.2.2] at hkey'
      rw [(hold a ha).2.1, (hold b hb).1]
      exact hab key hkey hkey'
    · obtain rfl := List.mem_singleton.mp hb
      rw [(hold a ha).2.2.2] at hkey
      rw [hoccupied] at hkey'
      rw [(hold a ha).2.1, hstart]
      exact hbefore a ha key hkey hkey'

end Timeline

/-! ## The lazy queue and the naive scheduler -/

section Greedy
variable {operations : List RouteOperation} {domains : String → List ℕ} {durations : String → ℚ}

end Greedy

/-! ## `_earliest` agrees -/

section Earliest
variable {operations : List RouteOperation} {domains : String → List ℕ} {durations : String → ℚ}
  {t : Timeline}

/-- Visits in the order of the predecessors compute the times of the timeline. -/
theorem visits_agree (ht : t.Valid operations domains durations) (order : List String) :
    Kahn.Topological t.predecessors order → (∀ k ∈ order, k ∈ t.finishes.keys) → order.Nodup →
    ∀ times, times = order.foldl (visitEarliest t.predecessors durations) ([], []) →
      times.2.keys = order ∧
      ∀ k, times.1.get? k = (if k ∈ order then some (t.start k) else none) ∧
        times.2.get? k = if k ∈ order then some (t.finish k) else none := by
  induction order using List.reverseRecOn with
  | nil =>
    rintro - - - times rfl
    exact ⟨rfl, fun k => ⟨by simp, by simp⟩⟩
  | append_singleton order k ih =>
    rintro htopological hknown hdistinct times rfl
    rw [List.foldl_append, List.foldl_cons, List.foldl_nil]
    have hnew : k ∉ order := fun hmem =>
      (List.nodup_append.mp hdistinct).2.2 k hmem k (List.mem_singleton_self k) rfl
    obtain ⟨hkeys, hget⟩ := ih (fun l j r hsplit => htopological l j (r ++ [k]) (by simp [hsplit]))
      (fun j hj => hknown j (List.mem_append_left _ hj)) (List.nodup_append.mp hdistinct).1 _ rfl
    set before := order.foldl (visitEarliest t.predecessors durations) ([], []) with hbefore
    have hk := hknown k (List.mem_append_right _ (List.mem_singleton_self k))
    -- the predecessors have been visited, with the finishes of the timeline
    have hstart : latestFinish before.2 (t.predecessors k) = t.start k := by
      rw [ht.explained k hk]
      refine latestFinish_congr fun p hp => ?_
      have hmem := htopological order k [] rfl p hp
      rw [(hget p).2, if_pos hmem]
      obtain ⟨finish, hfinish⟩ := Dict.get?_isSome.mpr (hknown p (List.mem_append_left _ hmem))
      unfold Timeline.finish
      rw [hfinish]
      rfl
    unfold visitEarliest
    simp only
    rw [hstart, ← ht.lasts k hk]
    refine ⟨?_, fun j => ?_⟩
    · rw [Dict.keys_set, hkeys, if_neg hnew]
    · rw [Dict.get?_set, Dict.get?_set, (hget j).1, (hget j).2]
      by_cases hj : k = j
      · subst hj
        simp
      · simp [hj, Ne.symm hj]

/-- **`_earliest` finds the times of a complete timeline.** -/
theorem earliest_agrees (hids : (operations.map (·.operationId)).Nodup)
    (ht : t.Valid operations domains durations) (hall : t.finishes.length = operations.length) :
    ∃ again, earliest operations t.selected t.dependencies durations = .ok again ∧
      ∀ k, again.startUs.get? k = t.starts.get? k ∧ again.finishUs.get? k = t.finishes.get? k := by
  have hperm : t.finishes.keys.Perm (operations.map (·.operationId)) := by
    refine (List.subperm_of_subset ht.distinct ht.known).perm_of_length_le (le_of_eq ?_)
    rw [List.length_map, ← hall]
    exact (List.length_map _).symm
  have hpreds : (fun identifier => (t.dependencies.get? identifier).getD ∅) = t.predecessors := rfl
  have hearlier : ∀ k ∈ operations.map (·.operationId), ∀ p ∈ t.predecessors k,
      p ∈ operations.map (·.operationId) := by
    intro k hk p hp
    obtain ⟨l, r, hsplit⟩ := List.append_of_mem (hperm.mem_iff.mpr hk)
    refine hperm.mem_iff.mp ?_
    rw [hsplit]
    exact List.mem_append_left _ (ht.order l k r hsplit p hp)
  have horder := Kahn.order_perm Kahn.fifo_perm hids (Kahn.order_complete Kahn.fifo_perm hids ht.order
    (fun k hk => hperm.mem_iff.mpr hk) hearlier)
  obtain ⟨hkeys, hget⟩ := visits_agree ht
    (Kahn.order (operations.map (·.operationId)) t.predecessors Kahn.fifo)
    (Kahn.order_topological Kahn.fifo_perm hids)
    (fun k hk => hperm.mem_iff.mpr (horder.mem_iff.mp hk)) (Kahn.order_nodup Kahn.fifo_perm hids) _ rfl
  have hlookup : ∀ k, t.starts.get? k =
        (if k ∈ t.finishes.keys then some (t.start k) else none) ∧
      t.finishes.get? k = if k ∈ t.finishes.keys then some (t.finish k) else none := by
    intro k
    unfold Timeline.start Timeline.finish
    by_cases hk : k ∈ t.finishes.keys
    · obtain ⟨finish, hfinish⟩ := Dict.get?_isSome.mpr hk
      obtain ⟨start, hstart⟩ := Dict.get?_isSome.mpr (ht.starts ▸ hk)
      rw [if_pos hk, if_pos hk, hfinish, hstart]
      exact ⟨rfl, rfl⟩
    · rw [if_neg hk, if_neg hk, Dict.get?_eq_none.mpr hk, Dict.get?_eq_none.mpr (ht.starts ▸ hk)]
      exact ⟨rfl, rfl⟩
  unfold earliest
  simp only [Checked.bind_ok, Checked.ensure_ok, Checked.pure_ok]
  rw [hpreds]
  refine ⟨_, ⟨(), Checked.forM_ok.mpr fun op hop => Checked.ensure_ok.mpr ?_, (), ?_, (), ?_, rfl⟩,
    fun k => ?_⟩
  · rw [ht.dependencies]
    exact hperm.mem_iff.mpr (List.mem_map.mpr ⟨op, hop, rfl⟩)
  · unfold checkDependencies
    refine Checked.forM_ok.mpr fun op hop => Checked.ensure_ok.mpr ?_
    exact hearlier _ (List.mem_map.mpr ⟨op, hop, rfl⟩)
  · have hlength := congrArg List.length hkeys
    rw [horder.length_eq] at hlength
    rw [← hlength]
    exact (List.length_map _).symm
  · obtain ⟨hstart, hfinish⟩ := hget k
    obtain ⟨hstart', hfinish'⟩ := hlookup k
    have hmem : k ∈ Kahn.order (operations.map (·.operationId)) t.predecessors Kahn.fifo ↔
        k ∈ t.finishes.keys := horder.mem_iff.trans hperm.mem_iff.symm
    simp only [hmem] at hstart hfinish
    exact ⟨hstart.trans hstart'.symm, hfinish.trans hfinish'.symm⟩

end Earliest

/-! ## The schedules of `_initial` -/

namespace RoutedSchedule

/-- The start of an operation. -/
def start (schedule : RoutedSchedule) (identifier : String) : ℚ :=
  (schedule.startUs.get? identifier).getD 0

/-- The finish of an operation. -/
def finish (schedule : RoutedSchedule) (identifier : String) : ℚ :=
  (schedule.finishUs.get? identifier).getD 0

/-- **A sound schedule**: every operation once, on a channel of its domain, after its
dependencies; operations that occupy the same thing do not overlap; and `_earliest` finds the
same times from the channels and dependencies. -/
structure Sound (domains : String → List ℕ) (durations : String → ℚ) (schedule : RoutedSchedule) :
    Prop where
  once : schedule.startUs.keys.Perm (schedule.operations.map (·.operationId))
  finished : schedule.finishUs.keys = schedule.startUs.keys
  channels : schedule.channels.keys = schedule.startUs.keys
  dependencies : schedule.dependencies.keys = schedule.startUs.keys
  channel : ∀ op ∈ schedule.operations, ∃ channel ∈ domains op.operationId,
    schedule.channels.get? op.operationId = some channel
  lasts : ∀ op ∈ schedule.operations, 0 ≤ schedule.start op.operationId ∧
    schedule.finish op.operationId = schedule.start op.operationId + durations op.operationId
  after : ∀ op ∈ schedule.operations, ∀ p ∈ op.dependencies,
    schedule.finish p ≤ schedule.start op.operationId
  apart : ∀ a ∈ schedule.operations, ∀ b ∈ schedule.operations, a ≠ b → ∀ channel channel',
    schedule.channels.get? a.operationId = some channel →
    schedule.channels.get? b.operationId = some channel' →
    ∀ key ∈ resourceKeys a channel, key ∈ resourceKeys b channel' →
      schedule.finish a.operationId ≤ schedule.start b.operationId ∨
      schedule.finish b.operationId ≤ schedule.start a.operationId
  retimed : ∃ again, earliest schedule.operations schedule.channels schedule.dependencies durations =
      .ok again ∧ ∀ k, again.startUs.get? k = schedule.startUs.get? k ∧
        again.finishUs.get? k = schedule.finishUs.get? k

end RoutedSchedule

section Sound
variable {operations : List RouteOperation} {domains : String → List ℕ} {durations : String → ℚ}
  {t : Timeline}

theorem operationOf_self (hids : (operations.map (·.operationId)).Nodup) {op : RouteOperation}
    (hop : op ∈ operations) : operationOf operations op.operationId = some op := by
  unfold operationOf
  induction operations with
  | nil => cases hop
  | cons o operations ih =>
    obtain ⟨hnew, hids⟩ := List.nodup_cons.mp hids
    rw [List.find?_cons]
    rcases List.mem_cons.mp hop with rfl | hop
    · simp
    · have hne : o.operationId ≠ op.operationId := fun heq =>
        hnew (List.mem_map.mpr ⟨op, hop, heq.symm⟩)
      simp only [hne, decide_false]
      exact ih hids hop

theorem Timeline.Valid.sound (hids : (operations.map (·.operationId)).Nodup)
    (ht : t.Valid operations domains durations) {schedule : RoutedSchedule}
    (h : scheduleOf operations t = .ok schedule) :
    schedule.operations = operations ∧ schedule.Sound domains durations := by
  unfold scheduleOf at h
  simp only [Checked.bind_ok, Checked.ensure_ok, Checked.pure_ok] at h
  obtain ⟨_, hall, rfl⟩ := h
  have hperm : t.finishes.keys.Perm (operations.map (·.operationId)) := by
    refine (List.subperm_of_subset ht.distinct ht.known).perm_of_length_le (le_of_eq ?_)
    rw [List.length_map, ← hall]
    exact (List.length_map _).symm
  have hmem : ∀ op ∈ operations, op.operationId ∈ t.finishes.keys := fun op hop =>
    hperm.mem_iff.mpr (List.mem_map.mpr ⟨op, hop, rfl⟩)
  refine ⟨rfl,
    { once := by rw [ht.starts]; exact hperm
      finished := ht.starts.symm
      channels := ht.selected.trans ht.starts.symm
      dependencies := ht.dependencies.trans ht.starts.symm
      channel := fun op hop => ht.channel _ (hmem op hop)
      lasts := fun op hop => ⟨ht.nonneg _ (hmem op hop), ht.lasts _ (hmem op hop)⟩
      after := fun op hop p hp => ?_
      apart := fun a ha b hb hne channel channel' hchannel hchannel' key hkey hkey' => ?_
      retimed := earliest_agrees hids ht hall }⟩
  · have hneeded : p ∈ t.predecessors op.operationId := by
      refine ht.needs _ (hmem op hop) ?_
      unfold dependenciesOf
      rw [operationOf_self hids hop]
      exact hp
    show t.finish p ≤ t.start op.operationId
    rw [ht.explained _ (hmem op hop)]
    exact le_latestFinish hneeded
  · have hids' : a.operationId ≠ b.operationId := fun heq => by
      have h1 := operationOf_self hids ha
      rw [heq, operationOf_self hids hb] at h1
      exact hne (Option.some.inj h1).symm
    have hoccupied : ∀ op ∈ operations, ∀ c, t.selected.get? op.operationId = some c →
        t.occupied operations op.operationId = resourceKeys op c := by
      intro op hop c hc
      unfold Timeline.occupied
      rw [operationOf_self hids hop, hc]
    rw [← hoccupied a ha channel hchannel] at hkey
    rw [← hoccupied b hb channel' hchannel'] at hkey'
    rcases pairwise_or ht.apart (hmem a ha) (hmem b hb) hids' with h | h
    · exact .inl (h key hkey hkey')
    · exact .inr (h key hkey' hkey)

end Sound

end VeriCCL
