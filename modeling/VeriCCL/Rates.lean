import VeriCCL.Predict
import Mathlib.Algebra.Order.BigOperators.Group.List
import Mathlib.Algebra.Order.Field.Rat

/-! # Rates respect services and resources

The operations that share a resource are in one group (`components_disjoint`), so the
rates of all users of a resource are assigned together and their sum stays within its
capacity (`ratesOf_resource`), whether they were measured or shared out.  An operation
alone runs no faster than its service or than a profile of its flow allows
(`ratesOf_rate`). -/
namespace VeriCCL

/-! ## Groups -/

/-- No member of one list shares a resource with a member of the other. -/
def NoShared (a b : List WorkOperation) : Prop :=
  ∀ x ∈ a, ∀ y ∈ b, ∀ r ∈ x.resources, r ∉ y.resources

theorem componentPass_nil (group : List WorkOperation) (resources : List String) :
    componentPass group resources [] = (group, resources, []) := rfl

theorem componentPass_cons (group : List WorkOperation) (resources : List String)
    (op : WorkOperation) (rest : List WorkOperation) :
    componentPass group resources (op :: rest) =
      if ∃ r ∈ op.resources, r ∈ resources then
        componentPass (group ++ [op]) (resources ++ op.resources) rest
      else ((componentPass group resources rest).1, (componentPass group resources rest).2.1,
        op :: (componentPass group resources rest).2.2) := rfl

theorem growComponent_zero (group : List WorkOperation) (resources : List String)
    (remaining : List WorkOperation) :
    growComponent 0 group resources remaining = (group, remaining) := rfl

theorem growComponent_succ (n : ℕ) (group : List WorkOperation) (resources : List String)
    (remaining : List WorkOperation) :
    growComponent (n + 1) group resources remaining =
      if (componentPass group resources remaining).2.2.length = remaining.length then
        (group, remaining)
      else growComponent n (componentPass group resources remaining).1
        (componentPass group resources remaining).2.1
        (componentPass group resources remaining).2.2 := rfl

theorem componentPass_perm (group : List WorkOperation) (resources : List String)
    (rest : List WorkOperation) :
    ((componentPass group resources rest).1 ++ (componentPass group resources rest).2.2).Perm
      (group ++ rest) := by
  induction rest generalizing group resources with
  | nil => simp [componentPass_nil]
  | cons op rest ih =>
    rw [componentPass_cons]
    split
    · refine (ih (group ++ [op]) _).trans ?_
      simp
    · refine (List.perm_middle).trans ?_
      exact ((ih group resources).cons op).trans List.perm_middle.symm

theorem componentPass_covers (group : List WorkOperation) (resources : List String)
    (rest : List WorkOperation) (h : ∀ x ∈ group, ∀ r ∈ x.resources, r ∈ resources) :
    ∀ x ∈ (componentPass group resources rest).1, ∀ r ∈ x.resources,
      r ∈ (componentPass group resources rest).2.1 := by
  induction rest generalizing group resources with
  | nil => simpa [componentPass_nil] using h
  | cons op rest ih =>
    rw [componentPass_cons]
    split
    · refine ih _ _ fun x hx r hr => ?_
      rcases List.mem_append.mp hx with hx | hx
      · exact List.mem_append_left _ (h x hx r hr)
      · rw [List.mem_singleton.mp hx] at hr
        exact List.mem_append_right _ hr
    · exact ih group resources h

theorem componentPass_length (group : List WorkOperation) (resources : List String)
    (rest : List WorkOperation) :
    (componentPass group resources rest).2.2.length ≤ rest.length := by
  induction rest generalizing group resources with
  | nil => simp [componentPass_nil]
  | cons op rest ih =>
    rw [componentPass_cons]
    split
    · exact (ih _ _).trans (by simp)
    · simpa using ih group resources

/-- A pass that takes nothing away found no shared resource. -/
theorem componentPass_stable (group : List WorkOperation) (resources : List String)
    (rest : List WorkOperation)
    (h : (componentPass group resources rest).2.2.length = rest.length) :
    ∀ y ∈ rest, ∀ r ∈ y.resources, r ∉ resources := by
  induction rest generalizing group resources with
  | nil => simp
  | cons op rest ih =>
    rw [componentPass_cons] at h
    split at h
    · have := componentPass_length (group ++ [op]) (resources ++ op.resources) rest
      simp only [List.length_cons] at h
      omega
    · rename_i hnone
      intro y hy r hr hmem
      rcases List.mem_cons.mp hy with rfl | hy
      · exact hnone ⟨r, hr, hmem⟩
      · exact ih group resources (by simpa using h) y hy r hr hmem

/-- **A grown group is closed**: what remains shares nothing with it. -/
theorem growComponent_spec (n : ℕ) (group : List WorkOperation) (resources : List String)
    (remaining : List WorkOperation) (hn : remaining.length ≤ n)
    (hcover : ∀ x ∈ group, ∀ r ∈ x.resources, r ∈ resources) :
    ((growComponent n group resources remaining).1 ++
      (growComponent n group resources remaining).2).Perm (group ++ remaining) ∧
    NoShared (growComponent n group resources remaining).1
      (growComponent n group resources remaining).2 := by
  induction n generalizing group resources remaining with
  | zero =>
    obtain rfl := List.length_eq_zero_iff.mp (Nat.le_zero.mp hn)
    simp [growComponent_zero, NoShared]
  | succ n ih =>
    rw [growComponent_succ]
    split
    · rename_i hstable
      refine ⟨List.Perm.refl _, fun x hx y hy r hr hmem => ?_⟩
      exact componentPass_stable group resources remaining hstable y hy r hmem (hcover x hx r hr)
    · rename_i hchanged
      have hlen := componentPass_length group resources remaining
      obtain ⟨hperm, hshared⟩ := ih _ _ (componentPass group resources remaining).2.2 (by omega)
        (componentPass_covers group resources remaining hcover)
      exact ⟨hperm.trans (componentPass_perm group resources remaining), hshared⟩

theorem growComponent_length (n : ℕ) (group : List WorkOperation) (resources : List String)
    (remaining : List WorkOperation) :
    (growComponent n group resources remaining).2.length ≤ remaining.length := by
  induction n generalizing group resources remaining with
  | zero => exact Nat.le_refl _
  | succ n ih =>
    rw [growComponent_succ]
    split
    · exact Nat.le_refl _
    · exact (ih _ _ _).trans (componentPass_length group resources remaining)

theorem componentsFrom_spec (n : ℕ) (operations : List WorkOperation)
    (hn : operations.length ≤ n) : (componentsFrom n operations).flatten.Perm operations ∧
    (componentsFrom n operations).Pairwise NoShared := by
  induction n generalizing operations with
  | zero =>
    obtain rfl := List.length_eq_zero_iff.mp (Nat.le_zero.mp hn)
    simp [componentsFrom]
  | succ n ih =>
    cases operations with
    | nil => simp [componentsFrom]
    | cons op rest =>
      unfold componentsFrom
      obtain ⟨hperm, hshared⟩ := growComponent_spec rest.length [op] op.resources rest
        (Nat.le_refl _) (by simp)
      have hlen := growComponent_length rest.length [op] op.resources rest
      rw [List.length_cons] at hn
      obtain ⟨hrest, hpair⟩ := ih (growComponent rest.length [op] op.resources rest).2 (by omega)
      refine ⟨?_, List.pairwise_cons.mpr ⟨fun g hg x hx y hy => ?_, hpair⟩⟩
      · rw [List.flatten_cons]
        exact (hrest.append_left _).trans hperm
      · exact hshared x hx y (hrest.mem_iff.mp (List.mem_flatten.mpr ⟨g, hg, hy⟩))

/-- The groups are the operations. -/
theorem components_perm (operations : List WorkOperation) :
    (components operations).flatten.Perm operations :=
  (componentsFrom_spec _ operations (Nat.le_refl _)).1

/-- **Operations of different groups share no resource.** -/
theorem components_disjoint (operations : List WorkOperation) :
    (components operations).Pairwise NoShared :=
  (componentsFrom_spec _ operations (Nat.le_refl _)).2

/-! ## One group -/

theorem profileOf_some {group : List WorkOperation} {model : CostModel} {profile : RateProfile}
    (h : profileOf group model = .ok (some profile)) :
    profile ∈ model.profiles ∧ profile.applies group := by
  unfold profileOf at h
  split at h
  · simp at h
  · rename_i p hp
    obtain rfl : p = profile := by simpa using h
    have : p ∈ model.profiles.filter (fun profile => profile.applies group) := by
      rw [hp]
      exact List.mem_singleton_self p
    simpa using List.mem_filter.mp this
  · simp at h

/-- The flow of a member is a flow of the profile's mode. -/
theorem RateProfile.applies.flow_mem {profile : RateProfile} {group : List WorkOperation}
    (h : profile.applies group) {op : WorkOperation} (hop : op ∈ group) :
    op.flow ∈ profile.mode := by
  rw [← h.1]
  exact (List.perm_insertionSort _ _).mem_iff.mpr (List.mem_map.mpr ⟨op, hop, rfl⟩)

/-- The rates an operation may be given: its service's or less, or one that a profile
of its flow and size measured. -/
def RateOf (costs : Dict String ServiceCost) (model : CostModel) (op : WorkOperation)
    (rate : ℚ) : Prop :=
  (∃ cost, costs.get? op.operationId = some cost ∧ rate ≤ 1 / cost.beta) ∨
  ∃ profile ∈ model.profiles, op.flow ∈ profile.mode ∧
    inSizeDomain profile.minBytes profile.maxBytes op.payloadBytes ∧
    profile.rates.get? op.flow = some rate

theorem foldl_min_le (l : List ℚ) (a : ℚ) : l.foldl min a ≤ a ∧ ∀ x ∈ l, l.foldl min a ≤ x := by
  induction l generalizing a with
  | nil => simp
  | cons b l ih =>
    obtain ⟨h1, h2⟩ := ih (min a b)
    refine ⟨h1.trans (min_le_left _ _), fun x hx => ?_⟩
    rcases List.mem_cons.mp hx with rfl | hx
    · exact h1.trans (min_le_right _ _)
    · exact h2 x hx

theorem foldl_min_mem (l : List ℚ) (a : ℚ) : l.foldl min a = a ∨ l.foldl min a ∈ l := by
  induction l generalizing a with
  | nil => exact Or.inl rfl
  | cons b l ih =>
    rw [List.foldl_cons]
    rcases ih (min a b) with h | h
    · rcases min_choice a b with hab | hab
      · exact Or.inl (h.trans hab)
      · exact Or.inr (by rw [h, hab]; exact List.mem_cons_self)
    · exact Or.inr (List.mem_cons_of_mem _ h)

theorem foldl_min_pos {l : List ℚ} {a : ℚ} (ha : 0 < a) (hl : ∀ x ∈ l, 0 < x) :
    0 < l.foldl min a := by
  induction l generalizing a with
  | nil => exact ha
  | cons b l ih =>
    exact ih (lt_min ha (hl b List.mem_cons_self)) fun x hx => hl x (List.mem_cons_of_mem _ hx)

theorem CostModel.resource_pos (model : CostModel) {resource : String} {capacity : ℚ}
    (h : model.resources.get? resource = some capacity) : 0 < capacity :=
  model.resources_pos _ (Dict.mem_of_get? h)

/-- **What sharing gives an operation**: a positive rate, no more than its service's
and than its share of each resource. -/
theorem sharedRate_ok {group : List WorkOperation} {costs : Dict String ServiceCost}
    {model : CostModel} {op : WorkOperation} {e : String × ℚ} (hop : op ∈ group)
    (h : sharedRate group costs model op = .ok e) : e.1 = op.operationId ∧ 0 < e.2 ∧
      RateOf costs model op e.2 ∧ ∀ resource ∈ op.resources, ∀ capacity,
        model.resources.get? resource = some capacity →
          e.2 ≤ capacity / (usersOf group resource).length := by
  unfold sharedRate at h
  simp only [Checked.bind_ok, Checked.required_ok, Checked.pure_ok] at h
  obtain ⟨cost, hcost, limits, hlimits, rfl⟩ := h
  have hcount : ∀ resource ∈ op.resources, 0 < ((usersOf group resource).length : ℚ) := by
    intro resource hr
    have : op ∈ usersOf group resource := List.mem_filter.mpr ⟨hop, by simpa using hr⟩
    exact_mod_cast List.length_pos_of_mem this
  obtain ⟨hmin, hmins⟩ := foldl_min_le limits (1 / cost.beta)
  refine ⟨rfl, foldl_min_pos (one_div_pos.mpr cost.beta_pos) fun x hx => ?_,
    Or.inl ⟨cost, hcost, hmin⟩, fun resource hr capacity hcap => ?_⟩
  · obtain ⟨resource, hr, hx⟩ := Checked.mapM_right hlimits hx
    simp only [Checked.bind_ok, resourceCapacity, Checked.required_ok, Checked.pure_ok] at hx
    obtain ⟨capacity, hcap, rfl⟩ := hx
    exact div_pos (model.resource_pos hcap) (hcount resource hr)
  · obtain ⟨x, hx, hlimit⟩ := Checked.mapM_left hlimits hr
    simp only [Checked.bind_ok, resourceCapacity, Checked.required_ok, Checked.pure_ok, hcap,
      Option.some.injEq, exists_eq_left'] at hlimit
    rw [hlimit]
    exact hmins x hx

/-- The rate that sharing gave an operation. -/
def sharedRateValue (group : List WorkOperation) (costs : Dict String ServiceCost)
    (model : CostModel) (op : WorkOperation) : ℚ :=
  match sharedRate group costs model op with
  | .ok e => e.2
  | .error _ => 0

/-- The rate measured for a member of the group is positive and recorded. -/
theorem profileRate_pos {profile : RateProfile} {group : List WorkOperation}
    (h : profile.applies group) {op : WorkOperation} (hop : op ∈ group) :
    0 < profileRate profile op ∧ profile.rates.get? op.flow = some (profileRate profile op) := by
  obtain ⟨rate, hrate⟩ := Dict.get?_isSome.mpr ((profile.rates_keys op.flow).mpr (h.flow_mem hop))
  have heq : profileRate profile op = rate := by simp [profileRate, hrate]
  rw [heq]
  exact ⟨profile.rates_pos _ (Dict.mem_of_get? hrate), hrate⟩

/-- **What a group's rates are**: one per member, positive, each as `RateOf` says, and
together within every resource. -/
structure GroupRates (costs : Dict String ServiceCost) (model : CostModel)
    (group : List WorkOperation) (rates : List (String × ℚ)) : Prop where
  exists_rate : ∃ rate : WorkOperation → ℚ, rates = group.map (fun op => (op.operationId, rate op)) ∧
    (∀ op ∈ group, 0 < rate op ∧ RateOf costs model op (rate op)) ∧
    ∀ resource capacity, model.resources.get? resource = some capacity →
      ((usersOf group resource).map rate).sum ≤ capacity

theorem sum_le_of_share {l : List WorkOperation} {rate : WorkOperation → ℚ} {capacity : ℚ}
    (hpos : 0 ≤ capacity) (h : ∀ op ∈ l, rate op ≤ capacity / l.length) :
    (l.map rate).sum ≤ capacity := by
  have hsum := List.sum_le_card_nsmul (l.map rate) (capacity / l.length) (by simpa using h)
  rw [List.length_map, nsmul_eq_mul] at hsum
  by_cases hl : (l.length : ℚ) = 0
  · rw [hl, zero_mul] at hsum
    exact hsum.trans hpos
  · rwa [mul_div_cancel₀ capacity hl] at hsum

theorem groupRates_ok {costs : Dict String ServiceCost} {model : CostModel}
    {group : List WorkOperation} {rates : List (String × ℚ)}
    (h : groupRates costs model group = .ok rates) : GroupRates costs model group rates := by
  unfold groupRates at h
  simp only [Checked.bind_ok, Checked.ensure_ok] at h
  obtain ⟨_, -, found, hfound, h⟩ := h
  cases found with
  | some profile =>
    obtain ⟨hprofile, happlies⟩ := profileOf_some hfound
    simp only [measuredRates, Checked.bind_ok, Checked.pure_ok] at h
    obtain ⟨_, hcheck, rfl⟩ := h
    rw [Checked.forM_ok] at hcheck
    refine ⟨profileRate profile, rfl, fun op hop => ?_, fun resource capacity hcap => ?_⟩
    · obtain ⟨hpos, hget⟩ := profileRate_pos happlies hop
      exact ⟨hpos, Or.inr ⟨profile, hprofile, happlies.flow_mem hop, happlies.2.2.2 op hop, hget⟩⟩
    · by_cases hused : resource ∈ group.flatMap (·.resources)
      · have := hcheck resource (List.mem_dedup.mpr hused)
        simp only [Checked.bind_ok, resourceCapacity, Checked.required_ok, Checked.ensure_ok, hcap,
          Option.some.injEq, exists_eq_left'] at this
        exact this
      · have hnone : usersOf group resource = [] := by
          rw [usersOf, List.filter_eq_nil_iff]
          intro op hop hr
          exact hused (List.mem_flatMap.mpr ⟨op, hop, by simpa using hr⟩)
        rw [hnone]
        exact (model.resource_pos hcap).le
  | none =>
    have hone : ∀ op ∈ group, ∃ e, sharedRate group costs model op = .ok e := fun op hop => by
      obtain ⟨e, -, he⟩ := Checked.mapM_left h hop
      exact ⟨e, he⟩
    have hrate : ∀ op e, sharedRate group costs model op = .ok e →
        sharedRateValue group costs model op = e.2 := by
      intro op e he
      simp only [sharedRateValue, he]
    refine ⟨sharedRateValue group costs model, ?_, fun op hop => ?_, fun resource capacity hcap => ?_⟩
    · have hmap := Checked.mapM_map h (g := id) 
        (k := fun op => (op.operationId, sharedRateValue group costs model op)) ?_
      · simpa using hmap
      · intro op hop e he
        rw [hrate op e he, ← (sharedRate_ok hop he).1]
        rfl
    · obtain ⟨e, he⟩ := hone op hop
      obtain ⟨-, hpos, hrateOf, -⟩ := sharedRate_ok hop he
      rw [hrate op e he]
      exact ⟨hpos, hrateOf⟩
    · refine sum_le_of_share (model.resource_pos hcap).le fun op hop => ?_
      obtain ⟨hmem, hr⟩ := List.mem_filter.mp hop
      obtain ⟨e, he⟩ := hone op hmem
      rw [hrate op e he]
      exact (sharedRate_ok hmem he).2.2.2 resource (by simpa using hr) capacity hcap

/-! ## All active operations -/

/-- Sums over groups of which only one uses the resource. -/
theorem sum_users_le (rate : WorkOperation → ℚ) (resource : String) {capacity : ℚ}
    (hpos : 0 ≤ capacity) {groups : List (List WorkOperation)} (hdisjoint : groups.Pairwise NoShared)
    (h : ∀ group ∈ groups, ((usersOf group resource).map rate).sum ≤ capacity) :
    ((usersOf groups.flatten resource).map rate).sum ≤ capacity := by
  induction groups with
  | nil => simpa [usersOf] using hpos
  | cons group groups ih =>
    obtain ⟨hhead, hdisjoint⟩ := List.pairwise_cons.mp hdisjoint
    have hsplit : usersOf (group :: groups).flatten resource =
        usersOf group resource ++ usersOf groups.flatten resource := by
      simp [usersOf]
    by_cases huser : ∃ op ∈ group, resource ∈ op.resources
    · obtain ⟨op, hop, hr⟩ := huser
      have hnone : usersOf groups.flatten resource = [] := by
        rw [usersOf, List.filter_eq_nil_iff]
        intro y hy hyr
        obtain ⟨g, hg, hyg⟩ := List.mem_flatten.mp hy
        exact hhead g hg op hop y hyg resource hr (by simpa using hyr)
      rw [hsplit, hnone, List.append_nil]
      exact h group List.mem_cons_self
    · have hnone : usersOf group resource = [] := by
        rw [usersOf, List.filter_eq_nil_iff]
        intro y hy hyr
        exact huser ⟨y, hy, by simpa using hyr⟩
      rw [hsplit, hnone, List.nil_append]
      exact ih hdisjoint fun g hg => h g (List.mem_cons_of_mem _ hg)

/-- **The rates of the active operations**: each is positive and as `RateOf` says, and
the users of a resource stay within its capacity. -/
theorem ratesOf_ok {active : List WorkOperation} {costs : Dict String ServiceCost}
    {model : CostModel} {rates : Dict String ℚ} (h : ratesOf active costs model = .ok rates)
    (hnodup : (active.map (·.operationId)).Nodup) : ∃ rate : WorkOperation → ℚ,
    (∀ op ∈ active, rates.get? op.operationId = some (rate op) ∧ 0 < rate op ∧
      RateOf costs model op (rate op)) ∧
    ∀ resource capacity, model.resources.get? resource = some capacity →
      ((usersOf (active.filter (fun op => op.kind.communicates)) resource).map rate).sum ≤
        capacity := by
  unfold ratesOf at h
  simp only [Checked.bind_ok, Checked.pure_ok] at h
  obtain ⟨own, hown, shared, hshared, rfl⟩ := h
  have hlocal : ∀ op e, localRate costs op = .ok e → ∃ cost,
      costs.get? op.operationId = some cost ∧ e = (op.operationId, 1 / cost.beta) := by
    intro op e he
    simp only [localRate, Checked.bind_ok, Checked.required_ok, Checked.pure_ok] at he
    obtain ⟨cost, hcost, rfl⟩ := he
    exact ⟨cost, hcost, rfl⟩
  have hownKeys : own.map (·.1) =
      (active.filter (fun op => ¬ op.kind.communicates)).map (·.operationId) := by
    refine Checked.mapM_map hown fun op _ e he => ?_
    obtain ⟨cost, -, rfl⟩ := hlocal op e he
    rfl
  have hsharedKeys : shared.flatten.map (·.1) =
      (components (active.filter (fun op => op.kind.communicates))).flatten.map (·.operationId) := by
    rw [List.map_flatten, List.map_flatten]
    congr 1
    refine Checked.mapM_map hshared fun group _ m hm => ?_
    obtain ⟨rate, rfl, -, -⟩ := (groupRates_ok hm).exists_rate
    simp [Function.comp_def]
  have hkeys : (Dict.keys (own ++ shared.flatten)).Perm (active.map (·.operationId)) := by
    unfold Dict.keys
    rw [List.map_append, hownKeys, hsharedKeys, ← List.map_append]
    refine List.Perm.map _ ?_
    refine ((components_perm _).append_left _).trans ?_
    refine List.perm_append_comm.trans ?_
    simpa using List.filter_append_perm (fun op : WorkOperation => op.kind.communicates) active
  have hdistinct : Dict.Distinct (own ++ shared.flatten) := hkeys.nodup_iff.mpr hnodup
  let rate : WorkOperation → ℚ := fun op =>
    (Dict.get? (own ++ shared.flatten) op.operationId).getD 0
  -- the rate of a member of a group is the group's
  have hgroup : ∀ group ∈ components (active.filter (fun op => op.kind.communicates)),
      ∃ grate : WorkOperation → ℚ, (∀ op ∈ group,
        Dict.get? (own ++ shared.flatten) op.operationId = some (grate op) ∧ rate op = grate op ∧
        0 < grate op ∧ RateOf costs model op (grate op)) ∧
      ∀ resource capacity, model.resources.get? resource = some capacity →
        ((usersOf group resource).map grate).sum ≤ capacity := by
    intro group hg
    obtain ⟨m, hm, hgm⟩ := Checked.mapM_left hshared hg
    obtain ⟨grate, rfl, hrates, hsum⟩ := (groupRates_ok hgm).exists_rate
    refine ⟨grate, fun op hop => ?_, hsum⟩
    have hget : Dict.get? (own ++ shared.flatten) op.operationId = some (grate op) := by
      refine Dict.get?_of_mem hdistinct (List.mem_append_right _ (List.mem_flatten.mpr ⟨_, hm, ?_⟩))
      exact List.mem_map.mpr ⟨op, hop, rfl⟩
    exact ⟨hget, by simp [rate, hget], hrates op hop⟩
  refine ⟨rate, fun op hop => ?_, fun resource capacity hcap => ?_⟩
  · by_cases hk : op.kind.communicates = true
    · have hcomm : op ∈ (components (active.filter (fun op => op.kind.communicates))).flatten :=
        (components_perm _).mem_iff.mpr (List.mem_filter.mpr ⟨hop, hk⟩)
      obtain ⟨group, hg, hop'⟩ := List.mem_flatten.mp hcomm
      obtain ⟨grate, hrates, -⟩ := hgroup group hg
      obtain ⟨hget, heq, hpos, hrateOf⟩ := hrates op hop'
      rw [heq]
      exact ⟨hget, hpos, hrateOf⟩
    · obtain ⟨e, he, heq⟩ := Checked.mapM_left hown (List.mem_filter.mpr ⟨hop, by simpa using hk⟩)
      obtain ⟨cost, hcost, rfl⟩ := hlocal op e heq
      have hget : Dict.get? (own ++ shared.flatten) op.operationId = some (1 / cost.beta) :=
        Dict.get?_of_mem hdistinct (List.mem_append_left _ he)
      have heq : rate op = 1 / cost.beta := by simp [rate, hget]
      rw [heq]
      exact ⟨hget, one_div_pos.mpr cost.beta_pos, Or.inl ⟨cost, hcost, le_refl _⟩⟩
  · have hpos := (model.resource_pos hcap).le
    have hsum := sum_users_le rate resource hpos
      (components_disjoint (active.filter (fun op => op.kind.communicates))) fun group hg => by
        obtain ⟨grate, hrates, hsum⟩ := hgroup group hg
        have hcongr : (usersOf group resource).map rate = (usersOf group resource).map grate :=
          List.map_congr_left fun op hop => (hrates op (List.mem_of_mem_filter hop)).2.1
        rw [hcongr]
        exact hsum resource capacity hcap
    have hperm := ((components_perm (active.filter (fun op => op.kind.communicates))).filter
      (fun op => resource ∈ op.resources)).map rate
    exact hperm.sum_eq ▸ hsum

end VeriCCL
