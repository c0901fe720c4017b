import VeriCCL.RoutePlan
import VeriCCL.RouteSearch

/-! # What a selection of routes takes

The counters that a bundle adds up, and the totals that a solver's counts add up to, are the loads
of the links and of the shared resources.  So the time of a bundle and the cost of counts are both
the longest time of a load (`MaxLoadTime`), which there is one of (`MaxLoadTime.unique`). -/
namespace VeriCCL

/-! ## Counters -/

section Counter
variable {α : Type} [DecidableEq α] {counts total : Dict α ℕ} {key : α}

/-- A count; keys that a counter does not have count zero. -/
def tallyOf (counts : Dict α ℕ) (key : α) : ℕ := (counts.get? key).getD 0

/-- How often a list has an item. -/
def countIn (items : List α) (item : α) : ℕ := items.count item

theorem tallyOf_set (counts : Dict α ℕ) (k key : α) (n : ℕ) :
    tallyOf (counts.set k n) key = if k = key then n else tallyOf counts key := by
  unfold tallyOf
  rw [Dict.get?_set]
  split <;> rfl

theorem tallyOf_of_notMem (h : key ∉ counts.keys) : tallyOf counts key = 0 := by
  rw [tallyOf, Dict.get?_eq_none.mpr h, Option.getD_none]

theorem distinct_counter (items : List α) : (counter items).Distinct := by
  unfold counter
  induction items using List.reverseRecOn with
  | nil => exact Dict.distinct_nil
  | append_singleton items item ih =>
    rw [List.foldl_append]
    exact ih.set _ _

/-- **`Counter` counts.** -/
theorem tallyOf_counter (items : List α) (key : α) : tallyOf (counter items) key = countIn items key := by
  unfold counter countIn
  induction items using List.reverseRecOn with
  | nil => rfl
  | append_singleton items item ih =>
    rw [List.foldl_append, List.foldl_cons, List.foldl_nil, tallyOf_set, List.count_append,
      List.count_singleton]
    by_cases h : item = key
    · subst h
      rw [if_pos rfl, if_pos (by simp), ← ih]
      rfl
    · rw [if_neg h, if_neg (by simpa using h), ih, Nat.add_zero]

theorem distinct_addCounts (h : total.Distinct) (counts : Dict α ℕ) (copies : ℕ) :
    (addCounts total counts copies).Distinct := by
  unfold addCounts
  induction counts generalizing total with
  | nil => exact h
  | cons entry counts ih => exact ih (h.set _ _)

/-- **`Counter.update` adds.** -/
theorem tallyOf_addCounts (hcounts : counts.Distinct) (total : Dict α ℕ) (copies : ℕ) (key : α) :
    tallyOf (addCounts total counts copies) key = tallyOf total key + tallyOf counts key * copies := by
  unfold addCounts
  induction counts generalizing total with
  | nil => simp [tallyOf]
  | cons entry counts ih =>
    have hrest : Dict.Distinct counts := (List.nodup_cons.mp hcounts).2
    have hnew : entry.1 ∉ Dict.keys counts := (List.nodup_cons.mp hcounts).1
    rw [List.foldl_cons, ih hrest, tallyOf_set]
    have hcons : tallyOf (entry :: counts) key =
        if entry.1 = key then entry.2 else tallyOf counts key := by
      unfold tallyOf
      rw [Dict.get?_cons]
      split <;> rfl
    rw [hcons]
    by_cases h : entry.1 = key
    · subst h
      rw [if_pos rfl, if_pos rfl, tallyOf_of_notMem hnew, Nat.zero_mul, Nat.add_zero]
      rfl
    · rw [if_neg h, if_neg h]

/-- All the keys that are added are those of a total. -/
theorem mem_keys_addCounts (total counts : Dict α ℕ) (copies : ℕ) (key : α) :
    key ∈ (addCounts total counts copies).keys ↔ key ∈ total.keys ∨ key ∈ counts.keys := by
  unfold addCounts
  induction counts generalizing total with
  | nil => simp [Dict.keys]
  | cons entry counts ih =>
    rw [List.foldl_cons, ih, Dict.mem_keys_set]
    simp only [Dict.keys, List.map_cons, List.mem_cons]
    tauto

end Counter

/-! ## Loads -/

/-- What routes put on a link. -/
def linkLoad (routes : List Route) (edge : ℕ × ℕ) : ℕ :=
  (routes.map fun route => countIn route.edges edge).sum

/-- The shared resources that a route passes. -/
def routeResources (topology : Topology) (route : Route) : List String :=
  route.edges.flatMap (linkResources topology)

/-- What routes put on a shared resource. -/
def resourceLoad (topology : Topology) (routes : List Route) (resource : String) : ℕ :=
  (routes.map fun route => countIn (routeResources topology route) resource).sum

/-- **The longest time of a load**: of no link and no shared resource is it longer, and it is that of
one of them, or nothing is loaded. -/
structure MaxLoadTime (times : SliceTimes) (topology : Topology) (routes : List Route) (t : ℚ) :
    Prop where
  nonneg : 0 ≤ t
  links : ∀ entry ∈ times.links, entry.2 * (linkLoad routes entry.1 : ℚ) ≤ t
  resources : ∀ entry ∈ times.resources, entry.2 * (resourceLoad topology routes entry.1 : ℚ) ≤ t
  attained : t = 0 ∨ (∃ entry ∈ times.links, t = entry.2 * (linkLoad routes entry.1 : ℚ)) ∨
    ∃ entry ∈ times.resources, t = entry.2 * (resourceLoad topology routes entry.1 : ℚ)

section Loads
variable {times : SliceTimes} {topology : Topology} {routes routes' : List Route} {t t' : ℚ}

theorem MaxLoadTime.le (h : MaxLoadTime times topology routes t)
    (h' : MaxLoadTime times topology routes t') : t ≤ t' := by
  rcases h.attained with rfl | ⟨entry, hentry, rfl⟩ | ⟨entry, hentry, rfl⟩
  · exact h'.nonneg
  · exact h'.links entry hentry
  · exact h'.resources entry hentry

theorem MaxLoadTime.unique (h : MaxLoadTime times topology routes t)
    (h' : MaxLoadTime times topology routes t') : t = t' := le_antisymm (h.le h') (h'.le h)

/-- Only the loads matter. -/
theorem MaxLoadTime.congr (h : MaxLoadTime times topology routes t)
    (hweights : ∀ weight : Route → ℕ, (routes.map weight).sum = (routes'.map weight).sum) :
    MaxLoadTime times topology routes' t := by
  have hlinks : ∀ edge, linkLoad routes edge = linkLoad routes' edge := fun _ => hweights _
  have hresources : ∀ resource, resourceLoad topology routes resource =
      resourceLoad topology routes' resource := fun _ => hweights _
  refine ⟨h.nonneg, fun entry hentry => ?_, fun entry hentry => ?_, ?_⟩
  · exact hlinks entry.1 ▸ h.links entry hentry
  · exact hresources entry.1 ▸ h.resources entry hentry
  · simp only [← hlinks, ← hresources]
    exact h.attained

/-- The longest of times, of which one is zero. -/
theorem maxDefault_zero_spec (l : List ℚ) : 0 ≤ maxDefault 0 (0 :: l) ∧
    (∀ x ∈ l, x ≤ maxDefault 0 (0 :: l)) ∧ (maxDefault 0 (0 :: l) = 0 ∨ maxDefault 0 (0 :: l) ∈ l) := by
  refine ⟨le_maxDefault List.mem_cons_self, fun x hx => le_maxDefault (List.mem_cons_of_mem _ hx), ?_⟩
  exact List.mem_cons.mp (maxDefault_mem (List.cons_ne_nil _ _))

/-- The longest of times that are those of all links and all shared resources with a load. -/
theorem maxLoadTime_of_times {links resources : List ℚ}
    (hlinks : ∀ x ∈ links, ∃ entry ∈ times.links, x = entry.2 * (linkLoad routes entry.1 : ℚ))
    (hlinks' : ∀ entry ∈ times.links, linkLoad routes entry.1 ≠ 0 →
      entry.2 * (linkLoad routes entry.1 : ℚ) ∈ links)
    (hresources : ∀ x ∈ resources,
      ∃ entry ∈ times.resources, x = entry.2 * (resourceLoad topology routes entry.1 : ℚ))
    (hresources' : ∀ entry ∈ times.resources, resourceLoad topology routes entry.1 ≠ 0 →
      entry.2 * (resourceLoad topology routes entry.1 : ℚ) ∈ resources) :
    MaxLoadTime times topology routes (maxDefault 0 (0 :: (links ++ resources))) := by
  obtain ⟨hnonneg, hle, hmem⟩ := maxDefault_zero_spec (links ++ resources)
  refine ⟨hnonneg, fun entry hentry => ?_, fun entry hentry => ?_, ?_⟩
  · by_cases hzero : linkLoad routes entry.1 = 0
    · simpa [hzero] using hnonneg
    · exact hle _ (List.mem_append_left _ (hlinks' entry hentry hzero))
  · by_cases hzero : resourceLoad topology routes entry.1 = 0
    · simpa [hzero] using hnonneg
    · exact hle _ (List.mem_append_right _ (hresources' entry hentry hzero))
  · refine hmem.imp_right fun h => ?_
    exact (List.mem_append.mp h).imp (hlinks _) (hresources _)

/-! ## The loads of a route -/

/-- The counters of a route. -/
structure LoadsOf (topology : Topology) (route : Route) (loads : RouteLoads) : Prop where
  links_distinct : loads.links.Distinct
  resources_distinct : loads.resources.Distinct
  links : ∀ edge, tallyOf loads.links edge = countIn route.edges edge
  resources : ∀ resource, tallyOf loads.resources resource =
    countIn (routeResources topology route) resource

theorem flatMap_resourceIds {edges : List (ℕ × ℕ)} {links : List DirectedLink}
    (h : List.Forall₂ (fun edge link => topology.link edge.1 edge.2 = .ok link) edges links) :
    links.flatMap (·.resourceIds) = edges.flatMap (linkResources topology) := by
  induction h with
  | nil => rfl
  | cons hlink _ ih => rw [List.flatMap_cons, List.flatMap_cons, (link_ok hlink).2, ih]

theorem routeLoads_ok {route : Route} {loads : RouteLoads}
    (h : routeLoads topology route = .ok loads) : LoadsOf topology route loads := by
  simp only [routeLoads, Checked.bind_ok, Checked.pure_ok] at h
  obtain ⟨links, hlinks, rfl⟩ := h
  refine ⟨distinct_counter _, distinct_counter _, fun edge => tallyOf_counter _ _, fun resource => ?_⟩
  rw [tallyOf_counter, flatMap_resourceIds (Checked.mapM_ok.mp hlinks), routeResources]

/-! ## The times of counters -/

variable {α β : Type} [DecidableEq α]

theorem distinct_foldl_addCounts (l : List β) (counts : β → Dict α ℕ) (copies : β → ℕ)
    {total : Dict α ℕ} (htotal : total.Distinct) :
    (l.foldl (fun total b => addCounts total (counts b) (copies b)) total).Distinct := by
  induction l generalizing total with
  | nil => exact htotal
  | cons b l ih => exact ih (distinct_addCounts htotal _ _)

/-- **Counters that are added up.** -/
theorem tallyOf_foldl_addCounts (l : List β) (counts : β → Dict α ℕ) (copies : β → ℕ)
    (hcounts : ∀ b ∈ l, (counts b).Distinct) (total : Dict α ℕ) (key : α) :
    tallyOf (l.foldl (fun total b => addCounts total (counts b) (copies b)) total) key =
      tallyOf total key + (l.map fun b => tallyOf (counts b) key * copies b).sum := by
  induction l generalizing total with
  | nil => simp
  | cons b l ih =>
    rw [List.foldl_cons, ih fun a ha => hcounts a (List.mem_cons_of_mem _ ha),
      tallyOf_addCounts (hcounts b List.mem_cons_self), List.map_cons, List.sum_cons, Nat.add_assoc]

/-- The times of a counter are those of its keys. -/
theorem countTimes_ok [ToString α] {dict : Dict α ℚ} {counts : Dict α ℕ} {l : List ℚ}
    (hcounts : counts.Distinct) (h : countTimes dict counts = .ok l) :
    (∀ x ∈ l, ∃ entry ∈ dict, x = entry.2 * (tallyOf counts entry.1 : ℚ)) ∧
      (dict.Distinct → ∀ entry ∈ dict, tallyOf counts entry.1 ≠ 0 →
        entry.2 * (tallyOf counts entry.1 : ℚ) ∈ l) := by
  unfold countTimes at h
  constructor
  · intro x hx
    obtain ⟨entry, hentry, hstep⟩ := Checked.mapM_right h hx
    simp only [Checked.bind_ok, Checked.required_ok, Checked.pure_ok] at hstep
    obtain ⟨time, htime, rfl⟩ := hstep
    refine ⟨_, Dict.mem_of_get? htime, ?_⟩
    rw [tallyOf, Dict.get?_of_mem hcounts hentry, Option.getD_some]
  · intro hdict entry hentry hne
    have hkey : entry.1 ∈ counts.keys := by
      by_contra hnot
      exact hne (tallyOf_of_notMem hnot)
    obtain ⟨n, hn⟩ := Dict.mem_keys.mp hkey
    obtain ⟨x, hx, hstep⟩ := Checked.mapM_left h hn
    simp only [Checked.bind_ok, Checked.required_ok, Checked.pure_ok] at hstep
    obtain ⟨time, htime, rfl⟩ := hstep
    obtain rfl : entry.2 = time :=
      Option.some.inj ((Dict.get?_of_mem hdict hentry).symm.trans htime)
    rwa [tallyOf, Dict.get?_of_mem hcounts hn, Option.getD_some]

end Loads

end VeriCCL
