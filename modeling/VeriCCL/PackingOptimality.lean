import VeriCCL.PackBandwidth

/-! # Packing by bandwidth is optimal

Two directions meet in the cut condition of the roots (`CutCondition`).  Trees that carry the
items satisfy it for the loads they put on the links (`Serves.cut`), and the packer packs
trees for every capacities that satisfy it.  All load times are multiples of one unit
(`ticks`), so the least feasible tick is the least load time there is. -/
namespace VeriCCL

open Branching (inflow)
open Relation (ReflTransGen)

variable {α β : Type} [LinearOrder α]

/-! ## The cut condition of the roots -/

/-- Every set has capacity for the items whose root is outside of it. -/
def CutCondition (V : Finset α) (c : α → α → ℕ) (counts : α → ℕ) (total : ℕ) : Prop :=
  ∀ X ⊆ V, X.Nonempty → total ≤ inflow V c X + ∑ root ∈ X, counts root

theorem inflow_mono {V X : Finset α} {c c' : α → α → ℕ} (h : ∀ u v, c u v ≤ c' u v) :
    inflow V c X ≤ inflow V c' X :=
  Finset.sum_le_sum fun u _ => Finset.sum_le_sum fun v _ => h u v

/-- More capacity does no harm. -/
theorem CutCondition.mono {V : Finset α} {c c' : α → α → ℕ} {counts : α → ℕ} {total : ℕ}
    (h : CutCondition V c counts total) (hle : ∀ u v, c u v ≤ c' u v) :
    CutCondition V c' counts total := by
  intro X hX hne
  have := h X hX hne
  have : inflow V c X ≤ inflow V c' X := inflow_mono hle
  omega

/-- The number of items of a root. -/
def countOf (counts : Dict α ℕ) (root : α) : ℕ := (counts.get? root).getD 0

/-- **`rooted_cut_feasible` decides the cut condition.** -/
theorem rootedCutFeasible_iff {maximumFlowValue : MaximumFlowValue α}
    (hflow : maximumFlowValue.Exact) {nodes : List α} {capacities : Capacities α}
    {counts : Dict α ℕ} (hgraph : checkGraph nodes capacities = .ok ())
    (hroots : ∀ entry ∈ counts, entry.1 ∈ nodes ∧ 1 ≤ entry.2) :
    ∃ b, rootedCutFeasible maximumFlowValue nodes capacities counts = .ok b ∧
      (b = true ↔
        CutCondition nodes.toFinset capacities.room (countOf counts) counts.values.sum) := by
  set network := rootedNetwork nodes capacities counts with hnetwork
  have hrun : rootedCutFeasible maximumFlowValue nodes capacities counts =
      .ok (nodes.all fun target =>
        ¬ maximumFlowValue network (.inr 0) (.inl target) < counts.values.sum) := by
    unfold rootedCutFeasible
    simp only [Checked.bind_ok, Checked.pure_ok]
    refine ⟨(), hgraph, (), Checked.forM_ok.mpr fun entry he => ?_, rfl⟩
    exact Checked.ensure_ok.mpr (hroots entry he)
  refine ⟨_, hrun, fun hall => ?_, fun hcut => ?_⟩
  · intro X hX hne
    exact rooted_of_feasible hflow (hall ▸ hrun) hX hne
  · rw [List.all_eq_true]
    intro target htarget
    rw [decide_eq_true_eq, not_lt]
    have hsource : Sum.inr 0 ∈ network.vertices := by simp [hnetwork, rootedNetwork]
    have hmax := hflow network (.inr 0) (.inl target) hsource
      (by simpa [hnetwork, rootedNetwork] using htarget) (by simp)
    obtain ⟨S, ⟨hsub, hin, hout⟩, hvalue⟩ := hmax.exists_cut hsource (by simp)
    obtain ⟨hL, hR⟩ := Finset.subset_disjSum.mp hsub
    have hright : S.toRight = {0} :=
      Finset.Subset.antisymm hR (Finset.singleton_subset_iff.mpr (Finset.mem_toRight.mpr hin))
    have hcross := hcut (nodes.toFinset \ S.toLeft) Finset.sdiff_subset
      ⟨target, Finset.mem_sdiff.mpr ⟨List.mem_toFinset.mpr htarget,
        fun h => hout (Finset.mem_toLeft.mp h)⟩⟩
    have hcapacity : network.cut S = inflow nodes.toFinset capacities.room
        (nodes.toFinset \ S.toLeft) + ∑ root ∈ nodes.toFinset \ S.toLeft, countOf counts root := by
      rw [← Finset.toLeft_disjSum_toRight (u := S), hright, hnetwork, rootedNetwork,
        Network.cut_disjSum]
      simp only [Finset.sdiff_self, Finset.sum_const_zero, add_zero, Finset.sum_singleton,
        Finset.toLeft_disjSum]
      unfold inflow
      rw [Finset.sdiff_sdiff_eq_self hL]
      rfl
    rw [hvalue, hcapacity]
    exact_mod_cast hcross

/-! ## Trees that carry the items -/

/-- A tree with the number of items that travel along it. -/
structure WeightedTree (α : Type) where
  root : α
  weight : ℕ
  edges : List (α × α)

/-- The copies that trees send along a link. -/
def copies (trees : List (WeightedTree α)) (u v : α) : ℕ :=
  (trees.map fun tree => if tree.edges.contains (u, v) then tree.weight else 0).sum

theorem copies_eq (trees : List (WeightedTree α)) (u v : α) : copies trees u v =
    (trees.map fun tree => if (u, v) ∈ tree.edges then tree.weight else 0).sum := by
  simp only [copies, List.contains_iff_mem]

/-- The trees span, and each root has as many as it has items. -/
structure Serves (V : Finset α) (counts : α → ℕ) (trees : List (WeightedTree α)) : Prop where
  spans : ∀ tree ∈ trees, Arborescence V tree.root tree.edges
  count : ∀ root, ((trees.filter fun tree => tree.root = root).map (·.weight)).sum = counts root

omit [LinearOrder α] in
/-- A path into a set enters it. -/
theorem exists_crossing {R : α → α → Prop} {X : Finset α} {u v : α} (hpath : ReflTransGen R u v)
    (hu : u ∉ X) (hv : v ∈ X) : ∃ a b, R a b ∧ a ∉ X ∧ b ∈ X := by
  induction hpath with
  | refl => exact absurd hv hu
  | @tail b c _ hbc ih =>
    by_cases hb : b ∈ X
    · exact ih hb
    · exact ⟨b, c, hbc, hb, hv⟩

/-- A tree with its root outside of a set enters it. -/
theorem weight_le_inflow {V X : Finset α} {tree : WeightedTree α}
    (hspans : Arborescence V tree.root tree.edges) (hX : X ⊆ V) (hne : X.Nonempty)
    (hroot : tree.root ∉ X) :
    tree.weight ≤ inflow V (fun u v => if (u, v) ∈ tree.edges then tree.weight else 0) X := by
  obtain ⟨x, hx⟩ := hne
  obtain ⟨a, b, hab, ha, hb⟩ := exists_crossing (hspans.reach x (hX hx)) hroot hx
  have haV : a ∈ V \ X := Finset.mem_sdiff.mpr ⟨hspans.tails (a, b) hab, ha⟩
  calc tree.weight = if (a, b) ∈ tree.edges then tree.weight else 0 := (if_pos hab).symm
    _ ≤ ∑ v ∈ X, if (a, v) ∈ tree.edges then tree.weight else 0 :=
      Finset.single_le_sum (f := fun v => if (a, v) ∈ tree.edges then tree.weight else 0)
        (fun _ _ => Nat.zero_le _) hb
    _ ≤ _ := Finset.single_le_sum
        (f := fun u => ∑ v ∈ X, if (u, v) ∈ tree.edges then tree.weight else 0)
        (fun _ _ => Nat.zero_le _) haV

/-- Capacities add up. -/
theorem inflow_add {V X : Finset α} (c c' : α → α → ℕ) :
    inflow V (fun u v => c u v + c' u v) X = inflow V c X + inflow V c' X := by
  unfold inflow
  simp only [Finset.sum_add_distrib]

/-- **The load of trees satisfies the cut condition**, tree by tree. -/
theorem weights_le {V X : Finset α} {trees : List (WeightedTree α)}
    (hspans : ∀ tree ∈ trees, Arborescence V tree.root tree.edges) (hX : X ⊆ V) (hne : X.Nonempty) :
    (trees.map (·.weight)).sum ≤ inflow V (copies trees) X +
      (trees.map fun tree => if tree.root ∈ X then tree.weight else 0).sum := by
  induction trees with
  | nil => exact Nat.zero_le _
  | cons tree trees ih =>
    have hrest := ih fun t ht => hspans t (List.mem_cons_of_mem _ ht)
    have hsplit : inflow V (copies (tree :: trees)) X =
        inflow V (fun u v => if (u, v) ∈ tree.edges then tree.weight else 0) X +
          inflow V (copies trees) X := by
      rw [← inflow_add]
      congr 1
      funext u v
      rw [copies_eq, copies_eq, List.map_cons, List.sum_cons]
    rw [List.map_cons, List.sum_cons, List.map_cons, List.sum_cons, hsplit]
    by_cases hroot : tree.root ∈ X
    · rw [if_pos hroot]
      omega
    · have := weight_le_inflow (hspans tree List.mem_cons_self) hX hne hroot
      rw [if_neg hroot]
      omega

/-- The weights of the trees with their root in a set. -/
theorem Serves.weights {V : Finset α} {counts : α → ℕ} {trees : List (WeightedTree α)}
    (h : Serves V counts trees) (X : Finset α) :
    (trees.map fun tree => if tree.root ∈ X then tree.weight else 0).sum =
      ∑ root ∈ X, counts root := by
  have hsum : ∀ l : List (WeightedTree α),
      (l.map fun tree => if tree.root ∈ X then tree.weight else 0).sum =
        ∑ root ∈ X, ((l.filter fun tree => tree.root = root).map (·.weight)).sum := by
    intro l
    induction l with
    | nil => simp
    | cons tree l ih =>
      have hone : ∀ root ∈ X, (((tree :: l).filter fun t => t.root = root).map (·.weight)).sum =
          (if tree.root = root then tree.weight else 0) +
            ((l.filter fun t => t.root = root).map (·.weight)).sum := by
        intro root _
        rw [List.filter_cons]
        by_cases hr : tree.root = root <;> simp [hr]
      rw [List.map_cons, List.sum_cons, ih, Finset.sum_congr rfl hone, Finset.sum_add_distrib,
        Finset.sum_ite_eq]
  rw [hsum]
  exact Finset.sum_congr rfl fun root _ => h.count root

/-- The weight of all trees. -/
theorem Serves.total {V : Finset α} {counts : α → ℕ} {trees : List (WeightedTree α)}
    (h : Serves V counts trees) : (trees.map (·.weight)).sum = ∑ root ∈ V, counts root := by
  rw [← h.weights V]
  refine congrArg List.sum (List.map_congr_left fun tree htree => ?_)
  rw [if_pos (h.spans tree htree).root_mem]

/-- **Trees that carry the items satisfy the cut condition.** -/
theorem Serves.cut {V : Finset α} {counts : α → ℕ} {trees : List (WeightedTree α)}
    (h : Serves V counts trees) : CutCondition V (copies trees) counts (∑ root ∈ V, counts root) := by
  intro X hX hne
  have hle := weights_le h.spans hX hne
  rw [h.total, h.weights X] at hle
  exact hle

/-- No link carries more copies than there are items. -/
theorem copies_le_total (trees : List (WeightedTree α)) (u v : α) :
    copies trees u v ≤ (trees.map (·.weight)).sum := by
  refine List.sum_le_sum fun tree _ => ?_
  split
  · exact le_refl _
  · exact Nat.zero_le _

/-- Trees that keep to some links send nothing along the others. -/
theorem copies_eq_zero {trees : List (WeightedTree α)} {u v : α}
    (h : ∀ tree ∈ trees, (u, v) ∉ tree.edges) : copies trees u v = 0 := by
  rw [copies_eq]
  refine List.sum_eq_zero fun n hn => ?_
  obtain ⟨tree, htree, rfl⟩ := List.mem_map.mp hn
  exact if_neg (h tree htree)

/-! ## Ticks -/

theorem commonDenominator_spec (times : List ℚ) :
    0 < commonDenominator times ∧ ∀ time ∈ times, time.den ∣ commonDenominator times := by
  have hfold : ∀ (l : List ℚ) (d : ℕ), 0 < d →
      0 < l.foldl (fun d time => d.lcm time.den) d ∧ d ∣ l.foldl (fun d time => d.lcm time.den) d ∧
        ∀ time ∈ l, time.den ∣ l.foldl (fun d time => d.lcm time.den) d := by
    intro l
    induction l with
    | nil => exact fun d hd => ⟨hd, dvd_refl d, by simp⟩
    | cons time l ih =>
      intro d hd
      obtain ⟨hpos, hdvd, hall⟩ := ih (d.lcm time.den) (Nat.lcm_pos hd time.den_pos)
      refine ⟨hpos, (Nat.dvd_lcm_left d time.den).trans hdvd, fun other hother => ?_⟩
      rcases List.mem_cons.mp hother with rfl | hother
      · exact (Nat.dvd_lcm_right d other.den).trans hdvd
      · exact hall other hother
  obtain ⟨hpos, -, hall⟩ := hfold times 1 Nat.one_pos
  exact ⟨hpos, hall⟩

theorem foldl_gcd_dvd (l : List ℤ) : ∀ g : ℕ,
    l.foldl (fun g n => g.gcd n.natAbs) g ∣ g ∧
      ∀ n ∈ l, l.foldl (fun g n => g.gcd n.natAbs) g ∣ n.natAbs := by
  induction l with
  | nil => exact fun g => ⟨dvd_refl g, by simp⟩
  | cons m l ih =>
    intro g
    obtain ⟨hdvd, hall⟩ := ih (g.gcd m.natAbs)
    refine ⟨hdvd.trans (Nat.gcd_dvd_left g m.natAbs), fun n hn => ?_⟩
    rcases List.mem_cons.mp hn with rfl | hn
    · exact hdvd.trans (Nat.gcd_dvd_right g n.natAbs)
    · exact hall n hn

/-- A time is its numerator over the common denominator. -/
theorem numerator_div {times : List ℚ} {time : ℚ} (htime : time ∈ times) :
    time = ((time.num * (commonDenominator times / time.den : ℕ) : ℤ) : ℚ) /
      (commonDenominator times : ℚ) := by
  obtain ⟨hpos, hall⟩ := commonDenominator_spec times
  obtain ⟨m, hm⟩ := hall time htime
  have hm0 : (m : ℚ) ≠ 0 := by
    have : m ≠ 0 := by
      rintro rfl
      omega
    exact_mod_cast this
  rw [hm, Nat.mul_div_cancel_left m time.den_pos]
  push_cast
  rw [mul_div_mul_right _ _ hm0, Rat.num_div_den]

/-- **Every time is a positive number of units.** -/
theorem ticks {times : List ℚ} (hpos : ∀ time ∈ times, 0 < time) {time : ℚ} (htime : time ∈ times) :
    0 < tickUnit times ∧ ∃ k : ℕ, 0 < k ∧ time = k * tickUnit times := by
  obtain ⟨hdpos, hdvd⟩ := commonDenominator_spec times
  set d := commonDenominator times with hd
  set g := (numerators times).foldl (fun g n => g.gcd n.natAbs) 0 with hg
  set n := time.num * (d / time.den : ℕ) with hn
  have hnpos : 0 < n := by
    obtain ⟨m, hm⟩ := hdvd time htime
    have hmpos : 0 < d / time.den := by
      rw [hm, Nat.mul_div_cancel_left m time.den_pos]
      exact Nat.pos_of_mul_pos_left (hm ▸ hdpos)
    exact mul_pos (Rat.num_pos.mpr (hpos time htime)) (by exact_mod_cast hmpos)
  obtain ⟨k, hk⟩ : g ∣ n.natAbs := (foldl_gcd_dvd (numerators times) 0).2 n
    (List.mem_map.mpr ⟨time, htime, rfl⟩)
  have hgk : 0 < g * k := by
    rw [← hk]
    omega
  have hgpos : 0 < g := Nat.pos_of_mul_pos_right hgk
  have hunit : tickUnit times = (g : ℚ) / d := rfl
  have hcast : (n : ℚ) = g * k := by
    have : (n : ℤ) = g * k := by
      have habs : (n.natAbs : ℤ) = n := Int.natAbs_of_nonneg hnpos.le
      rw [← habs, hk]
      push_cast
      rfl
    exact_mod_cast this
  refine ⟨?_, k, Nat.pos_of_mul_pos_left hgk, ?_⟩
  · rw [hunit]
    exact div_pos (by exact_mod_cast hgpos) (by exact_mod_cast hdpos)
  · rw [hunit]
    calc time = (n : ℚ) / d := numerator_div htime
      _ = k * (g / d) := by rw [hcast]; ring

omit [LinearOrder α] in
/-- The steps of `pack_bandwidth` are the numbers of units. -/
theorem mem_tickSteps {times : Dict (α × α) ℚ} (hpos : ∀ entry ∈ times, 0 < entry.2)
    {entry : (α × α) × ℚ} (hentry : entry ∈ times) :
    0 < tickUnit times.values ∧ ∃ k : ℕ, 0 < k ∧ entry.2 = k * tickUnit times.values ∧
      (entry.1, k) ∈ tickSteps times := by
  have hvalues : ∀ time ∈ times.values, 0 < time := by
    intro time htime
    obtain ⟨e, he, rfl⟩ := List.mem_map.mp htime
    exact hpos e he
  obtain ⟨hunit, k, hk, heq⟩ := ticks hvalues (List.mem_map.mpr ⟨entry, hentry, rfl⟩)
  refine ⟨hunit, k, hk, heq, List.mem_map.mpr ⟨entry, hentry, Prod.ext rfl ?_⟩⟩
  show ⌊entry.2 / tickUnit times.values⌋.toNat = k
  rw [heq, mul_div_cancel_right₀ _ hunit.ne', Int.floor_natCast]
  rfl

omit [LinearOrder α] in
theorem keys_tickSteps (times : Dict (α × α) ℚ) : (tickSteps times).keys = times.keys := by
  unfold tickSteps Dict.keys
  rw [List.map_map]
  rfl

/-- The capacity of a link at a tick. -/
theorem capacitiesAt_mem {total : ℕ} {steps : Dict (α × α) ℕ} (hsteps : steps.Distinct) {tick : ℤ}
    {u v : α} {k : ℕ} (hk : ((u, v), k) ∈ steps) :
    (capacitiesAt total steps tick).at u v = min (total : ℤ) (tick / k) := by
  have hdistinct : (capacitiesAt total steps tick).Distinct := by
    unfold capacitiesAt Dict.Distinct Dict.keys
    rw [List.map_map]
    exact hsteps
  unfold Capacities.at
  rw [Dict.get?_of_mem hdistinct (List.mem_map.mpr ⟨_, hk, rfl⟩)]
  rfl

theorem capacitiesAt_notMem {total : ℕ} {steps : Dict (α × α) ℕ} {tick : ℤ} {u v : α}
    (h : (u, v) ∉ steps.keys) : (capacitiesAt total steps tick).at u v = 0 := by
  unfold Capacities.at
  rw [Dict.get?_eq_none.mpr]
  · rfl
  · unfold capacitiesAt Dict.keys
    rw [List.map_map]
    exact h

/-! ## The binary search -/

/-- **The search finds the least feasible tick.** -/
theorem searchTick_least {feasible : ℤ → Except String Bool} {P : ℤ → Prop} (fuel : ℕ) :
    ∀ low high : ℤ, (∀ t, low < t → t < high → ∃ b, feasible t = .ok b ∧ (b = true ↔ P t)) →
      low < high → ¬ P low → P high → (high - low).toNat ≤ fuel →
      ∃ t, searchTick feasible fuel low high = .ok t ∧ low < t ∧ t ≤ high ∧ P t ∧ ¬ P (t - 1) := by
  induction fuel with
  | zero =>
    intro low high _ hlt _ _ hfuel
    omega
  | succ fuel ih =>
    intro low high hfeasible hlt hlow hhigh hfuel
    unfold searchTick
    by_cases hgap : 1 < high - low
    · rw [if_pos hgap]
      obtain ⟨b, hb, hiff⟩ := hfeasible ((low + high) / 2) (by omega) (by omega)
      cases b with
      | true =>
        obtain ⟨t, hrun, h1, h2, h3, h4⟩ := ih low ((low + high) / 2)
          (fun t ht ht' => hfeasible t ht (by omega)) (by omega) hlow (hiff.mp rfl) (by omega)
        refine ⟨t, ?_, h1, by omega, h3, h4⟩
        rw [Checked.bind_ok]
        exact ⟨true, hb, hrun⟩
      | false =>
        have hmiddle : ¬ P ((low + high) / 2) := fun hp => Bool.false_ne_true (hiff.mpr hp)
        obtain ⟨t, hrun, h1, h2, h3, h4⟩ := ih ((low + high) / 2) high
          (fun t ht ht' => hfeasible t (by omega) ht') (by omega) hmiddle hhigh (by omega)
        refine ⟨t, ?_, by omega, h2, h3, h4⟩
        rw [Checked.bind_ok]
        exact ⟨false, hb, hrun⟩
    · rw [if_neg hgap]
      refine ⟨high, rfl, hlt, le_refl _, hhigh, ?_⟩
      rw [show high - 1 = low by omega]
      exact hlow

/-! ## What a packing has to be -/

/-- The links join distinct nodes, and the roots that have items are nodes. -/
def Declared (nodes : List α) (times : Dict (α × α) ℚ) (rootItems : Dict α (List β)) : Prop :=
  (∀ entry ∈ times, entry.1.1 ∈ nodes ∧ entry.1.2 ∈ nodes ∧ entry.1.1 ≠ entry.1.2) ∧
  ∀ entry ∈ rootItems, entry.2 ≠ [] → entry.1 ∈ nodes

/-- The largest load time of a link: its copies times its time for one. -/
def loadTime (times : Dict (α × α) ℚ) (load : α → α → ℕ) : ℚ :=
  (times.map fun entry => (load entry.1.1 entry.1.2 : ℚ) * entry.2).foldl max 0

/-- The trees of batches. -/
def batchTrees (batches : List (TreeBatch α β)) : List (WeightedTree α) :=
  batches.map fun batch => ⟨batch.root, batch.multiplicity, batch.edges⟩

/-- The trees of single items. -/
def itemTrees (rootItems : Dict α (List β)) (trees : β → List (α × α)) : List (WeightedTree α) :=
  rootItems.flatMap fun entry => entry.2.map fun item => ⟨entry.1, 1, trees item⟩

/-- An assignment of spanning trees to the items, along the links. -/
structure Routing (nodes : List α) (times : Dict (α × α) ℚ) (rootItems : Dict α (List β))
    (trees : β → List (α × α)) : Prop where
  spans : ∀ entry ∈ rootItems, ∀ item ∈ entry.2, Arborescence nodes.toFinset entry.1 (trees item)
  links : ∀ entry ∈ rootItems, ∀ item ∈ entry.2, ∀ link ∈ trees item, link ∈ times.keys

/-- **An optimal packing**: every item has a tree out of its root along the links, the
bandwidth time is the largest load time, and no assignment of trees has a smaller one. -/
structure OptimalPacking (nodes : List α) (times : Dict (α × α) ℚ) (rootItems : Dict α (List β))
    (packing : BandwidthPacking α β) : Prop where
  items : (packing.batches.flatMap (·.items)).Perm (rootItems.flatMap (·.2))
  distinct : (packing.batches.flatMap (·.items)).Nodup
  roots : ∀ root, ((packing.batches.filter (·.root = root)).flatMap (·.items)).Perm
    ((rootItems.get? root).getD [])
  trees : ∀ batch ∈ packing.batches, Arborescence nodes.toFinset batch.root batch.edges
  links : ∀ batch ∈ packing.batches, ∀ link ∈ batch.edges, link ∈ times.keys
  attained : packing.bandwidthTimeUs = loadTime times (copies (batchTrees packing.batches))
  optimal : ∀ trees, Routing nodes times rootItems trees →
    packing.bandwidthTimeUs ≤ loadTime times (copies (itemTrees rootItems trees))

omit [LinearOrder α] in
theorem loadTime_nonneg (times : Dict (α × α) ℚ) (load : α → α → ℕ) : 0 ≤ loadTime times load :=
  (le_foldl_max _ 0).1

section Counts
variable {rootItems : Dict α (List β)}

omit [LinearOrder α] in
theorem mem_rootCounts {entry : α × ℕ} : entry ∈ rootCounts rootItems ↔
    ∃ items, (entry.1, items) ∈ rootItems ∧ items ≠ [] ∧ entry.2 = items.length := by
  unfold rootCounts
  simp only [List.mem_map, List.mem_filter, decide_eq_true_eq]
  constructor
  · rintro ⟨e, ⟨he, hne⟩, rfl⟩
    exact ⟨e.2, he, hne, rfl⟩
  · rintro ⟨items, hmem, hne, hlen⟩
    exact ⟨(entry.1, items), ⟨hmem, hne⟩, Prod.ext rfl hlen.symm⟩

omit [LinearOrder α] in
theorem rootCounts_distinct (hroots : rootItems.Distinct) : (rootCounts rootItems).Distinct := by
  unfold rootCounts Dict.Distinct Dict.keys
  rw [List.map_map]
  exact hroots.sublist (List.filter_sublist.map _)

/-- A root counts its items. -/
theorem countOf_rootCounts (hroots : rootItems.Distinct) (root : α) :
    countOf (rootCounts rootItems) root = ((rootItems.get? root).getD []).length := by
  unfold countOf
  cases hget : (rootCounts rootItems).get? root with
  | some n =>
    obtain ⟨items, hmem, -, rfl⟩ := mem_rootCounts.mp (Dict.mem_of_get? hget)
    rw [Dict.get?_of_mem hroots hmem]
    rfl
  | none =>
    cases hitems : rootItems.get? root with
    | none => rfl
    | some items =>
      by_cases hne : items = []
      · subst hne
        rfl
      · exact absurd (List.mem_map.mpr ⟨(root, items.length), mem_rootCounts.mpr
          ⟨items, Dict.mem_of_get? hitems, hne, rfl⟩, rfl⟩) (Dict.get?_eq_none.mp hget)

/-- The roots that have items are nodes, so the nodes count all items. -/
theorem sum_countOf {nodes : List α} (hroots : rootItems.Distinct)
    (hdeclared : ∀ entry ∈ rootItems, entry.2 ≠ [] → entry.1 ∈ nodes) :
    ∑ root ∈ nodes.toFinset, countOf (rootCounts rootItems) root =
      (rootCounts rootItems).values.sum := by
  unfold countOf Dict.values
  rw [BatchPacker.sum_get? (rootCounts_distinct hroots)]
  refine congrArg List.sum (List.map_congr_left fun entry he => if_pos ?_)
  obtain ⟨items, hmem, hne, -⟩ := mem_rootCounts.mp he
  exact List.mem_toFinset.mpr (hdeclared _ hmem hne)

/-- Single trees serve the roots. -/
theorem Routing.serves {nodes : List α} {times : Dict (α × α) ℚ} (hroots : rootItems.Distinct)
    {trees : β → List (α × α)} (h : Routing nodes times rootItems trees) :
    Serves nodes.toFinset (countOf (rootCounts rootItems)) (itemTrees rootItems trees) := by
  refine ⟨fun tree htree => ?_, fun root => ?_⟩
  · obtain ⟨entry, he, htree⟩ := List.mem_flatMap.mp htree
    obtain ⟨item, hitem, rfl⟩ := List.mem_map.mp htree
    exact h.spans entry he item hitem
  · rw [countOf_rootCounts hroots, ← BatchPacker.filter_root hroots root]
    clear h
    induction rootItems with
    | nil => rfl
    | cons e l ih =>
      have hrest := ih (List.nodup_cons.mp hroots).2
      have hsplit : itemTrees (e :: l) trees =
          (e.2.map fun item => ⟨e.1, 1, trees item⟩) ++ itemTrees l trees := rfl
      rw [hsplit, List.filter_append, List.map_append, List.sum_append, hrest, List.filter_cons]
      by_cases he : e.1 = root
      · simp [he, List.filter_map, Function.comp_def]
      · simp [he, List.filter_map, Function.comp_def]

/-- Batches serve the roots. -/
theorem serves_batches {nodes : List α} {batches : List (TreeBatch α β)} (hroots : rootItems.Distinct)
    (hspans : ∀ batch ∈ batches, Arborescence nodes.toFinset batch.root batch.edges)
    (hitems : ∀ root, ((batches.filter (·.root = root)).flatMap (·.items)).Perm
      ((rootItems.get? root).getD [])) :
    Serves nodes.toFinset (countOf (rootCounts rootItems)) (batchTrees batches) := by
  refine ⟨fun tree htree => ?_, fun root => ?_⟩
  · obtain ⟨batch, hb, rfl⟩ := List.mem_map.mp htree
    exact hspans batch hb
  · rw [countOf_rootCounts hroots, ← (hitems root).length_eq, List.length_flatMap]
    unfold batchTrees
    rw [List.filter_map, List.map_map]
    rfl

end Counts

/-! ## Feasible ticks -/

section Packing
variable {nodes : List α} {times : Dict (α × α) ℚ} {rootItems : Dict α (List β)}

/-- The capacities at a tick satisfy the roots' cut condition. -/
def FeasibleAt (nodes : List α) (times : Dict (α × α) ℚ) (rootItems : Dict α (List β)) (tick : ℤ) :
    Prop :=
  CutCondition nodes.toFinset
    (capacitiesAt (rootCounts rootItems).values.sum (tickSteps times) tick).room
    (countOf (rootCounts rootItems)) (rootCounts rootItems).values.sum

omit [LinearOrder α] in
theorem tickSteps_distinct (htimes : times.Distinct) : (tickSteps times).Distinct := by
  unfold Dict.Distinct
  rw [keys_tickSteps]
  exact htimes

omit [LinearOrder α] in
theorem exists_step {u v : α} (h : (u, v) ∈ times.keys) : ∃ k, ((u, v), k) ∈ tickSteps times := by
  rw [← keys_tickSteps] at h
  exact Dict.mem_keys.mp h

/-- A link has one step. -/
theorem step_unique (htimes : times.Distinct) {link : α × α} {k k' : ℕ}
    (hk : (link, k) ∈ tickSteps times) (hk' : (link, k') ∈ tickSteps times) : k = k' := by
  have h := Dict.get?_of_mem (tickSteps_distinct htimes) hk
  rw [Dict.get?_of_mem (tickSteps_distinct htimes) hk'] at h
  exact (Option.some.inj h).symm

/-- The step of a link is positive. -/
theorem step_pos (hpositive : ∀ entry ∈ times, 0 < entry.2) (htimes : times.Distinct) {link : α × α}
    {k : ℕ} (hk : (link, k) ∈ tickSteps times) : 0 < k := by
  obtain ⟨entry, hentry, heq⟩ := List.mem_map.mp hk
  obtain ⟨-, k', hpos, -, hmem⟩ := mem_tickSteps hpositive hentry
  rw [(Prod.mk.inj heq).1] at hmem
  rw [step_unique htimes hk hmem]
  exact hpos

/-- More ticks do no harm. -/
theorem FeasibleAt.mono (htimes : times.Distinct) (hpositive : ∀ entry ∈ times, 0 < entry.2) {a b : ℤ} (hab : a ≤ b)
    (h : FeasibleAt nodes times rootItems a) : FeasibleAt nodes times rootItems b := by
  refine CutCondition.mono h fun u v => ?_
  unfold Capacities.room
  by_cases hlink : (u, v) ∈ times.keys
  · obtain ⟨k, hk⟩ := exists_step hlink
    rw [capacitiesAt_mem (tickSteps_distinct htimes) hk, capacitiesAt_mem (tickSteps_distinct htimes) hk]
    have hk0 : (0 : ℤ) < k := by exact_mod_cast step_pos hpositive htimes hk
    have : a / (k : ℤ) ≤ b / k := Int.ediv_le_ediv hk0 hab
    omega
  · rw [← keys_tickSteps] at hlink
    rw [capacitiesAt_notMem hlink, capacitiesAt_notMem hlink]

/-- **Trees make their load time feasible**: a tick that no link's load exceeds. -/
theorem Serves.feasibleAt (hroots : rootItems.Distinct) (htimes : times.Distinct)
    (hpositive : ∀ entry ∈ times, 0 < entry.2)
    (hdeclared : ∀ entry ∈ rootItems, entry.2 ≠ [] → entry.1 ∈ nodes)
    {trees : List (WeightedTree α)}
    (h : Serves nodes.toFinset (countOf (rootCounts rootItems)) trees)
    (hlinks : ∀ tree ∈ trees, ∀ link ∈ tree.edges, link ∈ times.keys) {tick : ℤ}
    (htick : ∀ u v k, ((u, v), k) ∈ tickSteps times → (copies trees u v * k : ℤ) ≤ tick) :
    FeasibleAt nodes times rootItems tick := by
  have htotal := sum_countOf hroots hdeclared
  have hcut := h.cut
  rw [htotal] at hcut
  refine CutCondition.mono hcut fun u v => ?_
  unfold Capacities.room
  by_cases hlink : (u, v) ∈ times.keys
  · obtain ⟨k, hk⟩ := exists_step hlink
    rw [capacitiesAt_mem (tickSteps_distinct htimes) hk]
    have hle := copies_le_total trees u v
    rw [h.total, htotal] at hle
    have hkpos : (0 : ℤ) < k := by exact_mod_cast step_pos hpositive htimes hk
    have hdiv : (copies trees u v : ℤ) ≤ tick / k :=
      (Int.le_ediv_iff_mul_le hkpos).mpr (htick u v k hk)
    omega
  · rw [copies_eq_zero fun tree htree hmem => hlink (hlinks tree htree _ hmem)]
    exact Nat.zero_le _

/-- **No trees are faster than the least feasible tick.** -/
theorem Serves.le_loadTime (hroots : rootItems.Distinct) (htimes : times.Distinct)
    (hpositive : ∀ entry ∈ times, 0 < entry.2)
    (hdeclared : ∀ entry ∈ rootItems, entry.2 ≠ [] → entry.1 ∈ nodes)
    {trees : List (WeightedTree α)}
    (h : Serves nodes.toFinset (countOf (rootCounts rootItems)) trees)
    (hlinks : ∀ tree ∈ trees, ∀ link ∈ tree.edges, link ∈ times.keys) {tick : ℤ}
    (hleast : ¬ FeasibleAt nodes times rootItems (tick - 1)) :
    tick * tickUnit times.values ≤ loadTime times (copies trees) := by
  by_contra hless
  refine hleast (h.feasibleAt hroots htimes hpositive hdeclared hlinks fun u v k hk => ?_)
  obtain ⟨entry, hentry, heq⟩ := List.mem_map.mp hk
  obtain ⟨hunit, k', -, htime, hmem⟩ := mem_tickSteps hpositive hentry
  have hlink : entry.1 = (u, v) := (Prod.mk.inj heq).1
  rw [hlink] at hmem
  obtain rfl := step_unique htimes hk hmem
  have hle : (copies trees u v : ℚ) * entry.2 ≤ loadTime times (copies trees) := by
    refine (le_foldl_max _ 0).2 _ (List.mem_map.mpr ⟨entry, hentry, ?_⟩)
    rw [hlink]
  have hlt : ((copies trees u v * k : ℤ) : ℚ) * tickUnit times.values <
      tick * tickUnit times.values := by
    calc ((copies trees u v * k : ℤ) : ℚ) * tickUnit times.values
        = copies trees u v * entry.2 := by rw [htime]; push_cast; ring
      _ ≤ loadTime times (copies trees) := hle
      _ < tick * tickUnit times.values := not_le.mp hless
  have : ((copies trees u v * k : ℤ) : ℚ) < tick := lt_of_mul_lt_mul_right hlt hunit.le
  have : (copies trees u v * k : ℤ) < tick := by exact_mod_cast this
  omega

/-- **Trees within the capacities of a tick are as fast as it.** -/
theorem loadTime_le (htimes : times.Distinct) (hpositive : ∀ entry ∈ times, 0 < entry.2)
    {load : α → α → ℕ} (total : ℕ) {tick : ℤ} (htick : 0 ≤ tick)
    (hload : ∀ u v, (load u v : ℤ) ≤ (capacitiesAt total (tickSteps times) tick).at u v) :
    loadTime times load ≤ tick * tickUnit times.values := by
  have hbound : ∀ entry ∈ times, 0 ≤ (tick : ℚ) * tickUnit times.values ∧
      (load entry.1.1 entry.1.2 : ℚ) * entry.2 ≤ tick * tickUnit times.values := by
    intro entry hentry
    obtain ⟨hunit, k, hk, htime, hmem⟩ := mem_tickSteps hpositive hentry
    have hle := hload entry.1.1 entry.1.2
    rw [capacitiesAt_mem (tickSteps_distinct htimes) hmem] at hle
    have hkpos : (0 : ℤ) < k := by exact_mod_cast hk
    have hmul : (load entry.1.1 entry.1.2 : ℤ) * k ≤ tick :=
      (Int.le_ediv_iff_mul_le hkpos).mp (hle.trans (min_le_right _ _))
    have hcast : ((load entry.1.1 entry.1.2 : ℕ) : ℚ) * k ≤ tick := by exact_mod_cast hmul
    refine ⟨mul_nonneg (by exact_mod_cast htick) hunit.le, ?_⟩
    rw [htime, ← mul_assoc]
    exact mul_le_mul_of_nonneg_right hcast hunit.le
  cases htimes' : times with
  | nil => simp [loadTime, tickUnit, numerators, Dict.values]
  | cons entry rest =>
    rw [← htimes']
    refine foldl_max_le (hbound entry (by rw [htimes']; exact List.mem_cons_self)).1 fun x hx => ?_
    obtain ⟨e, he, rfl⟩ := List.mem_map.mp hx
    exact (hbound e he).2

/-! ## Where the search starts -/

/-- The links with a capacity for all items each. -/
def wideCapacities (times : Dict (α × α) ℚ) (rootItems : Dict α (List β)) : Capacities α :=
  times.map fun entry => (entry.1, ((rootCounts rootItems).values.sum : ℤ))

/-- The links reach every node from every root that has items. -/
def Reachable (nodes : List α) (times : Dict (α × α) ℚ) (rootItems : Dict α (List β)) : Prop :=
  ∀ entry ∈ rootItems, entry.2 ≠ [] → ∀ v ∈ nodes,
    ReflTransGen (fun a b => (a, b) ∈ times.keys) entry.1 v

theorem room_wide (htimes : times.Distinct) (u v : α) :
    (wideCapacities times rootItems).room u v =
      if (u, v) ∈ times.keys then (rootCounts rootItems).values.sum else 0 := by
  have hkeys : (wideCapacities times rootItems).keys = times.keys := by
    unfold wideCapacities Dict.keys
    rw [List.map_map]
    rfl
  unfold Capacities.room Capacities.at
  split
  · next hlink =>
    obtain ⟨time, hmem⟩ := Dict.mem_keys.mp hlink
    have hwide : ((u, v), ((rootCounts rootItems).values.sum : ℤ)) ∈ wideCapacities times rootItems :=
      List.mem_map.mpr ⟨_, hmem, rfl⟩
    rw [Dict.get?_of_mem (by unfold Dict.Distinct; rw [hkeys]; exact htimes) hwide]
    rfl
  · next hlink =>
    rw [Dict.get?_eq_none.mpr (by rw [hkeys]; exact hlink)]
    rfl

/-- A root that has items counts them. -/
theorem countOf_pos (hroots : rootItems.Distinct) {entry : α × List β} (hentry : entry ∈ rootItems)
    (hne : entry.2 ≠ []) : 0 < countOf (rootCounts rootItems) entry.1 := by
  rw [countOf_rootCounts hroots, Dict.get?_of_mem hroots hentry]
  exact List.length_pos_of_ne_nil hne

/-- A set without some root that has items does not hold the roots of all of them. -/
theorem counts_lt_total (hroots : rootItems.Distinct) (hdeclared : Declared nodes times rootItems)
    {entry : α × List β} (hentry : entry ∈ rootItems) (hne : entry.2 ≠ []) {X : Finset α}
    (hX : X ⊆ nodes.toFinset) (hout : entry.1 ∉ X) :
    ∑ root ∈ X, countOf (rootCounts rootItems) root < (rootCounts rootItems).values.sum := by
  rw [← sum_countOf hroots hdeclared.2]
  refine Finset.sum_lt_sum_of_subset hX
    (List.mem_toFinset.mpr (hdeclared.2 entry hentry hne)) hout (countOf_pos hroots hentry hne) ?_
  exact fun _ _ _ => Nat.zero_le _

/-- **The cut condition of wide links is reachability.** -/
theorem cut_wide_iff (hroots : rootItems.Distinct) (htimes : times.Distinct)
    (hdeclared : Declared nodes times rootItems) :
    CutCondition nodes.toFinset (wideCapacities times rootItems).room (countOf (rootCounts rootItems))
        (rootCounts rootItems).values.sum ↔ Reachable nodes times rootItems := by
  classical
  constructor
  · intro hcut entry hentry hne v hv
    by_contra hunreachable
    -- the nodes that are out of reach form a set that no link enters
    set X := nodes.toFinset.filter fun w =>
      ¬ ReflTransGen (fun a b => (a, b) ∈ times.keys) entry.1 w with hX
    have hsub : X ⊆ nodes.toFinset := Finset.filter_subset _ _
    have hroot : entry.1 ∉ X := fun h => (Finset.mem_filter.mp h).2 ReflTransGen.refl
    have hle := hcut X hsub ⟨v, Finset.mem_filter.mpr ⟨List.mem_toFinset.mpr hv, hunreachable⟩⟩
    have hzero : inflow nodes.toFinset (wideCapacities times rootItems).room X = 0 := by
      refine Finset.sum_eq_zero fun a ha => Finset.sum_eq_zero fun b hb => ?_
      obtain ⟨haV, haX⟩ := Finset.mem_sdiff.mp ha
      have hreach : ReflTransGen (fun a b => (a, b) ∈ times.keys) entry.1 a := by
        by_contra h
        exact haX (Finset.mem_filter.mpr ⟨haV, h⟩)
      rw [room_wide htimes, if_neg fun hlink => (Finset.mem_filter.mp hb).2 (hreach.tail hlink)]
    have := counts_lt_total hroots hdeclared hentry hne hsub hroot
    omega
  · intro hreach X hX ⟨x, hx⟩
    by_cases hall : ∀ root ∈ nodes.toFinset, 0 < countOf (rootCounts rootItems) root → root ∈ X
    · have hsum : ∑ root ∈ X, countOf (rootCounts rootItems) root =
          ∑ root ∈ nodes.toFinset, countOf (rootCounts rootItems) root := by
        refine Finset.sum_subset hX fun root hroot hout => ?_
        by_contra hpos
        exact hout (hall root hroot (Nat.pos_of_ne_zero hpos))
      rw [sum_countOf hroots hdeclared.2] at hsum
      omega
    · -- the path from a root outside enters the set along a wide link
      push Not at hall
      obtain ⟨root, hroot, hpos, hout⟩ := hall
      rw [countOf_rootCounts hroots] at hpos
      cases hget : rootItems.get? root with
      | none =>
        rw [hget] at hpos
        exact absurd hpos (Nat.lt_irrefl 0)
      | some items =>
        rw [hget] at hpos
        obtain ⟨a, b, hab, ha, hb⟩ := exists_crossing
          (hreach (root, items) (Dict.mem_of_get? hget) (List.ne_nil_of_length_pos hpos) x
            (List.mem_toFinset.mp (hX hx))) hout hx
        obtain ⟨time, htime⟩ := Dict.mem_keys.mp hab
        have haV : a ∈ nodes.toFinset \ X :=
          Finset.mem_sdiff.mpr ⟨List.mem_toFinset.mpr (hdeclared.1 _ htime).1, ha⟩
        have hlink : (rootCounts rootItems).values.sum ≤
            inflow nodes.toFinset (wideCapacities times rootItems).room X := by
          calc (rootCounts rootItems).values.sum = (wideCapacities times rootItems).room a b := by
                rw [room_wide htimes, if_pos hab]
            _ ≤ ∑ v ∈ X, (wideCapacities times rootItems).room a v :=
              Finset.single_le_sum (f := fun v => (wideCapacities times rootItems).room a v)
                (fun _ _ => Nat.zero_le _) hb
            _ ≤ _ := Finset.single_le_sum
              (f := fun u => ∑ v ∈ X, (wideCapacities times rootItems).room u v)
              (fun _ _ => Nat.zero_le _) haV
        omega

/-- The tick at which every link may carry all items. -/
def highestTick (times : Dict (α × α) ℚ) (rootItems : Dict α (List β)) : ℤ :=
  (tickSteps times).values.foldl max 0 * (rootCounts rootItems).values.sum

/-- **The upper end of the search is feasible.** -/
theorem feasibleAt_highest (htimes : times.Distinct) (hpositive : ∀ entry ∈ times, 0 < entry.2)
    (hcut : CutCondition nodes.toFinset (wideCapacities times rootItems).room
      (countOf (rootCounts rootItems)) (rootCounts rootItems).values.sum) :
    FeasibleAt nodes times rootItems (highestTick times rootItems) := by
  refine CutCondition.mono hcut fun u v => ?_
  rw [room_wide htimes]
  split
  · next hlink =>
    obtain ⟨k, hk⟩ := exists_step hlink
    have hkpos : (0 : ℤ) < k := by exact_mod_cast step_pos hpositive htimes hk
    have hmax : k ≤ (tickSteps times).values.foldl max 0 :=
      (le_foldl_max _ 0).2 k (List.mem_map.mpr ⟨_, hk, rfl⟩)
    have hmul : ((rootCounts rootItems).values.sum : ℤ) * k ≤ highestTick times rootItems := by
      unfold highestTick
      rw [mul_comm]
      exact mul_le_mul_of_nonneg_right (by exact_mod_cast hmax) (Int.natCast_nonneg _)
    have hdiv := (Int.le_ediv_iff_mul_le hkpos).mpr hmul
    unfold Capacities.room
    rw [capacitiesAt_mem (tickSteps_distinct htimes) hk, min_eq_left hdiv, Int.toNat_natCast]
  · exact Nat.zero_le _

/-- **The lower end of the search is infeasible**: no link has capacity. -/
theorem not_feasibleAt_neg (hroots : rootItems.Distinct) (htimes : times.Distinct)
    (hpositive : ∀ entry ∈ times, 0 < entry.2) (hdeclared : Declared nodes times rootItems)
    {entry : α × List β} (hentry : entry ∈ rootItems) (hne : entry.2 ≠ []) {v : α} (hv : v ∈ nodes)
    (hother : v ≠ entry.1) : ¬ FeasibleAt nodes times rootItems (-1) := by
  intro hcut
  have hsub : nodes.toFinset.erase entry.1 ⊆ nodes.toFinset := Finset.erase_subset _ _
  have hle := hcut _ hsub ⟨v, Finset.mem_erase.mpr ⟨hother, List.mem_toFinset.mpr hv⟩⟩
  have hzero : inflow nodes.toFinset (capacitiesAt (rootCounts rootItems).values.sum
      (tickSteps times) (-1)).room (nodes.toFinset.erase entry.1) = 0 := by
    refine Finset.sum_eq_zero fun a _ => Finset.sum_eq_zero fun b _ => ?_
    unfold Capacities.room
    by_cases hlink : (a, b) ∈ times.keys
    · obtain ⟨k, hk⟩ := exists_step hlink
      have hkpos : (0 : ℤ) < k := by exact_mod_cast step_pos hpositive htimes hk
      have : (-1 : ℤ) / k < 0 := Int.ediv_neg_of_neg_of_pos (by omega) hkpos
      rw [capacitiesAt_mem (tickSteps_distinct htimes) hk]
      omega
    · rw [← keys_tickSteps] at hlink
      rw [capacitiesAt_notMem hlink]
      rfl
  have := counts_lt_total hroots hdeclared hentry hne hsub (Finset.notMem_erase entry.1 _)
  omega

/-! ## The least feasible tick -/

variable {maximumFlowValue : MaximumFlowValue α}

omit [LinearOrder α] in
/-- The counts are as `rooted_cut_feasible` requires. -/
theorem counts_declared (hdeclared : Declared nodes times rootItems) :
    ∀ entry ∈ rootCounts rootItems, entry.1 ∈ nodes ∧ 1 ≤ entry.2 := by
  intro entry hentry
  obtain ⟨items, hmem, hne, hlength⟩ := mem_rootCounts.mp hentry
  exact ⟨hdeclared.2 _ hmem hne, hlength ▸ List.length_pos_of_ne_nil hne⟩

/-- The cut check at a tick. -/
theorem feasible_at (hflow : maximumFlowValue.Exact) (hdeclared : Declared nodes times rootItems)
    {tick : ℤ} (htick : 0 ≤ tick) :
    ∃ b, rootedCutFeasible maximumFlowValue nodes
      (capacitiesAt (rootCounts rootItems).values.sum (tickSteps times) tick)
      (rootCounts rootItems) = .ok b ∧ (b = true ↔ FeasibleAt nodes times rootItems tick) := by
  refine rootedCutFeasible_iff hflow (checkGraph_ok.mpr fun entry hentry => ?_)
    (counts_declared hdeclared)
  obtain ⟨step, hstep, rfl⟩ := List.mem_map.mp hentry
  obtain ⟨time, htime, rfl⟩ := List.mem_map.mp hstep
  refine ⟨hdeclared.1 time htime, le_min (Int.natCast_nonneg _) ?_⟩
  exact Int.ediv_nonneg htick (Int.natCast_nonneg _)

/-- **`leastTick` is the least feasible tick.** -/
theorem leastTick_spec (hflow : maximumFlowValue.Exact) (hroots : rootItems.Distinct)
    (htimes : times.Distinct) (hpositive : ∀ entry ∈ times, 0 < entry.2)
    (hdeclared : Declared nodes times rootItems) (hreach : Reachable nodes times rootItems)
    {entry : α × List β} (hentry : entry ∈ rootItems) (hne : entry.2 ≠ []) {v : α} (hv : v ∈ nodes)
    (hother : v ≠ entry.1) :
    ∃ tick, leastTick maximumFlowValue nodes times rootItems = .ok tick ∧ 0 ≤ tick ∧
      FeasibleAt nodes times rootItems tick ∧ ¬ FeasibleAt nodes times rootItems (tick - 1) := by
  have hhigh : 0 ≤ highestTick times rootItems :=
    mul_nonneg (Int.natCast_nonneg _) (Int.natCast_nonneg _)
  have hchecks := fun (t : ℤ) (ht : -1 < t) (_ : t < highestTick times rootItems) =>
    feasible_at hflow hdeclared (show 0 ≤ t by omega)
  obtain ⟨tick, hrun, hlow, -, hfeasible, hleast⟩ := searchTick_least
    (((tickSteps times).values.foldl max 0 * (rootCounts rootItems).values.sum) + 1) (-1)
    (highestTick times rootItems) hchecks (by omega)
    (not_feasibleAt_neg hroots htimes hpositive hdeclared hentry hne hv hother)
    (feasibleAt_highest htimes hpositive ((cut_wide_iff hroots htimes hdeclared).mpr hreach))
    (by unfold highestTick; omega)
  exact ⟨tick, hrun, by omega, hfeasible, hleast⟩

/-! ## The trees of a packing -/

variable [DecidableEq β]

/-- What the packer's trees are: they carry the items along links that have capacity. -/
structure Packs (nodes : List α) (capacities : Capacities α) (rootItems : Dict α (List β))
    (batches : List (TreeBatch α β)) : Prop extends
    BatchPacker.Carried nodes capacities rootItems batches where
  nonempty : ∀ batch ∈ batches, batch.items ≠ []

omit [DecidableEq β] in
/-- The copies of the batches. -/
theorem copies_batchTrees (batches : List (TreeBatch α β)) (u v : α) :
    copies (batchTrees batches) u v =
      (batches.map fun batch => if (u, v) ∈ batch.edges then batch.multiplicity else 0).sum := by
  rw [copies_eq]
  unfold batchTrees
  rw [List.map_map]
  rfl

omit [DecidableEq β] in
/-- The trees keep to the links. -/
theorem Packs.keeps {capacities : Capacities α} {batches : List (TreeBatch α β)}
    (h : Packs nodes capacities rootItems batches) {batch : TreeBatch α β} (hbatch : batch ∈ batches)
    {link : α × α} (hlink : link ∈ batch.edges) : link ∈ capacities.keys := by
  by_contra hnone
  have hle := h.toCarried.links link.1 link.2
  have hzero : capacities.at link.1 link.2 = 0 := by
    unfold Capacities.at
    rw [Dict.get?_eq_none.mpr hnone]
    rfl
  have hpos : 0 < batch.multiplicity := List.length_pos_of_ne_nil (h.nonempty batch hbatch)
  have hone : batch.multiplicity ≤ (batches.map fun batch =>
      if (link.1, link.2) ∈ batch.edges then batch.multiplicity else 0).sum := by
    refine List.single_le_sum (fun _ _ => Nat.zero_le _) _ (List.mem_map.mpr ⟨batch, hbatch, ?_⟩)
    exact if_pos hlink
  omega

/-- **With enough fuel the packer answers**: with trees that carry the items, when its
constructor accepts, else with the error of the constructor. -/
theorem packTrees_answers (nodes : List α) (hflow : maximumFlowValue.Exact) (hroots : rootItems.Distinct)
    (capacities : Capacities α) :
    (∃ fuel, ∀ more ≥ fuel, ∃ batches, packTrees maximumFlowValue more nodes capacities rootItems =
        .ok batches ∧ Packs nodes capacities rootItems batches) ∨
    ∃ e, BatchPacker.init maximumFlowValue nodes capacities rootItems = .error e ∧
      ∀ fuel, packTrees maximumFlowValue fuel nodes capacities rootItems = .error e := by
  cases hinit : BatchPacker.init maximumFlowValue nodes capacities rootItems with
  | error e =>
    refine .inr ⟨e, rfl, fun fuel => ?_⟩
    unfold packTrees
    rw [hinit]
    rfl
  | ok packer =>
    obtain ⟨hpacked, hnodes, hitems⟩ := BatchPacker.init_packed hflow hroots hinit
    obtain ⟨fuel, hfinish⟩ := hpacked.finish hflow hnodes hroots hitems
    refine .inl ⟨fuel, fun more hmore => ?_⟩
    obtain ⟨after, hrun, hafter, hempty⟩ := hfinish more hmore
    refine ⟨after.batches, ?_, hafter.carried hempty hroots hitems, hafter.nonempty⟩
    unfold packTrees
    rw [hinit]
    exact hrun

/-- **The constructor's errors**, when the cut check passes: not the cut, and none for
distinct items. -/
theorem init_settles {capacities : Capacities α} (hnonempty : nodes ≠ []) (hnodes : nodes.Nodup)
    (hitems : ∃ entry ∈ rootItems, entry.2 ≠ [])
    (hcut : rootedCutFeasible maximumFlowValue nodes capacities (rootCounts rootItems) = .ok true) :
    (∀ e, BatchPacker.init maximumFlowValue nodes capacities rootItems = .error e →
      ∀ m, PackingFault.of e ≠ .infeasible m) ∧
    ((rootItems.flatMap (·.2)).Nodup →
      ∃ packer, BatchPacker.init maximumFlowValue nodes capacities rootItems = .ok packer) := by
  have hall : (rootItems.filter fun entry => entry.2 ≠ []).flatMap (·.2) =
      rootItems.flatMap (·.2) := by
    have := BatchPacker.flatMap_filter_nonempty (fun _ => true) rootItems
    rw [List.filter_true, List.filter_true] at this
    exact this
  constructor
  · intro e h
    unfold BatchPacker.init at h
    rcases Checked.bind_error h with h | ⟨_, -, h⟩
    · obtain ⟨hnot, -⟩ := Checked.ensure_error h
      exact absurd ⟨hnonempty, hnodes⟩ hnot
    rcases Checked.bind_error h with h | ⟨_, -, h⟩
    · obtain ⟨-, rfl⟩ := Checked.ensure_error h
      intro m
      unfold PackingFault.of
      rw [if_neg (by decide)]
      simp
    rcases Checked.bind_error h with h | ⟨feasible, hfeasible, h⟩
    · change rootedCutFeasible maximumFlowValue nodes capacities (rootCounts rootItems) = _ at h
      rw [hcut] at h
      cases h
    change rootedCutFeasible maximumFlowValue nodes capacities (rootCounts rootItems) = _ at hfeasible
    rw [hcut] at hfeasible
    cases hfeasible
    cases h
  · intro hdistinct
    obtain ⟨entry, hentry, hne⟩ := hitems
    obtain ⟨item, hitem⟩ := List.exists_mem_of_ne_nil _ hne
    unfold BatchPacker.init
    simp only [Checked.bind_ok, Checked.ensure_ok, Checked.pure_ok]
    refine ⟨_, (), ⟨hnonempty, hnodes⟩, (), ⟨?_, hall ▸ hdistinct⟩, true, hcut, (), rfl, rfl⟩
    rw [hall]
    exact List.ne_nil_of_mem (List.mem_flatMap.mpr ⟨entry, hentry, hitem⟩)

omit [DecidableEq β] in
/-- **Trees within a feasible tick are an optimal packing**, if the tick is the least. -/
theorem Packs.optimal (hroots : rootItems.Distinct) (htimes : times.Distinct)
    (hpositive : ∀ entry ∈ times, 0 < entry.2)
    (hdeclared : ∀ entry ∈ rootItems, entry.2 ≠ [] → entry.1 ∈ nodes) {tick : ℤ} (htick : 0 ≤ tick)
    (hleast : ¬ FeasibleAt nodes times rootItems (tick - 1)) {batches : List (TreeBatch α β)}
    (h : Packs nodes (capacitiesAt (rootCounts rootItems).values.sum (tickSteps times) tick) rootItems
      batches) :
    OptimalPacking nodes times rootItems ⟨batches, tick * tickUnit times.values⟩ := by
  have hlinks : ∀ batch ∈ batches, ∀ link ∈ batch.edges, link ∈ times.keys := by
    intro batch hbatch link hlink
    have hmem := h.keeps hbatch hlink
    rw [← keys_tickSteps]
    unfold capacitiesAt Dict.keys at hmem
    rw [List.map_map] at hmem
    exact hmem
  have hserves := serves_batches hroots h.trees h.roots
  refine
    { items := h.items
      distinct := h.distinct
      roots := h.roots
      trees := h.trees
      links := hlinks
      attained := le_antisymm ?_ ?_
      optimal := fun trees hrouting => ?_ }
  · refine hserves.le_loadTime hroots htimes hpositive hdeclared (fun tree htree => ?_) hleast
    obtain ⟨batch, hbatch, rfl⟩ := List.mem_map.mp htree
    exact hlinks batch hbatch
  · refine loadTime_le htimes hpositive (rootCounts rootItems).values.sum htick fun u v => ?_
    rw [copies_batchTrees]
    exact h.toCarried.links u v
  · refine (hrouting.serves hroots).le_loadTime hroots htimes hpositive hdeclared
      (fun tree htree => ?_) hleast
    obtain ⟨entry, hentry, hmem⟩ := List.mem_flatMap.mp htree
    obtain ⟨item, hitem, rfl⟩ := List.mem_map.mp hmem
    exact hrouting.links entry hentry item hitem

/-! ## `pack_bandwidth` -/

omit [DecidableEq β] in
/-- A single node needs no links. -/
theorem Packs.single {batches : List (TreeBatch α β)} {node : α}
    (h : Packs [node] [] rootItems batches) : OptimalPacking [node] times rootItems ⟨batches, 0⟩ := by
  have hempty : ∀ batch ∈ batches, batch.edges = [] := by
    intro batch hbatch
    refine List.eq_nil_iff_forall_not_mem.mpr fun link hlink => ?_
    have := h.keeps hbatch hlink
    cases this
  refine
    { items := h.items
      distinct := h.distinct
      roots := h.roots
      trees := h.trees
      links := fun batch hbatch link hlink => ?_
      attained := le_antisymm (loadTime_nonneg _ _) (foldl_max_le le_rfl fun x hx => ?_)
      optimal := fun trees _ => loadTime_nonneg _ _ }
  · rw [hempty batch hbatch] at hlink
    cases hlink
  · obtain ⟨entry, -, rfl⟩ := List.mem_map.mp hx
    rw [copies_eq_zero fun tree htree hmem => ?_]
    · simp
    · obtain ⟨batch, hbatch, rfl⟩ := List.mem_map.mp htree
      have hmem : (entry.1.1, entry.1.2) ∈ batch.edges := hmem
      rw [hempty batch hbatch] at hmem
      cases hmem

/-- What a run of `pack_bandwidth` promises. -/
structure PacksExactly (nodes : List α) (times : Dict (α × α) ℚ) (rootItems : Dict α (List β))
    (result : Except PackingFault (BandwidthPacking α β)) : Prop where
  optimal : ∀ packing, result = .ok packing → OptimalPacking nodes times rootItems packing
  infeasible : Declared nodes times rootItems → (∃ entry ∈ rootItems, entry.2 ≠ []) →
    ((∃ m, result = .error (.infeasible m)) ↔ ¬ Reachable nodes times rootItems)
  returns : Declared nodes times rootItems → (∃ entry ∈ rootItems, entry.2 ≠ []) →
    (rootItems.flatMap (·.2)).Nodup → Reachable nodes times rootItems → ∃ packing, result = .ok packing

/-- **The last step**, when it has the trees of a least tick, or no choice. -/
theorem pack_settles (hflow : maximumFlowValue.Exact) (hroots : rootItems.Distinct)
    {capacities : Capacities α} {time : ℚ}
    (hoptimal : ∀ batches, Packs nodes capacities rootItems batches →
      OptimalPacking nodes times rootItems ⟨batches, time⟩)
    (hreach : Declared nodes times rootItems → Reachable nodes times rootItems)
    (hinit : Declared nodes times rootItems → (∃ entry ∈ rootItems, entry.2 ≠ []) →
      (∀ e, BatchPacker.init maximumFlowValue nodes capacities rootItems = .error e →
        ∀ m, PackingFault.of e ≠ .infeasible m) ∧
      ((rootItems.flatMap (·.2)).Nodup →
        ∃ packer, BatchPacker.init maximumFlowValue nodes capacities rootItems = .ok packer)) :
    ∃ fuel, ∀ more ≥ fuel, PacksExactly nodes times rootItems (do
      let batches ← (packTrees maximumFlowValue more nodes capacities rootItems).mapError .of
      return ⟨batches, time⟩) := by
  rcases packTrees_answers nodes hflow hroots capacities with
    ⟨fuel, hpack⟩ | ⟨e, he, hpack⟩
  · refine ⟨fuel, fun more hmore => ?_⟩
    obtain ⟨batches, hbatches, hpacks⟩ := hpack more hmore
    rw [hbatches]
    refine ⟨fun packing h => ?_, fun hdeclared _ => ⟨?_, fun h => ?_⟩, fun _ _ _ _ => ⟨_, rfl⟩⟩
    · cases h
      exact hoptimal batches hpacks
    · rintro ⟨m, h⟩
      cases h
    · exact absurd (hreach hdeclared) h
  · refine ⟨0, fun more _ => ?_⟩
    rw [hpack]
    refine ⟨fun packing h => ?_, fun hdeclared hitems => ⟨?_, fun h => ?_⟩,
      fun hdeclared hitems hdistinct _ => ?_⟩
    · cases h
    · rintro ⟨m, h⟩
      injection h with h
      exact absurd h ((hinit hdeclared hitems).1 e he m)
    · exact absurd (hreach hdeclared) h
    · obtain ⟨packer, hok⟩ := (hinit hdeclared hitems).2 hdistinct
      rw [he] at hok
      cases hok

/-- A run on a single node. -/
theorem packBandwidth_single (hflow : maximumFlowValue.Exact) (hroots : rootItems.Distinct)
    (hpositive : ∀ entry ∈ times, 0 < entry.2) (node : α) :
    ∃ fuel, ∀ more ≥ fuel,
      PacksExactly [node] times rootItems (packBandwidth maximumFlowValue more [node] times rootItems) := by
  have hcut : Declared [node] times rootItems →
      rootedCutFeasible maximumFlowValue [node] [] (rootCounts rootItems) = .ok true := by
    intro hdeclared
    have hgraph : checkGraph [node] ([] : Capacities α) = .ok () :=
      checkGraph_ok.mpr fun e he => by cases he
    obtain ⟨b, hb, hiff⟩ := rootedCutFeasible_iff hflow hgraph (counts_declared hdeclared)
    rw [hb, hiff.mpr fun X hX hne => ?_]
    -- the only set is that of the single node, which is the root of all items
    rw [← sum_countOf hroots hdeclared.2]
    have hX : X = [node].toFinset := by
      refine Finset.Subset.antisymm hX fun v hv => ?_
      obtain ⟨x, hx⟩ := hne
      have h1 : v = node := by simpa using hv
      have h2 : x = node := by simpa using hX hx
      rw [h1, ← h2]
      exact hx
    rw [hX]
    exact Nat.le_add_left _ _
  obtain ⟨fuel, hsettles⟩ := pack_settles hflow hroots
    (fun batches hpacks => (hpacks.single : OptimalPacking [node] times rootItems ⟨batches, 0⟩))
    (fun hdeclared entry hentry hne v hv => by
      rw [List.mem_singleton.mp hv, List.mem_singleton.mp (hdeclared.2 entry hentry hne)])
    (fun hdeclared hitems => init_settles (by simp) (by simp) hitems (hcut hdeclared))
  refine ⟨fuel, fun more hmore => ?_⟩
  unfold packBandwidth Checked.ensure
  rw [if_pos hpositive]
  exact hsettles more hmore

omit [DecidableEq β] in
/-- Links that suffice are declared, and reach the nodes. -/
theorem linksSuffice_ok (hflow : maximumFlowValue.Exact) (hroots : rootItems.Distinct)
    (htimes : times.Distinct) (h : linksSuffice maximumFlowValue nodes times rootItems = .ok true) :
    Declared nodes times rootItems ∧ Reachable nodes times rootItems := by
  unfold linksSuffice at h
  split at h
  · cases h
  · have hdeclared : Declared nodes times rootItems := by
      unfold rootedCutFeasible at h
      simp only [Checked.bind_ok] at h
      obtain ⟨_, hgraph, _, hcounts, -⟩ := h
      refine ⟨fun entry hentry => ?_, fun entry hentry hne => ?_⟩
      · exact (checkGraph_ok.mp hgraph _ (List.mem_map.mpr ⟨entry, hentry, rfl⟩)).1
      · have hmem : (entry.1, entry.2.length) ∈ rootCounts rootItems :=
          mem_rootCounts.mpr ⟨entry.2, hentry, hne, rfl⟩
        exact (Checked.ensure_ok.mp (Checked.forM_ok.mp hcounts _ hmem)).1
    refine ⟨hdeclared, (cut_wide_iff hroots htimes hdeclared).mp fun X hX hne => ?_⟩
    exact rooted_of_feasible hflow h hX hne

omit [DecidableEq β] in
/-- On declared links the check does not raise, and it is reachability. -/
theorem linksSuffice_iff (hflow : maximumFlowValue.Exact) (hroots : rootItems.Distinct)
    (htimes : times.Distinct) (hdeclared : Declared nodes times rootItems)
    {entry : α × List β} (hentry : entry ∈ rootItems) (hne : entry.2 ≠ []) {v : α} (hv : v ∈ nodes)
    (hother : v ≠ entry.1) :
    ∃ b, linksSuffice maximumFlowValue nodes times rootItems = .ok b ∧
      (b = true ↔ Reachable nodes times rootItems) := by
  unfold linksSuffice
  split
  · next hempty =>
    refine ⟨false, rfl, fun h => (nomatch h), fun hreach => ?_⟩
    rcases ReflTransGen.cases_tail (hreach entry hentry hne v hv) with h | ⟨w, -, h⟩
    · exact absurd h hother
    · rw [hempty] at h
      cases h
  · have hgraph : checkGraph nodes (wideCapacities times rootItems) = .ok () := by
      refine checkGraph_ok.mpr fun e he => ?_
      obtain ⟨time, htime, rfl⟩ := List.mem_map.mp he
      exact ⟨hdeclared.1 time htime, Int.natCast_nonneg _⟩
    obtain ⟨b, hb, hiff⟩ := rootedCutFeasible_iff hflow hgraph (counts_declared hdeclared)
    exact ⟨b, hb, hiff.trans (cut_wide_iff hroots htimes hdeclared)⟩

omit [DecidableEq β] in
/-- Of several nodes, some is not the root. -/
theorem exists_other {root : α} (hnodes : nodes.Nodup) (hlength : nodes.length ≠ 1)
    (hroot : root ∈ nodes) : ∃ v ∈ nodes, v ≠ root := by
  by_contra hall
  push Not at hall
  have hle : nodes.toFinset ⊆ {root} := fun v hv =>
    Finset.mem_singleton.mpr (hall v (List.mem_toFinset.mp hv))
  have hcard := Finset.card_le_card hle
  rw [List.toFinset_card_of_nodup hnodes, Finset.card_singleton] at hcard
  have := List.length_pos_of_mem hroot
  omega

/-- Without items the packer raises. -/
theorem packTrees_no_items (maximumFlowValue : MaximumFlowValue α) (nodes : List α)
    (hitems : ¬ ∃ entry ∈ rootItems, entry.2 ≠ []) (fuel : ℕ) (capacities : Capacities α) :
    ∃ e, packTrees maximumFlowValue fuel nodes capacities rootItems = .error e := by
  cases h : packTrees maximumFlowValue fuel nodes capacities rootItems with
  | error e => exact ⟨e, rfl⟩
  | ok batches =>
    unfold packTrees BatchPacker.init at h
    simp only [Checked.bind_ok, Checked.ensure_ok] at h
    obtain ⟨_, ⟨_, _, _, ⟨hne, -⟩, -⟩, -⟩ := h
    refine absurd (List.flatMap_eq_nil_iff.mpr fun entry hentry => ?_) hne
    obtain ⟨hmem, hkept⟩ := List.mem_filter.mp hentry
    exact absurd ⟨entry, hmem, of_decide_eq_true hkept⟩ hitems

/-- A run on several nodes. -/
theorem packBandwidth_several (hflow : maximumFlowValue.Exact) (hnodes : nodes.Nodup)
    (hlength : nodes.length ≠ 1) (hroots : rootItems.Distinct) (htimes : times.Distinct)
    (hpositive : ∀ entry ∈ times, 0 < entry.2) :
    ∃ fuel, ∀ more ≥ fuel,
      PacksExactly nodes times rootItems (packBandwidth maximumFlowValue more nodes times rootItems) := by
  have hstart : ∀ more, packBandwidth maximumFlowValue more nodes times rootItems =
      (do
        let suffice ← (linksSuffice maximumFlowValue nodes times rootItems).mapError .of
        Checked.ensure (suffice = true)
          (.infeasible "rooted cut is unreachable in the directed graph")
        let tick ← (leastTick maximumFlowValue nodes times rootItems).mapError .of
        let batches ← (packTrees maximumFlowValue more nodes
          (capacitiesAt (rootCounts rootItems).values.sum (tickSteps times) tick) rootItems).mapError .of
        return ⟨batches, tick * tickUnit times.values⟩) := by
    intro more
    unfold packBandwidth Checked.ensure
    rw [if_pos hpositive, if_neg hlength]
    rfl
  have hsuffice : Declared nodes times rootItems → (∃ entry ∈ rootItems, entry.2 ≠ []) →
      ∃ b, linksSuffice maximumFlowValue nodes times rootItems = .ok b ∧
        (b = true ↔ Reachable nodes times rootItems) := by
    rintro hdeclared ⟨entry, hentry, hne⟩
    obtain ⟨v, hv, hother⟩ := exists_other hnodes hlength (hdeclared.2 entry hentry hne)
    exact linksSuffice_iff hflow hroots htimes hdeclared hentry hne hv hother
  cases hlinks : linksSuffice maximumFlowValue nodes times rootItems with
  | error e =>
    -- the check raises for undeclared links or roots only
    have hnot : Declared nodes times rootItems → (∃ entry ∈ rootItems, entry.2 ≠ []) → False := by
      intro hdeclared hitems
      obtain ⟨b, hb, -⟩ := hsuffice hdeclared hitems
      rw [hlinks] at hb
      cases hb
    refine ⟨0, fun more _ => ?_⟩
    rw [hstart, hlinks]
    exact ⟨fun packing h => (nomatch h), fun hdeclared hitems => (hnot hdeclared hitems).elim,
      fun hdeclared hitems _ _ => (hnot hdeclared hitems).elim⟩
  | ok suffice =>
    cases suffice with
    | false =>
      have hnot : Declared nodes times rootItems → (∃ entry ∈ rootItems, entry.2 ≠ []) →
          ¬ Reachable nodes times rootItems := by
        intro hdeclared hitems hreach
        obtain ⟨b, hb, hiff⟩ := hsuffice hdeclared hitems
        rw [hlinks] at hb
        cases hb
        exact Bool.false_ne_true (hiff.mpr hreach)
      refine ⟨0, fun more _ => ?_⟩
      rw [hstart, hlinks]
      refine ⟨fun packing h => (nomatch h), fun hdeclared hitems => ?_,
        fun hdeclared hitems _ hreach => absurd hreach (hnot hdeclared hitems)⟩
      exact ⟨fun _ => hnot hdeclared hitems, fun _ => ⟨_, rfl⟩⟩
    | true =>
      obtain ⟨hdeclared, hreach⟩ := linksSuffice_ok hflow hroots htimes hlinks
      by_cases hitems : ∃ entry ∈ rootItems, entry.2 ≠ []
      · obtain ⟨entry, hentry, hne⟩ := hitems
        have hroot := hdeclared.2 entry hentry hne
        obtain ⟨v, hv, hother⟩ := exists_other hnodes hlength hroot
        obtain ⟨tick, hrun, htick, hfeasible, hleast⟩ := leastTick_spec hflow hroots htimes hpositive
          hdeclared hreach hentry hne hv hother
        obtain ⟨b, hb, hiff⟩ := feasible_at hflow hdeclared htick
        rw [hiff.mpr hfeasible] at hb
        obtain ⟨fuel, hsettles⟩ := pack_settles hflow hroots
          (fun batches hpacks => hpacks.optimal hroots htimes hpositive hdeclared.2 htick hleast)
          (fun _ => hreach)
          (fun _ hitems => init_settles (List.ne_nil_of_mem hroot) hnodes hitems hb)
        refine ⟨fuel, fun more hmore => ?_⟩
        rw [hstart, hlinks, hrun]
        exact hsettles more hmore
      · refine ⟨0, fun more _ => ?_⟩
        rw [hstart, hlinks]
        refine ⟨fun packing h => ?_, fun _ h => absurd h hitems, fun _ h => absurd h hitems⟩
        cases htick : leastTick maximumFlowValue nodes times rootItems with
        | error e =>
          rw [htick] at h
          cases h
        | ok tick =>
          obtain ⟨e, he⟩ := packTrees_no_items maximumFlowValue nodes hitems more
            (capacitiesAt (rootCounts rootItems).values.sum (tickSteps times) tick)
          rw [htick] at h
          change (do
            let batches ← (packTrees maximumFlowValue more nodes (capacitiesAt
              (rootCounts rootItems).values.sum (tickSteps times) tick) rootItems).mapError
                PackingFault.of
            return (⟨batches, tick * tickUnit times.values⟩ : BandwidthPacking α β)) = _ at h
          rw [he] at h
          cases h

/-- **`pack_bandwidth` is exactly optimal.**  With enough fuel: what it returns is an optimal
packing; for declared links and roots, at least one of which has items, it raises
`ConstructionInfeasibleError` exactly when some node is out of reach of such a root; and else
it returns, if the items are distinct. -/
theorem packBandwidth_optimal (maximumFlowValue : MaximumFlowValue α)
    (hflow : maximumFlowValue.Exact) (nodes : List α) (hnodes : nodes.Nodup)
    (times : Dict (α × α) ℚ) (htimes : times.Distinct) (hpositive : ∀ entry ∈ times, 0 < entry.2)
    (rootItems : Dict α (List β)) (hroots : rootItems.Distinct) :
    ∃ fuel, ∀ more ≥ fuel, PacksExactly nodes times rootItems
      (packBandwidth maximumFlowValue more nodes times rootItems) := by
  by_cases hlength : nodes.length = 1
  · obtain ⟨node, rfl⟩ := List.length_eq_one_iff.mp hlength
    exact packBandwidth_single hflow hroots hpositive node
  · exact packBandwidth_several hflow hnodes hlength hroots htimes hpositive

end Packing

/-- Two items of node 0, over links that differ in speed. -/
theorem packBandwidth_optimal_sample : ∃ fuel, ∀ more ≥ fuel,
    PacksExactly [0, 1, 2] [((0, 1), 1 / 2), ((0, 2), 3 / 4), ((1, 2), 1), ((2, 1), 1)]
      [(0, ["a", "b"])] (packBandwidth BatchPacker.smallestCut more [0, 1, 2]
        [((0, 1), 1 / 2), ((0, 2), 3 / 4), ((1, 2), 1), ((2, 1), 1)] [(0, ["a", "b"])]) :=
  packBandwidth_optimal BatchPacker.smallestCut BatchPacker.smallestCut_exact [0, 1, 2] (by decide) _
    (by unfold Dict.Distinct; decide)
    (by
      intro entry hentry
      simp only [List.mem_cons, List.not_mem_nil, or_false] at hentry
      rcases hentry with rfl | rfl | rfl | rfl <;> norm_num)
    _ (by unfold Dict.Distinct; decide)

/-- **Without links nothing is reachable for the code**, although no root has items: it raises
`ConstructionInfeasibleError` before it looks for one. -/
theorem packBandwidth_no_links :
    (∀ fuel, packBandwidth BatchPacker.smallestCut fuel [0, 1] [] ([] : Dict ℕ (List String)) =
      .error (.infeasible "rooted cut is unreachable in the directed graph")) ∧
    Reachable [0, 1] [] ([] : Dict ℕ (List String)) :=
  ⟨fun _ => rfl, fun _ h => nomatch h⟩

end VeriCCL
