import VeriCCL.BatchPacker
import VeriCCL.Branching

/-! # The flow networks of the batches

What a maximum flow says about a packer.  A cut of the network of `extension_amount` is a
set `X` of nodes that `dst` is in and `src` is not, and the sources that stay on the side of
`src`: a source that has reached `X` cannot, its arcs being larger than any finite cut, and
any other source may.  So the flow, less the items of the other batches, is the least
capacity into such an `X` beyond what those batches need of it. -/
namespace VeriCCL

open Branching (inflow missing Rooted)

variable {α β : Type} [LinearOrder α]

/-- A maximum flow function. -/
def MaximumFlowValue.Exact (maximumFlowValue : MaximumFlowValue α) : Prop :=
  ∀ (network : Network (α ⊕ ℕ)) (s t : α ⊕ ℕ), s ∈ network.vertices → t ∈ network.vertices → s ≠ t →
    network.IsMaximumFlow s t (maximumFlowValue network s t)

/-- The capacities as natural numbers. -/
def Capacities.room (capacities : Capacities α) (src dst : α) : ℕ := (capacities.at src dst).toNat

/-- A cut of a network whose vertices are of two kinds. -/
theorem Network.cut_disjSum {V L : Finset α} {A J : Finset ℕ}
    {capacity : α ⊕ ℕ → α ⊕ ℕ → ℕ} :
    (Network.mk (V.disjSum A) capacity).cut (L.disjSum J) =
      (∑ u ∈ L, ∑ v ∈ V \ L, capacity (.inl u) (.inl v)) +
      (∑ u ∈ L, ∑ i ∈ A \ J, capacity (.inl u) (.inr i)) +
      ((∑ i ∈ J, ∑ v ∈ V \ L, capacity (.inr i) (.inl v)) +
      ∑ i ∈ J, ∑ k ∈ A \ J, capacity (.inr i) (.inr k)) := by
  have hrest : V.disjSum A \ L.disjSum J = (V \ L).disjSum (A \ J) := by
    ext x
    cases x <;> simp
  unfold Network.cut
  rw [hrest, Finset.sum_disjSum]
  simp only [Finset.sum_disjSum, Finset.sum_add_distrib]

/-! ## The augmented root -/

theorem checkGraph_ok {nodes : List α} {capacities : Capacities α} :
    checkGraph nodes capacities = .ok () ↔ ∀ entry ∈ capacities,
      (entry.1.1 ∈ nodes ∧ entry.1.2 ∈ nodes ∧ entry.1.1 ≠ entry.1.2) ∧ 0 ≤ entry.2 := by
  unfold checkGraph
  rw [Checked.forM_ok]
  simp

/-- **The cut condition of the roots**: every set has capacity for the items whose root is
outside of it. -/
theorem rooted_of_feasible {maximumFlowValue : MaximumFlowValue α}
    (hflow : maximumFlowValue.Exact) {nodes : List α} {capacities : Capacities α}
    {rootCounts : Dict α ℕ}
    (hfeasible : rootedCutFeasible maximumFlowValue nodes capacities rootCounts = .ok true)
    {X : Finset α} (hX : X ⊆ nodes.toFinset) (hne : X.Nonempty) :
    rootCounts.values.sum ≤ inflow nodes.toFinset capacities.room X +
      ∑ root ∈ X, (rootCounts.get? root).getD 0 := by
  unfold rootedCutFeasible at hfeasible
  simp only [Checked.bind_ok, Checked.pure_ok, List.all_eq_true, decide_eq_true_eq] at hfeasible
  obtain ⟨_, -, _, -, hall⟩ := hfeasible
  obtain ⟨target, htarget⟩ := hne
  have hle := hall target (List.mem_toFinset.mp (hX htarget))
  set network := rootedNetwork nodes capacities rootCounts with hnetwork
  have hmax := hflow network (.inr 0) (.inl target) (by simp [hnetwork, rootedNetwork])
    (by simpa [hnetwork, rootedNetwork] using hX htarget) (by simp)
  have hle' := hmax.le_cut (S := (nodes.toFinset \ X).disjSum {0})
    ⟨Finset.disjSum_mono Finset.sdiff_subset subset_rfl, by simp, by simpa using fun _ => htarget⟩
  have hcut : network.cut ((nodes.toFinset \ X).disjSum {0}) =
      inflow nodes.toFinset capacities.room X + ∑ root ∈ X, (rootCounts.get? root).getD 0 := by
    rw [hnetwork, rootedNetwork, Network.cut_disjSum, Finset.sdiff_sdiff_eq_self hX]
    simp only [Finset.sdiff_self, Finset.sum_const_zero, add_zero, Finset.sum_singleton]
    rfl
  omega

namespace BatchPacker

variable (packer : BatchPacker α β)

/-- The nodes. -/
def vertices : Finset α := packer.nodes.toFinset

/-- The links of a packer are as `_graph` requires. -/
def Linked : Prop := ∀ entry ∈ packer.capacities,
  (entry.1.1 ∈ packer.nodes ∧ entry.1.2 ∈ packer.nodes ∧ entry.1.1 ≠ entry.1.2) ∧ 0 ≤ entry.2

variable {packer}

/-- All capacities together are at least those of some links. -/
theorem sum_room_le (capacities : Capacities α) (hpos : ∀ entry ∈ capacities, 0 ≤ entry.2)
    (K : Finset (α × α)) : ∑ k ∈ K, capacities.room k.1 k.2 ≤ capacities.values.sum.toNat := by
  have hsum : ∀ l : Capacities α, (∀ entry ∈ l, 0 ≤ entry.2) →
      0 ≤ l.values.sum ∧ ∑ k ∈ K, (((Dict.get? l k).getD 0).toNat : ℤ) ≤ l.values.sum := by
    intro l hl
    induction l with
    | nil => simp [Dict.values]
    | cons entry l ih =>
      obtain ⟨hnonneg, hle⟩ := ih fun e he => hl e (List.mem_cons_of_mem _ he)
      have hentry := hl entry List.mem_cons_self
      have hvalues : Dict.values (entry :: l) = entry.2 :: Dict.values l := rfl
      rw [hvalues, List.sum_cons]
      refine ⟨by omega, ?_⟩
      have hone : ∀ k ∈ K, (((Dict.get? (entry :: l) k).getD 0).toNat : ℤ) ≤
          (if entry.1 = k then entry.2 else 0) + ((Dict.get? l k).getD 0).toNat := by
        intro k _
        rw [Dict.get?_cons]
        by_cases hk : entry.1 = k
        · rw [if_pos hk, if_pos hk, Option.getD_some]
          omega
        · rw [if_neg hk, if_neg hk]
          omega
      have hkey : ∑ k ∈ K, (if entry.1 = k then entry.2 else 0) ≤ entry.2 := by
        rw [Finset.sum_ite_eq]
        split <;> omega
      calc ∑ k ∈ K, (((Dict.get? (entry :: l) k).getD 0).toNat : ℤ)
          ≤ ∑ k ∈ K, ((if entry.1 = k then entry.2 else 0) + (((Dict.get? l k).getD 0).toNat : ℤ)) :=
            Finset.sum_le_sum hone
        _ ≤ entry.2 + (Dict.values l).sum := by
            rw [Finset.sum_add_distrib]
            omega
  have hcast : ((∑ k ∈ K, capacities.room k.1 k.2 : ℕ) : ℤ) =
      ∑ k ∈ K, (((capacities.get? k).getD 0).toNat : ℤ) := by
    push_cast
    rfl
  have := hsum capacities hpos
  omega

/-- The capacity into a set is finite. -/
theorem inflow_le_sum (hlinked : packer.Linked) (X : Finset α) :
    inflow packer.vertices packer.capacities.room X ≤ packer.capacities.values.sum.toNat := by
  unfold inflow
  rw [← Finset.sum_product']
  exact sum_room_le packer.capacities (fun entry he => (hlinked entry he).2) _

/-! ## The network of an extension -/

variable {b : ℕ} {src dst : α}

/-- A set that an extension along a link enters. -/
def Enters (packer : BatchPacker α β) (src dst : α) (X : Finset α) : Prop :=
  X ⊆ packer.vertices ∧ dst ∈ X ∧ src ∉ X

/-- **The cut of a set** and of the sources that stay with `src`. -/
theorem cut_network {X : Finset α} {J : Finset ℕ} (hX : packer.Enters src dst X)
    (hsrc : src ∈ packer.vertices) (hJ : J ⊆ packer.active) :
    (packer.network b src).cut ((packer.vertices \ X).disjSum J) =
      inflow packer.vertices packer.capacities.room X +
      (∑ i ∈ packer.active \ J, if i ≠ b then packer.multiplicity i else 0) +
      ∑ i ∈ J, ∑ v ∈ X, if v ∈ packer.reached i then packer.infinity else 0 := by
  obtain ⟨hsub, -, hout⟩ := hX
  unfold network
  rw [Network.cut_disjSum]
  have hback : packer.nodes.toFinset \ (packer.vertices \ X) = X := Finset.sdiff_sdiff_eq_self hsub
  rw [hback]
  simp only [Finset.sum_const_zero, add_zero]
  have hsources : ∑ u ∈ packer.vertices \ X, (∑ i ∈ packer.active \ J,
      if u = src ∧ i ∈ packer.active ∧ i ≠ b then packer.multiplicity i else 0) =
      ∑ i ∈ packer.active \ J, if i ≠ b then packer.multiplicity i else 0 := by
    rw [Finset.sum_eq_single_of_mem src (Finset.mem_sdiff.mpr ⟨hsrc, hout⟩)]
    · refine Finset.sum_congr rfl fun i hi => ?_
      simp [(Finset.mem_sdiff.mp hi).1]
    · intro u _ hne
      refine Finset.sum_eq_zero fun i _ => ?_
      rw [if_neg fun h => hne h.1]
  have hreached : ∑ i ∈ J, (∑ v ∈ X,
      if i ∈ packer.active ∧ v ∈ packer.reached i then packer.infinity else 0) =
      ∑ i ∈ J, ∑ v ∈ X, if v ∈ packer.reached i then packer.infinity else 0 := by
    refine Finset.sum_congr rfl fun i hi => Finset.sum_congr rfl fun v _ => ?_
    simp [hJ hi]
  rw [hsources, hreached]
  rfl

/-- The items of the batches that have not reached a set, and of those that have. -/
theorem missing_add_reached (packer : BatchPacker α β) (b : ℕ) (A : Finset ℕ) (X : Finset α) :
    missing (A.erase b) packer.reached packer.multiplicity X +
      (∑ i ∈ A with ¬ Disjoint (packer.reached i) X, if i ≠ b then packer.multiplicity i else 0) =
      ∑ i ∈ A.erase b, packer.multiplicity i := by
  unfold missing
  rw [Finset.sum_filter, ← Finset.filter_ne', Finset.sum_filter, Finset.sum_filter,
    ← Finset.sum_add_distrib]
  refine Finset.sum_congr rfl fun i _ => ?_
  by_cases hi : i ≠ b <;> by_cases hd : Disjoint (packer.reached i) X <;> simp [hi, hd]

/-- **The flow is at most what a set offers.** -/
theorem flow_le {maximumFlowValue : MaximumFlowValue α} (hflow : maximumFlowValue.Exact)
    (hsrc : src ∈ packer.vertices) (hdst : dst ∈ packer.vertices) (hne : src ≠ dst) {X : Finset α}
    (hX : packer.Enters src dst X) :
    maximumFlowValue (packer.network b src) (.inl src) (.inl dst) +
      missing (packer.active.erase b) packer.reached packer.multiplicity X ≤
      inflow packer.vertices packer.capacities.room X +
        (∑ i ∈ packer.active.erase b, packer.multiplicity i : ℕ) := by
  have hmax := hflow (packer.network b src) (.inl src) (.inl dst)
    (Finset.inl_mem_disjSum.mpr hsrc) (Finset.inl_mem_disjSum.mpr hdst) (by simpa using hne)
  set J := packer.active.filter fun i => Disjoint (packer.reached i) X with hJ
  have hcut := hmax.le_cut (S := (packer.vertices \ X).disjSum J)
    ⟨Finset.disjSum_mono Finset.sdiff_subset (Finset.filter_subset _ _),
      Finset.inl_mem_disjSum.mpr (Finset.mem_sdiff.mpr ⟨hsrc, hX.2.2⟩),
      fun h => (Finset.mem_sdiff.mp (Finset.inl_mem_disjSum.mp h)).2 hX.2.1⟩
  rw [cut_network hX hsrc (Finset.filter_subset _ _)] at hcut
  have hnone : ∑ i ∈ J, (∑ v ∈ X, if v ∈ packer.reached i then packer.infinity else 0) = 0 := by
    refine Finset.sum_eq_zero fun i hi => Finset.sum_eq_zero fun v hv => ?_
    have hdisjoint := (Finset.mem_filter.mp hi).2
    rw [if_neg fun hr => Finset.disjoint_left.mp hdisjoint hr hv]
  have hrest : packer.active \ J = packer.active.filter fun i => ¬ Disjoint (packer.reached i) X := by
    rw [hJ, ← Finset.filter_not]
  have hitems := missing_add_reached packer b packer.active X
  rw [hnone, hrest] at hcut
  omega

/-- **Some set offers no more than the flow.** -/
theorem exists_flow_eq {maximumFlowValue : MaximumFlowValue α} (hflow : maximumFlowValue.Exact)
    (hlinked : packer.Linked) (hsrc : src ∈ packer.vertices) (hdst : dst ∈ packer.vertices)
    (hne : src ≠ dst) :
    ∃ X, packer.Enters src dst X ∧
      inflow packer.vertices packer.capacities.room X +
        (∑ i ∈ packer.active.erase b, packer.multiplicity i : ℕ) ≤
      maximumFlowValue (packer.network b src) (.inl src) (.inl dst) +
        missing (packer.active.erase b) packer.reached packer.multiplicity X := by
  have hmax := hflow (packer.network b src) (.inl src) (.inl dst)
    (Finset.inl_mem_disjSum.mpr hsrc) (Finset.inl_mem_disjSum.mpr hdst) (by simpa using hne)
  obtain ⟨S, ⟨hsub, hin, hout⟩, hcut⟩ := hmax.exists_cut (Finset.inl_mem_disjSum.mpr hsrc)
    (by simpa using hne)
  obtain ⟨hL, hJ⟩ := Finset.subset_disjSum.mp hsub
  set X := packer.vertices \ S.toLeft with hXdef
  have hback : packer.vertices \ X = S.toLeft := Finset.sdiff_sdiff_eq_self hL
  have hX : packer.Enters src dst X :=
    ⟨Finset.sdiff_subset, Finset.mem_sdiff.mpr ⟨hdst, fun h => hout (Finset.mem_toLeft.mp h)⟩,
      fun h => (Finset.mem_sdiff.mp h).2 (Finset.mem_toLeft.mpr hin)⟩
  rw [← Finset.toLeft_disjSum_toRight (u := S), ← hback, cut_network hX hsrc hJ] at hcut
  refine ⟨X, hX, ?_⟩
  have hitems := missing_add_reached packer b packer.active X
  -- A source that has reached the set would be cut off from it at a price no cut can have.
  have hfar : ∀ i ∈ S.toRight, Disjoint (packer.reached i) X := by
    intro i hi
    by_contra hmeets
    obtain ⟨v, hv, hvX⟩ := Finset.not_disjoint_iff.mp hmeets
    have hprice : packer.infinity ≤
        ∑ i ∈ S.toRight, ∑ v ∈ X, if v ∈ packer.reached i then packer.infinity else 0 := by
      calc packer.infinity = if v ∈ packer.reached i then packer.infinity else 0 := by rw [if_pos hv]
        _ ≤ ∑ v ∈ X, if v ∈ packer.reached i then packer.infinity else 0 :=
          Finset.single_le_sum (f := fun v => if v ∈ packer.reached i then packer.infinity else 0)
            (fun _ _ => Nat.zero_le _) hvX
        _ ≤ _ := Finset.single_le_sum
            (f := fun i => ∑ v ∈ X, if v ∈ packer.reached i then packer.infinity else 0)
            (fun _ _ => Nat.zero_le _) hi
    have hle := flow_le (b := b) hflow hsrc hdst hne hX
    have hfinite := inflow_le_sum hlinked X
    have hothers : ∑ i ∈ packer.active.erase b, packer.multiplicity i ≤
        ∑ i ∈ packer.active, packer.multiplicity i :=
      Finset.sum_le_sum_of_subset (Finset.erase_subset _ _)
    have hinfinity : packer.infinity = packer.capacities.values.sum.toNat +
        (∑ i ∈ packer.active, packer.multiplicity i) + 1 := rfl
    omega
  have hmore : (∑ i ∈ packer.active with ¬ Disjoint (packer.reached i) X,
      if i ≠ b then packer.multiplicity i else 0) ≤
      ∑ i ∈ packer.active \ S.toRight, if i ≠ b then packer.multiplicity i else 0 := by
    refine Finset.sum_le_sum_of_subset fun i hi => ?_
    obtain ⟨hi, hmeets⟩ := Finset.mem_filter.mp hi
    exact Finset.mem_sdiff.mpr ⟨hi, fun h => hmeets (hfar i h)⟩
  omega

end BatchPacker

end VeriCCL
