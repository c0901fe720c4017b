import Mathlib.Algebra.BigOperators.Group.Finset.Basic
import Mathlib.Algebra.Order.BigOperators.Group.Finset
import Mathlib.Tactic

/-! # Cuts and branchings

Trees that grow from their roots share the capacities of a directed graph.  A set that some
trees have not reached must have that much capacity into it (`Branching.Rooted`).  Then a
tree that does not span can be extended along some arc such that the condition stays true
(`Branching.exists_extension`): the sets that are just served cross one another in such
sets, and an arc into the smallest of them that the tree leaves is one. -/
namespace VeriCCL.Branching

variable {α ι : Type} [DecidableEq α]

/-- The capacity of the arcs into a set. -/
def inflow (V : Finset α) (c : α → α → ℕ) (X : Finset α) : ℕ := ∑ u ∈ V \ X, ∑ v ∈ X, c u v

/-- What a set lacks: the weight of the trees that have not reached it. -/
def missing (I : Finset ι) (reached : ι → Finset α) (weight : ι → ℕ) (X : Finset α) : ℕ :=
  ∑ i ∈ I, if Disjoint (reached i) X then weight i else 0

/-- **The cut condition.**  Every set has capacity for the trees that have not reached it. -/
def Rooted (V : Finset α) (c : α → α → ℕ) (I : Finset ι) (reached : ι → Finset α)
    (weight : ι → ℕ) : Prop :=
  ∀ X ⊆ V, X.Nonempty → missing I reached weight X ≤ inflow V c X

/-! ## The capacity into a set -/

section Inflow

variable {V X Y Z : Finset α} {c : α → α → ℕ}

theorem inflow_eq (hX : X ⊆ V) :
    inflow V c X = ∑ u ∈ V, ∑ v ∈ V, if u ∉ X ∧ v ∈ X then c u v else 0 := by
  unfold inflow
  rw [Finset.sdiff_eq_filter, Finset.sum_filter]
  refine Finset.sum_congr rfl fun u _ => ?_
  by_cases hu : u ∈ X
  · simp [hu]
  · simp only [hu, not_false_eq_true, if_true, true_and]
    rw [← Finset.sum_filter, Finset.filter_mem_eq_inter, Finset.inter_eq_right.mpr hX]

/-- Nothing comes into the whole. -/
theorem inflow_self : inflow V c V = 0 := by
  unfold inflow
  rw [Finset.sdiff_self, Finset.sum_empty]

/-- **The capacity into sets is submodular.** -/
theorem inflow_submodular (hX : X ⊆ V) (hZ : Z ⊆ V) :
    inflow V c (X ∪ Z) + inflow V c (X ∩ Z) ≤ inflow V c X + inflow V c Z := by
  rw [inflow_eq hX, inflow_eq hZ, inflow_eq (Finset.union_subset hX hZ),
    inflow_eq (Finset.inter_subset_left.trans hX)]
  simp only [← Finset.sum_add_distrib]
  refine Finset.sum_le_sum fun u _ => Finset.sum_le_sum fun v _ => ?_
  by_cases hu : u ∈ X <;> by_cases hu' : u ∈ Z <;> by_cases hv : v ∈ X <;> by_cases hv' : v ∈ Z <;>
    simp [hu, hu', hv, hv']

/-- A part that gets nothing from the rest of a set gets no more than the set. -/
theorem inflow_le_of_part (hX : X ⊆ V) (hY : Y ⊆ X)
    (hnone : ∀ u ∈ X, u ∉ Y → ∀ v ∈ Y, c u v = 0) : inflow V c Y ≤ inflow V c X := by
  rw [inflow_eq hX, inflow_eq (hY.trans hX)]
  refine Finset.sum_le_sum fun u _ => Finset.sum_le_sum fun v _ => ?_
  by_cases h : u ∉ Y ∧ v ∈ Y
  · rw [if_pos h]
    by_cases hu : u ∈ X
    · rw [hnone u hu h.1 v h.2]
      exact Nat.zero_le _
    · rw [if_pos ⟨hu, hY h.2⟩]
  · rw [if_neg h]
    exact Nat.zero_le _

/-- Capacities that fall at one arc fall into the sets that the arc enters. -/
theorem inflow_lower {u v : α} {a : ℕ} (hu : u ∈ V) (hle : a ≤ c u v) :
    inflow V (fun x y => if x = u ∧ y = v then c u v - a else c x y) X +
      (if u ∉ X ∧ v ∈ X then a else 0) = inflow V c X := by
  have hpoint : ∀ x y, (if x = u ∧ y = v then c u v - a else c x y) +
      (if x = u ∧ y = v then a else 0) = c x y := by
    intro x y
    by_cases h : x = u ∧ y = v
    · rw [if_pos h, if_pos h, h.1, h.2]
      omega
    · rw [if_neg h, if_neg h, add_zero]
  have harc : ∑ x ∈ V \ X, ∑ y ∈ X, (if x = u ∧ y = v then a else 0) =
      if u ∉ X ∧ v ∈ X then a else 0 := by
    simp only [ite_and, Finset.sum_ite_irrel, Finset.sum_ite_eq', Finset.sum_const_zero,
      Finset.mem_sdiff, hu, true_and]
  unfold inflow
  rw [← harc]
  simp only [← Finset.sum_add_distrib, hpoint]

end Inflow

/-! ## What a set lacks -/

section Missing

variable {I : Finset ι} {reached : ι → Finset α} {weight : ι → ℕ} {X Z : Finset α}

/-- A larger set lacks less. -/
theorem missing_anti (I : Finset ι) (reached : ι → Finset α) (weight : ι → ℕ) (h : X ⊆ Z) :
    missing I reached weight Z ≤ missing I reached weight X := by
  refine Finset.sum_le_sum fun i _ => ?_
  by_cases hi : Disjoint (reached i) Z
  · rw [if_pos hi, if_pos (Finset.disjoint_of_subset_right h hi)]
  · rw [if_neg hi]
    exact Nat.zero_le _

/-- **What sets lack is supermodular.** -/
theorem missing_supermodular (I : Finset ι) (reached : ι → Finset α) (weight : ι → ℕ)
    (X Z : Finset α) :
    missing I reached weight X + missing I reached weight Z ≤
      missing I reached weight (X ∪ Z) + missing I reached weight (X ∩ Z) := by
  unfold missing
  rw [← Finset.sum_add_distrib, ← Finset.sum_add_distrib]
  refine Finset.sum_le_sum fun i _ => ?_
  have hl : Disjoint (reached i) X → Disjoint (reached i) (X ∩ Z) :=
    Finset.disjoint_of_subset_right Finset.inter_subset_left
  have hr : Disjoint (reached i) Z → Disjoint (reached i) (X ∩ Z) :=
    Finset.disjoint_of_subset_right Finset.inter_subset_right
  by_cases hX : Disjoint (reached i) X <;> by_cases hZ : Disjoint (reached i) Z
  · simp [hX, hZ, hl hX, Finset.disjoint_union_right]
  · simp [hX, hZ, hl hX, Finset.disjoint_union_right]
  · simp [hX, hZ, hr hZ, Finset.disjoint_union_right]
  · simp [hX, hZ]

/-- One tree, and the others. -/
theorem missing_erase [DecidableEq ι] {b : ι} (hb : b ∈ I) :
    missing I reached weight X = missing (I.erase b) reached weight X +
      if Disjoint (reached b) X then weight b else 0 :=
  (Finset.sum_erase_add I _ hb).symm

/-- Trees that span lack nothing. -/
theorem missing_erase_of_spanning [DecidableEq ι] {V : Finset α} {b : ι} (hb : b ∈ I)
    (hspan : reached b = V) (hX : X ⊆ V) (hne : X.Nonempty) :
    missing (I.erase b) reached weight X = missing I reached weight X := by
  have hmeets : ¬ Disjoint (reached b) X := by
    rw [hspan, Finset.not_disjoint_iff]
    obtain ⟨x, hx⟩ := hne
    exact ⟨x, hX hx, hx⟩
  rw [missing_erase hb, if_neg hmeets, add_zero]

/-- Trees that reach the same sets with the same weights lack the same. -/
theorem missing_congr {reached' : ι → Finset α} {weight' : ι → ℕ}
    (h : ∀ i ∈ I, reached' i = reached i ∧ weight' i = weight i) :
    missing I reached' weight' X = missing I reached weight X := by
  refine Finset.sum_congr rfl fun i hi => ?_
  rw [(h i hi).1, (h i hi).2]

end Missing

/-! ## Extending a tree -/

/-- **A tree that does not span has an arc to grow along**: an arc with capacity, from a
vertex of the tree out of the tree, such that no set it enters is just served. -/
theorem exists_extension {V B : Finset α} (c : α → α → ℕ) (I : Finset ι)
    (reached : ι → Finset α) (weight : ι → ℕ) (hopen : ¬ V ⊆ B)
    (hcover : ∀ X ⊆ V, X.Nonempty →
      missing I reached weight X + (if Disjoint B X then 1 else 0) ≤ inflow V c X) :
    ∃ u ∈ B, ∃ v ∈ V, v ∉ B ∧ 0 < c u v ∧
      ∀ Z ⊆ V, v ∈ Z → u ∉ Z → missing I reached weight Z < inflow V c Z := by
  classical
  -- An arc that enters the rest of a served set that the tree leaves.
  have harc : ∀ X ⊆ V, ¬ X ⊆ B → inflow V c X ≤ missing I reached weight X →
      ∃ u ∈ X, u ∈ B ∧ ∃ v ∈ X, v ∉ B ∧ 0 < c u v := by
    intro X hX hleaves hserved
    have hne : (X \ B).Nonempty := Finset.sdiff_nonempty.mpr hleaves
    have hlack := hcover (X \ B) (Finset.sdiff_subset.trans hX) hne
    rw [if_pos Finset.disjoint_sdiff] at hlack
    have hanti := missing_anti I reached weight (Finset.sdiff_subset (s := X) (t := B))
    by_contra hnone
    push Not at hnone
    have hpart : inflow V c (X \ B) ≤ inflow V c X := by
      refine inflow_le_of_part hX Finset.sdiff_subset fun u hu hout v hv => ?_
      obtain ⟨hv, hvB⟩ := Finset.mem_sdiff.mp hv
      have huB : u ∈ B := by
        by_contra h
        exact hout (Finset.mem_sdiff.mpr ⟨hu, h⟩)
      exact Nat.eq_zero_of_le_zero (hnone u hu huB v hv hvB)
    omega
  -- The served sets that the tree leaves.
  let served := V.powerset.filter fun X =>
    ¬ X ⊆ B ∧ inflow V c X ≤ missing I reached weight X
  have hserved : ∀ X, X ∈ served ↔ X ⊆ V ∧ ¬ X ⊆ B ∧ inflow V c X ≤ missing I reached weight X :=
    fun X => by simp [served]
  -- The whole is served: nothing comes into it.
  have hwhole : V ∈ served := (hserved V).mpr ⟨subset_rfl, hopen, by rw [inflow_self]; exact Nat.zero_le _⟩
  obtain ⟨X, hX, hmin⟩ := Finset.exists_min_image served Finset.card ⟨V, hwhole⟩
  obtain ⟨hXV, hleaves, htight⟩ := (hserved X).mp hX
  obtain ⟨u, huX, huB, v, hvX, hvB, hpos⟩ := harc X hXV hleaves htight
  refine ⟨u, huB, v, hXV hvX, hvB, hpos, fun Z hZ hvZ huZ => ?_⟩
  by_contra hle
  -- A served set that the arc enters would make the smallest one smaller.
  have hinter : X ∩ Z ⊆ V := Finset.inter_subset_left.trans hXV
  have hne : (X ∩ Z).Nonempty := ⟨v, Finset.mem_inter.mpr ⟨hvX, hvZ⟩⟩
  have hsub := inflow_submodular (c := c) hXV hZ
  have hsup := missing_supermodular I reached weight X Z
  have hunion := hcover (X ∪ Z) (Finset.union_subset hXV hZ) (hne.mono
    (Finset.inter_subset_left.trans Finset.subset_union_left))
  have hserved' : X ∩ Z ∈ served := by
    refine (hserved _).mpr ⟨hinter, fun h => hvB (h (Finset.mem_inter.mpr ⟨hvX, hvZ⟩)), ?_⟩
    omega
  have hlt : (X ∩ Z).card < X.card :=
    Finset.card_lt_card ⟨Finset.inter_subset_left, fun h => huZ (Finset.mem_inter.mp (h huX)).2⟩
  have := hmin _ hserved'
  omega

end VeriCCL.Branching
