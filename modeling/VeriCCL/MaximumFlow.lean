import Mathlib.Algebra.BigOperators.Group.Finset.Basic
import Mathlib.Algebra.Order.BigOperators.Group.Finset
import Mathlib.Data.Int.ConditionallyCompleteOrder
import Mathlib.Tactic

/-! # Maximum flows and minimum cuts

Integer flows in a finite network.  No flow is larger than a cut, and a maximum flow is as
large as some cut: the vertices that residual arcs reach from the source. -/
namespace VeriCCL

open Relation (ReflTransGen)

/-- A directed network with integer capacities; no capacity is no arc. -/
structure Network (γ : Type) where
  vertices : Finset γ
  capacity : γ → γ → ℕ

/-- An integer flow from `s` to `t`. -/
structure Network.Flow {γ : Type} (network : Network γ) (s t : γ) where
  amount : γ → γ → ℕ
  bounded : ∀ u v, amount u v ≤ network.capacity u v
  conserved : ∀ u ∈ network.vertices, u ≠ s → u ≠ t →
    ∑ v ∈ network.vertices, amount u v = ∑ v ∈ network.vertices, amount v u

namespace Network

variable {γ : Type} (network : Network γ) {s t : γ}

/-- What a flow carries along an arc, less what it carries back. -/
def Flow.net {network : Network γ} (flow : network.Flow s t) (u v : γ) : ℤ :=
  flow.amount u v - flow.amount v u

/-- What a flow brings from its source. -/
def Flow.value {network : Network γ} (flow : network.Flow s t) : ℤ :=
  ∑ v ∈ network.vertices, flow.net s v

/-- The value is that of a largest flow. -/
def IsMaximumFlow (s t : γ) (value : ℤ) : Prop :=
  IsGreatest {x | ∃ flow : network.Flow s t, flow.value = x} value

variable [DecidableEq γ]

/-- The capacity of the arcs that leave a set. -/
def cut (S : Finset γ) : ℕ := ∑ u ∈ S, ∑ v ∈ network.vertices \ S, network.capacity u v

/-- A cut between `s` and `t`. -/
def Separates (s t : γ) (S : Finset γ) : Prop := S ⊆ network.vertices ∧ s ∈ S ∧ t ∉ S

instance (S : Finset γ) : Decidable (network.Separates s t S) := inferInstanceAs (Decidable (_ ∧ _))

/-! ## No flow is larger than a cut -/

section Duality

variable {network}

omit [DecidableEq γ] in
/-- Within a set nothing is gained. -/
theorem sum_skew {g : γ → γ → ℤ} (hskew : ∀ u v, g u v = - g v u) (S : Finset γ) :
    ∑ u ∈ S, ∑ v ∈ S, g u v = 0 := by
  have hneg : ∑ u ∈ S, ∑ v ∈ S, g u v = - ∑ u ∈ S, ∑ v ∈ S, g u v := by
    conv_lhs => rw [Finset.sum_comm]
    rw [← Finset.sum_neg_distrib]
    refine Finset.sum_congr rfl fun u _ => ?_
    rw [← Finset.sum_neg_distrib]
    exact Finset.sum_congr rfl fun v _ => hskew v u
  omega

omit [DecidableEq γ] in
theorem Flow.net_skew (flow : network.Flow s t) (u v : γ) : flow.net u v = - flow.net v u := by
  unfold Flow.net
  omega

omit [DecidableEq γ] in
/-- What leaves a vertex between source and sink comes into it. -/
theorem Flow.sum_net (flow : network.Flow s t) {u : γ} (hu : u ∈ network.vertices) (hs : u ≠ s)
    (ht : u ≠ t) : ∑ v ∈ network.vertices, flow.net u v = 0 := by
  have hconserved := flow.conserved u hu hs ht
  simp only [Flow.net, Finset.sum_sub_distrib]
  have : (∑ v ∈ network.vertices, (flow.amount u v : ℤ)) =
      ∑ v ∈ network.vertices, (flow.amount v u : ℤ) := by exact_mod_cast hconserved
  omega

/-- **The value of a flow crosses every cut.** -/
theorem Flow.value_eq (flow : network.Flow s t) {S : Finset γ} (hS : network.Separates s t S) :
    flow.value = ∑ u ∈ S, ∑ v ∈ network.vertices \ S, flow.net u v := by
  obtain ⟨hsub, hs, ht⟩ := hS
  have hall : ∑ u ∈ S, ∑ v ∈ network.vertices, flow.net u v = flow.value := by
    refine Finset.sum_eq_single_of_mem s hs fun u hu hne => ?_
    exact flow.sum_net (hsub hu) hne fun he => ht (he ▸ hu)
  have hsplit : ∀ u, ∑ v ∈ network.vertices, flow.net u v =
      (∑ v ∈ network.vertices \ S, flow.net u v) + ∑ v ∈ S, flow.net u v :=
    fun u => (Finset.sum_sdiff hsub).symm
  rw [← hall, Finset.sum_congr rfl fun u _ => hsplit u, Finset.sum_add_distrib,
    sum_skew flow.net_skew, add_zero]

theorem Flow.value_le_cut (flow : network.Flow s t) {S : Finset γ}
    (hS : network.Separates s t S) : flow.value ≤ network.cut S := by
  rw [flow.value_eq hS]
  unfold cut
  push_cast
  refine Finset.sum_le_sum fun u _ => Finset.sum_le_sum fun v _ => ?_
  have := flow.bounded u v
  unfold Flow.net
  omega

/-! ## Augmenting a flow -/

/-- A vertex of a path can be left for good. -/
theorem reach_avoiding {R : γ → γ → Prop} {u x : γ} (h : ReflTransGen R u x) :
    u = x ∨ ∃ v, R u v ∧ v ≠ u ∧ ReflTransGen (fun a b => R a b ∧ a ≠ u ∧ b ≠ u) v x := by
  induction h with
  | refl => exact Or.inl rfl
  | @tail x y _ hxy ih =>
    by_cases hy : u = y
    · exact Or.inl hy
    · right
      by_cases hx : x = u
      · exact ⟨y, hx ▸ hxy, fun he => hy he.symm, .refl⟩
      · rcases ih with he | ⟨v, huv, hvu, hpath⟩
        · exact absurd he.symm hx
        · exact ⟨v, huv, hvu, hpath.tail ⟨hxy, hx, fun he => hy he.symm⟩⟩

/-- One unit along arcs of `R` from `u` to `t`, within a set. -/
structure Push (R : γ → γ → Prop) (V A : Finset γ) (u t : γ) (g : γ → γ → ℤ) : Prop where
  skew : ∀ a b, g a b = - g b a
  bounded : ∀ a b, g a b ≤ 1
  along : ∀ a b, 0 < g a b → R a b
  inside : ∀ a b, a ∉ A → g a b = 0
  excess : ∀ a, ∑ b ∈ V, g a b = (if a = u then 1 else 0) - if a = t then 1 else 0

/-- One unit along an arc. -/
def unitArc (u v a b : γ) : ℤ :=
  (if a = u ∧ b = v then 1 else 0) - if a = v ∧ b = u then 1 else 0

theorem unitArc_skew (u v a b : γ) : unitArc u v a b = - unitArc u v b a := by
  unfold unitArc
  simp only [and_comm (b := a = u), and_comm (b := a = v)]
  omega

theorem sum_unitArc {V : Finset γ} {u v : γ} (hu : u ∈ V) (hv : v ∈ V) (a : γ) :
    ∑ b ∈ V, unitArc u v a b = (if a = u then 1 else 0) - if a = v then 1 else 0 := by
  unfold unitArc
  rw [Finset.sum_sub_distrib]
  simp only [ite_and, Finset.sum_ite_irrel, Finset.sum_ite_eq', Finset.sum_const_zero, hu, hv,
    if_true]

/-- **A path carries one unit.**  The first vertex of the path is left for good, and the
rest of it carries the unit on. -/
theorem exists_push {R : γ → γ → Prop} {V : Finset γ} {t : γ} (n : ℕ) :
    ∀ (A : Finset γ) (u : γ), A.card = n → A ⊆ V → u ∈ A →
      ReflTransGen (fun a b => R a b ∧ a ∈ A ∧ b ∈ A) u t → ∃ g, Push R V A u t g := by
  induction n with
  | zero =>
    intro A u hcard _ hu
    rw [Finset.card_eq_zero.mp hcard] at hu
    cases hu
  | succ n ih =>
    intro A u hcard hA hu hpath
    rcases reach_avoiding hpath with rfl | ⟨v, ⟨huv, -, hv⟩, hne, hrest⟩
    · exact ⟨fun _ _ => 0, ⟨by simp, by simp, by simp, by simp, by simp⟩⟩
    · have hv' : v ∈ A.erase u := Finset.mem_erase.mpr ⟨hne, hv⟩
      have hrest' : ReflTransGen (fun a b => R a b ∧ a ∈ A.erase u ∧ b ∈ A.erase u) v t := by
        refine Relation.ReflTransGen.mono (fun a b h => ?_) _ _ hrest
        exact ⟨h.1.1, Finset.mem_erase.mpr ⟨h.2.1, h.1.2.1⟩, Finset.mem_erase.mpr ⟨h.2.2, h.1.2.2⟩⟩
      obtain ⟨g, hg⟩ := ih (A.erase u) v (by rw [Finset.card_erase_of_mem hu, hcard]; rfl)
        ((Finset.erase_subset _ _).trans hA) hv' hrest'
      have hfrom : ∀ b, g u b = 0 := fun b => hg.inside u b (Finset.notMem_erase u A)
      refine ⟨fun a b => g a b + unitArc u v a b, ⟨fun a b => ?_, fun a b => ?_, fun a b => ?_,
        fun a b ha => ?_, fun a => ?_⟩⟩
      · have h1 := hg.skew a b
        have h2 := unitArc_skew u v a b
        omega
      · have := hg.bounded a b
        unfold unitArc
        by_cases h : a = u ∧ b = v
        · rw [h.1, hfrom]
          split <;> split <;> omega
        · rw [if_neg h]
          split <;> omega
      · intro hpos
        unfold unitArc at hpos
        by_cases h : a = u ∧ b = v
        · rw [h.1, h.2]
          exact huv
        · rw [if_neg h] at hpos
          apply hg.along
          split at hpos <;> omega
      · have h1 : a ≠ u := fun he => ha (he ▸ hu)
        have h2 : a ≠ v := fun he => ha (he ▸ hv)
        have h3 := hg.inside a b fun hm => ha (Finset.mem_of_mem_erase hm)
        unfold unitArc
        rw [h3, if_neg fun h => h1 h.1, if_neg fun h => h2 h.1]
        omega
      · rw [Finset.sum_add_distrib, hg.excess, sum_unitArc (hA hu) (hA hv)]
        omega

/-- An arc along which a flow can grow: there is room, or something to take back. -/
def Flow.Residual (flow : network.Flow s t) (u v : γ) : Prop :=
  (flow.amount u v < network.capacity u v ∨ 0 < flow.amount v u) ∧
    u ∈ network.vertices ∧ v ∈ network.vertices

/-- **A flow grows along a residual path.** -/
theorem Flow.augment (flow : network.Flow s t) (hs : s ∈ network.vertices) (hne : s ≠ t)
    (hpath : ReflTransGen flow.Residual s t) :
    ∃ larger : network.Flow s t, larger.value = flow.value + 1 := by
  obtain ⟨g, hg⟩ := exists_push
    (R := fun u v => flow.amount u v < network.capacity u v ∨ 0 < flow.amount v u) _
    network.vertices s rfl subset_rfl hs hpath
  have hbound : ∀ u v, flow.net u v + g u v ≤ network.capacity u v := by
    intro u v
    have hle := flow.bounded u v
    have hone := hg.bounded u v
    unfold Flow.net
    by_cases hpos : 0 < g u v
    · rcases hg.along u v hpos with h | h <;> omega
    · omega
  -- The larger flow carries only what is left after cancelling.
  have hcancel : ∀ u v, ((flow.net u v + g u v).toNat : ℤ) - ((flow.net v u + g v u).toNat : ℤ) =
      flow.net u v + g u v := by
    intro u v
    have h1 := flow.net_skew u v
    have h2 := hg.skew u v
    omega
  have hsum : ∀ u, (∑ v ∈ network.vertices, ((flow.net u v + g u v).toNat : ℤ)) -
      ∑ v ∈ network.vertices, ((flow.net v u + g v u).toNat : ℤ) =
      ∑ v ∈ network.vertices, flow.net u v + ∑ v ∈ network.vertices, g u v := by
    intro u
    rw [← Finset.sum_sub_distrib, ← Finset.sum_add_distrib]
    exact Finset.sum_congr rfl fun v _ => hcancel u v
  refine ⟨⟨fun u v => (flow.net u v + g u v).toNat, fun u v => ?_, fun u hu hus hut => ?_⟩, ?_⟩
  · have := hbound u v
    omega
  · have hflow := hsum u
    rw [flow.sum_net hu hus hut, hg.excess, if_neg hus, if_neg hut] at hflow
    have : (∑ v ∈ network.vertices, ((flow.net u v + g u v).toNat : ℤ)) =
        ∑ v ∈ network.vertices, ((flow.net v u + g v u).toNat : ℤ) := by omega
    exact_mod_cast this
  · have hflow := hsum s
    rw [hg.excess, if_pos rfl, if_neg hne, ← Finset.sum_sub_distrib] at hflow
    show ∑ v ∈ network.vertices, _ = ∑ v ∈ network.vertices, flow.net s v + 1
    simpa [Flow.net] using hflow

/-- **A maximum flow fills a cut.** -/
theorem IsMaximumFlow.exists_cut {value : ℤ} (h : network.IsMaximumFlow s t value)
    (hs : s ∈ network.vertices) (hne : s ≠ t) :
    ∃ S, network.Separates s t S ∧ value = network.cut S := by
  classical
  obtain ⟨⟨flow, rfl⟩, hgreatest⟩ := h
  have hstuck : ¬ ReflTransGen flow.Residual s t := by
    intro hpath
    obtain ⟨larger, hlarger⟩ := flow.augment hs hne hpath
    have := hgreatest ⟨larger, rfl⟩
    omega
  refine ⟨network.vertices.filter (ReflTransGen flow.Residual s), ?_, ?_⟩
  · exact ⟨Finset.filter_subset _ _, Finset.mem_filter.mpr ⟨hs, .refl⟩,
      fun ht => hstuck (Finset.mem_filter.mp ht).2⟩
  · rw [flow.value_eq ⟨Finset.filter_subset _ _, Finset.mem_filter.mpr ⟨hs, .refl⟩,
      fun ht => hstuck (Finset.mem_filter.mp ht).2⟩]
    unfold cut
    push_cast
    refine Finset.sum_congr rfl fun u hu => Finset.sum_congr rfl fun v hv => ?_
    obtain ⟨hu, hreach⟩ := Finset.mem_filter.mp hu
    obtain ⟨hv, hout⟩ := Finset.mem_sdiff.mp hv
    have hfull : ¬ flow.Residual u v := fun hr => hout (Finset.mem_filter.mpr ⟨hv, hreach.tail hr⟩)
    have hbounded := flow.bounded u v
    have hnot : ¬ (flow.amount u v < network.capacity u v ∨ 0 < flow.amount v u) :=
      fun hr => hfull ⟨hr, hu, hv⟩
    unfold Flow.net
    omega

theorem IsMaximumFlow.le_cut {value : ℤ} (h : network.IsMaximumFlow s t value) {S : Finset γ}
    (hS : network.Separates s t S) : value ≤ network.cut S := by
  obtain ⟨⟨flow, rfl⟩, -⟩ := h
  exact flow.value_le_cut hS

end Duality

/-! ## A computed maximum -/

/-- There is a maximum flow. -/
theorem exists_isMaximumFlow (hs : s ∈ network.vertices) (hne : s ≠ t) :
    ∃ value, network.IsMaximumFlow s t value := by
  have hS : network.Separates s t {s} :=
    ⟨by simpa using hs, Finset.mem_singleton_self s, by simpa using hne.symm⟩
  have hzero : ∃ flow : network.Flow s t, flow.value = 0 :=
    ⟨⟨fun _ _ => 0, fun _ _ => Nat.zero_le _, fun _ _ _ _ => rfl⟩, by simp [Flow.value, Flow.net]⟩
  obtain ⟨value, hvalue, hmax⟩ := Int.exists_greatest_of_bdd
    (P := fun x => ∃ flow : network.Flow s t, flow.value = x)
    ⟨network.cut {s}, fun x ⟨flow, hx⟩ => hx ▸ flow.value_le_cut hS⟩ ⟨0, hzero⟩
  exact ⟨value, hvalue, fun x hx => hmax x hx⟩

/-- The smallest cut, found by trying all of them. -/
def minimumCut (s t : γ) : ℕ :=
  ((network.vertices.powerset.filter (network.Separates s t)).inf
    fun S => (network.cut S : WithTop ℕ)).untopD 0

/-- **The smallest cut is the value of a maximum flow.** -/
theorem minimumCut_isMaximumFlow (hs : s ∈ network.vertices) (hne : s ≠ t) :
    network.IsMaximumFlow s t (network.minimumCut s t) := by
  obtain ⟨value, hvalue⟩ := network.exists_isMaximumFlow hs hne
  obtain ⟨S, hS, hcut⟩ := hvalue.exists_cut hs hne
  have hinf : (network.vertices.powerset.filter (network.Separates s t)).inf
      (fun S => (network.cut S : WithTop ℕ)) = (network.cut S : WithTop ℕ) := by
    apply le_antisymm
    · exact Finset.inf_le (Finset.mem_filter.mpr ⟨Finset.mem_powerset.mpr hS.1, hS⟩)
    · refine Finset.le_inf fun T hT => ?_
      have hle := hvalue.le_cut (Finset.mem_filter.mp hT).2
      have hnat : network.cut S ≤ network.cut T := by omega
      exact_mod_cast hnat
  unfold minimumCut
  rw [hinf]
  show network.IsMaximumFlow s t (network.cut S)
  rw [← hcut]
  exact hvalue

end Network

end VeriCCL
