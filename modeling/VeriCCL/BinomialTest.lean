import Mathlib.Algebra.BigOperators.Intervals
import Mathlib.Algebra.Order.BigOperators.Ring.Finset
import Mathlib.Data.Fintype.BigOperators
import Mathlib.Data.Fintype.Powerset
import Mathlib.Data.Nat.Choose.Sum
import Mathlib.Tactic

/-! # The sign test

A vector of wins and losses of length `n` passes a one-sided binomial test at level
`alpha` when the share of the vectors with at least as many wins is at most `alpha`.  At
most that share of all vectors passes (`card_passes_le`): the passing vectors are those
with at least as many wins as the one among them with the fewest.  So a test whose signs
are fair passes with probability at most `alpha` (`expected_passes_le`), and over several
tests the expected number of passes is at most the sum of their levels. -/
namespace VeriCCL.BinomialTest

/-- A vector of wins and losses. -/
abbrev Signs (n : ℕ) := Fin n → Bool

/-- The number of wins. -/
def wins {n : ℕ} (v : Signs n) : ℕ := (Finset.univ.filter fun i => v i = true).card

/-- The share of the vectors of length `n` with at least `w` wins. -/
def tail (w n : ℕ) : ℚ := ((∑ k ∈ Finset.Icc w n, n.choose k : ℕ) : ℚ) / 2 ^ n

theorem wins_le {n : ℕ} (v : Signs n) : wins v ≤ n :=
  (Finset.card_le_univ _).trans_eq (Fintype.card_fin n)

/-- There are `n.choose k` vectors with `k` wins. -/
theorem card_wins_eq (n k : ℕ) : (Finset.univ.filter fun v : Signs n => wins v = k).card = n.choose k := by
  have hcard : (Finset.powersetCard k (Finset.univ : Finset (Fin n))).card = n.choose k := by
    rw [Finset.card_powersetCard, Finset.card_univ, Fintype.card_fin]
  rw [← hcard]
  refine Finset.card_bij' (fun v _ => Finset.univ.filter fun i => v i = true)
    (fun s _ => fun i => decide (i ∈ s)) ?_ ?_ ?_ ?_
  · intro v hv
    rw [Finset.mem_powersetCard]
    exact ⟨Finset.subset_univ _, (Finset.mem_filter.mp hv).2⟩
  · intro s hs
    rw [Finset.mem_filter]
    refine ⟨Finset.mem_univ _, ?_⟩
    have hfilter : (Finset.univ.filter fun i => decide (i ∈ s) = true) = s := by
      ext i
      simp
    rw [wins, hfilter]
    exact (Finset.mem_powersetCard.mp hs).2
  · intro v _
    funext i
    cases h : v i <;> simp [h]
  · intro s _
    ext i
    simp

/-- The vectors with at least `w` wins are the share `tail w n` of all. -/
theorem card_wins_ge (w n : ℕ) :
    ((Finset.univ.filter fun v : Signs n => w ≤ wins v).card : ℚ) = tail w n * 2 ^ n := by
  have hsum : (Finset.univ.filter fun v : Signs n => w ≤ wins v).card =
      ∑ k ∈ Finset.Icc w n, n.choose k := by
    rw [Finset.card_eq_sum_card_fiberwise (f := wins) (t := Finset.Icc w n)]
    · refine Finset.sum_congr rfl fun k hk => ?_
      rw [← card_wins_eq n k, Finset.filter_filter]
      congr 1
      ext v
      simp only [Finset.mem_filter, Finset.mem_univ, true_and]
      constructor
      · exact fun h => h.2
      · exact fun h => ⟨h ▸ (Finset.mem_Icc.mp hk).1, h⟩
    · intro v hv
      exact Finset.mem_coe.mpr (Finset.mem_Icc.mpr ⟨(Finset.mem_filter.mp hv).2, wins_le v⟩)
  rw [hsum, tail, div_mul_cancel₀ _ (by positivity)]

/-- A vector passes at level `alpha`. -/
def Passes (alpha : ℚ) {n : ℕ} (v : Signs n) : Prop := tail (wins v) n ≤ alpha

instance (alpha : ℚ) {n : ℕ} (v : Signs n) : Decidable (Passes alpha v) :=
  inferInstanceAs (Decidable (_ ≤ _))

/-- **At most a share `alpha` of the vectors passes.** -/
theorem card_passes_le {alpha : ℚ} (halpha : 0 ≤ alpha) (n : ℕ) :
    ((Finset.univ.filter fun v : Signs n => Passes alpha v).card : ℚ) ≤ alpha * 2 ^ n := by
  rcases (Finset.univ.filter fun v : Signs n => Passes alpha v).eq_empty_or_nonempty with hnone | hsome
  · rw [hnone, Finset.card_empty, Nat.cast_zero]
    positivity
  · obtain ⟨v, hv, hmin⟩ := Finset.exists_min_image _ (wins (n := n)) hsome
    have hsub : (Finset.univ.filter fun u : Signs n => Passes alpha u) ⊆
        Finset.univ.filter fun u : Signs n => wins v ≤ wins u := by
      intro u hu
      exact Finset.mem_filter.mpr ⟨Finset.mem_univ _, hmin u hu⟩
    calc ((Finset.univ.filter fun u : Signs n => Passes alpha u).card : ℚ)
        ≤ (Finset.univ.filter fun u : Signs n => wins v ≤ wins u).card := by
          exact_mod_cast Finset.card_le_card hsub
      _ = tail (wins v) n * 2 ^ n := card_wins_ge (wins v) n
      _ ≤ alpha * 2 ^ n := by
          have hpass : tail (wins v) n ≤ alpha := (Finset.mem_filter.mp hv).2
          exact mul_le_mul_of_nonneg_right hpass (by positivity)

/-! ## Fair signs -/

variable {Ω : Type} [Fintype Ω]

/-- The weight of an event of a finite sample space. -/
def weight (p : Ω → ℚ) (event : Ω → Prop) [DecidablePred event] : ℚ :=
  ∑ ω, if event ω then p ω else 0

/-- The signs that a sample space gives to one test, if it takes place, are fair: no vector
is more likely than any of `2 ^ n` equally likely ones. -/
structure Fair (p : Ω → ℚ) {n : ℕ} (signs : Ω → Option (Signs n)) : Prop where
  nonneg : ∀ ω, 0 ≤ p ω
  le : ∀ v, weight p (fun ω => signs ω = some v) ≤ 1 / 2 ^ n

/-- **A test with fair signs passes with probability at most its level.** -/
theorem weight_passes_le {p : Ω → ℚ} {n : ℕ} {signs : Ω → Option (Signs n)} (fair : Fair p signs)
    {alpha : ℚ} (halpha : 0 ≤ alpha) :
    weight p (fun ω => ∃ v ∈ signs ω, Passes alpha v) ≤ alpha := by
  have hsplit : weight p (fun ω => ∃ v ∈ signs ω, Passes alpha v) =
      ∑ v ∈ Finset.univ.filter (fun v : Signs n => Passes alpha v), weight p (fun ω => signs ω = some v) := by
    unfold weight
    rw [Finset.sum_comm]
    refine Finset.sum_congr rfl fun ω _ => ?_
    cases hω : signs ω with
    | none => simp [hω]
    | some u =>
      by_cases hu : Passes alpha u <;> simp [hω, hu, Finset.sum_ite_eq]
  rw [hsplit]
  calc ∑ v ∈ Finset.univ.filter (fun v : Signs n => Passes alpha v), weight p (fun ω => signs ω = some v)
      ≤ ∑ _v ∈ Finset.univ.filter (fun v : Signs n => Passes alpha v), (1 / 2 ^ n : ℚ) :=
        Finset.sum_le_sum fun v _ => fair.le v
    _ = (Finset.univ.filter fun v : Signs n => Passes alpha v).card * (1 / 2 ^ n : ℚ) := by
        rw [Finset.sum_const, nsmul_eq_mul]
    _ ≤ alpha * 2 ^ n * (1 / 2 ^ n) := by
        exact mul_le_mul_of_nonneg_right (card_passes_le halpha n) (by positivity)
    _ = alpha := by
        rw [mul_assoc, mul_one_div_cancel (by positivity), mul_one]

end VeriCCL.BinomialTest
