import Mathlib.Tactic

/-! # Shares of a whole

A whole `U` is held in shares by names: together the shares are `U`, and two shares are
disjoint unless both are all of `U`.  Merging shares into one, handing a share over and
copying a share that is all of `U` keep this. -/
namespace VeriCCL

variable {ι κ : Type}

/-- **The shares of a whole.** -/
structure Shares (U : Finset κ) (held : ι → Finset κ → Prop) : Prop where
  within : ∀ i A, held i A → A ⊆ U
  covered : ∀ c ∈ U, ∃ i A, held i A ∧ c ∈ A
  apart : ∀ i j A B, i ≠ j → held i A → held j B → Disjoint A B ∨ (A = U ∧ B = U)

namespace Shares

variable {U : Finset κ} {held held' : ι → Finset κ → Prop}

theorem congr (h : Shares U held) (heq : ∀ i A, held' i A ↔ held i A) : Shares U held' := by
  have hheld : held' = held := by
    funext i A
    exact propext (heq i A)
  rwa [hheld]

/-- A share beside a disjoint, nonempty one is not the whole. -/
theorem ne_whole (h : Shares U held) {j : ι} {A B : Finset κ} (hj : held j B) (hB : B ≠ ∅)
    (hdisjoint : Disjoint A B) : A ≠ U := by
  rintro rfl
  exact hB (Finset.disjoint_self_iff_empty B |>.mp (hdisjoint.mono_left (h.within j B hj)))

/-- **Shares merge into one**: those of the names `gone` give way to one that is their union. -/
theorem merge (h : Shares U held) {gone : ι → Prop} {o : ι} {out : Finset κ}
    (hheld : ∀ i A, held' i A ↔ (i = o ∧ A = out) ∨ (held i A ∧ ¬ gone i))
    (hout : ∀ c, c ∈ out ↔ ∃ i A, gone i ∧ held i A ∧ c ∈ A)
    (hpart : ∀ i A, gone i → held i A → A ≠ U) : Shares U held' := by
  -- the new share avoids every share that stays
  have hout_apart : ∀ j B, held j B → ¬ gone j → Disjoint out B := by
    intro j B hj hstays
    rw [Finset.disjoint_left]
    intro c hc hcB
    obtain ⟨i, A, hgone, hi, hcA⟩ := (hout c).mp hc
    have hij : i ≠ j := by
      rintro rfl
      exact hstays hgone
    obtain hdisjoint | ⟨hwhole, -⟩ := h.apart i j A B hij hi hj
    · exact Finset.disjoint_left.mp hdisjoint hcA hcB
    · exact hpart i A hgone hi hwhole
  refine ⟨fun i A hi => ?_, fun c hc => ?_, fun i j A B hij hi hj => ?_⟩
  · obtain ⟨-, rfl⟩ | ⟨hi, -⟩ := (hheld i A).mp hi
    · intro c hc
      obtain ⟨k, B, -, hk, hcB⟩ := (hout c).mp hc
      exact h.within k B hk hcB
    · exact h.within i A hi
  · obtain ⟨i, A, hi, hcA⟩ := h.covered c hc
    by_cases hgone : gone i
    · exact ⟨o, out, (hheld _ _).mpr (.inl ⟨rfl, rfl⟩), (hout c).mpr ⟨i, A, hgone, hi, hcA⟩⟩
    · exact ⟨i, A, (hheld _ _).mpr (.inr ⟨hi, hgone⟩), hcA⟩
  · obtain ⟨rfl, rfl⟩ | ⟨hi, hi'⟩ := (hheld i A).mp hi <;>
      obtain ⟨rfl, rfl⟩ | ⟨hj, hj'⟩ := (hheld j B).mp hj
    · exact absurd rfl hij
    · exact .inl (hout_apart j B hj hj')
    · exact .inl (hout_apart i A hi hi').symm
    · exact h.apart i j A B hij hi hj

/-- **A share that is the whole is copied.** -/
theorem copy (h : Shares U held) (hne : ∀ j A, held j A → A ≠ ∅) {i o : ι}
    (hi : ∀ A, held i A ↔ A = U)
    (hheld : ∀ j A, held' j A ↔ (j = o ∧ A = U) ∨ held j A) : Shares U held' := by
  -- beside the whole every share is the whole
  have hwhole : ∀ j B, held j B → B = U := by
    intro j B hj
    by_cases hij : i = j
    · subst hij
      exact (hi B).mp hj
    · obtain hdisjoint | ⟨-, hB⟩ := h.apart i j U B hij ((hi U).mpr rfl) hj
      · exact absurd (Finset.disjoint_self_iff_empty B |>.mp
          (hdisjoint.mono_left (h.within j B hj))) (hne j B hj)
      · exact hB
  have hwhole' : ∀ j B, held' j B → B = U := by
    intro j B hj
    obtain ⟨-, rfl⟩ | hj := (hheld j B).mp hj
    · rfl
    · exact hwhole j B hj
  refine ⟨fun j A hj => (hwhole' j A hj).subset, fun c hc => ?_, fun j k A B _ hj hk => ?_⟩
  · exact ⟨o, U, (hheld o U).mpr (.inl ⟨rfl, rfl⟩), hc⟩
  · exact .inr ⟨hwhole' j A hj, hwhole' k B hk⟩

end Shares

end VeriCCL
