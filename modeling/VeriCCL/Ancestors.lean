import VeriCCL.ProgramDependencies
import Mathlib.Data.Finset.Union

/-! # Ancestors in a dependency graph

`_dependency_ancestors` of `xml/v5_program.py`: exact reachability, computed along a
topological order.  The source keeps one bit per vertex; here a mask is the finite set
of its vertices.  The masks are the ancestors (`dependencyAncestors_spec`). -/
namespace VeriCCL

variable {κ : Type} [DecidableEq κ]

/-- The predecessors of a vertex. -/
def predecessorsOf (dependencies : Dict κ (Finset κ)) (key : κ) : Finset κ :=
  (dependencies.get? key).getD ∅

/-- One vertex more: its predecessors and their ancestors. -/
def addAncestors (dependencies : Dict κ (Finset κ)) (table : Dict κ (Finset κ)) (key : κ) :
    Dict κ (Finset κ) :=
  table.set key ((predecessorsOf dependencies key).biUnion fun p => insert p ((table.get? p).getD ∅))

/-- `_dependency_ancestors`. -/
def dependencyAncestors (dependencies : Dict κ (Finset κ)) :
    Except Fault (Dict κ (Finset κ)) := do
  let order ← dependencyOrder dependencies
  return order.foldl (addAncestors dependencies) []

/-- `p` is listed as a predecessor of `x`. -/
def Precedes (dependencies : Dict κ (Finset κ)) (p x : κ) : Prop :=
  p ∈ predecessorsOf dependencies x

/-- The table after a prefix of a topological order holds the ancestors of its vertices. -/
theorem foldl_addAncestors (dependencies : Dict κ (Finset κ)) {order : List κ} (hnodup : order.Nodup)
    (htop : Kahn.Topological (predecessorsOf dependencies) order) :
    ∀ x ∈ order, ∃ mask, (order.foldl (addAncestors dependencies) []).get? x = some mask ∧
      ∀ p, p ∈ mask ↔ Relation.TransGen (Precedes dependencies) p x := by
  induction order using List.reverseRecOn with
  | nil => simp
  | append_singleton order y ih =>
    have hprefix : Kahn.Topological (predecessorsOf dependencies) order := by
      intro l k r hl
      exact htop l k (r ++ [y]) (by rw [hl]; simp)
    have hold := ih (hnodup.sublist (List.sublist_append_left _ _)) hprefix
    have hy : y ∉ order := by
      intro hmem
      exact (List.nodup_append.mp hnodup).2.2 y hmem y (List.mem_singleton_self y) rfl
    intro x hx
    rw [List.foldl_append, List.foldl_cons, List.foldl_nil, addAncestors]
    rcases List.mem_append.mp hx with hx | hx
    · have hne : y ≠ x := fun h => hy (h ▸ hx)
      rw [Dict.get?_set_ne _ _ hne]
      exact hold x hx
    · obtain rfl := List.mem_singleton.mp hx
      refine ⟨_, Dict.get?_set_self _ _ _, fun p => ?_⟩
      have hpreds : ∀ q ∈ predecessorsOf dependencies x, q ∈ order :=
        htop order x [] (by simp)
      rw [Finset.mem_biUnion]
      constructor
      · rintro ⟨q, hq, hp⟩
        rcases Finset.mem_insert.mp hp with rfl | hp
        · exact .single hq
        · obtain ⟨mask, hmask, hspec⟩ := hold q (hpreds q hq)
          rw [hmask, Option.getD_some, hspec p] at hp
          exact hp.tail hq
      · intro htrans
        rcases Relation.TransGen.tail'_iff.mp htrans with ⟨q, hpath, hq⟩
        refine ⟨q, hq, ?_⟩
        rcases Relation.reflTransGen_iff_eq_or_transGen.mp hpath with rfl | hpath
        · exact Finset.mem_insert_self _ _
        · obtain ⟨mask, hmask, hspec⟩ := hold q (hpreds q hq)
          rw [hmask, Option.getD_some]
          exact Finset.mem_insert_of_mem ((hspec p).mpr hpath)

/-- **The masks are the ancestors.** -/
theorem dependencyAncestors_spec {dependencies : Dict κ (Finset κ)} (hd : dependencies.Distinct)
    {table : Dict κ (Finset κ)} (h : dependencyAncestors dependencies = .ok table) :
    ∀ x ∈ dependencies.keys, ∃ mask, table.get? x = some mask ∧
      ∀ p, p ∈ mask ↔ Relation.TransGen (Precedes dependencies) p x := by
  unfold dependencyAncestors at h
  simp only [Checked.bind_ok, Checked.pure_ok] at h
  obtain ⟨order, horder, rfl⟩ := h
  obtain ⟨hperm, htop⟩ := dependencyOrder_ok hd horder
  intro x hx
  exact foldl_addAncestors dependencies (hperm.nodup_iff.mpr hd) htop x (hperm.mem_iff.mpr hx)

end VeriCCL
