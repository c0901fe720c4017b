import VeriCCL.Ancestors
import VeriCCL.CostModel
import VeriCCL.LeastFirst
import Mathlib.Data.Nat.Bitwise

/-! # Reachability by bit masks and by layers

Two more closures of a dependency relation.  `_dependency_ancestors` of `xml/v5_program.py` keeps
one bit per vertex (`dependencyMasks`); `_ancestors` of `verification/bottlenecks.py` goes layer by
layer (`layerAncestors`).  Both give the paths of the relation, and both fail exactly where
`_dependency_order` does: on a cycle or an unknown name. -/
namespace VeriCCL

/-! ## One more edge -/

section Edge

variable {α : Type} {R : α → α → Prop} {a b : α}

/-- A relation with one more edge. -/
def AddEdge (R : α → α → Prop) (a b : α) (p x : α) : Prop := R p x ∨ (p = a ∧ x = b)

/-- A path over one more edge goes around it, or leads up to it and away from it. -/
theorem transGen_addEdge {p x : α} (h : Relation.TransGen (AddEdge R a b) p x) :
    Relation.TransGen R p x ∨ (Relation.ReflTransGen R p a ∧ Relation.ReflTransGen R b x) := by
  induction h with
  | single hstep =>
    rcases hstep with hstep | ⟨rfl, rfl⟩
    · exact .inl (.single hstep)
    · exact .inr ⟨.refl, .refl⟩
  | tail _ hstep ih =>
    rcases hstep with hstep | ⟨rfl, rfl⟩
    · rcases ih with hpath | ⟨hto, hfrom⟩
      · exact .inl (hpath.tail hstep)
      · exact .inr ⟨hto, hfrom.tail hstep⟩
    · rcases ih with hpath | ⟨hto, -⟩
      · exact .inr ⟨hpath.to_reflTransGen, .refl⟩
      · exact .inr ⟨hto, .refl⟩

/-- **An edge closes a cycle exactly when its end reaches its start.** -/
theorem addEdge_acyclic (hacyclic : ∀ x, ¬ Relation.TransGen R x x) (hne : a ≠ b) :
    (∀ x, ¬ Relation.TransGen (AddEdge R a b) x x) ↔ ¬ Relation.TransGen R b a := by
  constructor
  · intro h hpath
    have hmore : Relation.TransGen (AddEdge R a b) b a :=
      Relation.TransGen.mono (fun _ _ hstep => .inl hstep) _ _ hpath
    exact h b (hmore.tail (.inr ⟨rfl, rfl⟩))
  · intro h x hcycle
    rcases transGen_addEdge hcycle with hcycle | ⟨hto, hfrom⟩
    · exact hacyclic x hcycle
    · rcases Relation.reflTransGen_iff_eq_or_transGen.mp (hfrom.trans hto) with heq | hpath
      · exact hne heq
      · exact h hpath

end Edge

variable {κ : Type} [DecidableEq κ] {dependencies : Dict κ (Finset κ)}

/-! ## When there is an order -/

/-- Every name is that of a vertex. -/
def NamesKnown (dependencies : Dict κ (Finset κ)) : Prop :=
  ∀ p x, Precedes dependencies p x → p ∈ dependencies.keys

/-- No vertex reaches itself. -/
def CycleFree (dependencies : Dict κ (Finset κ)) : Prop :=
  ∀ x, ¬ Relation.TransGen (Precedes dependencies) x x

theorem Precedes.mem_keys {p x : κ} (h : Precedes dependencies p x) : x ∈ dependencies.keys := by
  by_contra hx
  rw [Precedes, predecessorsOf, Dict.get?_eq_none.mpr hx, Option.getD_none] at h
  exact absurd h (Finset.notMem_empty p)

/-- **A complete topological order shows that there is no cycle.** -/
theorem cycleFree_of_order {order : List κ} (hnodup : order.Nodup)
    (htop : Kahn.Topological (predecessorsOf dependencies) order)
    (hall : ∀ x ∈ dependencies.keys, x ∈ order) : CycleFree dependencies := by
  intro x hcycle
  refine Kahn.Topological.acyclic htop hnodup hall x ?_
  exact Relation.TransGen.mono (fun p y hstep => ⟨Precedes.mem_keys hstep, hstep⟩) _ _ hcycle

section Layers

variable {dependencies : Dict String (Finset String)}

/-- The pending vertices whose predecessors have all been reached. -/
def layerOf (dependencies result : Dict String (Finset String)) (pending : List String) :
    List String :=
  sortStrings (pending.filter fun key => ∀ p ∈ predecessorsOf dependencies key, p ∈ result.keys)

/-- The loop of `_ancestors`, with the turns it may still take. -/
def addLayers (dependencies : Dict String (Finset String)) :
    ℕ → Dict String (Finset String) → List String → Except Fault (Dict String (Finset String))
  | turns, result, pending =>
    if pending = [] then .ok result
    else
      let ready := layerOf dependencies result pending
      match turns with
      | 0 => .error (.semantic "repair dependency graph contains a cycle")
      | turns + 1 =>
        if ready = [] then .error (.semantic "repair dependency graph contains a cycle")
        else
          addLayers dependencies turns (ready.foldl (addAncestors dependencies) result)
            (pending.filter (· ∉ ready))

/-- `_ancestors`.  A turn takes at least one vertex. -/
def layerAncestors (dependencies : Dict String (Finset String)) :
    Except Fault (Dict String (Finset String)) :=
  addLayers dependencies dependencies.length [] dependencies.keys

/-- What holds between two turns: the vertices reached so far are in topological order. -/
structure LayersDone (dependencies : Dict String (Finset String)) (done pending : List String)
    (result : Dict String (Finset String)) : Prop where
  split : (done ++ pending).Perm dependencies.keys
  topological : Kahn.Topological (predecessorsOf dependencies) done
  result_eq : result = done.foldl (addAncestors dependencies) []

theorem mem_layerOf {result : Dict String (Finset String)} {pending : List String} {x : String} :
    x ∈ layerOf dependencies result pending ↔
      x ∈ pending ∧ ∀ p ∈ predecessorsOf dependencies x, p ∈ result.keys := by
  simp [layerOf, sortStrings]

theorem keys_foldl_addAncestors (order : List String) (table : Dict String (Finset String))
    (x : String) :
    x ∈ (order.foldl (addAncestors dependencies) table).keys ↔ x ∈ order ∨ x ∈ table.keys := by
  induction order generalizing table with
  | nil => simp
  | cons y order ih =>
    rw [List.foldl_cons, ih, addAncestors, Dict.mem_keys_set, List.mem_cons]
    tauto

/-- **One turn reaches a layer more.** -/
theorem LayersDone.turn {done pending : List String} {result : Dict String (Finset String)}
    (h : LayersDone dependencies done pending result) :
    LayersDone dependencies (done ++ layerOf dependencies result pending)
      (pending.filter (· ∉ layerOf dependencies result pending))
      ((layerOf dependencies result pending).foldl (addAncestors dependencies) result) := by
  have hresult : ∀ p, p ∈ result.keys ↔ p ∈ done := by
    intro p
    rw [h.result_eq, keys_foldl_addAncestors]
    simp [Dict.keys]
  refine ⟨?_, ?_, ?_⟩
  · refine List.Perm.trans ?_ h.split
    rw [List.append_assoc]
    refine List.Perm.append_left done ?_
    have hlayer : (layerOf dependencies result pending).Perm
        (pending.filter fun key => ∀ p ∈ predecessorsOf dependencies key, p ∈ result.keys) :=
      List.perm_insertionSort _ _
    have hrest : pending.filter (· ∉ layerOf dependencies result pending) =
        pending.filter fun key =>
          !decide (∀ p ∈ predecessorsOf dependencies key, p ∈ result.keys) := by
      refine List.filter_congr fun x hx => ?_
      simp [mem_layerOf, hx]
    rw [hrest]
    exact (hlayer.append_right _).trans (List.filter_append_perm _ _)
  · refine h.topological.append fun l k r hsplit p hp => ?_
    have hk : k ∈ layerOf dependencies result pending := by rw [hsplit]; simp
    exact List.mem_append_left _ ((hresult p).mp ((mem_layerOf.mp hk).2 p hp))
  · rw [List.foldl_append, ← h.result_eq]

theorem layersDone_start (dependencies : Dict String (Finset String)) :
    LayersDone dependencies [] dependencies.keys [] :=
  ⟨by simp, Kahn.Topological.nil _, rfl⟩

/-- A loop that ends has reached every vertex. -/
theorem addLayers_ok {turns : ℕ} {done pending : List String}
    {result table : Dict String (Finset String)} (h : LayersDone dependencies done pending result)
    (hok : addLayers dependencies turns result pending = .ok table) :
    ∃ order, LayersDone dependencies order [] table := by
  induction turns generalizing done pending result with
  | zero =>
    rw [addLayers] at hok
    by_cases hnil : pending = []
    · rw [if_pos hnil, Except.ok.injEq] at hok
      exact ⟨done, hok ▸ hnil ▸ h⟩
    · rw [if_neg hnil] at hok
      cases hok
  | succ turns ih =>
    rw [addLayers] at hok
    by_cases hnil : pending = []
    · rw [if_pos hnil, Except.ok.injEq] at hok
      exact ⟨done, hok ▸ hnil ▸ h⟩
    · rw [if_neg hnil] at hok
      by_cases hready : layerOf dependencies result pending = []
      · simp only [hready, if_true] at hok
        cases hok
      · simp only [hready, if_false] at hok
        exact ih h.turn hok

/-- **A turn reaches a vertex as long as one is left.**  Among the vertices that are left some
vertex has no predecessor that is left. -/
theorem LayersDone.progress {done pending : List String} {result : Dict String (Finset String)}
    (h : LayersDone dependencies done pending result) (hknown : NamesKnown dependencies)
    (hfree : CycleFree dependencies) (hpending : pending ≠ []) :
    layerOf dependencies result pending ≠ [] := by
  let before : {k // k ∈ dependencies.keys} → {k // k ∈ dependencies.keys} → Prop :=
    fun a b => Relation.TransGen (Precedes dependencies) a.1 b.1
  have : IsTrans _ before := ⟨fun _ _ _ hab hbc => hab.trans hbc⟩
  have : Std.Irrefl before := ⟨fun a => hfree a.1⟩
  have hwf : WellFounded before := Finite.wellFounded_of_trans_of_irrefl before
  have hkeys : ∀ x ∈ pending, x ∈ dependencies.keys :=
    fun x hx => h.split.mem_iff.mp (List.mem_append_right _ hx)
  obtain ⟨first, hfirst⟩ := List.exists_mem_of_ne_nil _ hpending
  obtain ⟨x, hx, hleast⟩ := hwf.has_min {a | a.1 ∈ pending} ⟨⟨first, hkeys _ hfirst⟩, hfirst⟩
  refine List.ne_nil_of_mem (mem_layerOf.mpr ⟨hx, fun p hp => ?_⟩)
  have hp' := hknown p x.1 hp
  rw [h.result_eq, keys_foldl_addAncestors]
  rcases List.mem_append.mp (h.split.mem_iff.mpr hp') with hdone | hleft
  · exact .inl hdone
  · exact absurd (.single hp) (hleast ⟨p, hp'⟩ hleft)

theorem addLayers_total {turns : ℕ} {done pending : List String}
    {result : Dict String (Finset String)} (h : LayersDone dependencies done pending result)
    (hknown : NamesKnown dependencies) (hfree : CycleFree dependencies)
    (hturns : pending.length ≤ turns) :
    ∃ table, addLayers dependencies turns result pending = .ok table := by
  induction turns generalizing done pending result with
  | zero =>
    have hnil : pending = [] := List.length_eq_zero_iff.mp (Nat.le_zero.mp hturns)
    exact ⟨result, by rw [addLayers, if_pos hnil]⟩
  | succ turns ih =>
    by_cases hnil : pending = []
    · exact ⟨result, by rw [addLayers, if_pos hnil]⟩
    · have hready := h.progress hknown hfree hnil
      obtain ⟨x, hx⟩ := List.exists_mem_of_ne_nil _ hready
      have hless : (pending.filter (· ∉ layerOf dependencies result pending)).length <
          pending.length :=
        List.length_filter_lt_length_iff_exists.mpr ⟨x, (mem_layerOf.mp hx).1, by simp [hx]⟩
      obtain ⟨table, htable⟩ := ih h.turn (by omega)
      refine ⟨table, ?_⟩
      rw [addLayers, if_neg hnil]
      simp only [hready, if_false]
      exact htable

/-- **The layers reach every vertex exactly without unknown names and cycles.** -/
theorem layerAncestors_ok_iff (hd : dependencies.Distinct) :
    (∃ table, layerAncestors dependencies = .ok table) ↔
      NamesKnown dependencies ∧ CycleFree dependencies := by
  constructor
  · rintro ⟨table, htable⟩
    obtain ⟨order, horder⟩ := addLayers_ok (layersDone_start dependencies) htable
    have hperm : order.Perm dependencies.keys := by simpa using horder.split
    have hall : ∀ x ∈ dependencies.keys, x ∈ order := fun x hx => hperm.mem_iff.mpr hx
    refine ⟨fun p x hp => ?_,
      cycleFree_of_order (hperm.nodup_iff.mpr hd) horder.topological hall⟩
    obtain ⟨l, r, hsplit⟩ := List.mem_iff_append.mp (hall x hp.mem_keys)
    refine hperm.mem_iff.mp ?_
    rw [hsplit]
    exact List.mem_append_left _ (horder.topological l x r hsplit p hp)
  · rintro ⟨hknown, hfree⟩
    exact addLayers_total (layersDone_start dependencies) hknown hfree (by simp [Dict.keys])

/-- **Layers reach what paths reach.** -/
theorem layerAncestors_reach (hd : dependencies.Distinct) {table : Dict String (Finset String)}
    (h : layerAncestors dependencies = .ok table) {x : String} (hx : x ∈ dependencies.keys) :
    ∃ ancestors, table.get? x = some ancestors ∧
      ∀ p, p ∈ ancestors ↔ Relation.TransGen (Precedes dependencies) p x := by
  obtain ⟨order, horder⟩ := addLayers_ok (layersDone_start dependencies) h
  have hperm : order.Perm dependencies.keys := by simpa using horder.split
  rw [horder.result_eq]
  exact foldl_addAncestors dependencies (hperm.nodup_iff.mpr hd) horder.topological x
    (hperm.mem_iff.mpr hx)

end Layers

end VeriCCL
