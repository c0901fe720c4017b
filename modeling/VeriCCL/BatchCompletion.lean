import VeriCCL.BatchBranching

/-! # The loops of `finish`

A batch grows until its frontier is empty: every turn either refuses an extension for good
or reaches a vertex, so there are as many turns as nodes.  The queue is drained in as many
turns as there are items, because a batch left behind has an item of its own. -/
namespace VeriCCL.BatchPacker

open Branching (inflow missing Rooted)

variable {α β : Type} [LinearOrder α] {nodes : List α} {original : Capacities α}
  {rootItems : Dict α (List β)} {maximumFlowValue : MaximumFlowValue α}

/-! ## One visit -/

section Equations

variable {packer : BatchPacker α β} {b : ℕ} {src dst : α}

/-- An extension by nothing. -/
theorem extend_zero (h : packer.extensionAmount maximumFlowValue b src dst = .ok 0) :
    packer.extend maximumFlowValue b src dst = .ok (⟨0, none⟩, packer) := by
  unfold extend
  rw [h]
  rfl

/-- An extension by some items. -/
theorem extend_pos {amount : ℕ} {batch : TreeBatch α β}
    (h : packer.extensionAmount maximumFlowValue b src dst = .ok amount) (hpos : amount ≠ 0)
    (hb : packer.batches[b]? = some batch) :
    packer.extend maximumFlowValue b src dst = .ok
      (⟨amount, if amount < batch.multiplicity then some packer.batches.length else none⟩,
        packer.extended b batch src dst amount) := by
  unfold extend
  rw [h, Checked.bind_ok]
  refine ⟨amount, rfl, ?_⟩
  rw [if_neg hpos, hb]
  rfl

theorem grow_nil (index fuel : ℕ) (queue : List ℕ) (packer : BatchPacker α β) :
    Growth.grow maximumFlowValue index (fuel + 1) ⟨[], queue, packer⟩ = .ok ⟨[], queue, packer⟩ :=
  rfl

theorem grow_cons (index fuel : ℕ) (src : α) (frontier : List α) (queue : List ℕ)
    (packer : BatchPacker α β) :
    Growth.grow maximumFlowValue index (fuel + 1) ⟨src :: frontier, queue, packer⟩ =
      (packer.nodes.foldlM (Growth.visit maximumFlowValue index src) ⟨frontier, queue, packer⟩ >>=
        Growth.grow maximumFlowValue index fuel) := rfl

end Equations

/-- What holds while a batch grows: it is active, as are the batches of the queue and no
others, and its frontier has been reached. -/
structure Growing (nodes : List α) (original : Capacities α) (rootItems : Dict α (List β))
    (index : ℕ) (growth : Growth α β) : Prop where
  packed : growth.packer.Packed nodes original rootItems
  queue : (index :: growth.queue).Nodup
  active : ∀ i, i ∈ growth.packer.active ↔ i ∈ index :: growth.queue
  frontier : ∀ v ∈ growth.frontier, v ∈ growth.packer.reached index

/-- The turns that are left for a batch. -/
def turns (index : ℕ) (growth : Growth α β) : ℕ :=
  growth.frontier.length + (growth.packer.vertices \ growth.packer.reached index).card

/-- How a batch grows: what is reached goes through the frontier, what is refused stays
refused, and a batch that is created goes to the queue. -/
structure Grows (index : ℕ) (g g' : Growth α β) : Prop where
  vertices : g'.packer.vertices = g.packer.vertices
  reached : g.packer.reached index ⊆ g'.packer.reached index
  fresh : ∀ v ∈ g'.packer.reached index, v ∈ g.packer.reached index ∨ v ∈ g'.frontier
  frontier : ∀ v ∈ g.frontier, v ∈ g'.frontier
  blocked : ∀ u v, g.packer.Blocked index u v → g'.packer.Blocked index u v
  turns : turns index g' = turns index g
  queue : g'.queue.length + g.packer.batches.length = g.queue.length + g'.packer.batches.length

namespace Grows

variable {index : ℕ} {g g' g'' : Growth α β}

theorem refl (index : ℕ) (g : Growth α β) : Grows index g g :=
  ⟨rfl, subset_rfl, fun _ h => Or.inl h, fun _ h => h, fun _ _ h => h, rfl, rfl⟩

theorem trans (h : Grows index g g') (h' : Grows index g' g'') : Grows index g g'' where
  vertices := h'.vertices.trans h.vertices
  reached := h.reached.trans h'.reached
  fresh v hv := by
    rcases h'.fresh v hv with hv | hv
    · exact (h.fresh v hv).imp_right (h'.frontier v)
    · exact Or.inr hv
  frontier v hv := h'.frontier v (h.frontier v hv)
  blocked u v hb := h'.blocked u v (h.blocked u v hb)
  turns := h'.turns.trans h.turns
  queue := by
    have h1 := h.queue
    have h2 := h'.queue
    omega

end Grows

/-- The batch that grows exists. -/
theorem Growing.found {index : ℕ} {g : Growth α β} (hg : Growing nodes original rootItems index g) :
    ∃ batch, g.packer.batches[index]? = some batch := by
  have hactive := (hg.active index).mpr List.mem_cons_self
  exact ⟨_, List.getElem?_eq_getElem (hg.packed.known index hactive)⟩

/-- **One visit**: it does not raise, and the pair is refused or reached afterwards. -/
theorem Growing.visit {index : ℕ} {g : Growth α β} (hg : Growing nodes original rootItems index g)
    (hflow : maximumFlowValue.Exact) {src : α} (dst : α) (hsrc : src ∈ g.packer.reached index) :
    ∃ g', Growth.visit maximumFlowValue index src g dst = .ok g' ∧
      Growing nodes original rootItems index g' ∧ Grows index g g' ∧
      g'.packer.Blocked index src dst := by
  obtain ⟨batch, hbatch⟩ := hg.found
  have hactive := (hg.active index).mpr List.mem_cons_self
  obtain ⟨amount, hamount, hextends, hrefused⟩ :=
    hg.packed.extensionAmount_spec hflow hbatch src dst
  rw [reached_of_found hbatch] at hsrc
  by_cases hzero : amount = 0
  · refine ⟨g, ?_, hg, Grows.refl index g, hrefused hzero hactive hsrc⟩
    unfold Growth.visit
    rw [extend_zero (hzero ▸ hamount), Checked.bind_ok]
    refine ⟨_, rfl, ?_⟩
    simp
  · have hext := hextends hzero
    set after := g.packer.extended index batch src dst amount with hafter
    have hreached : after.reached index = insert dst batch.vertices :=
      (hext.missing hg.packed ∅).2.2.1
    set rest : Option ℕ := if amount < batch.multiplicity then some g.packer.batches.length else none
      with hrest
    refine ⟨⟨g.frontier ++ [dst], g.queue ++ rest.toList, after⟩, ?_, ?_, ?_, ?_⟩
    · unfold Growth.visit
      rw [extend_pos hamount hzero hbatch, Checked.bind_ok]
      refine ⟨_, rfl, ?_⟩
      simp [hzero, hrest, hafter]
    · refine ⟨hext.packed hg.packed, ?_, fun i => ?_, fun v hv => ?_⟩
      · rw [← List.cons_append]
        refine List.nodup_append.mpr ⟨hg.queue, ?_, fun i hi j hj => ?_⟩
        · rw [hrest]
          split <;> simp
        · have hlt := hg.packed.known i ((hg.active i).mpr hi)
          rw [hrest] at hj
          split at hj
          · simp only [Option.toList_some, List.mem_singleton] at hj
            omega
          · cases hj
      · show i ∈ (if amount < batch.multiplicity then insert _ _ else _) ↔ _
        rw [← List.cons_append, List.mem_append, ← hg.active i, hrest]
        split
        · rw [Finset.mem_insert, Option.toList_some, List.mem_singleton, or_comm]
        · simp
      · show v ∈ after.reached index
        rw [hreached]
        rcases List.mem_append.mp hv with hv | hv
        · have := hg.frontier v hv
          rw [reached_of_found hbatch] at this
          exact Finset.mem_insert_of_mem this
        · rw [List.mem_singleton.mp hv]
          exact Finset.mem_insert_self _ _
    · refine ⟨rfl, ?_, fun v hv => ?_, fun v hv => List.mem_append_left _ hv,
        fun u v hb => hext.blocked hg.packed hb, ?_, ?_⟩
      · show g.packer.reached index ⊆ after.reached index
        rw [hreached, reached_of_found hbatch]
        exact Finset.subset_insert _ _
      · have hv' : v ∈ after.reached index := hv
        rw [hreached] at hv'
        rcases Finset.mem_insert.mp hv' with rfl | hv'
        · exact Or.inr (List.mem_append_right _ (List.mem_singleton_self _))
        · exact Or.inl (by rw [reached_of_found hbatch]; exact hv')
      · show (g.frontier ++ [dst]).length + (g.packer.vertices \ after.reached index).card =
          g.frontier.length + (g.packer.vertices \ g.packer.reached index).card
        have hmem : dst ∈ g.packer.vertices \ batch.vertices :=
          Finset.mem_sdiff.mpr ⟨hext.node, hext.out_of_tree⟩
        have hpos : 0 < (g.packer.vertices \ batch.vertices).card := Finset.card_pos.mpr ⟨dst, hmem⟩
        rw [hreached, reached_of_found hbatch, Finset.sdiff_insert, Finset.card_erase_of_mem hmem,
          List.length_append, List.length_singleton]
        omega
      · show (g.queue ++ rest.toList).length + _ = _ + after.batches.length
        rw [hext.set, List.length_append, List.length_append, List.length_set, hrest]
        unfold behind
        split
        · simp only [Option.toList_some, List.length_singleton]
          omega
        · simp
    · left
      show dst ∈ after.reached index
      rw [hreached]
      exact Finset.mem_insert_self _ _

/-! ## The frontier of a batch -/

/-- The visits of one vertex. -/
theorem Growing.visits {index : ℕ} (hflow : maximumFlowValue.Exact) {src : α} (dsts : List α) :
    ∀ g : Growth α β, Growing nodes original rootItems index g → src ∈ g.packer.reached index →
      ∃ g', dsts.foldlM (Growth.visit maximumFlowValue index src) g = .ok g' ∧
        Growing nodes original rootItems index g' ∧ Grows index g g' ∧
        ∀ dst ∈ dsts, g'.packer.Blocked index src dst := by
  induction dsts with
  | nil =>
    intro g hg _
    exact ⟨g, rfl, hg, Grows.refl index g, fun dst hd => by cases hd⟩
  | cons dst dsts ih =>
    intro g hg hsrc
    obtain ⟨g₁, hvisit, hg₁, hgrows, hblocked⟩ := hg.visit hflow dst hsrc
    obtain ⟨g₂, hrest, hg₂, hgrows', hblocked'⟩ := ih g₁ hg₁ (hgrows.reached hsrc)
    refine ⟨g₂, ?_, hg₂, hgrows.trans hgrows', fun d hd => ?_⟩
    · rw [List.foldlM_cons, Checked.bind_ok]
      exact ⟨g₁, hvisit, hrest⟩
    · rcases List.mem_cons.mp hd with rfl | hd
      · exact hgrows'.blocked src d hblocked
      · exact hblocked' d hd

/-- **A batch grows until it spans.**  Every reached vertex is in the frontier or has been
visited, and a visited vertex has only refused extensions. -/
theorem Growing.grow {index : ℕ} (hflow : maximumFlowValue.Exact) (fuel : ℕ) :
    ∀ g : Growth α β, Growing nodes original rootItems index g →
      (∀ u ∈ g.packer.reached index, u ∈ g.frontier ∨
        ∀ v ∈ g.packer.vertices, g.packer.Blocked index u v) →
      turns index g < fuel →
      ∃ g', Growth.grow maximumFlowValue index fuel g = .ok g' ∧
        Growing nodes original rootItems index g' ∧
        g'.packer.reached index = g'.packer.vertices ∧
        g'.queue.length + g.packer.batches.length = g.queue.length + g'.packer.batches.length := by
  induction fuel with
  | zero => intro g _ _ hlt; omega
  | succ fuel ih =>
    rintro ⟨frontier, queue, packer⟩ hg hvisited hlt
    cases frontier with
    | nil =>
      refine ⟨_, grow_nil index fuel queue packer, hg, ?_, rfl⟩
      obtain ⟨batch, hbatch⟩ := hg.found
      rw [reached_of_found hbatch] at hvisited ⊢
      refine hg.packed.spanning hbatch ((hg.active index).mpr List.mem_cons_self) fun u hu v hv => ?_
      rcases hvisited u hu with hm | hb
      · cases hm
      · exact hb v hv
    | cons src frontier =>
      have hpopped : Growing nodes original rootItems index ⟨frontier, queue, packer⟩ :=
        ⟨hg.packed, hg.queue, hg.active, fun v hv => hg.frontier v (List.mem_cons_of_mem _ hv)⟩
      obtain ⟨g₁, hvisits, hg₁, hgrows, hblocked⟩ :=
        Growing.visits hflow packer.nodes ⟨frontier, queue, packer⟩ hpopped
          (hg.frontier src List.mem_cons_self)
      have hturns : turns index g₁ + 1 = turns index ⟨src :: frontier, queue, packer⟩ := by
        rw [hgrows.turns]
        show frontier.length + (packer.vertices \ packer.reached index).card + 1 =
          frontier.length + 1 + (packer.vertices \ packer.reached index).card
        omega
      -- What is reached now was visited before, is visited by this turn, or is in the frontier.
      have hvisited' : ∀ u ∈ g₁.packer.reached index, u ∈ g₁.frontier ∨
          ∀ v ∈ g₁.packer.vertices, g₁.packer.Blocked index u v := by
        intro u hu
        rw [hgrows.vertices]
        rcases hgrows.fresh u hu with hold | hnew
        · rcases hvisited u hold with hm | hb
          · rcases List.mem_cons.mp hm with rfl | hm
            · exact Or.inr fun v hv => hblocked v (List.mem_toFinset.mp hv)
            · exact Or.inl (hgrows.frontier u hm)
          · exact Or.inr fun v hv => hgrows.blocked u v (hb v hv)
        · exact Or.inl hnew
      obtain ⟨g₂, hrest, hg₂, hspan, hqueue⟩ := ih g₁ hg₁ hvisited' (by omega)
      refine ⟨g₂, ?_, hg₂, hspan, ?_⟩
      · rw [grow_cons, Checked.bind_ok]
        exact ⟨g₁, hvisits, hrest⟩
      · have hfirst : g₁.queue.length + packer.batches.length =
            queue.length + g₁.packer.batches.length := hgrows.queue
        show g₂.queue.length + packer.batches.length = queue.length + g₂.packer.batches.length
        omega

/-! ## The queue of batches -/

/-- A batch has an item of its own, so there are no more batches than items. -/
theorem Packed.length_batches {packer : BatchPacker α β}
    (hp : packer.Packed nodes original rootItems) :
    packer.batches.length ≤ (rootItems.flatMap (·.2)).length := by
  have hkept := (hp.kept fun _ => true).length_eq
  simp only [List.filter_true] at hkept
  rw [← hkept, List.length_flatMap]
  have hone : ∀ n ∈ packer.batches.map (·.items.length), 1 ≤ n := by
    intro n hn
    obtain ⟨batch, hbatch, rfl⟩ := List.mem_map.mp hn
    exact List.length_pos_of_ne_nil (hp.nonempty batch hbatch)
  have := List.card_nsmul_le_sum _ 1 hone
  simpa using this

/-- A batch that spans leaves the active ones. -/
theorem Growing.finished {index : ℕ} {g : Growth α β}
    (hg : Growing nodes original rootItems index g)
    (hspan : g.packer.reached index = g.packer.vertices) :
    ({ g.packer with active := g.packer.active.erase index } : BatchPacker α β).Packed nodes original
      rootItems := by
  have hp := hg.packed
  have hactive := (hg.active index).mpr List.mem_cons_self
  refine
    { same := hp.same
      listed := hp.listed
      linked := hp.linked
      known := fun i hi => hp.known i (Finset.mem_of_mem_erase hi)
      tree := hp.tree
      inside := hp.inside
      nonempty := hp.nonempty
      done := fun i hi batch hbatch => ?_
      rooted := fun X hX hne => ?_
      kept := hp.kept
      used := hp.used }
  · by_cases he : i = index
    · subst he
      rw [← reached_of_found hbatch]
      exact hspan
    · exact hp.done i (fun hm => hi (Finset.mem_erase.mpr ⟨he, hm⟩)) batch hbatch
  · have hlack : missing (g.packer.active.erase index) g.packer.reached g.packer.multiplicity X =
        missing g.packer.active g.packer.reached g.packer.multiplicity X :=
      Branching.missing_erase_of_spanning hactive hspan hX hne
    refine le_of_eq_of_le hlack ?_
    exact hp.rooted X hX hne

/-- **The queue is drained**: no branch of the loop raises, and no batch is left active. -/
theorem Packed.drain (hflow : maximumFlowValue.Exact) (hnodes : nodes.Nodup) (fuel : ℕ) :
    ∀ (queue : List ℕ) (packer : BatchPacker α β), packer.Packed nodes original rootItems →
      queue.Nodup → (∀ i, i ∈ packer.active ↔ i ∈ queue) →
      queue.length + (rootItems.flatMap (·.2)).length + nodes.length + 2 ≤
        fuel + packer.batches.length →
      ∃ after : BatchPacker α β, drain maximumFlowValue fuel queue packer = .ok after ∧
        after.Packed nodes original rootItems ∧ after.active = ∅ := by
  induction fuel with
  | zero =>
    intro queue packer hp _ _ hfuel
    have := hp.length_batches
    omega
  | succ fuel ih =>
    intro queue packer hp hnodup hactive hfuel
    cases queue with
    | nil =>
      refine ⟨packer, rfl, hp, Finset.eq_empty_of_forall_notMem fun i hi => ?_⟩
      cases (hactive i).mp hi
    | cons index queue =>
      have hindex := (hactive index).mpr List.mem_cons_self
      obtain ⟨batch, hget⟩ : ∃ batch, packer.batches[index]? = some batch :=
        ⟨_, List.getElem?_eq_getElem (hp.known index hindex)⟩
      have hmem : batch ∈ packer.batches := List.mem_of_getElem? hget
      have hcard : packer.vertices.card = nodes.length := by
        unfold vertices
        rw [hp.same]
        exact List.toFinset_card_of_nodup hnodes
      have hstart : Growing nodes original rootItems index
          ⟨batch.vertices.sort (· ≤ ·), queue, packer⟩ :=
        ⟨hp, hnodup, hactive, fun v hv => by
          rw [reached_of_found hget]
          exact (Finset.mem_sort _).mp hv⟩
      have hturns : turns index ⟨batch.vertices.sort (· ≤ ·), queue, packer⟩ = nodes.length := by
        show (batch.vertices.sort (· ≤ ·)).length + (packer.vertices \ packer.reached index).card = _
        rw [reached_of_found hget, Finset.length_sort, ← hcard,
          Finset.card_sdiff_of_subset (hp.inside batch hmem)]
        have := Finset.card_le_card (hp.inside batch hmem)
        omega
      have hcount := hp.length_batches
      obtain ⟨g, hgrow, hg, hspan, hqueue⟩ := hstart.grow hflow fuel _ (fun u hu => Or.inl (by
        rw [reached_of_found hget] at hu
        exact (Finset.mem_sort _).mpr hu)) (by rw [hturns]; simp only [List.length_cons] at hfuel; omega)
      obtain ⟨grown, hgrown⟩ := hg.found
      have hactive' : ∀ i, i ∈ g.packer.active.erase index ↔ i ∈ g.queue := by
        intro i
        rw [Finset.mem_erase, hg.active i, List.mem_cons]
        have hnot := (List.nodup_cons.mp hg.queue).1
        constructor
        · rintro ⟨hne, rfl | hi⟩
          · exact absurd rfl hne
          · exact hi
        · exact fun hi => ⟨fun he => hnot (he ▸ hi), Or.inr hi⟩
      have hfuel' : g.queue.length + (rootItems.flatMap (·.2)).length + nodes.length + 2 ≤
          fuel + g.packer.batches.length := by
        have hqueue' : g.queue.length + packer.batches.length =
          queue.length + g.packer.batches.length := hqueue
        rw [List.length_cons] at hfuel
        omega
      obtain ⟨after, hdrain, hafter⟩ := ih g.queue
        { g.packer with active := g.packer.active.erase index } (hg.finished hspan)
        (List.nodup_cons.mp hg.queue).2 hactive' hfuel'
      refine ⟨after, ?_, hafter⟩
      have htree := hg.packed.tree grown (List.mem_of_getElem? hgrown)
      rw [reached_of_found hgrown] at hspan
      have hedges : grown.edges.length + 1 = g.packer.nodes.length := by
        rw [htree.length_edges, hspan]
        unfold vertices
        rw [hg.packed.same]
        exact List.toFinset_card_of_nodup hnodes
      unfold BatchPacker.drain
      rw [hget]
      simp only [Checked.required, Checked.bind_ok, Checked.ensure_ok]
      refine ⟨_, rfl, g, hgrow, ?_⟩
      rw [hgrown]
      exact ⟨grown, rfl, (), ⟨hspan, hedges⟩, hdrain⟩

/-! ## The packer that the constructor accepts -/

section Init

variable {nodes : List α} {capacities : Capacities α} {rootItems : Dict α (List β)}

/-- A sum over the places of a list. -/
theorem sum_range_getElem? {γ : Type} (f : γ → ℕ) (l : List γ) :
    ∑ i ∈ Finset.range l.length, (l[i]?.map f).getD 0 = (l.map f).sum := by
  induction l with
  | nil => rfl
  | cons a l ih =>
    rw [List.length_cons, Finset.sum_range_succ', List.map_cons, List.sum_cons, add_comm]
    simp only [List.getElem?_cons_succ, ih]
    rfl

/-- A sum over some keys of a dictionary. -/
theorem sum_get? {l : Dict α ℕ} (hl : l.Distinct) (X : Finset α) :
    ∑ k ∈ X, (l.get? k).getD 0 = (l.map fun e => if e.1 ∈ X then e.2 else 0).sum := by
  induction l with
  | nil => simp
  | cons e l ih =>
    obtain ⟨hnew, hl⟩ := List.nodup_cons.mp hl
    have hone : ∀ k ∈ X, (Dict.get? (e :: l) k).getD 0 =
        (if e.1 = k then e.2 else 0) + (Dict.get? l k).getD 0 := by
      intro k _
      rw [Dict.get?_cons]
      by_cases hk : e.1 = k
      · have : Dict.get? l k = none := Dict.get?_eq_none.mpr (hk ▸ hnew)
        rw [if_pos hk, if_pos hk, this]
        rfl
      · rw [if_neg hk, if_neg hk, zero_add]
    rw [Finset.sum_congr rfl hone, Finset.sum_add_distrib, ih hl, Finset.sum_ite_eq, List.map_cons,
      List.sum_cons]

omit [LinearOrder α] in
/-- The first batches have the roots and the items of their entries. -/
theorem first_kept (p : α → Bool) (l : List (α × List β)) (f : ℕ → α × List β → TreeBatch α β)
    (hf : ∀ i e, (f i e).root = e.1 ∧ (f i e).items = e.2) :
    ((l.mapIdx f).filter (p ·.root)).flatMap (·.items) = (l.filter (p ·.1)).flatMap (·.2) := by
  induction l generalizing f with
  | nil => rfl
  | cons e l ih =>
    rw [List.mapIdx_cons, List.filter_cons, List.filter_cons, (hf 0 e).1]
    have hrest := ih (fun i => f (i + 1)) fun i e => hf (i + 1) e
    split
    · rw [List.flatMap_cons, List.flatMap_cons, (hf 0 e).2, hrest]
    · exact hrest

omit [LinearOrder α] in
/-- Entries without items have no items. -/
theorem flatMap_filter_nonempty [DecidableEq β] (p : α → Bool) (l : Dict α (List β)) :
    ((l.filter fun e => e.2 ≠ []).filter (p ·.1)).flatMap (·.2) =
      (l.filter (p ·.1)).flatMap (·.2) := by
  induction l with
  | nil => rfl
  | cons e l ih =>
    by_cases he : e.2 = [] <;> by_cases hp : p e.1 = true <;>
      simp_all

/-- **The constructor establishes the invariant.** -/
theorem init_packed [DecidableEq β] (hflow : maximumFlowValue.Exact)
    (hdistinct : rootItems.Distinct) {packer : BatchPacker α β}
    (hinit : init maximumFlowValue nodes capacities rootItems = .ok packer) :
    packer.Packed nodes capacities rootItems ∧ nodes.Nodup ∧ (rootItems.flatMap (·.2)).Nodup := by
  unfold init at hinit
  simp only [Checked.bind_ok, Checked.ensure_ok, Checked.pure_ok] at hinit
  obtain ⟨_, ⟨hne, hnodup⟩, _, ⟨-, hitems⟩, feasible, hfeasible, _, rfl, rfl⟩ := hinit
  set entries : Dict α (List β) := rootItems.filter fun entry => entry.2 ≠ [] with hentries
  set sorted := entries.mergeSort (fun a b => a.1 ≤ b.1) with hsorted
  have hperm : sorted.Perm entries := List.mergeSort_perm _ _
  have hall : entries.flatMap (·.2) = rootItems.flatMap (·.2) := by
    have := flatMap_filter_nonempty (fun _ => true) rootItems
    rw [List.filter_true, List.filter_true] at this
    exact this
  have hchecks := hfeasible
  unfold rootedCutFeasible at hchecks
  simp only [Checked.bind_ok] at hchecks
  obtain ⟨_, hgraph, _, hroots, -⟩ := hchecks
  rw [checkGraph_ok] at hgraph
  rw [Checked.forM_ok] at hroots
  have hroot : ∀ entry ∈ sorted, entry.1 ∈ nodes := by
    intro entry he
    have := hroots (entry.1, entry.2.length) (List.mem_map.mpr ⟨entry, hperm.mem_iff.mp he, rfl⟩)
    exact (Checked.ensure_ok.mp this).1
  have hsome : ∀ entry ∈ sorted, entry.2 ≠ [] := by
    intro entry he
    simpa using (List.mem_filter.mp (hperm.mem_iff.mp he)).2
  have hget : ∀ i : ℕ, (sorted.mapIdx TreeBatch.first)[i]? = sorted[i]?.map (TreeBatch.first i) :=
    fun i => List.getElem?_mapIdx
  have hbatch : ∀ batch ∈ sorted.mapIdx TreeBatch.first, ∃ i, ∃ entry ∈ sorted,
      batch = TreeBatch.first i entry := by
    intro batch hb
    obtain ⟨i, hi⟩ := List.mem_iff_getElem?.mp hb
    rw [hget i] at hi
    obtain ⟨entry, he, rfl⟩ := Option.map_eq_some_iff.mp hi
    exact ⟨i, entry, List.mem_of_getElem? he, rfl⟩
  refine ⟨?_, hnodup, hall ▸ hitems⟩
  refine
    { same := rfl
      listed := fun item => by rw [List.mem_toFinset, hall]
      linked := hgraph
      known := fun i hi => Finset.mem_range.mp hi
      tree := fun batch hb => ?_
      inside := fun batch hb => ?_
      nonempty := fun batch hb => ?_
      done := fun i hi batch hb => ?_
      rooted := fun X hX hX' => ?_
      kept := fun p => ?_
      used := fun u v => ?_ }
  · obtain ⟨i, entry, -, rfl⟩ := hbatch batch hb
    exact Arborescence.single entry.1
  · obtain ⟨i, entry, he, rfl⟩ := hbatch batch hb
    exact Finset.singleton_subset_iff.mpr (List.mem_toFinset.mpr (hroot entry he))
  · obtain ⟨i, entry, he, rfl⟩ := hbatch batch hb
    exact hsome entry he
  · obtain ⟨hlt, -⟩ := List.getElem?_eq_some_iff.mp hb
    exact absurd (Finset.mem_range.mpr hlt) hi
  · have hcounts := rooted_of_feasible hflow hfeasible hX hX'
    have hkeys : Dict.Distinct (entries.map fun entry => (entry.1, entry.2.length)) := by
      unfold Dict.Distinct Dict.keys
      rw [List.map_map]
      exact hdistinct.sublist (List.filter_sublist.map _)
    rw [sum_get? hkeys] at hcounts
    have hlack : missing (Finset.range (sorted.mapIdx TreeBatch.first).length)
        (reached ⟨nodes, capacities, sorted.mapIdx TreeBatch.first, ∅, ∅⟩)
        (multiplicity ⟨nodes, capacities, sorted.mapIdx TreeBatch.first, ∅, ∅⟩) X =
        (sorted.map fun e => if e.1 ∈ X then 0 else e.2.length).sum := by
      rw [List.length_mapIdx, ← sum_range_getElem?]
      refine Finset.sum_congr rfl fun i _ => ?_
      unfold reached multiplicity
      rw [hget i]
      cases sorted[i]? with
      | none => simp
      | some entry =>
        show (if Disjoint {entry.1} X then entry.2.length else 0) = if entry.1 ∈ X then 0 else _
        by_cases hm : entry.1 ∈ X <;> simp [hm]
    have hsplit : (sorted.map fun e => if e.1 ∈ X then 0 else e.2.length).sum +
        (entries.map fun e => if e.1 ∈ X then e.2.length else 0).sum =
        (entries.map fun e => e.2.length).sum := by
      rw [(hperm.map _).sum_eq, ← List.sum_map_add]
      refine congrArg List.sum (List.map_congr_left fun e _ => ?_)
      split <;> omega
    have hvalues : Dict.values (entries.map fun entry => (entry.1, entry.2.length)) =
        entries.map fun e => e.2.length := by
      unfold Dict.values
      rw [List.map_map]
      rfl
    have hinside : ((entries.map fun entry => (entry.1, entry.2.length)).map
        fun e => if e.1 ∈ X then e.2 else 0) = entries.map fun e => if e.1 ∈ X then e.2.length else 0 := by
      rw [List.map_map]
      rfl
    rw [hvalues, hinside] at hcounts
    refine le_trans (le_of_eq hlack) ?_
    show _ ≤ inflow nodes.toFinset capacities.room X
    omega
  · rw [first_kept p sorted TreeBatch.first fun _ _ => ⟨rfl, rfl⟩]
    exact ((hperm.filter _).flatMap_right _).trans (.of_eq (flatMap_filter_nonempty p rootItems))
  · have hzero : ∀ n ∈ (sorted.mapIdx TreeBatch.first).map
        (fun batch : TreeBatch α β => if (u, v) ∈ batch.edges then batch.multiplicity else 0),
        n = 0 := by
      intro n hn
      obtain ⟨batch, hb, rfl⟩ := List.mem_map.mp hn
      obtain ⟨i, entry, -, rfl⟩ := hbatch batch hb
      rfl
    unfold load
    rw [List.sum_eq_zero hzero]
    exact zero_add _

/-! ## What `finish` returns -/

/-- An extension that is asked for from outside keeps the invariant. -/
theorem Packed.extend (hflow : maximumFlowValue.Exact) {packer : BatchPacker α β}
    (hp : packer.Packed nodes capacities rootItems) {b : ℕ} {src dst : α}
    {result : Extension × BatchPacker α β}
    (h : packer.extend maximumFlowValue b src dst = .ok result) :
    result.2.Packed nodes capacities rootItems := by
  cases hb : packer.batches[b]? with
  | none =>
    unfold BatchPacker.extend extensionAmount at h
    rw [hb] at h
    cases h
  | some batch =>
    obtain ⟨amount, hamount, hextends, -⟩ := hp.extensionAmount_spec hflow hb src dst
    by_cases hzero : amount = 0
    · rw [extend_zero (hzero ▸ hamount)] at h
      obtain rfl := Except.ok.inj h
      exact hp
    · rw [extend_pos hamount hzero hb] at h
      obtain rfl := Except.ok.inj h
      exact (hextends hzero).packed hp

theorem Packed.calls (hflow : maximumFlowValue.Exact) {packer after : BatchPacker α β}
    (hp : packer.Packed nodes capacities rootItems) {calls : List (Call α)}
    (h : packer.calls maximumFlowValue calls = .ok after) :
    after.Packed nodes capacities rootItems := by
  refine Checked.foldlM_invariant (fun p : BatchPacker α β => p.Packed nodes capacities rootItems)
    (fun p call p' _ hp h => ?_) hp h
  obtain ⟨result, hresult, rfl⟩ := Checked.map_ok.mp h
  exact hp.extend hflow hresult

/-- An extension of a batch that exists does not raise. -/
theorem Packed.extend_total (hflow : maximumFlowValue.Exact) {packer : BatchPacker α β}
    (hp : packer.Packed nodes capacities rootItems) {b : ℕ} (hb : b < packer.batches.length)
    (src dst : α) : ∃ result, packer.extend maximumFlowValue b src dst = .ok result := by
  have hget := List.getElem?_eq_getElem hb
  obtain ⟨amount, hamount, -⟩ := hp.extensionAmount_spec hflow hget src dst
  by_cases hzero : amount = 0
  · exact ⟨_, extend_zero (hzero ▸ hamount)⟩
  · exact ⟨_, extend_pos hamount hzero hget⟩

/-- The trees carry the items: each batch has a spanning tree out of its root, every root
keeps its items, and no link carries more than its capacity. -/
structure Carried (nodes : List α) (capacities : Capacities α) (rootItems : Dict α (List β))
    (batches : List (TreeBatch α β)) : Prop where
  items : (batches.flatMap (·.items)).Perm (rootItems.flatMap (·.2))
  distinct : (batches.flatMap (·.items)).Nodup
  roots : ∀ root, ((batches.filter (·.root = root)).flatMap (·.items)).Perm
    ((rootItems.get? root).getD [])
  trees : ∀ batch ∈ batches, Arborescence nodes.toFinset batch.root batch.edges
  links : ∀ u v, (((batches.map fun batch =>
    if (u, v) ∈ batch.edges then batch.multiplicity else 0).sum : ℕ) : ℤ) ≤ capacities.at u v

/-- The items of a root in a dictionary. -/
theorem filter_root (hdistinct : rootItems.Distinct) (root : α) :
    (rootItems.filter fun e => decide (e.1 = root)).flatMap (·.2) = (rootItems.get? root).getD [] := by
  induction rootItems with
  | nil => rfl
  | cons e l ih =>
    obtain ⟨hnew, hl⟩ := List.nodup_cons.mp hdistinct
    rw [List.filter_cons, Dict.get?_cons]
    by_cases he : e.1 = root
    · have hnone : Dict.get? l root = none := Dict.get?_eq_none.mpr (he ▸ hnew)
      have hrest := ih hl
      rw [hnone] at hrest
      rw [if_pos he, if_pos (decide_eq_true he), List.flatMap_cons, hrest]
      exact List.append_nil _
    · rw [if_neg he, if_neg (by simpa using he)]
      exact ih hl

/-- **The batches of a packer without active batches carry the items.** -/
theorem Packed.carried {packer : BatchPacker α β} (hp : packer.Packed nodes capacities rootItems)
    (hempty : packer.active = ∅) (hdistinct : rootItems.Distinct)
    (hitems : (rootItems.flatMap (·.2)).Nodup) :
    Carried nodes capacities rootItems packer.batches := by
  have hall : (packer.batches.flatMap (·.items)).Perm (rootItems.flatMap (·.2)) := by
    have := hp.kept fun _ => true
    rw [List.filter_true, List.filter_true] at this
    exact this
  refine ⟨hall, hall.nodup_iff.mpr hitems, fun root => ?_, fun batch hb => ?_, fun u v => ?_⟩
  · rw [← filter_root hdistinct root]
    exact hp.kept fun r => decide (r = root)
  · obtain ⟨i, hi⟩ := List.mem_iff_getElem?.mp hb
    have hspan := hp.done i (by rw [hempty]; exact Finset.notMem_empty i) batch hi
    have htree := hp.tree batch hb
    rw [hspan] at htree
    unfold vertices at htree
    rw [hp.same] at htree
    exact htree
  · have hused := hp.used u v
    have hroom : 0 ≤ packer.capacities.at u v := by
      by_cases hzero : packer.capacities.at u v = 0
      · rw [hzero]
      · exact (hp.linked.joins hzero).2.2.2.le
    unfold load at hused
    omega

/-- **`finish` ends** with a packer without active batches. -/
theorem Packed.finish [DecidableEq β] (hflow : maximumFlowValue.Exact) {packer : BatchPacker α β}
    (hp : packer.Packed nodes capacities rootItems) (hnodes : nodes.Nodup)
    (hdistinct : rootItems.Distinct) (hitems : (rootItems.flatMap (·.2)).Nodup) :
    ∃ fuel, ∀ more ≥ fuel, ∃ after : BatchPacker α β,
      packer.finish maximumFlowValue more = .ok after.batches ∧
      after.Packed nodes capacities rootItems ∧ after.active = ∅ := by
  refine ⟨packer.active.card + (rootItems.flatMap (·.2)).length + nodes.length + 2,
    fun more hmore => ?_⟩
  obtain ⟨after, hdrain, hafter, hempty⟩ := hp.drain hflow hnodes more
    (packer.active.sort (· ≤ ·)) packer (Finset.sort_nodup _ _) (fun i => (Finset.mem_sort _).symm)
    (by rw [Finset.length_sort]; omega)
  have hcarried := hafter.carried hempty hdistinct hitems
  refine ⟨after, ?_, hafter, hempty⟩
  unfold BatchPacker.finish
  simp only [Checked.bind_ok, Checked.ensure_ok, Checked.pure_ok]
  have hset : (after.batches.flatMap (·.items)).toFinset = after.originalItems := by
    ext item
    rw [List.mem_toFinset, hcarried.items.mem_iff, hafter.listed]
  refine ⟨after, hdrain, (), ⟨hset, ?_⟩, rfl⟩
  rw [← hset]
  exact (List.toFinset_card_of_nodup hcarried.distinct).symm

/-- **Batched branching is complete.**  From every packer that the constructor accepts, after
any calls of `extend`: the residual cut condition holds, no extension of a batch raises, and
`finish` returns batches whose trees carry the items. -/
theorem finish_carries [DecidableEq β] (maximumFlowValue : MaximumFlowValue α)
    (hflow : maximumFlowValue.Exact) (nodes : List α) (capacities : Capacities α)
    (rootItems : Dict α (List β)) (hdistinct : rootItems.Distinct) (accepted : BatchPacker α β)
    (hinit : init maximumFlowValue nodes capacities rootItems = .ok accepted)
    (calls : List (Call α)) (packer : BatchPacker α β)
    (hcalls : accepted.calls maximumFlowValue calls = .ok packer) :
    Rooted nodes.toFinset packer.capacities.room packer.active packer.reached packer.multiplicity ∧
    (∀ b < packer.batches.length, ∀ src dst,
      ∃ result, packer.extend maximumFlowValue b src dst = .ok result) ∧
    ∃ fuel, ∀ more ≥ fuel, ∃ batches, packer.finish maximumFlowValue more = .ok batches ∧
      Carried nodes capacities rootItems batches := by
  obtain ⟨haccepted, hnodes, hitems⟩ := init_packed hflow hdistinct hinit
  have hp := haccepted.calls hflow hcalls
  refine ⟨?_, fun b hb src dst => hp.extend_total hflow hb src dst, ?_⟩
  · have hrooted := hp.rooted
    unfold vertices at hrooted
    rw [hp.same] at hrooted
    exact hrooted
  · obtain ⟨fuel, hfinish⟩ := hp.finish hflow hnodes hdistinct hitems
    refine ⟨fuel, fun more hmore => ?_⟩
    obtain ⟨after, hbatches, hafter, hempty⟩ := hfinish more hmore
    exact ⟨after.batches, hbatches, hafter.carried hempty hdistinct hitems⟩

end Init

/-! ## Two items that part -/

/-- Three nodes; two links out of node 0 carry one item each. -/
def sampleCapacities : Capacities ℕ := [((0, 1), 1), ((0, 2), 1), ((1, 2), 1), ((2, 1), 1)]

/-- The smallest cut of a network, as `nx.maximum_flow_value`. -/
def smallestCut : MaximumFlowValue ℕ := fun network s t => network.minimumCut s t

theorem smallestCut_exact : smallestCut.Exact := fun network _ _ hs _ hne =>
  network.minimumCut_isMaximumFlow hs hne

/-- Two items of node 0 travel along two trees. -/
theorem finish_carries_sample : ∃ accepted : BatchPacker ℕ String,
    init smallestCut [0, 1, 2] sampleCapacities [(0, ["a", "b"])] = .ok accepted ∧
    ∃ fuel, ∀ more ≥ fuel, ∃ batches, accepted.finish smallestCut more = .ok batches ∧
      Carried [0, 1, 2] sampleCapacities [(0, ["a", "b"])] batches := by
  have haccepted : (init (β := String) smallestCut [0, 1, 2] sampleCapacities
      [(0, ["a", "b"])]).isOk = true := by
    decide +kernel
  obtain ⟨accepted, h⟩ : ∃ accepted : BatchPacker ℕ String,
      init smallestCut [0, 1, 2] sampleCapacities [(0, ["a", "b"])] = .ok accepted := by
    cases h : init (β := String) smallestCut [0, 1, 2] sampleCapacities [(0, ["a", "b"])] with
    | error e =>
      rw [h] at haccepted
      cases haccepted
    | ok accepted => exact ⟨accepted, rfl⟩
  exact ⟨accepted, h, (finish_carries smallestCut smallestCut_exact [0, 1, 2] sampleCapacities
    [(0, ["a", "b"])] (by decide) accepted h [] accepted rfl).2.2⟩

end VeriCCL.BatchPacker
