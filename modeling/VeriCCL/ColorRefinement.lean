import Mathlib.Data.List.Sort
import Mathlib.Data.Prod.Lex
import Mathlib.Data.Vector.Basic
import Mathlib.Data.String.Basic
import Mathlib.Data.List.Lex
import Mathlib.Data.Fintype.Fin
import Mathlib.Algebra.BigOperators.Fin
import Mathlib.Algebra.Order.BigOperators.Group.Finset

/-! # Color refinement

`_refine_colors` of `topology/isomorphism.py`.  A turn gives every vertex the rank of its color
together with the colors of its neighbors (`refineStep`).  Ranks say nothing about the numbering
of the vertices, so refinement commutes with every renaming (`refineColors_renamed`).  From the
second turn on colors only grow, so the loop ends (`refineColors_fixed`). -/
namespace VeriCCL

/-! ## Ranks -/

section Rank
variable {α β : Type} [LinearOrder α] [LinearOrder β] {items items' : List α} {a b : α}

/-- Lists with the same elements are sorted alike. -/
theorem insertionSort_congr (h : items.Perm items') :
    items.insertionSort (· ≤ ·) = items'.insertionSort (· ≤ ·) :=
  ((List.perm_insertionSort _ _).trans (h.trans (List.perm_insertionSort _ _).symm)).eq_of_pairwise
    (fun _ _ _ _ => le_antisymm) (List.pairwise_insertionSort _ _) (List.pairwise_insertionSort _ _)

/-- `palette[a]`: the index of an item among the sorted different items. -/
def paletteRank (items : List α) (a : α) : ℕ := (items.dedup.insertionSort (· ≤ ·)).idxOf a

/-- In a sorted list of different items an item comes after those that are less. -/
theorem idxOf_sorted {l : List α} (hl : l.Pairwise (· < ·)) (ha : a ∈ l) :
    l.idxOf a = (l.toFinset.filter (· < a)).card := by
  obtain ⟨before, after, rfl⟩ := List.append_of_mem ha
  obtain ⟨hbefore, hafter, hless⟩ := List.pairwise_append.mp hl
  have hnew : a ∉ before := fun hmem => lt_irrefl a (hless a hmem a List.mem_cons_self)
  have hfilter : (before ++ a :: after).toFinset.filter (· < a) = before.toFinset := by
    ext x
    simp only [Finset.mem_filter, List.mem_toFinset, List.mem_append, List.mem_cons]
    constructor
    · rintro ⟨hx | rfl | hx, hlt⟩
      · exact hx
      · exact absurd hlt (lt_irrefl _)
      · exact absurd hlt ((List.rel_of_pairwise_cons hafter hx).not_gt)
    · exact fun hx => ⟨.inl hx, hless x hx a List.mem_cons_self⟩
  rw [hfilter, List.toFinset_card_of_nodup (hbefore.imp ne_of_lt), List.idxOf_append_of_notMem hnew,
    List.idxOf_cons_self, add_zero]

/-- **The rank of an item is the number of different items that are less.** -/
theorem paletteRank_eq_card (ha : a ∈ items) :
    paletteRank items a = (items.toFinset.filter (· < a)).card := by
  have hperm := List.perm_insertionSort (· ≤ ·) items.dedup
  have hnodup : (items.dedup.insertionSort (· ≤ ·)).Nodup := hperm.nodup_iff.mpr items.nodup_dedup
  have hsorted : (items.dedup.insertionSort (· ≤ ·)).Pairwise (· < ·) :=
    ((List.pairwise_insertionSort _ _).and hnodup).imp fun h => lt_of_le_of_ne h.1 h.2
  have hitems : (items.dedup.insertionSort (· ≤ ·)).toFinset = items.toFinset := by
    ext x
    simp [hperm.mem_iff]
  rw [paletteRank, idxOf_sorted hsorted (hperm.mem_iff.mpr (List.mem_dedup.mpr ha)), hitems]

/-- The rank of an item depends on which items there are. -/
theorem paletteRank_congr (h : ∀ x, x ∈ items ↔ x ∈ items') : paletteRank items = paletteRank items' := by
  funext a
  have hperm : items.dedup.Perm items'.dedup :=
    (List.perm_ext_iff_of_nodup items.nodup_dedup items'.nodup_dedup).mpr fun x => by simp [h]
  rw [paletteRank, paletteRank, insertionSort_congr hperm]

/-- **Ranks are in the order of the items.** -/
theorem paletteRank_lt (ha : a ∈ items) (hb : b ∈ items) : paletteRank items a < paletteRank items b ↔ a < b := by
  have hless : ∀ {a b}, a ∈ items → b ∈ items → a < b → paletteRank items a < paletteRank items b := by
    intro a b ha hb hab
    rw [paletteRank_eq_card ha, paletteRank_eq_card hb]
    refine Finset.card_lt_card (Finset.ssubset_iff_of_subset (fun x hx => ?_) |>.mpr ⟨a, ?_, ?_⟩)
    · exact Finset.mem_filter.mpr ⟨(Finset.mem_filter.mp hx).1, (Finset.mem_filter.mp hx).2.trans hab⟩
    · exact Finset.mem_filter.mpr ⟨List.mem_toFinset.mpr ha, hab⟩
    · exact fun hx => lt_irrefl a (Finset.mem_filter.mp hx).2
  refine ⟨fun h => ?_, hless ha hb⟩
  by_contra hle
  obtain heq | hlt := (not_lt.mp hle).eq_or_lt
  · exact absurd h (heq ▸ lt_irrefl _)
  · exact absurd h (hless hb ha hlt).not_gt

theorem paletteRank_inj (ha : a ∈ items) (hb : b ∈ items) (h : paletteRank items a = paletteRank items b) :
    a = b := by
  refine le_antisymm (not_lt.mp fun hlt => ?_) (not_lt.mp fun hlt => ?_)
  · exact absurd ((paletteRank_lt hb ha).mpr hlt) (h ▸ lt_irrefl _)
  · exact absurd ((paletteRank_lt ha hb).mpr hlt) (h ▸ lt_irrefl _)

end Rank

/-! ## The loop -/

/-- A directed edge with a label. -/
structure GraphEdge (ℓ : Type) (n : ℕ) where
  src : Fin n
  dst : Fin n
  label : ℓ
  deriving DecidableEq

/-- An edge between the renamed vertices. -/
def GraphEdge.map {ℓ : Type} {n m : ℕ} (f : Fin n → Fin m) (e : GraphEdge ℓ n) : GraphEdge ℓ m :=
  ⟨f e.src, f e.dst, e.label⟩

/-- The colors of the vertices, as they are numbered. -/
abbrev Coloring (n : ℕ) := List.Vector ℕ n

section Refine
variable {ℓ : Type} [LinearOrder ℓ] {n m : ℕ} (edges : List (GraphEdge ℓ n))

/-- `sorted((label, refined[dst]) for label, dst in outgoing[vertex])`. -/
def outgoingColors (c : Coloring n) (v : Fin n) : List (ℓ ×ₗ ℕ) :=
  ((edges.filter (·.src = v)).map fun e => toLex (e.label, c.get e.dst)).insertionSort (· ≤ ·)

/-- `sorted((label, refined[src]) for label, src in incoming[vertex])`. -/
def incomingColors (c : Coloring n) (v : Fin n) : List (ℓ ×ₗ ℕ) :=
  ((edges.filter (·.dst = v)).map fun e => toLex (e.label, c.get e.src)).insertionSort (· ≤ ·)

/-- The signature of a vertex: its color and those of its neighbors. -/
def vertexSignature (c : Coloring n) (v : Fin n) : ℕ ×ₗ List (ℓ ×ₗ ℕ) ×ₗ List (ℓ ×ₗ ℕ) :=
  toLex (c.get v, toLex (outgoingColors edges c v, incomingColors edges c v))

/-- `updated`: the ranks of the signatures. -/
def refineStep (c : Coloring n) : Coloring n :=
  let signatures := List.Vector.ofFn (vertexSignature edges c)
  signatures.map (paletteRank signatures.toList)

/-- The loop, for a number of turns. -/
def refineLoop : ℕ → Coloring n → Coloring n
  | 0, c => c
  | turns + 1, c =>
    let updated := refineStep edges c
    if updated = c then c else refineLoop turns updated

/-- `_refine_colors`: the sum of the colors grows in every turn but the first and the last. -/
def refineColors (c : Coloring n) : Coloring n := refineLoop edges (n * n + 2) c

variable {edges} {edges' : List (GraphEdge ℓ m)} {c : Coloring n} {d : Coloring m} {e : Fin n ≃ Fin m}

theorem refineStep_get (v : Fin n) : (refineStep edges c).get v =
    paletteRank (List.ofFn (vertexSignature edges c)) (vertexSignature edges c v) := by
  rw [refineStep, List.Vector.get_map, List.Vector.get_ofFn, List.Vector.toList_ofFn]

theorem mem_signatures (v : Fin n) : vertexSignature edges c v ∈ List.ofFn (vertexSignature edges c) :=
  List.mem_ofFn.mpr ⟨v, rfl⟩

/-! ## Renaming -/

/-- Colors of renamed vertices. -/
def Renamed (e : Fin n ≃ Fin m) (c : Coloring n) (d : Coloring m) : Prop := ∀ v, d.get (e v) = c.get v

theorem outgoingColors_renamed (hedges : edges'.Perm (edges.map (GraphEdge.map e))) (h : Renamed e c d)
    (v : Fin n) : outgoingColors edges' d (e v) = outgoingColors edges c v := by
  refine insertionSort_congr ?_
  refine ((hedges.filter _).map _).trans (List.Perm.of_eq ?_)
  rw [List.filter_map, List.map_map]
  refine (congrArg (List.map _) (List.filter_congr fun x _ => ?_)).trans (List.map_congr_left fun x _ => ?_)
  · exact decide_eq_decide.mpr e.injective.eq_iff
  · exact congrArg (fun color => toLex (x.label, color)) (h x.dst)

theorem incomingColors_renamed (hedges : edges'.Perm (edges.map (GraphEdge.map e))) (h : Renamed e c d)
    (v : Fin n) : incomingColors edges' d (e v) = incomingColors edges c v := by
  refine insertionSort_congr ?_
  refine ((hedges.filter _).map _).trans (List.Perm.of_eq ?_)
  rw [List.filter_map, List.map_map]
  refine (congrArg (List.map _) (List.filter_congr fun x _ => ?_)).trans (List.map_congr_left fun x _ => ?_)
  · exact decide_eq_decide.mpr e.injective.eq_iff
  · exact congrArg (fun color => toLex (x.label, color)) (h x.src)

theorem vertexSignature_renamed (hedges : edges'.Perm (edges.map (GraphEdge.map e))) (h : Renamed e c d)
    (v : Fin n) : vertexSignature edges' d (e v) = vertexSignature edges c v := by
  rw [vertexSignature, vertexSignature, outgoingColors_renamed hedges h, incomingColors_renamed hedges h, h v]

/-- **A turn commutes with renaming.** -/
theorem refineStep_renamed (hedges : edges'.Perm (edges.map (GraphEdge.map e))) (h : Renamed e c d) :
    Renamed e (refineStep edges c) (refineStep edges' d) := by
  intro v
  have hsame : ∀ x, x ∈ List.ofFn (vertexSignature edges' d) ↔ x ∈ List.ofFn (vertexSignature edges c) := by
    intro x
    rw [List.mem_ofFn, List.mem_ofFn]
    constructor
    · rintro ⟨w, rfl⟩
      refine ⟨e.symm w, ?_⟩
      rw [← vertexSignature_renamed hedges h, Equiv.apply_symm_apply]
    · rintro ⟨v, rfl⟩
      exact ⟨e v, vertexSignature_renamed hedges h v⟩
  rw [refineStep_get, refineStep_get, vertexSignature_renamed hedges h, paletteRank_congr hsame]

/-- Renamed colorings are equal together. -/
theorem Renamed.eq_iff {c' : Coloring n} {d' : Coloring m} (h : Renamed e c d) (h' : Renamed e c' d') :
    d = d' ↔ c = c' := by
  constructor
  · rintro rfl
    exact List.Vector.ext fun v => (h v).symm.trans (h' v)
  · rintro rfl
    refine List.Vector.ext fun w => ?_
    rw [← e.apply_symm_apply w, h, h']

theorem refineLoop_renamed (hedges : edges'.Perm (edges.map (GraphEdge.map e))) (turns : ℕ)
    (h : Renamed e c d) : Renamed e (refineLoop edges turns c) (refineLoop edges' turns d) := by
  induction turns generalizing c d with
  | zero => exact h
  | succ turns ih =>
    have hnext := refineStep_renamed hedges h
    simp only [refineLoop]
    by_cases hdone : refineStep edges c = c
    · rw [if_pos hdone, if_pos ((hnext.eq_iff h).mpr hdone)]
      exact h
    · rw [if_neg hdone, if_neg ((hnext.eq_iff h).not.mpr hdone)]
      exact ih hnext

/-- **Refinement commutes with renaming.** -/
theorem refineColors_renamed (hedges : edges'.Perm (edges.map (GraphEdge.map e))) (h : Renamed e c d) :
    Renamed e (refineColors edges c) (refineColors edges' d) := by
  have hsize : n = m := by simpa using Fintype.card_congr e
  have hturns : n * n + 2 = m * m + 2 := by rw [hsize]
  rw [refineColors, refineColors, ← hturns]
  exact refineLoop_renamed hedges _ h

/-! ## The end of the loop -/

/-- Colors are the ranks of the colors that occur. -/
def Ranked (c : Coloring n) : Prop :=
  ∀ v, c.get v = ((Finset.univ.image c.get).filter (· < c.get v)).card

theorem refineStep_card (v : Fin n) : (refineStep edges c).get v =
    ((Finset.univ.image (vertexSignature edges c)).filter (· < vertexSignature edges c v)).card := by
  have hset : (List.ofFn (vertexSignature edges c)).toFinset = Finset.univ.image (vertexSignature edges c) := by
    ext x
    simp
  rw [refineStep_get, paletteRank_eq_card (mem_signatures v), hset]

theorem refineStep_lt_iff (u v : Fin n) : (refineStep edges c).get u < (refineStep edges c).get v ↔
    vertexSignature edges c u < vertexSignature edges c v := by
  rw [refineStep_get, refineStep_get, paletteRank_lt (mem_signatures u) (mem_signatures v)]

/-- A turn only splits classes. -/
theorem refineStep_refines {u v : Fin n} (h : (refineStep edges c).get u = (refineStep edges c).get v) :
    c.get u = c.get v := by
  rw [refineStep_get, refineStep_get] at h
  exact congrArg (fun s => (ofLex s).1) (paletteRank_inj (mem_signatures u) (mem_signatures v) h)

theorem ranked_refineStep : Ranked (refineStep edges c) := by
  intro v
  have himage : (Finset.univ.image (refineStep edges c).get).filter (· < (refineStep edges c).get v) =
      ((Finset.univ.image (vertexSignature edges c)).filter (· < vertexSignature edges c v)).image
        (paletteRank (List.ofFn (vertexSignature edges c))) := by
    ext color
    simp only [Finset.mem_filter, Finset.mem_image, Finset.mem_univ, true_and]
    constructor
    · rintro ⟨⟨u, rfl⟩, hlt⟩
      exact ⟨_, ⟨⟨u, rfl⟩, (refineStep_lt_iff u v).mp hlt⟩, (refineStep_get u).symm⟩
    · rintro ⟨_, ⟨⟨u, rfl⟩, hlt⟩, rfl⟩
      rw [← refineStep_get]
      exact ⟨⟨u, rfl⟩, (refineStep_lt_iff u v).mpr hlt⟩
  rw [himage, Finset.card_image_of_injOn, ← refineStep_card]
  intro x hx y hy heq
  obtain ⟨u, -, rfl⟩ := Finset.mem_image.mp (Finset.mem_filter.mp hx).1
  obtain ⟨w, -, rfl⟩ := Finset.mem_image.mp (Finset.mem_filter.mp hy).1
  exact paletteRank_inj (mem_signatures u) (mem_signatures w) heq

/-- **Colors that are ranks only grow.** -/
theorem le_refineStep (h : Ranked c) (v : Fin n) : c.get v ≤ (refineStep edges c).get v := by
  rw [h v, refineStep_card]
  refine Finset.card_le_card_of_surjOn (fun s => (ofLex s).1) fun color hcolor => ?_
  obtain ⟨hmem, hlt⟩ := Finset.mem_filter.mp (Finset.mem_coe.mp hcolor)
  obtain ⟨u, -, rfl⟩ := Finset.mem_image.mp hmem
  refine ⟨vertexSignature edges c u, Finset.mem_coe.mpr (Finset.mem_filter.mpr ⟨?_, ?_⟩), rfl⟩
  · exact Finset.mem_image_of_mem _ (Finset.mem_univ u)
  · exact Prod.Lex.lt_iff.mpr (.inl hlt)

theorem refineStep_lt (v : Fin n) : (refineStep edges c).get v < n := by
  have hmem := Finset.mem_image_of_mem (vertexSignature edges c) (Finset.mem_univ v)
  calc (refineStep edges c).get v
      = ((Finset.univ.image (vertexSignature edges c)).filter (· < vertexSignature edges c v)).card :=
        refineStep_card v
    _ < (Finset.univ.image (vertexSignature edges c)).card :=
        Finset.card_lt_card (Finset.filter_ssubset.mpr ⟨_, hmem, lt_irrefl _⟩)
    _ ≤ Finset.univ.card := Finset.card_image_le
    _ = n := Finset.card_fin n

theorem sum_le (h : Ranked c) (edges : List (GraphEdge ℓ n)) : ∑ v, c.get v ≤ n * n := by
  calc ∑ v, c.get v ≤ ∑ _v : Fin n, n :=
        Finset.sum_le_sum fun v _ =>
          have hle : c.get v ≤ (refineStep edges c).get v := le_refineStep h v
          hle.trans (refineStep_lt v).le
    _ = n * n := by simp

theorem refineLoop_fixed (turns : ℕ) (h : Ranked c) (hturns : n * n < turns + ∑ v, c.get v) :
    refineStep edges (refineLoop edges turns c) = refineLoop edges turns c := by
  induction turns generalizing c with
  | zero =>
    have hle := sum_le h edges
    omega
  | succ turns ih =>
    simp only [refineLoop]
    by_cases hdone : refineStep edges c = c
    · rw [if_pos hdone, hdone]
    · rw [if_neg hdone]
      refine ih ranked_refineStep ?_
      obtain ⟨v, hv⟩ : ∃ v, c.get v ≠ (refineStep edges c).get v := by
        by_contra hall
        exact hdone (List.Vector.ext fun v => (not_not.mp (not_exists.mp hall v)).symm)
      have hgrows : ∑ v, c.get v < ∑ v, (refineStep edges c).get v :=
        Finset.sum_lt_sum (fun v _ => le_refineStep h v)
          ⟨v, Finset.mem_univ v, lt_of_le_of_ne (le_refineStep h v) hv⟩
      omega

/-- **The loop ends**: another turn changes nothing. -/
theorem refineColors_fixed (edges : List (GraphEdge ℓ n)) (c : Coloring n) :
    refineStep edges (refineColors edges c) = refineColors edges c := by
  rw [refineColors, refineLoop]
  by_cases hdone : refineStep edges c = c
  · rw [if_pos hdone, hdone]
  · rw [if_neg hdone]
    exact refineLoop_fixed _ ranked_refineStep (by omega)

/-- Refinement only splits classes. -/
theorem refineColors_refines {u v : Fin n} (h : (refineColors edges c).get u = (refineColors edges c).get v) :
    c.get u = c.get v := by
  have hloop : ∀ turns (c : Coloring n), (refineLoop edges turns c).get u = (refineLoop edges turns c).get v →
      c.get u = c.get v := by
    intro turns
    induction turns with
    | zero => exact fun _ h => h
    | succ turns ih =>
      intro c h
      simp only [refineLoop] at h
      split at h
      · exact h
      · exact refineStep_refines (ih _ h)
  exact hloop _ c h

end Refine

end VeriCCL
