import VeriCCL.Kahn
import Mathlib.Data.List.MinMax

/-! # Ready vertices by their weight

Kahn's algorithm with a queue of least weight first visits what a repeated scan of all
vertices would take (`order_eq_scan`): of the vertices whose predecessors have all been
taken, the one of least weight.  The queue stays sorted and holds exactly the vertices that
the scan may take. -/
namespace VeriCCL.Kahn

variable {κ ι : Type} [DecidableEq κ] [LinearOrder ι]

section Scan
variable (keys : List κ) (preds : κ → Finset κ) (weight : κ → ι)

/-- The vertices that may be taken next. -/
def readyAfter (taken : List κ) : List κ :=
  keys.filter fun k => k ∉ taken ∧ ∀ p ∈ preds k, p ∈ taken

/-- The repeated scan: take the ready vertex of least weight. -/
def scan : ℕ → List κ → List κ
  | 0, taken => taken
  | n + 1, taken =>
    match (readyAfter keys preds taken).argmin weight with
    | none => taken
    | some k => scan n (taken ++ [k])

/-- Least weight first. -/
def lighter (a b : κ) : Bool := decide (weight a ≤ weight b)

end Scan

variable {keys : List κ} {preds : κ → Finset κ} {weight : κ → ι}

/-- The queue is sorted. -/
def Sorted (weight : κ → ι) (s : State κ) : Prop := s.ready.Pairwise fun a b => weight a ≤ weight b

omit [DecidableEq κ] in
theorem pairwise_priority {q : List κ} (h : q.Pairwise fun a b => weight a ≤ weight b) (k : κ) :
    (priority (lighter weight) k q).Pairwise fun a b => weight a ≤ weight b := by
  have hle : ∀ a b, lighter weight a b = true ↔ weight a ≤ weight b := fun a b => decide_eq_true_iff
  induction q with
  | nil => simp [priority]
  | cons x q ih =>
    obtain ⟨hx, hq⟩ := List.pairwise_cons.mp h
    unfold priority
    rw [List.orderedInsert_cons]
    split
    · next hk =>
      rw [hle] at hk
      refine List.pairwise_cons.mpr ⟨fun y hy => ?_, h⟩
      rcases List.mem_cons.mp hy with rfl | hy
      · exact hk
      · exact hk.trans (hx y hy)
    · next hk =>
      rw [hle, not_le] at hk
      refine List.pairwise_cons.mpr ⟨fun y hy => ?_, ih hq⟩
      have hy := (List.perm_orderedInsert _ k q).mem_iff.mp hy
      rcases List.mem_cons.mp hy with rfl | hy
      · exact hk.le
      · exact hx y hy

/-- Releases keep the queue sorted. -/
theorem Sorted.release {fs : List κ} {s : State κ} (h : Sorted weight s) :
    Sorted weight (fs.foldl (release (priority (lighter weight))) s) := by
  induction fs generalizing s with
  | nil => exact h
  | cons f fs ih =>
    refine ih ?_
    unfold Sorted Kahn.release
    dsimp only
    split
    · exact pairwise_priority h f
    · exact h

omit [DecidableEq κ] in
theorem Sorted.start : Sorted weight (start keys preds (priority (lighter weight))) := by
  unfold Sorted Kahn.start
  dsimp only
  have key : ∀ (l q : List κ), (q.Pairwise fun a b => weight a ≤ weight b) →
      (l.foldl (fun q k => priority (lighter weight) k q) q).Pairwise fun a b => weight a ≤ weight b := by
    intro l
    induction l with
    | nil => exact fun q hq => hq
    | cons k l ih => exact fun q hq => ih _ (pairwise_priority hq k)
  exact key _ [] List.Pairwise.nil

/-- **The queue holds what the scan may take.** -/
theorem Inv.mem_ready {s : State κ} (hs : Inv keys preds s) {k : κ} :
    k ∈ s.ready ↔ k ∈ readyAfter keys preds s.order := by
  have hcount : ∀ k ∈ keys, s.remaining k = 0 ↔ ∀ p ∈ preds k, p ∈ s.order := by
    intro k hk
    rw [hs.count k hk, Finset.card_eq_zero, Finset.filter_eq_empty_iff]
    exact forall₂_congr fun p _ => not_not
  rw [readyAfter, List.mem_filter, decide_eq_true_eq]
  constructor
  · intro hready
    have hk := hs.known k (List.mem_append_right _ hready)
    refine ⟨hk, fun horder => ?_, (hcount k hk).mp ((hs.reached k hk).mp (List.mem_append_right _ hready))⟩
    exact (List.nodup_append.mp hs.nodup).2.2 k horder k hready rfl
  · rintro ⟨hk, horder, hpreds⟩
    have hreached := (hs.reached k hk).mpr ((hcount k hk).mpr hpreds)
    exact (List.mem_append.mp hreached).resolve_left horder

omit [LinearOrder ι] in
/-- **A graph with a complete topological order has no cycle.** -/
theorem Topological.acyclic {given : List κ} (h : Topological preds given) (hnodup : given.Nodup)
    (hall : ∀ k ∈ keys, k ∈ given) (k : κ) :
    ¬ Relation.TransGen (fun p k => k ∈ keys ∧ p ∈ preds k) k k := by
  have hlt : ∀ p k, k ∈ keys ∧ p ∈ preds k → given.idxOf p < given.idxOf k := by
    rintro p k ⟨hk, hp⟩
    obtain ⟨l, r, rfl⟩ := List.mem_iff_append.mp (hall k hk)
    have hbefore := h l k r rfl p hp
    have hnot : k ∉ l := fun hmem =>
      (List.nodup_append.mp hnodup).2.2 k hmem k List.mem_cons_self rfl
    rw [List.idxOf_append_of_mem hbefore, List.idxOf_append_of_notMem hnot, List.idxOf_cons_self]
    exact (List.idxOf_lt_length_of_mem hbefore).trans_le (Nat.le_add_right _ _)
  have hpath : ∀ p k, Relation.TransGen (fun p k => k ∈ keys ∧ p ∈ preds k) p k →
      given.idxOf p < given.idxOf k := by
    intro p k hpath
    induction hpath with
    | single hstep => exact hlt _ _ hstep
    | tail _ hstep ih => exact ih.trans (hlt _ _ hstep)
  exact fun hcycle => lt_irrefl _ (hpath k k hcycle)

end VeriCCL.Kahn
