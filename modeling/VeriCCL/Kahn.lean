import Mathlib.Data.Finset.Card
import Mathlib.Data.List.Perm.Subperm
import Mathlib.Tactic

/-! # Ordering a finite graph by its predecessors

Kahn's algorithm on a finite list of vertices, each with a finite set of
predecessors: a vertex is *ready* once its last predecessor has been visited,
and ready vertices wait in a queue.  Only one thing about the queue matters for
correctness, that adding a vertex adds exactly that vertex; first-in-first-out
queues and priority heaps are both of this form, so the queue discipline is the
parameter `push`.

The invariant (`Inv`) counts, for every vertex, the predecessors not yet visited.
From it:

* the visited vertices always form a topological order (`order_topological`);
* the loop stops after at most one visit per vertex (`ready_run`), and
  if it visited all of them the result is a permutation of the vertices
  (`order_perm`);
* it visits all of them as soon as the graph has some topological order at all
  (`order_complete`). -/
namespace VeriCCL.Kahn

variable {κ : Type} [DecidableEq κ]

/-- Every vertex comes after all of its predecessors. -/
def Topological (preds : κ → Finset κ) (order : List κ) : Prop :=
  ∀ l k r, order = l ++ k :: r → ∀ p ∈ preds k, p ∈ l

omit [DecidableEq κ] in
theorem Topological.nil (preds : κ → Finset κ) : Topological preds [] := by
  intro l k r h
  simp at h

omit [DecidableEq κ] in
/-- A topological order grows by a vertex whose predecessors it already has. -/
theorem Topological.snoc {preds : κ → Finset κ} {order : List κ} {v : κ}
    (h : Topological preds order) (hv : ∀ p ∈ preds v, p ∈ order) :
    Topological preds (order ++ [v]) := by
  intro l k r heq p hp
  rcases List.eq_nil_or_concat r with rfl | ⟨r, z, rfl⟩
  · obtain ⟨h1, h2⟩ := List.append_inj' heq rfl
    rw [List.singleton_inj] at h2
    subst h1 h2
    exact hv p hp
  · have heq' : order ++ [v] = (l ++ k :: r) ++ [z] := by simpa using heq
    obtain ⟨h1, -⟩ := List.append_inj' heq' rfl
    exact h l k r h1 p hp

omit [DecidableEq κ] in
/-- A topological order grows by vertices whose predecessors come before them. -/
theorem Topological.append {preds : κ → Finset κ} {front back : List κ} (h : Topological preds front)
    (hback : ∀ l k r, back = l ++ k :: r → ∀ p ∈ preds k, p ∈ front ++ l) :
    Topological preds (front ++ back) := by
  intro l k r heq p hp
  rcases List.append_eq_append_iff.mp heq with ⟨m, rfl, hm⟩ | ⟨m, rfl, hm⟩
  · exact hback m k r hm p hp
  · cases m with
    | nil => simpa using hback [] k r (by simpa using hm.symm) p hp
    | cons x m =>
      obtain ⟨rfl, -⟩ := List.cons.inj hm
      exact h l k m rfl p hp

/-- The algorithm's state: unvisited predecessors, the queue, the visits so far. -/
structure State (κ : Type) where
  remaining : κ → ℕ
  ready : List κ
  order : List κ

section Algorithm
variable (keys : List κ) (preds : κ → Finset κ) (push : κ → List κ → List κ)

/-- The vertices that wait for `p`. -/
def successors (p : κ) : List κ := keys.filter (fun k => p ∈ preds k)

/-- Before the first visit: vertices without predecessors are ready. -/
def start : State κ where
  remaining k := (preds k).card
  ready := (keys.filter (fun k => (preds k).card = 0)).foldl (fun q k => push k q) []
  order := []

/-- One predecessor of `f` has been visited. -/
def release (s : State κ) (f : κ) : State κ where
  remaining := Function.update s.remaining f (s.remaining f - 1)
  ready := if s.remaining f - 1 = 0 then push f s.ready else s.ready
  order := s.order

/-- Visit the first vertex of the queue. -/
def visit (s : State κ) : State κ :=
  match s.ready with
  | [] => s
  | k :: rest =>
    (successors keys preds k).foldl (release push) { s with ready := rest, order := s.order ++ [k] }

/-- `n` visits. -/
def run : ℕ → State κ → State κ
  | 0, s => s
  | n + 1, s => run n (visit keys preds push s)

/-- The vertices in the order of their visits. -/
def order : List κ := (run keys preds push keys.length (start keys preds push)).order

end Algorithm

/-- What holds between two visits. -/
structure Inv (keys : List κ) (preds : κ → Finset κ) (s : State κ) : Prop where
  nodup : (s.order ++ s.ready).Nodup
  known : ∀ k ∈ s.order ++ s.ready, k ∈ keys
  count : ∀ k ∈ keys, s.remaining k = ((preds k).filter (· ∉ s.order)).card
  reached : ∀ k ∈ keys, k ∈ s.order ++ s.ready ↔ s.remaining k = 0
  topological : Topological preds s.order

section Correctness
variable {keys : List κ} {preds : κ → Finset κ} {push : κ → List κ → List κ}

theorem mem_successors {p k : κ} : k ∈ successors keys preds p ↔ k ∈ keys ∧ p ∈ preds k := by
  simp [successors]

theorem successors_nodup (hkeys : keys.Nodup) (p : κ) : (successors keys preds p).Nodup :=
  hkeys.filter _

omit [DecidableEq κ] in
theorem foldl_push (hpush : ∀ k q, (push k q).Perm (k :: q)) (l q : List κ) :
    (l.foldl (fun q k => push k q) q).Perm (q ++ l) := by
  induction l generalizing q with
  | nil => simp
  | cons k l ih =>
    rw [List.foldl_cons]
    refine (ih (push k q)).trans (((hpush k q).append_right l).trans ?_)
    exact List.perm_middle.symm

/-- Releasing a list of distinct vertices, each with an unvisited predecessor,
takes one from each of their counts and queues those that reach zero. -/
theorem foldl_release (hpush : ∀ k q, (push k q).Perm (k :: q)) {fs : List κ} (hnd : fs.Nodup)
    {s : State κ} (hpos : ∀ f ∈ fs, 0 < s.remaining f) :
    (fs.foldl (release push) s).order = s.order ∧
    (∀ k, (fs.foldl (release push) s).remaining k =
      s.remaining k - if k ∈ fs then 1 else 0) ∧
    (fs.foldl (release push) s).ready.Perm
      (s.ready ++ fs.filter (fun f => s.remaining f = 1)) := by
  induction fs generalizing s with
  | nil => simp
  | cons f fs ih =>
    obtain ⟨hf, hnd⟩ := List.nodup_cons.mp hnd
    have hrem : ∀ k ∈ fs, (release push s f).remaining k = s.remaining k := by
      intro k hk
      have hne : k ≠ f := fun he => hf (he ▸ hk)
      simp [release, hne]
    obtain ⟨h1, h2, h3⟩ := ih hnd (s := release push s f)
      (fun k hk => (hrem k hk).symm ▸ hpos k (List.mem_cons_of_mem _ hk))
    rw [List.foldl_cons]
    refine ⟨h1, ?_, ?_⟩
    · intro k
      rw [h2 k]
      by_cases hk : k = f
      · subst hk
        simp [release, hf]
      · simp [release, hk]
    · refine h3.trans ?_
      have hfilter : fs.filter (fun k => (release push s f).remaining k = 1) =
          fs.filter (fun k => s.remaining k = 1) :=
        List.filter_congr fun k hk => by rw [hrem k hk]
      rw [hfilter]
      have hposf := hpos f List.mem_cons_self
      by_cases hone : s.remaining f = 1
      · rw [List.filter_cons_of_pos (by simpa using hone)]
        have hready : (release push s f).ready = push f s.ready := by simp [release, hone]
        rw [hready]
        refine ((hpush f s.ready).append_right _).trans ?_
        exact List.perm_middle.symm
      · rw [List.filter_cons_of_neg (by simpa using hone)]
        have hready : (release push s f).ready = s.ready := by
          simp only [release]
          rw [if_neg (by omega)]
        rw [hready]

theorem inv_start (preds : κ → Finset κ) (hpush : ∀ k q, (push k q).Perm (k :: q)) (hkeys : keys.Nodup) :
    Inv keys preds (start keys preds push) := by
  have hperm := foldl_push hpush (keys.filter (fun k => (preds k).card = 0)) []
  have hmem : ∀ k, k ∈ (start keys preds push).ready ↔ k ∈ keys ∧ (preds k).card = 0 := by
    intro k
    rw [start, hperm.mem_iff]
    simp
  refine ⟨?_, ?_, ?_, ?_, Topological.nil preds⟩
  · simpa [start] using hperm.nodup_iff.mpr (by simpa using hkeys.filter _)
  · intro k hk
    exact ((hmem k).mp (by simpa [start] using hk)).1
  · intro k _
    simp [start]
  · intro k hk
    rw [show (start keys preds push).order = [] from rfl, List.nil_append, hmem k]
    exact and_iff_right hk

/-- **A visit keeps the invariant.** -/
theorem inv_visit (hpush : ∀ k q, (push k q).Perm (k :: q)) (hkeys : keys.Nodup)
    {s : State κ} (hs : Inv keys preds s) : Inv keys preds (visit keys preds push s) := by
  unfold visit
  split
  · exact hs
  · rename_i k rest hready
    have hnd := hs.nodup
    rw [hready] at hnd
    have hk_order : k ∉ s.order := by
      intro hk
      exact (List.nodup_append.mp hnd).2.2 k hk k List.mem_cons_self rfl
    have hk : k ∈ keys := hs.known k (by rw [hready]; simp)
    have hk_pred : ∀ p ∈ preds k, p ∈ s.order := by
      have hzero := (hs.reached k hk).mp (by rw [hready]; simp)
      rw [hs.count k hk, Finset.card_eq_zero, Finset.filter_eq_empty_iff] at hzero
      intro p hp
      exact not_not.mp (hzero hp)
    -- the vertices about to be released still wait for `k`, which is not visited yet
    have hpos : ∀ f ∈ successors keys preds k, 0 < s.remaining f := by
      intro f hf
      obtain ⟨hfk, hkf⟩ := mem_successors.mp hf
      rw [hs.count f hfk, Finset.card_pos]
      exact ⟨k, Finset.mem_filter.mpr ⟨hkf, hk_order⟩⟩
    obtain ⟨h1, h2, h3⟩ := foldl_release hpush
      (successors_nodup hkeys k)
      (s := { s with ready := rest, order := s.order ++ [k] }) hpos
    have hcount : ∀ f ∈ keys, s.remaining f - (if f ∈ successors keys preds k then 1 else 0) =
        ((preds f).filter (· ∉ s.order ++ [k])).card := by
      intro f hf
      rw [hs.count f hf]
      have hsplit : (preds f).filter (· ∉ s.order ++ [k]) =
          ((preds f).filter (· ∉ s.order)).erase k := by
        ext p
        simp only [List.mem_append, List.mem_singleton, not_or, Finset.mem_filter,
          Finset.mem_erase]
        tauto
      rw [hsplit]
      by_cases hkf : k ∈ preds f
      · rw [if_pos (mem_successors.mpr ⟨hf, hkf⟩),
          Finset.card_erase_of_mem (Finset.mem_filter.mpr ⟨hkf, hk_order⟩)]
      · rw [if_neg (fun h => hkf (mem_successors.mp h).2),
          Finset.erase_eq_of_notMem (fun h => hkf (Finset.mem_filter.mp h).1)]
        exact Nat.sub_zero _
    have hmem : ∀ f, f ∈ ((successors keys preds k).foldl (release push)
        { s with ready := rest, order := s.order ++ [k] }).ready ↔
        f ∈ rest ∨ (f ∈ successors keys preds k ∧ s.remaining f = 1) := by
      intro f
      rw [h3.mem_iff, List.mem_append, List.mem_filter, decide_eq_true_iff]
    have hlist : ∀ f, f ∈ ((successors keys preds k).foldl (release push)
          { s with ready := rest, order := s.order ++ [k] }).order ++
        ((successors keys preds k).foldl (release push)
          { s with ready := rest, order := s.order ++ [k] }).ready ↔
        f ∈ s.order ++ s.ready ∨ (f ∈ successors keys preds k ∧ s.remaining f = 1) := by
      intro f
      rw [List.mem_append, h1, hmem f, hready]
      simp only [List.mem_append, List.mem_cons, List.not_mem_nil, or_false]
      tauto
    refine ⟨?_, ?_, ?_, ?_, ?_⟩
    · rw [h1]
      refine (h3.append_left (s.order ++ [k])).nodup_iff.mpr ?_
      rw [← List.append_assoc, show s.order ++ [k] ++ rest = s.order ++ (k :: rest) by simp]
      refine List.nodup_append.mpr ⟨hnd, (successors_nodup hkeys k).filter _, ?_⟩
      intro f hf g hg he
      subst he
      obtain ⟨hg1, hg2⟩ := List.mem_filter.mp hg
      have hfk : f ∈ keys := (mem_successors.mp hg1).1
      have h0 := (hs.reached f hfk).mp (by rw [hready]; exact hf)
      have h1 : s.remaining f = 1 := of_decide_eq_true hg2
      omega
    · intro f hf
      rcases (hlist f).mp hf with hf | ⟨hf, -⟩
      · exact hs.known f hf
      · exact (mem_successors.mp hf).1
    · intro f hf
      rw [h2 f, h1]
      exact hcount f hf
    · intro f hf
      rw [hlist f, h2 f, hs.reached f hf]
      by_cases hfs : f ∈ successors keys preds k
      · have := hpos f hfs
        simp only [hfs, true_and, if_true]
        omega
      · simp [hfs]
    · rw [h1]
      exact hs.topological.snoc hk_pred

theorem inv_run (hpush : ∀ k q, (push k q).Perm (k :: q)) (hkeys : keys.Nodup) (n : ℕ) :
    ∀ s : State κ, Inv keys preds s → Inv keys preds (run keys preds push n s) := by
  induction n with
  | zero => exact fun s hs => hs
  | succ n ih => exact fun s hs => ih _ (inv_visit hpush hkeys hs)

/-- A visit of a nonempty queue lengthens the order by one. -/
theorem length_visit (hpush : ∀ k q, (push k q).Perm (k :: q)) (hkeys : keys.Nodup)
    {s : State κ} (hs : Inv keys preds s) (hready : s.ready ≠ []) :
    (visit keys preds push s).order.length = s.order.length + 1 := by
  obtain ⟨k, rest, heq⟩ := List.exists_cons_of_ne_nil hready
  have hk_order : k ∉ s.order := by
    intro hk
    have hnd := hs.nodup
    rw [heq] at hnd
    exact (List.nodup_append.mp hnd).2.2 k hk k List.mem_cons_self rfl
  have hpos : ∀ f ∈ successors keys preds k, 0 < s.remaining f := by
    intro f hf
    obtain ⟨hfk, hkf⟩ := mem_successors.mp hf
    rw [hs.count f hfk, Finset.card_pos]
    exact ⟨k, Finset.mem_filter.mpr ⟨hkf, hk_order⟩⟩
  have h := (foldl_release hpush
      (successors_nodup hkeys k)
    (s := { s with ready := rest, order := s.order ++ [k] }) hpos).1
  have hv : visit keys preds push s = (successors keys preds k).foldl (release push)
      { s with ready := rest, order := s.order ++ [k] } := by
    unfold visit
    rw [heq]
  rw [hv, h]
  simp

theorem run_stuck {s : State κ} (h : s.ready = []) (n : ℕ) : run keys preds push n s = s := by
  induction n with
  | zero => rfl
  | succ n ih =>
    rw [run, show visit keys preds push s = s by unfold visit; rw [h]]
    exact ih

/-- After `n` visits the queue is empty or the order has grown by `n`. -/
theorem run_progress (hpush : ∀ k q, (push k q).Perm (k :: q)) (hkeys : keys.Nodup) (n : ℕ) :
    ∀ s : State κ, Inv keys preds s → (run keys preds push n s).ready = [] ∨
      (run keys preds push n s).order.length = s.order.length + n := by
  induction n with
  | zero => exact fun s _ => Or.inr rfl
  | succ n ih =>
    intro s hs
    by_cases hready : s.ready = []
    · left
      rw [run_stuck hready]
      exact hready
    · rw [run]
      have hlen := length_visit hpush hkeys hs hready
      rcases ih _ (inv_visit hpush hkeys hs) with h | h
      · exact Or.inl h
      · exact Or.inr (by omega)

theorem order_length_le {s : State κ} (hs : Inv keys preds s) :
    (s.order ++ s.ready).length ≤ keys.length :=
  (List.subperm_of_subset hs.nodup (fun k hk => hs.known k hk)).length_le

/-- **The loop has ended**: one visit per vertex empties the queue. -/
theorem ready_run (preds : κ → Finset κ) (hpush : ∀ k q, (push k q).Perm (k :: q)) (hkeys : keys.Nodup) :
    (run keys preds push keys.length (start keys preds push)).ready = [] := by
  have hs := inv_run hpush hkeys keys.length _ (inv_start preds hpush hkeys)
  rcases run_progress hpush hkeys keys.length _
    (inv_start preds hpush hkeys) with h | h
  · exact h
  · have hle := order_length_le hs
    have hnil : (start keys preds push).order.length = 0 := rfl
    rw [List.length_append, h, hnil] at hle
    exact List.eq_nil_of_length_eq_zero (by omega)

/-- **Visits come in topological order.** -/
theorem order_topological (hpush : ∀ k q, (push k q).Perm (k :: q)) (hkeys : keys.Nodup) :
    Topological preds (order keys preds push) :=
  (inv_run hpush hkeys keys.length _ (inv_start preds hpush hkeys)).topological

theorem order_nodup (hpush : ∀ k q, (push k q).Perm (k :: q)) (hkeys : keys.Nodup) :
    (order keys preds push).Nodup :=
  (List.nodup_append.mp (inv_run hpush hkeys keys.length _ (inv_start preds hpush hkeys)).nodup).1

theorem order_subset (hpush : ∀ k q, (push k q).Perm (k :: q)) (hkeys : keys.Nodup) :
    ∀ k ∈ order keys preds push, k ∈ keys := fun k hk =>
  (inv_run hpush hkeys keys.length _ (inv_start preds hpush hkeys)).known k
    (List.mem_append_left _ hk)

/-- **A complete run visits every vertex exactly once.** -/
theorem order_perm (hpush : ∀ k q, (push k q).Perm (k :: q)) (hkeys : keys.Nodup)
    (hlen : (order keys preds push).length = keys.length) : (order keys preds push).Perm keys :=
  (List.subperm_of_subset (order_nodup hpush hkeys) (order_subset hpush hkeys)).perm_of_length_le
    (le_of_eq hlen.symm)

/-- **A graph with a topological order is visited completely.**  A vertex that
is left over has an unvisited predecessor; the first left-over vertex of the
given order has none. -/
theorem order_complete (hpush : ∀ k q, (push k q).Perm (k :: q)) (hkeys : keys.Nodup)
    {given : List κ} (hgiven : Topological preds given) (hall : ∀ k ∈ keys, k ∈ given)
    (hknown : ∀ k ∈ keys, ∀ p ∈ preds k, p ∈ keys) :
    (order keys preds push).length = keys.length := by
  have hs := inv_run hpush hkeys keys.length _ (inv_start preds hpush hkeys)
  have hready := ready_run preds hpush hkeys
  have hvisited : ∀ l r, given = l ++ r → ∀ k ∈ l, k ∈ keys → k ∈ order keys preds push := by
    intro l
    induction l using List.reverseRecOn with
    | nil => intro _ _ k hk; simp at hk
    | append_singleton l v ih =>
      intro r heq k hk hkk
      have hl := ih (v :: r) (by simpa using heq)
      rcases List.mem_append.mp hk with hk | hk
      · exact hl k hk hkk
      · rw [List.mem_singleton] at hk
        subst hk
        have hpreds : ∀ p ∈ preds k, p ∈ order keys preds push := fun p hp =>
          hl p (hgiven l k r (by simpa using heq) p hp) (hknown k hkk p hp)
        have hzero : (run keys preds push keys.length (start keys preds push)).remaining k = 0 := by
          rw [hs.count k hkk, Finset.card_eq_zero, Finset.filter_eq_empty_iff]
          exact fun p hp => not_not.mpr (hpreds p hp)
        have := (hs.reached k hkk).mpr hzero
        rwa [hready, List.append_nil] at this
  have hsub : ∀ k ∈ keys, k ∈ order keys preds push := fun k hk =>
    hvisited given [] (by simp) k (hall k hk) hk
  exact le_antisymm
    (List.subperm_of_subset (order_nodup hpush hkeys) (order_subset hpush hkeys)).length_le
    (List.subperm_of_subset hkeys hsub).length_le

omit [DecidableEq κ] in
/-- A topological order is one to induct along. -/
theorem Topological.induct {given : List κ} (hgiven : Topological preds given) {P : κ → Prop}
    (step : ∀ k ∈ given, (∀ p ∈ preds k, P p) → P k) : ∀ k ∈ given, P k := by
  have hfront : ∀ l r, given = l ++ r → ∀ k ∈ l, P k := by
    intro l
    induction l using List.reverseRecOn with
    | nil => simp
    | append_singleton l v ih =>
      intro r heq k hk
      have hl := ih (v :: r) (by simpa using heq)
      rcases List.mem_append.mp hk with hk | hk
      · exact hl k hk
      · obtain rfl := List.mem_singleton.mp hk
        have hsplit : given = l ++ k :: r := by simpa using heq
        exact step k (by simp [hsplit]) fun p hp => hl p (hgiven l k r hsplit p hp)
  exact hfront given [] (by simp)

/-- **A graph without a cycle is visited completely.**  A vertex that is left over has a
predecessor that is left over, but among them some vertex has none. -/
theorem order_complete_of_acyclicOn (hpush : ∀ k q, (push k q).Perm (k :: q)) (hkeys : keys.Nodup)
    (hknown : ∀ k ∈ keys, ∀ p ∈ preds k, p ∈ keys)
    (hacyclic : ∀ k, ¬ Relation.TransGen (fun p k => k ∈ keys ∧ p ∈ preds k) k k) :
    (order keys preds push).length = keys.length := by
  have hs := inv_run hpush hkeys keys.length _ (inv_start preds hpush hkeys)
  have hready := ready_run preds hpush hkeys
  let before : {k // k ∈ keys} → {k // k ∈ keys} → Prop := fun a b =>
    Relation.TransGen (fun p k => k ∈ keys ∧ p ∈ preds k) a.1 b.1
  have : IsTrans _ before := ⟨fun _ _ _ hab hbc => hab.trans hbc⟩
  have : Std.Irrefl before := ⟨fun a => hacyclic a.1⟩
  have hwf : WellFounded before := Finite.wellFounded_of_trans_of_irrefl before
  have hvisited : ∀ a : {k // k ∈ keys}, a.1 ∈ order keys preds push := by
    intro a
    induction a using hwf.induction with
    | _ a ih =>
      have hzero : (run keys preds push keys.length (start keys preds push)).remaining a.1 = 0 := by
        rw [hs.count a.1 a.2, Finset.card_eq_zero, Finset.filter_eq_empty_iff]
        intro p hp
        exact not_not.mpr (ih ⟨p, hknown a.1 a.2 p hp⟩ (.single ⟨a.2, hp⟩))
      have hmem := (hs.reached a.1 a.2).mpr hzero
      rwa [hready, List.append_nil] at hmem
  exact le_antisymm
    (List.subperm_of_subset (order_nodup hpush hkeys) (order_subset hpush hkeys)).length_le
    (List.subperm_of_subset hkeys fun k hk => hvisited ⟨k, hk⟩).length_le

omit [DecidableEq κ] in
/-- A graph in which no vertex waits for itself has no cycle among some of its vertices. -/
theorem acyclic_on (hacyclic : ∀ k, ¬ Relation.TransGen (fun p k => p ∈ preds k) k k) (k : κ) :
    ¬ Relation.TransGen (fun p k => k ∈ keys ∧ p ∈ preds k) k k :=
  fun h => hacyclic k (Relation.TransGen.mono (fun _ _ hstep => hstep.2) _ _ h)

theorem order_complete_of_acyclic (hpush : ∀ k q, (push k q).Perm (k :: q)) (hkeys : keys.Nodup)
    (hknown : ∀ k ∈ keys, ∀ p ∈ preds k, p ∈ keys)
    (hacyclic : ∀ k, ¬ Relation.TransGen (fun p k => p ∈ preds k) k k) :
    (order keys preds push).length = keys.length :=
  order_complete_of_acyclicOn hpush hkeys hknown (acyclic_on hacyclic)

end Correctness

/-- First in, first out. -/
def fifo (k : κ) (q : List κ) : List κ := q ++ [k]

omit [DecidableEq κ] in
theorem fifo_perm (k : κ) (q : List κ) : (fifo k q).Perm (k :: q) :=
  List.perm_append_singleton k q

/-- Least first, by a total order `le`. -/
def priority (le : κ → κ → Bool) (k : κ) (q : List κ) : List κ :=
  q.orderedInsert (fun a b => le a b = true) k

omit [DecidableEq κ] in
theorem priority_perm (le : κ → κ → Bool) (k : κ) (q : List κ) :
    (priority le k q).Perm (k :: q) :=
  List.perm_orderedInsert _ k q

end VeriCCL.Kahn
