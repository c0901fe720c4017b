import Mathlib.Data.List.Sort
import Mathlib.Tactic

/-! # Best-first enumeration

A queue that always yields its least entry enumerates the goals of a finite tree in their order,
provided every entry is less than the entries it expands to.  No set of visited entries is
needed: what is below an entry of a tree is below no other. -/
namespace BestFirst

/-- Entries that expand to greater ones, and finitely often. -/
structure SearchTree (α : Type) [LinearOrder α] where
  expand : α → List α
  goal : α → Bool
  height : α → ℕ
  lt_expand : ∀ a, ∀ b ∈ expand a, a < b
  height_expand : ∀ a, ∀ b ∈ expand a, height b < height a

variable {α : Type} [LinearOrder α]

/-- Puts entries into a sorted queue, one after the other. -/
def pushAll (queue entries : List α) : List α :=
  entries.foldl (fun queue entry => queue.orderedInsert (· ≤ ·) entry) queue

theorem perm_pushAll (queue entries : List α) : (pushAll queue entries).Perm (entries ++ queue) := by
  induction entries generalizing queue with
  | nil => exact List.Perm.refl _
  | cons entry entries ih =>
    calc (pushAll (queue.orderedInsert (· ≤ ·) entry) entries).Perm
          (entries ++ queue.orderedInsert (· ≤ ·) entry) := ih _
      _ |>.Perm (entries ++ entry :: queue) :=
          List.Perm.append_left _ (List.perm_orderedInsert _ _ _)
      _ |>.Perm (entry :: entries ++ queue) := List.perm_middle

theorem pairwise_pushAll {queue : List α} (h : queue.Pairwise (· ≤ ·)) (entries : List α) :
    (pushAll queue entries).Pairwise (· ≤ ·) := by
  induction entries generalizing queue with
  | nil => exact h
  | cons entry entries ih => exact ih (h.orderedInsert entry queue)

/-- Sorting forgets the order. -/
theorem insertionSort_eq_of_perm {l m : List α} (h : l.Perm m) :
    l.insertionSort (· ≤ ·) = m.insertionSort (· ≤ ·) :=
  ((List.perm_insertionSort _ l).trans (h.trans (List.perm_insertionSort _ m).symm)).eq_of_pairwise'
    (List.pairwise_insertionSort _ l) (List.pairwise_insertionSort _ m)

namespace SearchTree

variable (t : SearchTree α)

/-- The goals below an entry; a goal is not expanded. -/
def goals (a : α) : List α :=
  if t.goal a then [a] else (t.expand a).attach.flatMap fun b => goals b.1
termination_by t.height a
decreasing_by exact t.height_expand a b.1 b.2

/-- The entries below an entry. -/
def size (a : α) : ℕ :=
  if t.goal a then 1 else 1 + ((t.expand a).attach.map fun b => size b.1).sum
termination_by t.height a
decreasing_by exact t.height_expand a b.1 b.2

/-- The loop: the least entry is found, if it is a goal, or expanded. -/
def search (limit : ℕ) : ℕ → List α → List α → Option (List α)
  | 0, _, _ => none
  | _ + 1, [], found => some found
  | turns + 1, entry :: queue, found =>
    if limit ≤ found.length then some found
    else if t.goal entry then search limit turns queue (found ++ [entry])
    else search limit turns (pushAll queue (t.expand entry)) found

variable {t}

theorem goals_of_goal {a : α} (h : t.goal a = true) : t.goals a = [a] := by
  rw [goals, if_pos h]

theorem goals_of_expand {a : α} (h : t.goal a = false) :
    t.goals a = (t.expand a).flatMap t.goals := by
  rw [goals, if_neg (by simp [h])]
  conv_rhs => rw [← List.attach_map_subtype_val (t.expand a), List.flatMap_map]

theorem size_of_expand {a : α} (h : t.goal a = false) :
    t.size a = 1 + ((t.expand a).map t.size).sum := by
  rw [size, if_neg (by simp [h])]
  conv_rhs => rw [← List.attach_map_subtype_val (t.expand a), List.map_map]
  rfl

theorem size_of_goal {a : α} (h : t.goal a = true) : t.size a = 1 := by
  rw [size, if_pos h]

/-- Goals are not less than what they are below. -/
theorem le_of_mem_goals {a b : α} (h : b ∈ t.goals a) : a ≤ b := by
  induction hn : t.height a using Nat.strong_induction_on generalizing a with
  | _ n ih =>
    subst hn
    cases hgoal : t.goal a with
    | true =>
      rw [goals_of_goal hgoal, List.mem_singleton] at h
      exact h.ge
    | false =>
      rw [goals_of_expand hgoal, List.mem_flatMap] at h
      obtain ⟨c, hc, hb⟩ := h
      exact (t.lt_expand a c hc).le.trans (ih _ (t.height_expand a c hc) hb rfl)

/-- **Best-first search finds the least goals, in their order.**  As many turns as there are
entries below the queue are enough. -/
theorem search_eq (limit : ℕ) {turns : ℕ} {queue : List α} (hsorted : queue.Pairwise (· ≤ ·))
    (hturns : (queue.map t.size).sum < turns) (found : List α) :
    t.search limit turns queue found = some (found ++
      ((queue.flatMap t.goals).insertionSort (· ≤ ·)).take (limit - found.length)) := by
  induction turns generalizing queue found with
  | zero => omega
  | succ turns ih =>
    match queue with
    | [] => simp [search]
    | entry :: queue =>
      obtain ⟨hleast, hqueue⟩ := List.pairwise_cons.mp hsorted
      rw [List.map_cons, List.sum_cons] at hturns
      by_cases hlimit : limit ≤ found.length
      · rw [search, if_pos hlimit, Nat.sub_eq_zero_of_le hlimit, List.take_zero, List.append_nil]
      · rw [search, if_neg hlimit]
        cases hgoal : t.goal entry with
        | true =>
          -- no goal below the queue is less
          have hfirst : ∀ b ∈ queue.flatMap t.goals, entry ≤ b := by
            intro b hb
            obtain ⟨a, ha, hb⟩ := List.mem_flatMap.mp hb
            exact (hleast a ha).trans (le_of_mem_goals hb)
          rw [size_of_goal hgoal] at hturns
          rw [if_pos rfl, ih hqueue (by omega), List.flatMap_cons, goals_of_goal hgoal,
            List.singleton_append, List.insertionSort_cons_of_forall_rel _ hfirst,
            List.length_append, List.length_singleton, List.append_assoc, List.singleton_append,
            ← List.take_succ_cons]
          have hleft : limit - (found.length + 1) + 1 = limit - found.length := by omega
          rw [hleft]
        | false =>
          have hperm := perm_pushAll queue (t.expand entry)
          rw [size_of_expand hgoal] at hturns
          have hsum : ((pushAll queue (t.expand entry)).map t.size).sum =
              ((t.expand entry).map t.size).sum + (queue.map t.size).sum := by
            rw [(hperm.map t.size).sum_eq, List.map_append, List.sum_append]
          have hgoals : ((pushAll queue (t.expand entry)).flatMap t.goals).insertionSort (· ≤ ·) =
              ((entry :: queue).flatMap t.goals).insertionSort (· ≤ ·) := by
            refine insertionSort_eq_of_perm ((hperm.flatMap_right t.goals).trans ?_)
            rw [List.flatMap_append, List.flatMap_cons, goals_of_expand hgoal]
          rw [if_neg (by simp), ih (pairwise_pushAll hqueue _) (by omega), hgoals]

end SearchTree

end BestFirst
