import VeriCCL.BestFirst
import VeriCCL.Dict
import Mathlib.Data.List.Lex
import Mathlib.Data.Prod.Lex
import Mathlib.Data.Rat.Defs
import Mathlib.Logic.Relation

/-! # Candidate paths

`viable_path_links` and `ranked_simple_paths` of `solver/pruning.py`.  Links that no path can use
are pruned, and the simple paths over the others are enumerated in order of their cost, their
hops and their ranks.  The heap is a sorted list: its entries differ, so there are no ties. -/
namespace VeriCCL

/-- A frozenset of `LinkKey`s, in the order of its iteration. -/
structure LinkSet where
  links : List (ℕ × ℕ)
  nodup : links.Nodup
  distinct : ∀ link ∈ links, link.1 ≠ link.2

/-! ## `viable_path_links` -/

/-- `forward`, `reverse` and `changed`. -/
structure Viability where
  forward : Finset ℕ
  reverse : Finset ℕ
  changed : Bool

/-- One turn of the inner loop. -/
def Viability.visit (v : Viability) (link : ℕ × ℕ) : Viability :=
  let v := if link.1 ∈ v.forward ∧ link.2 ∉ v.forward then
    { v with forward := insert link.2 v.forward, changed := true } else v
  if link.2 ∈ v.reverse ∧ link.1 ∉ v.reverse then
    { v with reverse := insert link.1 v.reverse, changed := true } else v

/-- One turn of the outer loop. -/
def Viability.pass (links : List (ℕ × ℕ)) (v : Viability) : Viability :=
  links.foldl Viability.visit { v with changed := false }

/-- The outer loop. -/
def viabilityLoop (links : List (ℕ × ℕ)) : ℕ → Viability → Option Viability
  | 0, _ => none
  | turns + 1, v => if (v.pass links).changed then viabilityLoop links turns (v.pass links) else
    some (v.pass links)

/-- The link is on a way from the source to the destination that does not return. -/
def Viability.keeps (v : Viability) (source destination : ℕ) (link : ℕ × ℕ) : Prop :=
  link.1 ∈ v.forward ∧ link.2 ∈ v.reverse ∧ link.2 ≠ source ∧ link.1 ≠ destination

instance (v : Viability) (source destination : ℕ) (link : ℕ × ℕ) :
    Decidable (v.keeps source destination link) :=
  inferInstanceAs (Decidable (_ ∧ _ ∧ _ ∧ _))

/-- Some of the links. -/
def LinkSet.filter (links : LinkSet) (p : ℕ × ℕ → Bool) : LinkSet where
  links := links.links.filter p
  nodup := links.nodup.filter p
  distinct := fun link h => links.distinct link (List.mem_of_mem_filter h)

/-- `viable_path_links`. -/
def viablePathLinks (turns : ℕ) (links : LinkSet) (source destination : ℕ) : Option LinkSet :=
  (viabilityLoop links.links turns ⟨{source}, {destination}, true⟩).map fun v =>
    links.filter fun link => v.keeps source destination link

/-! ## `ranked_simple_paths` -/

/-- `Path`. -/
abbrev Path := List ℕ

/-- An entry of `pending`: its cost, its hops and its path. -/
abbrev PathEntry := ℚ ×ₗ ℕ ×ₗ Path

/-- The path of an entry. -/
def PathEntry.path (entry : PathEntry) : Path := (ofLex (ofLex entry).2).2

/-- `destinations`, before it is sorted. -/
def gatherDestinations (links : List (ℕ × ℕ)) : Dict ℕ (List ℕ) :=
  links.foldl (fun table link => table.set link.1 ((table.get? link.1).getD [] ++ [link.2])) []

/-- `destinations.get(rank, ())`. -/
def destinationsOf (links : List (ℕ × ℕ)) (rank : ℕ) : List ℕ :=
  (((gatherDestinations links).get? rank).map (·.insertionSort (· ≤ ·))).getD []

/-- What is pushed for an entry. -/
def extendPath (links : List (ℕ × ℕ)) (edgeCost : ℕ → ℕ → ℚ) (entry : PathEntry) : List PathEntry :=
  match entry.path.getLast? with
  | none => []
  | some rank =>
    ((destinationsOf links rank).filter fun next => next ∉ entry.path).map fun next =>
      toLex ((ofLex entry).1 + edgeCost rank next,
        toLex ((ofLex (ofLex entry).2).1 + 1, entry.path ++ [next]))

/-- The loop. -/
def rankedLoop (links : List (ℕ × ℕ)) (destination : ℕ) (edgeCost : ℕ → ℕ → ℚ) (limit : ℤ) :
    ℕ → List PathEntry → List Path → Option (List Path)
  | 0, _, _ => none
  | _ + 1, [], paths => some paths
  | turns + 1, entry :: pending, paths =>
    if limit ≤ paths.length then some paths
    else if entry.path.getLast? = some destination then
      rankedLoop links destination edgeCost limit turns pending (paths ++ [entry.path])
    else rankedLoop links destination edgeCost limit turns
      (BestFirst.pushAll pending (extendPath links edgeCost entry)) paths

/-- `ranked_simple_paths`. -/
def rankedSimplePaths (turns : ℕ) (links : LinkSet) (source destination : ℕ)
    (edgeCost : ℕ → ℕ → ℚ) (limit : ℤ) : Option (List Path) :=
  rankedLoop links.links destination edgeCost limit turns [toLex (0, toLex (0, [source]))] []

/-! ## What they are for -/

/-- A simple path over links from a source to a destination. -/
structure SimplePath (links : List (ℕ × ℕ)) (source destination : ℕ) (path : Path) : Prop where
  source : path.head? = some source
  destination : path.getLast? = some destination
  linked : path.IsChain fun a b => (a, b) ∈ links
  nodup : path.Nodup

/-- The cost of the links of a path. -/
def pathCost (edgeCost : ℕ → ℕ → ℚ) (path : Path) : ℚ :=
  ((path.zip path.tail).map fun link => edgeCost link.1 link.2).sum

/-- What paths are ranked by: their cost, their hops and the paths themselves. -/
def pathRank (edgeCost : ℕ → ℕ → ℚ) (path : Path) : PathEntry :=
  toLex (pathCost edgeCost path, toLex (path.length - 1, path))

end VeriCCL
