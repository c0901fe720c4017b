import VeriCCL.Collective
import VeriCCL.ColorRefinement

/-! # Canonical forms of colored graphs

`_canonical_colored_graph` of `topology/isomorphism.py`.  Where refinement leaves classes, every
vertex of the smallest class is given a color of its own, and the least of the forms found is
kept.  Automorphism witnesses save branches: vertices of one orbit lead to the same forms.

The encoding of a form as a text, and its hash, are parameters. -/
namespace VeriCCL

/-! ## Colored graphs -/

/-- A directed multigraph with colored vertices and labeled edges. -/
structure ColoredGraph (κ ℓ : Type) (n : ℕ) where
  colors : List.Vector κ n
  edges : List (GraphEdge ℓ n)

/-- What a form says of a graph: the colors in the order of the vertices, and the sorted edges. -/
structure GraphForm (κ ℓ : Type) where
  colors : List κ
  edges : List (ℕ ×ₗ ℕ ×ₗ ℓ)
  deriving DecidableEq

section Witness
variable {κ ℓ : Type} [DecidableEq κ] [DecidableEq ℓ] {n : ℕ}

/-- A list of the vertices as a permutation. -/
def permutationOf (mapping : List ℕ) (h : mapping.Perm (List.range n)) : Equiv.Perm (Fin n) where
  toFun v := ⟨mapping.get ⟨v, by rw [h.length_eq, List.length_range]; exact v.2⟩,
    List.mem_range.mp (h.mem_iff.mp (List.get_mem ..))⟩
  invFun w := ⟨mapping.idxOf w.1, by
    have hmem : w.1 ∈ mapping := h.mem_iff.mpr (List.mem_range.mpr w.2)
    have hlt := List.idxOf_lt_length_of_mem hmem
    rwa [h.length_eq, List.length_range] at hlt⟩
  left_inv v := Fin.ext ((h.nodup_iff.mpr List.nodup_range).idxOf_getElem _ _)
  right_inv w := Fin.ext (List.getElem_idxOf _)

/-- The checks of a witness, and the automorphism. -/
def checkWitness (g : ColoredGraph κ ℓ n) (mapping : List ℕ) : Except Fault (Equiv.Perm (Fin n)) :=
  if h : mapping.insertionSort (· ≤ ·) = List.range n then do
    let e := permutationOf mapping ((List.perm_insertionSort _ _).symm.trans (List.Perm.of_eq h))
    Checked.ensure ((∀ v, g.colors.get v = g.colors.get (e v)) ∧
        (g.edges.map (GraphEdge.map e)).Perm g.edges)
      (.semantic "invalid graph automorphism witness")
    return e
  else .error (.semantic "invalid graph automorphism witness")

end Witness

/-! ## Classes -/

section Classes
variable {n : ℕ}

/-- How many vertices have a color. -/
def classSize (c : Coloring n) (color : ℕ) : ℕ := (Finset.univ.filter fun v => c.get v = color).card

/-- `ambiguous`: size and color of the classes of more than one vertex. -/
def ambiguous (c : Coloring n) : Finset (ℕ ×ₗ ℕ) :=
  ((Finset.univ.image c.get).filter fun color => 1 < classSize c color).image fun color =>
    toLex (classSize c color, color)

/-- The color of `min(ambiguous)`: no two classes have one color. -/
def targetClass (c : Coloring n) : Option ℕ :=
  if h : (ambiguous c).Nonempty then some (ofLex ((ambiguous c).min' h)).2 else none

/-- The vertices of a class. -/
def members (c : Coloring n) (color : ℕ) : List (Fin n) :=
  (List.finRange n).filter fun v => c.get v = color

/-- A vertex gets a color of its own. -/
def individualize (c : Coloring n) (v : Fin n) : Coloring n := c.set v (Finset.univ.sup c.get + 1)

/-- The loop over the frontier of an orbit, for a number of turns. -/
def orbitLoop (generators : List (Equiv.Perm (Fin n))) : ℕ → Finset (Fin n) → List (Fin n) → Finset (Fin n)
  | 0, orbit, _ => orbit
  | _ + 1, orbit, [] => orbit
  | turns + 1, orbit, current :: frontier =>
    let next := generators.foldl (fun (found : Finset (Fin n) × List (Fin n)) mapping =>
      if mapping current ∈ found.1 then found
      else (insert (mapping current) found.1, mapping current :: found.2)) (orbit, frontier)
    orbitLoop generators turns next.1 next.2

/-- `orbit`: every vertex is in the frontier once. -/
def orbitOf (generators : List (Equiv.Perm (Fin n))) (v : Fin n) : Finset (Fin n) :=
  orbitLoop generators n {v} [v]

/-- The loop over the vertices of a class: `one` searches with a vertex individualized. -/
def explore (one : Fin n → ℕ → Except Fault (String × ℕ)) (generators : List (Equiv.Perm (Fin n))) :
    ℕ → List (Fin n) → ℕ → Except Fault (List String × ℕ)
  | _, [], count => .ok ([], count)
  | 0, _ :: _, _ => .error (.semantic "out of fuel")
  | turns + 1, vertex :: pending, count => do
    let found ← one vertex count
    let rest ← explore one generators turns (pending.filter (· ∉ orbitOf generators vertex)) found.2
    return (found.1 :: rest.1, rest.2)

end Classes

/-! ## The search -/

/-- `_MAX_CANONICAL_STATES`. -/
def maxCanonicalStates : ℕ := 100000

section Search
variable {κ ℓ : Type} [LinearOrder κ] [LinearOrder ℓ] {n : ℕ} (g : ColoredGraph κ ℓ n)

/-- What is encoded where every vertex has a color of its own. -/
def leafForm (c : Coloring n) : GraphForm κ ℓ :=
  let order := (List.finRange n).insertionSort fun a b => c.get a ≤ c.get b
  { colors := order.map g.colors.get
    edges := (g.edges.map fun e => toLex (order.idxOf e.src, toLex (order.idxOf e.dst, e.label))).insertionSort
      (· ≤ ·) }

variable (encode : GraphForm κ ℓ → String)

/-- `search`, with the number of states so far.  A branch has one vertex more with a color of
its own, so it is no deeper than there are vertices. -/
def search : ℕ → Coloring n → List (Equiv.Perm (Fin n)) → ℕ → Except Fault (String × ℕ)
  | 0, _, _, _ => .error (.semantic "out of fuel")
  | depth + 1, colors, generators, count => do
    Checked.ensure (count + 1 ≤ maxCanonicalStates)
      (.semantic "domain isomorphism canonicalization limit exceeded")
    let refined := refineColors g.edges colors
    match targetClass refined with
    | none => return (encode (leafForm g refined), count + 1)
    | some color => do
      let found ← explore (fun vertex => search depth (individualize refined vertex)
        (generators.filter fun mapping => mapping vertex = vertex)) generators n (members refined color) (count + 1)
      let best ← Checked.required (found.1.argmin id) (.semantic "min() arg is an empty sequence")
      return (best, found.2)

/-- `palette` of the vertex colors. -/
def initialColoring : Coloring n := g.colors.map (paletteRank g.colors.toList)

/-- `_canonical_colored_graph`. -/
def canonicalColoredGraph (digest : String → String) (automorphisms : List (List ℕ)) : Except Fault String := do
  let generators ← automorphisms.mapM (checkWitness g)
  let found ← search g encode (n + 1) (initialColoring g) generators 0
  return digest found.1

end Search

end VeriCCL
