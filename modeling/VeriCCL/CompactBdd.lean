import VeriCCL.BinaryWords
import VeriCCL.Checked
import VeriCCL.Dict
import Mathlib.Data.List.Lex
import Mathlib.Data.List.Sort
import Mathlib.Data.Nat.Size

/-! # Relations as decision diagrams

`CompactBDD` and `BDDRelation` of `verification/bdd_backend.py`.  A row of numbers is encoded by
one Boolean variable per bit; a size that is not a power of two leaves codes without a number.
The package `dd` is the parameter `BddManager`, and `BddManager.Exact` is what it promises. -/
namespace VeriCCL

/-- A manager of decision diagrams, as `dd.cudd.BDD` and `dd.autoref.BDD` are. -/
structure BddManager where
  Node : Type
  top : Node
  bottom : Node
  var : String → Node
  conj : Node → Node → Node
  disj : Node → Node → Node
  neg : Node → Node
  pickIter : Node → List String → List (Dict String Bool)

/-- The manager's operations are the Boolean ones.  `pick_iter` goes through partial assignments
that have all variables cared for and leave the node no choice, and misses none. -/
structure BddManager.Exact (m : BddManager) (holds : m.Node → (String → Bool) → Prop) : Prop where
  top : ∀ a, holds m.top a
  bottom : ∀ a, ¬ holds m.bottom a
  var : ∀ v a, holds (m.var v) a ↔ a v = true
  conj : ∀ x y a, holds (m.conj x y) a ↔ holds x a ∧ holds y a
  disj : ∀ x y a, holds (m.disj x y) a ↔ holds x a ∨ holds y a
  neg : ∀ x a, holds (m.neg x) a ↔ ¬ holds x a
  pick_covers : ∀ x care, ∀ picked ∈ m.pickIter x care, ∀ v ∈ care, ∃ b, picked.get? v = some b
  pick_sound : ∀ x care, ∀ picked ∈ m.pickIter x care, ∀ a,
    (∀ v b, picked.get? v = some b → a v = b) → holds x a
  pick_complete : ∀ x care a, holds x a →
    ∃ picked ∈ m.pickIter x care, ∀ v b, picked.get? v = some b → a v = b

/-- `CompactBDD`: its fields and their sizes. -/
structure CompactBdd where
  domains : List (String × ℕ)
  nonempty : domains ≠ []
  fields_unique : (domains.map (·.1)).Nodup
  fields_named : ∀ d ∈ domains, d.1 ≠ ""
  sizes_pos : ∀ d ∈ domains, 1 ≤ d.2

/-- `_widths`: `max(1, (size - 1).bit_length())`. -/
def fieldWidth (size : ℕ) : ℕ := max 1 (size - 1).size

/-- `"{:02d}".format(bit)`. -/
def twoDigits (n : ℕ) : String := if n < 10 then "0" ++ toString n else toString n

/-- `"{}__b{:02d}".format(field, bit)`. -/
def bitVariable (field : String) (bit : ℕ) : String := field ++ "__b" ++ twoDigits bit

/-- `_variables`, of one field. -/
def fieldVariables (d : String × ℕ) : List String :=
  (List.range (fieldWidth d.2)).map (bitVariable d.1)

/-- The bits of a number as Python's `value & (1 << bit)` reads them. -/
def hasBit (value bit : ℕ) : Prop := value &&& (1 <<< bit) ≠ 0

instance (value bit : ℕ) : Decidable (hasBit value bit) :=
  inferInstanceAs (Decidable (_ ≠ 0))

/-- `_cube_cache`. -/
abbrev CubeCache (m : BddManager) := Dict (String × ℕ) m.Node

namespace CompactBdd

variable (m : BddManager)

/-- A turn of `_domain_bound`: the running "less" and "equal". -/
def boundStep (d : String × ℕ) (acc : m.Node × m.Node) (bit : ℕ) : m.Node × m.Node :=
  let literal := m.var (bitVariable d.1 bit)
  if hasBit d.2 bit then (m.disj acc.1 (m.conj acc.2 (m.neg literal)), m.conj acc.2 literal)
  else (acc.1, m.conj acc.2 (m.neg literal))

/-- `_domain_bound`. -/
def domainBound (d : String × ℕ) : m.Node :=
  if d.2 = 1 <<< fieldWidth d.2 then m.top
  else ((List.range (fieldWidth d.2)).reverse.foldl (boundStep m d) (m.bottom, m.top)).1

/-- The cube of `_value_cube`. -/
def cubeOf (d : String × ℕ) (value : ℕ) : m.Node :=
  (List.range (fieldWidth d.2)).foldl (fun node bit =>
    let literal := m.var (bitVariable d.1 bit)
    m.conj node (if hasBit value bit then literal else m.neg literal)) m.top

/-- `_value_cube`, with the cache it leaves. -/
def valueCube (cache : CubeCache m) (d : String × ℕ) (value : ℕ) : m.Node × CubeCache m :=
  match cache.get? (d.1, value) with
  | some node => (node, cache)
  | none => (cubeOf m d value, cache.set (d.1, value) (cubeOf m d value))

variable (bdd : CompactBdd)

/-- The checks of a row. -/
def checkRow (row : List ℤ) : Except String Unit := do
  Checked.ensure (row.length = bdd.domains.length) "BDD relation row has the wrong arity"
  Checked.ensure (∀ e ∈ row.zip bdd.domains, 0 ≤ e.1 ∧ e.1 < e.2.2)
    "BDD relation row is outside its domain"

/-- The cube of a row, with the cache it leaves. -/
def rowCube (cache : CubeCache m) (row : List ℤ) : m.Node × CubeCache m :=
  (bdd.domains.zip row).foldl (fun acc e =>
    let cube := valueCube m acc.2 e.1 e.2.toNat
    (m.conj acc.1 cube.1, cube.2)) (m.top, cache)

/-- `relation`, with the cache it leaves. -/
def relation (cache : CubeCache m) (rows : List (List ℤ)) : Except String m.Node × CubeCache m :=
  match rows.forM bdd.checkRow with
  | .error e => (.error e, cache)
  | .ok _ =>
    let union := rows.foldl (fun acc row =>
      let cube := bdd.rowCube m acc.2 row
      (m.disj acc.1 cube.1, cube.2)) (m.bottom, cache)
    (.ok union.1, union.2)

/-- `_universe`. -/
def universeNode : m.Node :=
  bdd.domains.foldl (fun node d => m.conj node (domainBound m d)) m.top

/-! ## Enumeration -/

/-- All variables. -/
def careVariables : List String := bdd.domains.flatMap fieldVariables

/-- The number that an assignment spells for a field. -/
def decodeField (picked : Dict String Bool) (d : String × ℕ) : Except String ℕ := do
  let bits ← (List.range (fieldWidth d.2)).mapM fun bit => do
    let b ← Checked.required (picked.get? (bitVariable d.1 bit)) (bitVariable d.1 bit)
    return (if b = true then 1 <<< bit else 0)
  return bits.sum

/-- The row that an assignment spells, unless a number is outside of its domain. -/
def decodeRow (picked : Dict String Bool) : List (String × ℕ) → Except String (Option (List ℕ))
  | [] => .ok (some [])
  | d :: rest => do
    let value ← decodeField picked d
    if d.2 ≤ value then return none
    else do
      let values ← decodeRow picked rest
      return values.map (value :: ·)

/-- `_enumerate`, which is `tuples()` of a relation. -/
def tuples (node : m.Node) : Except String (List (List ℕ)) := do
  let rows ← (m.pickIter node bdd.careVariables).mapM fun picked => decodeRow picked bdd.domains
  return (rows.filterMap id).dedup.insertionSort (· ≤ ·)

end CompactBdd

/-! ## Expressions -/

/-- An expression over relations. -/
inductive RelationExpr
  | relation (rows : List (List ℤ))
  | union (left right : RelationExpr)
  | intersection (left right : RelationExpr)
  | difference (left right : RelationExpr)
  | complement (operand : RelationExpr)
  deriving DecidableEq

namespace RelationExpr

variable (m : BddManager) (bdd : CompactBdd)

/-- Evaluate the right side after the left one. -/
def both (operation : m.Node → m.Node → m.Node) (left : Except String m.Node × CubeCache m)
    (right : CubeCache m → Except String m.Node × CubeCache m) :
    Except String m.Node × CubeCache m :=
  match left.1 with
  | .error e => (.error e, left.2)
  | .ok x =>
    let other := right left.2
    (other.1.map (operation x), other.2)

/-- The node of an expression, with the cache it leaves. -/
def build : RelationExpr → CubeCache m → Except String m.Node × CubeCache m
  | .relation rows, cache => bdd.relation m cache rows
  | .union left right, cache => both m m.disj (left.build cache) right.build
  | .intersection left right, cache => both m m.conj (left.build cache) right.build
  | .difference left right, cache =>
    both m (fun x y => m.conj x (m.neg y)) (left.build cache) right.build
  | .complement operand, cache =>
    let inner := operand.build cache
    (inner.1.map fun x => m.conj (bdd.universeNode m) (m.neg x), inner.2)

/-- The cache after some expressions. -/
def cacheAfter (earlier : List RelationExpr) : CubeCache m :=
  earlier.foldl (fun cache expr => (expr.build m bdd cache).2) []

end RelationExpr

end VeriCCL
