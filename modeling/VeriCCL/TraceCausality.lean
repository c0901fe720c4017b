import VeriCCL.CostModel
import VeriCCL.IntervalSweep
import Mathlib.Data.Prod.Lex
import Mathlib.Data.String.Basic

/-! # Tails and overlaps of a trace

`verification/online/trace_causality.py`: which outputs may complete last (`tails`), and which
observed calls may overlap on a resource (`overlapGroups`).  Times are bounds, since clocks are
aligned up to an uncertainty.  The checks of the lease are left out, and of an operation's record
only the groups it is in are kept. -/
namespace VeriCCL

/-- `[lower, upper]`, in microseconds. -/
structure TimeBounds where
  lo : ℚ
  hi : ℚ
  valid : lo ≤ hi

/-! ## `_tails` -/

/-- The largest upper bound of another key. -/
def otherLatest (latestUpper : List (ℚ ×ₗ String)) (key : String) : Option ℚ :=
  match latestUpper with
  | [] => none
  | first :: rest =>
    if (ofLex first).2 ≠ key then some (ofLex first).1 else rest.head?.map fun row => (ofLex row).1

/-- Whether a key begins after every other has ended. -/
def isDefinite (bounds : Dict String TimeBounds) (latestUpper : List (ℚ ×ₗ String)) (key : String) :
    Bool :=
  match otherLatest latestUpper key with
  | none => true
  | some other => (bounds.get? key).any fun row => other ≤ row.lo

/-- `_tails`: the possible and the definite tails. -/
def tails (bounds : Dict String TimeBounds) : List String × List String :=
  if bounds = [] then ([], [])
  else
    let latestLower := maxDefault 0 (bounds.values.map (·.lo))
    let possible := sortStrings ((bounds.filter fun row => latestLower ≤ row.2.hi).map (·.1))
    let latestUpper := (bounds.map fun row => toLex (row.2.hi, row.1)).insertionSort fun a b => b ≤ a
    (possible, possible.filter (isDefinite bounds latestUpper))

/-! ## `_overlap_groups` -/

/-- A row of `interval_sets`: an operation, and bounds of its start and of its end. -/
structure Observation where
  key : String
  start : TimeBounds
  stop : TimeBounds
  ordered : start.lo ≤ stop.hi

/-- The key by which observations are sorted. -/
def Observation.sortKey (row : Observation) : ℚ ×ₗ String := toLex (row.start.lo, row.key)

/-- `ordered`. -/
def sortObservations (intervals : List Observation) : List Observation :=
  intervals.insertionSort fun a b => a.sortKey ≤ b.sortKey

/-- The values of `overlap`. -/
inductive Overlap where
  | definite
  | possibleWithinClockBounds
  deriving DecidableEq

/-- `left`, `right` and `overlap`. -/
structure OverlapWitness where
  left : String
  right : String
  overlap : Overlap
  deriving DecidableEq

/-- An entry of `groups`. -/
structure OverlapGroup where
  resource : String
  clockDomain : String
  operationIds : List String
  witnesses : List OverlapWitness
  interpretation : String
  deriving DecidableEq

def overlapInterpretation : String :=
  "connected endpoint call overlaps; not all pairs overlap; actual resource contention is inferred"

/-- `'overlap-%06d' % index`. -/
def overlapIdentity (index : ℕ) : String :=
  "overlap-" ++ (String.ofList (List.replicate (6 - (toString index).length) '0') ++ toString index)

/-- `certain`: the later start is over before the earlier end can come. -/
def Observation.certain (bridge item : Observation) : Prop :=
  max bridge.start.hi item.start.hi < min bridge.stop.lo item.stop.lo

instance (bridge item : Observation) : Decidable (bridge.certain item) :=
  inferInstanceAs (Decidable (_ < _))

/-- The locals of the loop over a resource, and what it writes. -/
structure OverlapSweep where
  groups : Dict String OverlapGroup
  operations : Dict String (List String)
  members : List String
  witnesses : List OverlapWitness
  bridge : Option Observation

/-- `operations[key]['overlap_groups'].append(identity)`. -/
def joinGroup (identity : String) (operations : Dict String (List String)) (key : String) :
    Except Fault (Dict String (List String)) := do
  let groups ← Checked.required (operations.get? key) (.missing key)
  return operations.set key (groups ++ [identity])

namespace OverlapSweep
variable (resource clockDomain : String) (s : OverlapSweep)

/-- `finish`. -/
def finish : Except Fault OverlapSweep :=
  if 1 < s.members.length then do
    let identity := overlapIdentity s.groups.length
    let operations ← s.members.foldlM (joinGroup identity) s.operations
    return { s with
      groups := s.groups.set identity
        ⟨resource, clockDomain, s.members, s.witnesses, overlapInterpretation⟩
      operations := operations }
  else return s

/-- A component begins. -/
def restart (item : Observation) : Except Fault OverlapSweep := do
  let s ← s.finish resource clockDomain
  return { s with members := [item.key], witnesses := [], bridge := some item }

/-- The body of the loop. -/
def visit (item : Observation) : Except Fault OverlapSweep :=
  match s.bridge with
  | none => s.restart resource clockDomain item
  | some bridge =>
    if bridge.stop.hi ≤ item.start.lo then s.restart resource clockDomain item
    else return { s with
      members := s.members ++ [item.key]
      witnesses := s.witnesses ++ [⟨bridge.key, item.key,
        if bridge.certain item then .definite else .possibleWithinClockBounds⟩]
      bridge := some (if bridge.stop.hi < item.stop.hi then item else bridge) }

end OverlapSweep

/-- The intervals of one resource and one clock. -/
def groupIntervals (s : Dict String OverlapGroup × Dict String (List String))
    (entry : (String × String) × List Observation) :
    Except Fault (Dict String OverlapGroup × Dict String (List String)) := do
  let last ← (sortObservations entry.2).foldlM (OverlapSweep.visit entry.1.1 entry.1.2)
    ⟨s.1, s.2, [], [], none⟩
  let last ← last.finish entry.1.1 entry.1.2
  return (last.groups, last.operations)

/-- `_overlap_groups`: the groups, and for every operation those it is in. -/
def overlapGroups (intervalSets : Dict (String × String) (List Observation))
    (operations : Dict String (List String)) :
    Except Fault (Dict String OverlapGroup × Dict String (List String)) :=
  (intervalSets.insertionSort fun a b => toLex a.1 ≤ toLex b.1).foldlM groupIntervals ([], operations)

end VeriCCL
