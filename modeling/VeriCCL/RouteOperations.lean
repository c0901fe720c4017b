import VeriCCL.Collective
import Mathlib.Data.String.Basic

/-! # Operations of routes

The records of `solver/trees/operators.py`: a demand asks for the contributions of some
sources at its destinations, a route has the edges of a reduction towards its root and of a
distribution away from it, and every edge of a route is one operation. -/
namespace VeriCCL

-- sets of identifiers are sorted by these
instance instTransStringLe : IsTrans String (· ≤ ·) := inferInstance

instance instAntisymmStringLe : Std.Antisymm (α := String) (· ≤ ·) := inferInstance

/-- `RoutingDemand.mode`. -/
inductive RouteMode where
  | path
  | broadcast
  | reduce
  | allreduce
  deriving DecidableEq

/-- `RoutingDemand`. -/
structure RoutingDemand where
  demandId : String
  mode : RouteMode
  logicalPosition : ℕ
  contributors : Finset ℕ
  sourceRank : Option ℕ
  destinations : List ℕ
  outputSlots : List OutputSlot := []
  deriving DecidableEq

/-- `Route`. -/
structure Route where
  root : ℕ
  reduceEdges : List (ℕ × ℕ) := []
  sendEdges : List (ℕ × ℕ) := []
  deriving DecidableEq

/-- `Route.edges`. -/
def Route.edges (route : Route) : List (ℕ × ℕ) := route.reduceEdges ++ route.sendEdges

/-- `RouteOperation.kind`: a reduction adds to what the receiver has, a send replaces it. -/
inductive RouteKind where
  | rrc
  | send
  deriving DecidableEq

/-- `RouteOperation`. -/
structure RouteOperation where
  operationId : String
  demandId : String
  kind : RouteKind
  edge : ℕ × ℕ
  logicalPosition : ℕ
  contributors : Finset ℕ
  payloadBytes : ℕ
  stageId : ℕ
  dependencies : Finset String
  resources : List String
  deriving DecidableEq

end VeriCCL
