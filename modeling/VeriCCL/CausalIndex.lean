import VeriCCL.Predict
import VeriCCL.TraceCausality

/-! # Competing operations

`verification/flow_index.py`: `build_causal_index` reads off a prediction which operations end
last, which ran on a shared resource at the same time, and what may have delayed the collective.
Python's sets are lists without repetition here, or finite sets where nothing is sorted. -/
namespace VeriCCL

/-- `CausalIndex`. -/
structure CausalIndex where
  tails : List String
  criticalOperations : Finset String
  related : Dict String (List String)
  waitUs : Dict String ℚ
  serviceUs : Dict String ℚ
  predecessors : Dict String (List String)

/-! ## `by_resource` -/

/-- `by_resource.setdefault(resource, []).append(key)`. -/
def appendUser (key : String) (table : Dict String (List String)) (resource : String) :
    Dict String (List String) :=
  table.set resource ((table.get? resource).getD [] ++ [key])

/-- `by_resource`. -/
def byResource (operations : List WorkOperation) : Dict String (List String) :=
  operations.foldl (fun table op => op.resources.foldl (appendUser op.operationId) table) []

/-! ## `related` -/

/-- A key with its predicted times. -/
structure OperationSpan where
  key : String
  start : ℚ
  stop : ℚ
  deriving DecidableEq

/-- The predicted times of a key. -/
def spanOf (prediction : Prediction) (key : String) : Except Fault OperationSpan := do
  let start ← Checked.required (prediction.startTimes.get? key) (.missing key)
  let stop ← Checked.required (prediction.endTimes.get? key) (.missing key)
  return ⟨key, start, stop⟩

/-- `related[key].add(other)`. -/
def addRelated (related : Dict String (List String)) (key other : String) :
    Dict String (List String) :=
  related.set key (((related.get? key).getD []).insert other)

/-- The operations that have not ended, and the pairs found so far. -/
structure Competition where
  active : List OperationSpan
  related : Dict String (List String)

/-- The body of the loop over the operations of a resource. -/
def Competition.visit (s : Competition) (span : OperationSpan) : Competition :=
  let active := s.active.filter fun other => span.start < other.stop
  { active := active ++ [span]
    related := active.foldl (fun related other =>
      if other.start < span.stop then
        addRelated (addRelated related span.key other.key) other.key span.key
      else related) s.related }

/-- The order of the operations of a resource. -/
def sortSpans (spans : List OperationSpan) : List OperationSpan :=
  spans.insertionSort fun a b => toLex (a.start, a.key) ≤ toLex (b.start, b.key)

/-- The loop over the operations of a resource. -/
def competeOn (prediction : Prediction) (related : Dict String (List String)) (keys : List String) :
    Except Fault (Dict String (List String)) := do
  let spans ← keys.mapM (spanOf prediction)
  return ((sortSpans spans).foldl Competition.visit ⟨[], related⟩).related

/-! ## `closure` -/

/-- `predecessors[key] | related[key]`. -/
def causesOf (predecessors related : Dict String (List String)) (key : String) :
    Except Fault (List String) := do
  let before ← Checked.required (predecessors.get? key) (.missing key)
  let beside ← Checked.required (related.get? key) (.missing key)
  return (before ++ beside).dedup

/-- The loop over `pending`, with the turns it may still take: the closure, and what is left. -/
def closureLoop (predecessors related : Dict String (List String)) :
    ℕ → Finset String → List String → Except Fault (Finset String × List String)
  | 0, closure, pending => return (closure, pending)
  | _ + 1, closure, [] => return (closure, [])
  | turns + 1, closure, key :: pending =>
    if key ∈ closure then closureLoop predecessors related turns closure pending
    else do
      let causes ← causesOf predecessors related key
      closureLoop predecessors related turns (insert key closure) (causes ++ pending)

/-- How often `pending` can be extended: every key is expanded once. -/
def closureTurns (predecessors related : Dict String (List String)) (tails : List String) : ℕ :=
  tails.length + (predecessors.map fun row =>
    row.2.length + ((related.get? row.1).getD []).length).sum

/-! ## `build_causal_index` -/

/-- The wait of an operation: its start after what it has to wait for. -/
def waitOf (prediction : Prediction) (semantic : Dict String (List String)) (op : WorkOperation) :
    Except Fault (String × ℚ) := do
  let start ← Checked.required (prediction.startTimes.get? op.operationId) (.missing op.operationId)
  let ends ← ((semantic.get? op.operationId).getD []).mapM fun dep =>
    Checked.required (prediction.endTimes.get? dep) (.missing dep)
  return (op.operationId, max 0 (start - maxDefault op.notBefore (op.notBefore :: ends)))

/-- `build_causal_index`. -/
def buildCausalIndex (executable : Executable) (prediction : Prediction)
    (semanticPredecessors : Option (Dict String (List String))) : Except Fault CausalIndex := do
  let message := "complete causal analysis needs a complete current-model prediction"
  let tPred ← Checked.required prediction.tPred (.semantic message)
  Checked.ensure (∀ key ∈ executable.ids, key ∈ prediction.endTimes.keys) (.semantic message)
  let predecessors := executable.operations.map fun op => (op.operationId, op.dependencies)
  let semantic := semanticPredecessors.getD predecessors
  let tails := sortStrings
    (executable.ids.filter fun key => prediction.endTimes.get? key = some tPred)
  let related ← (byResource executable.operations).values.foldlM (competeOn prediction)
    (executable.ids.map fun key => (key, []))
  let closure ← closureLoop predecessors related (closureTurns predecessors related tails) ∅
    tails.reverse
  let wait ← executable.operations.mapM (waitOf prediction semantic)
  let service ← executable.ids.mapM fun key => do
    let span ← spanOf prediction key
    return (key, span.stop - span.start)
  return {
    tails := tails
    criticalOperations := closure.1
    related := related.map fun row => (row.1, sortStrings row.2)
    waitUs := wait
    serviceUs := service
    predecessors := predecessors }

end VeriCCL
