import VeriCCL.Checked
import VeriCCL.Dict
import Mathlib.Data.Finset.Image
import Mathlib.Data.Finset.Range

/-! # Collectives and the outputs they require

`semantics/collective.py`.  A contribution is a natural number: slice `l` of rank
`r`'s input is `r * n + l`, where `n` is the number of slices of one input.
`requiredOutputs` maps every output slot to the set of contributions it must
hold, each counted once. -/
namespace VeriCCL

/-- What a function of the source may raise: a `SemanticError` with its message, the
`KeyError` of a missing dictionary entry, or the `IndexError` of a missing position. -/
inductive Fault where
  | semantic (message : String)
  | missing (key : String)
  | index (sequence : String)
  deriving DecidableEq

/-- Links and buffer slots are pairs of numbers, and are compared as such. -/
instance instLawfulBEqLink : LawfulBEq (ℕ × ℕ) := inferInstance

/-- `CollectiveKind`. -/
inductive CollectiveKind where
  | broadcast
  | reduce
  | scatter
  | gather
  | allGather
  | allReduce
  | allToAll
  | reduceScatter
  deriving DecidableEq

/-- The kind's name in requests and in the emitted program. -/
def CollectiveKind.value : CollectiveKind → String
  | .broadcast => "broadcast"
  | .reduce => "reduce"
  | .scatter => "scatter"
  | .gather => "gather"
  | .allGather => "allgather"
  | .allReduce => "allreduce"
  | .allToAll => "alltoall"
  | .reduceScatter => "reduce_scatter"

/-- `CollectiveSpec`. -/
structure CollectiveSpec where
  kind : CollectiveKind
  datatype : String
  reductionOp : Option String := none
  root : Option ℕ := none
  inplace : Bool := false
  deriving DecidableEq

/-- One slice of a rank's output buffer. -/
structure OutputSlot where
  rank : ℕ
  offset : ℕ
  deriving DecidableEq

/-- Collectives with a distinguished rank. -/
def CollectiveKind.rooted : CollectiveKind → Bool
  | .broadcast | .reduce | .scatter | .gather => true
  | _ => false

/-- Collectives that cut an input into one part per rank. -/
def CollectiveKind.partitioning : CollectiveKind → Bool
  | .scatter | .allToAll | .reduceScatter => true
  | _ => false

/-- `_validate_output_problem`. -/
def validateOutputProblem (spec : CollectiveSpec) (rankCount sliceCount : ℕ) :
    Except Fault Unit := do
  Checked.ensure (0 < rankCount) (.semantic "rank_count must be positive")
  Checked.ensure (0 < sliceCount) (.semantic "slice_count must be positive")
  match spec.kind.rooted, spec.root with
  | true, none => .error (.semantic (spec.kind.value ++ " requires an integer root"))
  | true, some root =>
    Checked.ensure (root < rankCount) (.semantic "collective root is outside the rank range")
  | false, some _ => .error (.semantic (spec.kind.value ++ " must not define root"))
  | false, none => .ok ()
  Checked.ensure (spec.kind.partitioning = true → sliceCount % rankCount = 0)
    (.semantic "slice count must be divisible by rank count")

/-- What `_validate_output_problem` accepts. -/
theorem validateOutputProblem_ok {spec : CollectiveSpec} {ranks n : ℕ}
    (h : validateOutputProblem spec ranks n = .ok ()) :
    0 < ranks ∧ 0 < n ∧ (spec.kind.rooted = true → ∃ root, spec.root = some root ∧ root < ranks) ∧
      (spec.kind.partitioning = true → n % ranks = 0) := by
  unfold validateOutputProblem at h
  simp only [Checked.bind_ok, Checked.ensure_ok] at h
  obtain ⟨_, hranks, _, hn, h⟩ := h
  refine ⟨hranks, hn, ?_⟩
  split at h
  · simp [Checked.bind_ok] at h
  · rename_i root _ hsome
    simp only [Checked.bind_ok, Checked.ensure_ok] at h
    obtain ⟨_, hlt, hpart⟩ := h
    exact ⟨fun _ => ⟨root, hsome, hlt⟩, hpart⟩
  · simp [Checked.bind_ok] at h
  · rename_i hrooted _
    simp only [Checked.bind_ok, Checked.ensure_ok] at h
    obtain ⟨_, -, hpart⟩ := h
    refine ⟨fun htrue => ?_, hpart⟩
    rw [hrooted] at htrue
    cases htrue

/-- `_aggregate_contributors`: one contribution of every rank. -/
def aggregateContributors (logicalAddress rankCount sliceCount : ℕ) : Finset ℕ :=
  (Finset.range rankCount).image (fun rank => rank * sliceCount + logicalAddress)

/-- The assignments `required_outputs` makes, in its order. -/
def requiredEntries (spec : CollectiveSpec) (rankCount sliceCount : ℕ) :
    List (OutputSlot × Finset ℕ) :=
  let root := spec.root.getD 0
  let quotient := sliceCount / rankCount
  match spec.kind with
  | .broadcast =>
    (List.range rankCount).flatMap fun rank => (List.range sliceCount).map fun l =>
      (⟨rank, l⟩, {root * sliceCount + l})
  | .reduce =>
    (List.range sliceCount).map fun l =>
      (⟨root, l⟩, aggregateContributors l rankCount sliceCount)
  | .scatter =>
    (List.range sliceCount).map fun l => (⟨l / quotient, l % quotient⟩, {root * sliceCount + l})
  | .gather =>
    (List.range rankCount).flatMap fun source => (List.range sliceCount).map fun l =>
      (⟨root, source * sliceCount + l⟩, {source * sliceCount + l})
  | .allGather =>
    (List.range rankCount).flatMap fun rank => (List.range rankCount).flatMap fun source =>
      (List.range sliceCount).map fun l =>
        (⟨rank, source * sliceCount + l⟩, {source * sliceCount + l})
  | .allReduce =>
    (List.range rankCount).flatMap fun rank => (List.range sliceCount).map fun l =>
      (⟨rank, l⟩, aggregateContributors l rankCount sliceCount)
  | .allToAll =>
    (List.range rankCount).flatMap fun source => (List.range sliceCount).map fun l =>
      (⟨l / quotient, source * quotient + l % quotient⟩, {source * sliceCount + l})
  | .reduceScatter =>
    (List.range sliceCount).map fun l =>
      (⟨l / quotient, l % quotient⟩, aggregateContributors l rankCount sliceCount)

/-- `required_outputs`. -/
def requiredOutputs (spec : CollectiveSpec) (rankCount sliceCount : ℕ) :
    Except Fault (Dict OutputSlot (Finset ℕ)) := do
  validateOutputProblem spec rankCount sliceCount
  return Dict.ofList (requiredEntries spec rankCount sliceCount)

end VeriCCL
