import VeriCCL.Capacity
import VeriCCL.CostModel

/-! # Resolved requests

The parts of `ResolvedInput`, `Topology` and `LoweringContext` that lowering and
admission read.  The resolver guarantees that there is a rank, that a rooted collective
has its root among the ranks, and that the slice size and the reference slice size are
positive and divide the size of an input; these are fields. -/
namespace VeriCCL

/-- How the ends of connections are put on thread blocks. -/
inductive Layout where
  | separate
  | fused
  deriving DecidableEq

/-- The widths of the datatypes, in bytes. -/
def datatypeBytes : Dict String ℕ :=
  [("float16", 2), ("float32", 4), ("float64", 8), ("bfloat16", 2), ("int8", 1), ("uint8", 1),
    ("int32", 4), ("uint32", 4), ("int64", 8), ("uint64", 8)]

/-- `ForbiddenTransfer`: a slice of the reference partition that must not use a link in a
stage. -/
structure ForbiddenTransfer where
  sliceId : ℕ
  srcRank : ℕ
  dstRank : ℕ
  stageId : ℕ
  deriving DecidableEq

/-- A request after resolution. -/
structure ResolvedInput where
  collective : CollectiveSpec
  rankCount : ℕ
  totalSizeBytes : ℕ
  sliceSizeBytes : ℕ
  maxChannels : ℕ
  layout : Layout
  scratchBytesPerRank : ℕ
  bufferSize : ℕ
  compatibilityEnabled : Bool
  directedLinks : List (ℕ × ℕ)
  inputSha256 : String
  stageNum : Option ℕ := none
  forbiddenTransfers : List ForbiddenTransfer := []
  referenceSliceSizeBytes : Option ℕ := none
  rank_pos : 0 < rankCount := by decide
  root_ok : collective.kind.rooted = true → ∃ root ∈ collective.root, root < rankCount := by decide
  slice_pos : 0 < sliceSizeBytes := by decide
  slice_dvd : sliceSizeBytes ∣ totalSizeBytes := by decide
  total_pos : 0 < totalSizeBytes := by decide
  reference_ok : ∀ size ∈ referenceSliceSizeBytes, 0 < size ∧ size ∣ totalSizeBytes := by decide

/-- `Hyperparameters.slice_count`. -/
def ResolvedInput.sliceCount (inputs : ResolvedInput) : ℕ :=
  inputs.totalSizeBytes / inputs.sliceSizeBytes

theorem ResolvedInput.sliceCount_pos (inputs : ResolvedInput) : 0 < inputs.sliceCount :=
  Nat.div_pos (Nat.le_of_dvd inputs.total_pos inputs.slice_dvd) inputs.slice_pos

/-- A directed link of the topology. -/
structure DirectedLink where
  maxChannels : ℕ
  resourceIds : List String
  deriving DecidableEq

/-- `Topology`: links by their ends, and the channel limits of shared resources. -/
structure Topology where
  links : Dict (ℕ × ℕ) DirectedLink
  sharedResources : Dict String ℕ
  deriving DecidableEq

/-- `Topology.link` of a `LinkKey`, with the check of the key's constructor. -/
def Topology.link (topology : Topology) (src dst : ℕ) : Except Fault DirectedLink := do
  Checked.ensure (src ≠ dst) (.semantic "link ranks must be distinct")
  Checked.required (topology.links.get? (src, dst))
    (.semantic "topology does not contain the requested link")

/-- `LoweringContext`. -/
structure LoweringContext where
  inputs : ResolvedInput
  topology : Topology
  model : CostModel
  limits : RuntimeLimits

end VeriCCL
