import VeriCCL.NativeModel
import Mathlib.Data.List.Sort

/-! # Cost models and the work they price

`performance/model.py`, `performance/profiles.py` and `performance/events.py`.  The
numbers of a cost model are decimals; exact prediction reads them as rationals, so
they are rationals here.  The ranges the constructors enforce are fields of the
records.  A cost's source and its time of measurement only enter reports, and are
left out. -/
namespace VeriCCL

/-- `ServiceCost`: the time of `n` bytes is `alpha + beta * n`, for sizes in a domain. -/
structure ServiceCost where
  alpha : ℚ
  beta : ℚ
  minBytes : ℕ := 1
  maxBytes : Option ℕ := none
  alpha_nonneg : 0 ≤ alpha := by decide +kernel
  beta_pos : 0 < beta := by decide +kernel

/-- A size is in the domain `[low, high]`, or `[low, ∞)`. -/
def inSizeDomain (low : ℕ) (high : Option ℕ) (size : ℕ) : Prop :=
  low ≤ size ∧ ∀ h ∈ high, size ≤ h

instance (low : ℕ) (high : Option ℕ) (size : ℕ) : Decidable (inSizeDomain low high size) :=
  inferInstanceAs (Decidable (low ≤ size ∧ ∀ h ∈ high, size ≤ h))

/-- `ServiceCost.covers`. -/
def ServiceCost.covers (cost : ServiceCost) (size : ℕ) : Prop :=
  inSizeDomain cost.minBytes cost.maxBytes size

instance (cost : ServiceCost) (size : ℕ) : Decidable (cost.covers size) :=
  inferInstanceAs (Decidable (inSizeDomain cost.minBytes cost.maxBytes size))

/-- `RateProfile`: measured rates of a set of flows that run together. -/
structure RateProfile where
  profileId : String
  mode : List String
  rates : Dict String ℚ
  resources : List String
  minBytes : ℕ := 1
  maxBytes : Option ℕ := none
  startup : Dict String ℚ := []
  flowResources : Dict String (List String) := []
  rates_keys : ∀ flow, flow ∈ rates.keys ↔ flow ∈ mode
  rates_pos : ∀ e ∈ rates, 0 < e.2
  startup_nonneg : ∀ e ∈ startup, 0 ≤ e.2
  deriving DecidableEq

/-- `CostModel`. -/
structure CostModel where
  version : String
  services : Dict String (List ServiceCost)
  resources : Dict String ℚ := []
  profiles : List RateProfile := []
  context : Dict String String := []
  resources_pos : ∀ e ∈ resources, 0 < e.2 := by decide +kernel

/-- `CostModel.service_for`: the first cost of a component that covers the size. -/
def CostModel.serviceFor (model : CostModel) (key : String) (size : ℕ) : Option ServiceCost :=
  ((model.services.get? key).getD []).find? (fun cost => cost.covers size)

/-- The kinds of physical work. -/
inductive WorkKind where
  | send
  | rrc
  | copy
  | reduce
  | nop
  deriving DecidableEq

/-- Work that crosses a link. -/
def WorkKind.communicates : WorkKind → Bool
  | .send | .rrc => true
  | _ => false

/-- The work an instruction's kind names. -/
def InstructionKind.work : InstructionKind → Option WorkKind
  | .send => some .send
  | .rrc => some .rrc
  | .copy => some .copy
  | .reduce => some .reduce
  | .other name => if name = "nop" then some .nop else none

/-- An instruction's kind as the source spells it. -/
def InstructionKind.text : InstructionKind → String
  | .send => "send"
  | .rrc => "rrc"
  | .copy => "copy"
  | .reduce => "reduce"
  | .other name => name

/-- `WorkOperation`. -/
structure WorkOperation where
  operationId : String
  kind : WorkKind
  costKey : Option String
  payloadBytes : ℕ
  dependencies : List String := []
  resources : List String := []
  flowId : Option String := none
  notBefore : ℚ := 0
  deriving DecidableEq

/-- A NOP is free; other work moves data at a price. -/
def WorkOperation.checkPayload (op : WorkOperation) : Except Fault Unit :=
  if op.kind = .nop then
    Checked.ensure (op.payloadBytes = 0 ∧ op.costKey = none)
      (.semantic "NOP carries no data or service cost")
  else
    Checked.ensure (op.payloadBytes ≠ 0 ∧ op.costKey ≠ none ∧ op.costKey ≠ some "")
      (.semantic "data operation needs payload and a cost component")

/-- The checks of a work operation's constructor. -/
def WorkOperation.check (op : WorkOperation) : Except Fault Unit := do
  Checked.ensure (op.operationId ≠ "") (.semantic "work operation needs an identity")
  op.checkPayload
  Checked.ensure (op.kind.communicates = true → op.flowId ≠ none ∧ op.flowId ≠ some "")
    (.semantic "communication needs a semantic flow identity")
  Checked.ensure (op.kind.communicates = false → op.resources = [])
    (.semantic "independent local operations do not use mixed communication resources")
  Checked.ensure ("" ∉ op.dependencies ∧ op.dependencies.Nodup)
    (.semantic "invalid operation dependencies")
  Checked.ensure ("" ∉ op.resources ∧ op.resources.Nodup) (.semantic "invalid operation resources")
  Checked.ensure (0 ≤ op.notBefore) (.semantic "hard release time must be finite and nonnegative")

/-- What a checked operation satisfies. -/
theorem WorkOperation.check_ok {op : WorkOperation} (h : op.check = .ok ()) :
    (op.kind ≠ .nop → op.payloadBytes ≠ 0) ∧
    (op.kind.communicates = false → op.resources = []) ∧ op.dependencies.Nodup ∧
    op.resources.Nodup := by
  unfold WorkOperation.check at h
  simp only [Checked.bind_ok, Checked.ensure_ok] at h
  obtain ⟨_, -, _, hpayload, _, -, _, hlocal, _, hdeps, _, hres, -⟩ := h
  refine ⟨fun hk => ?_, hlocal, hdeps.2, hres.2⟩
  unfold checkPayload at hpayload
  rw [if_neg hk, Checked.ensure_ok] at hpayload
  exact hpayload.1

/-- `Executable`. -/
structure Executable where
  operations : List WorkOperation
  outputOperations : List String
  context : Dict String String := []
  deriving DecidableEq

/-- The identities of the operations. -/
def Executable.ids (executable : Executable) : List String :=
  executable.operations.map (·.operationId)

/-- The checks of an executable's constructor. -/
def Executable.check (executable : Executable) : Except Fault Unit := do
  Checked.ensure executable.ids.Nodup (.semantic "duplicate physical operation")
  Checked.ensure (∀ op ∈ executable.operations, ∀ p ∈ op.dependencies, p ∈ executable.ids)
    (.semantic "unknown operation dependency")
  Checked.ensure (∀ x ∈ executable.outputOperations, x ∈ executable.ids)
    (.semantic "unknown output operation")

/-- Strings in code-point order. -/
def sortStrings (l : List String) : List String := l.insertionSort (· ≤ ·)

theorem sortStrings_perm (l : List String) : (sortStrings l).Perm l := List.perm_insertionSort _ _

@[simp] theorem mem_sortStrings {l : List String} {x : String} : x ∈ sortStrings l ↔ x ∈ l :=
  (sortStrings_perm l).mem_iff

theorem nodup_sortStrings {l : List String} (h : l.Nodup) : (sortStrings l).Nodup :=
  (sortStrings_perm l).nodup_iff.mpr h

/-- The flow of a communication. -/
def WorkOperation.flow (op : WorkOperation) : String := op.flowId.getD ""

/-- `RateProfile.applies`: the profile was measured for exactly these operations. -/
def RateProfile.applies (profile : RateProfile) (operations : List WorkOperation) : Prop :=
  sortStrings (operations.map (·.flow)) = profile.mode ∧
  sortStrings (operations.flatMap (·.resources)).dedup = profile.resources ∧
  (profile.flowResources = [] ∨ ∀ op ∈ operations,
    profile.flowResources.get? op.flow = some (sortStrings op.resources)) ∧
  ∀ op ∈ operations, inSizeDomain profile.minBytes profile.maxBytes op.payloadBytes

instance (profile : RateProfile) (operations : List WorkOperation) :
    Decidable (profile.applies operations) := by
  unfold RateProfile.applies
  infer_instance

end VeriCCL
