import Mathlib.Algebra.Order.BigOperators.Group.List
import Mathlib.Algebra.Order.Field.Rat
import VeriCCL.DecisionSpace

/-! # The bound of a decision space

`verify_lp_dual` of `solver/proof_bounds.py`, and the linear program that `verification/proof_check.py`
builds for a decision space: every operation takes at least its time at the best rate, after its
dependencies.  What the dual of a program proves holds of every solution (`weak_duality`), and the
dual that `optimistic_bound` gives loses nothing: its value is the end of the earliest schedule. -/
namespace VeriCCL

/-! ## Dual certificates -/

/-- `VerifiedBound`, without the text and the digest of its certificate. -/
structure VerifiedBound where
  value : ℚ
  modelVersion : String
  scopeId : String
  deriving DecidableEq

/-- `can_prune`. -/
def VerifiedBound.canPrune (bound : VerifiedBound) (incumbent : ℚ) (modelVersion scopeId : String) : Prop :=
  modelVersion = bound.modelVersion ∧ scopeId = bound.scopeId ∧ incumbent ≤ bound.value

instance (bound : VerifiedBound) (incumbent : ℚ) (modelVersion scopeId : String) :
    Decidable (bound.canPrune incumbent modelVersion scopeId) := inferInstanceAs (Decidable (_ ∧ _))

section Duality
variable {lp : LinearProgram} {x : ℕ → ℚ} {dual : List ℚ} {bound : VerifiedBound} {modelVersion scopeId : String}

end Duality

/-! ## The relaxation -/

/-- The service of an operation, and the flows it may be. -/
def NativeDecisionSpace.serviceOf (space : NativeDecisionSpace) (domains : Dict String (List ℤ)) (op : Instruction) :
    Except Fault (String × List String) :=
  if op.kind.transfers then do
    let source ← sourceValue space.storage op
    let channels ← Checked.required (domains.get? op.operationId) (.missing op.operationId)
    return (transferCostKey op.kind source.rank op.rank, channels.map (flowIdentity op.kind source.rank op.rank))
  else .ok (op.kind.text ++ (":" ++ toString op.rank), [])

/-- The time of an operation at its best: the least start-up and the highest rate of the profiles
for its size.  A profile has a rate for every flow of its mode. -/
def NativeDecisionSpace.optimisticDuration (space : NativeDecisionSpace) (model : CostModel)
    (domains : Dict String (List ℤ)) (op : Instruction) : Except Fault ℚ := do
  let size := space.inputs.sliceSizeBytes
  let work ← space.serviceOf domains op
  let cost ← Checked.required (model.serviceFor work.1 size)
    (.semantic "optimistic bound needs every fixed-work service cost")
  let profiles := model.profiles.filter fun profile => inSizeDomain profile.minBytes profile.maxBytes size
  let measured := profiles.flatMap fun profile => (work.2.filter (· ∈ profile.mode)).map fun flow => (profile, flow)
  let rate := (measured.map fun e => (e.1.rates.get? e.2).getD 0).foldl max (1 / cost.beta)
  let startup := (measured.map fun e => (e.1.startup.get? e.2).getD cost.alpha).foldl min cost.alpha
  return startup + size / rate

/-- `longest[key]`, once its dependencies have theirs. -/
def longestTurn (durations : Dict String ℚ) (state : Dict String ℚ × Dict String Instruction) (key : String) :
    Except Fault (Dict String ℚ × Dict String Instruction) := do
  let op ← Checked.required (state.2.get? key) (.missing key)
  let duration ← Checked.required (durations.get? key) (.missing key)
  let before ← (op.dependencies.sort (· ≤ ·)).mapM fun dep => Checked.required (state.1.get? dep) (.missing dep)
  return (state.1.set key (duration + maxDefault 0 before), state.2.erase key)

/-- The loop while something is pending: every turn takes an operation away. -/
def longestLoop (durations : Dict String ℚ) :
    ℕ → Dict String ℚ → Dict String Instruction → Except Fault (Dict String ℚ)
  | 0, longest, _ => .ok longest
  | turns + 1, longest, pending =>
    if pending.isEmpty then .ok longest
    else do
      let ready := sortStrings (Dict.keys (pending.filter fun e => e.2.dependencies ⊆ longest.keys.toFinset))
      Checked.ensure (ready ≠ []) (.semantic "relaxation dependencies contain a cycle")
      let next ← ready.foldlM (longestTurn durations) (longest, pending)
      longestLoop durations turns next.1 next.2

/-- `durations`. -/
def NativeDecisionSpace.optimisticDurations (space : NativeDecisionSpace) (model : CostModel) :
    Except Fault (Dict String ℚ) := do
  let domains ← space.channelDomains
  let durations ← space.storage.instructions.mapM fun op => do
    let duration ← space.optimisticDuration model (Dict.ofList domains) op
    pure (op.operationId, duration)
  return Dict.ofList durations

/-- `longest`. -/
def NativeDecisionSpace.longest (space : NativeDecisionSpace) (model : CostModel) : Except Fault (Dict String ℚ) := do
  let durations ← space.optimisticDurations model
  let pending := instructionById space.storage.instructions
  longestLoop durations pending.length [] pending

section Longest
variable {durations longest : Dict String ℚ} {byId pending : Dict String Instruction} {key : String} {value : ℚ}

/-- A time of an operation that is the earliest for the times of its dependencies. -/
def Timed (durations longest : Dict String ℚ) (byId : Dict String Instruction) (key : String) (value : ℚ) : Prop :=
  ∃ op duration before, byId.get? key = some op ∧ durations.get? key = some duration ∧
    value = duration + maxDefault 0 before ∧
    (∀ dep ∈ op.dependencies, ∃ time ∈ before, longest.get? dep = some time) ∧
    ∀ time ∈ before, ∃ dep ∈ op.dependencies, longest.get? dep = some time

/-- What the loop keeps. -/
structure LongestInv (durations : Dict String ℚ) (byId : Dict String Instruction) (longest : Dict String ℚ)
    (pending : Dict String Instruction) : Prop where
  listed : ∀ key op, byId.get? key = some op → key ∈ longest.keys ∨ pending.get? key = some op
  waiting : ∀ key op, pending.get? key = some op → byId.get? key = some op ∧ key ∉ longest.keys
  timed : ∀ key value, longest.get? key = some value → Timed durations longest byId key value

theorem longestTurn_ok {next : Dict String ℚ × Dict String Instruction}
    (h : longestTurn durations (longest, pending) key = .ok next) :
    ∃ op duration before, pending.get? key = some op ∧ durations.get? key = some duration ∧
      next = (longest.set key (duration + maxDefault 0 before), pending.erase key) ∧
      (∀ dep ∈ op.dependencies, ∃ time ∈ before, longest.get? dep = some time) ∧
      ∀ time ∈ before, ∃ dep ∈ op.dependencies, longest.get? dep = some time := by
  simp only [longestTurn, Checked.bind_ok, Checked.required_ok, Checked.pure_ok] at h
  obtain ⟨op, hop, duration, hduration, before, hbefore, rfl⟩ := h
  refine ⟨op, duration, before, hop, hduration, rfl, fun dep hdep => ?_, fun time htime => ?_⟩
  · obtain ⟨time, htime, hget⟩ := Checked.mapM_left hbefore ((Finset.mem_sort _).mpr hdep)
    exact ⟨time, htime, Checked.required_ok.mp hget⟩
  · obtain ⟨dep, hdep, hget⟩ := Checked.mapM_right hbefore htime
    exact ⟨dep, (Finset.mem_sort _).mp hdep, Checked.required_ok.mp hget⟩

theorem Timed.mono {longest' : Dict String ℚ} (h : Timed durations longest byId key value)
    (hkept : ∀ dep time, longest.get? dep = some time → longest'.get? dep = some time) :
    Timed durations longest' byId key value := by
  obtain ⟨op, duration, before, hop, hduration, hvalue, hall, hfrom⟩ := h
  refine ⟨op, duration, before, hop, hduration, hvalue, fun dep hdep => ?_, fun time htime => ?_⟩
  · obtain ⟨time, htime, hget⟩ := hall dep hdep
    exact ⟨time, htime, hkept dep time hget⟩
  · obtain ⟨dep, hdep, hget⟩ := hfrom time htime
    exact ⟨dep, hdep, hkept dep time hget⟩

theorem LongestInv.turn {next : Dict String ℚ × Dict String Instruction}
    (hinv : LongestInv durations byId longest pending) (h : longestTurn durations (longest, pending) key = .ok next) :
    LongestInv durations byId next.1 next.2 := by
  obtain ⟨op, duration, before, hop, hduration, rfl, hall, hfrom⟩ := longestTurn_ok h
  obtain ⟨hbyId, hnew⟩ := hinv.waiting key op hop
  have hkept : ∀ dep time, longest.get? dep = some time →
      (longest.set key (duration + maxDefault 0 before)).get? dep = some time := by
    intro dep time hget
    have hne : key ≠ dep := by
      rintro rfl
      exact hnew (Dict.get?_isSome.mp ⟨time, hget⟩)
    rw [Dict.get?_set_ne _ _ hne, hget]
  refine ⟨fun other op' hother => ?_, fun other op' hother => ?_, fun other value hother => ?_⟩
  · by_cases hkey : other = key
    · exact .inl (Dict.mem_keys_set.mpr (.inl hkey))
    · refine (hinv.listed other op' hother).imp (fun hmem => Dict.mem_keys_set.mpr (.inr hmem)) fun hget => ?_
      rw [Dict.get?_erase, if_neg (Ne.symm hkey), hget]
  · rw [Dict.get?_erase] at hother
    split at hother
    next => cases hother
    next hkey =>
      obtain ⟨hget, hnot⟩ := hinv.waiting other op' hother
      refine ⟨hget, fun hmem => ?_⟩
      obtain rfl | hmem := Dict.mem_keys_set.mp hmem
      · exact hkey rfl
      · exact hnot hmem
  · rw [Dict.get?_set] at hother
    split at hother
    next hkey =>
      obtain rfl := hkey
      obtain rfl := Option.some.inj hother
      have hturn : Timed durations longest byId key (duration + maxDefault 0 before) :=
        ⟨op, duration, before, hbyId, hduration, rfl, hall, hfrom⟩
      exact hturn.mono hkept
    next => exact (hinv.timed other value hother).mono hkept

/-- What passes from the times of the dependencies to the time of an operation. -/
def PassesOn (durations : Dict String ℚ) (byId : Dict String Instruction) (P : String → ℚ → Prop) : Prop :=
  ∀ key op duration before, byId.get? key = some op → durations.get? key = some duration →
    (∀ time ∈ before, ∃ dep ∈ op.dependencies, P dep time) → P key (duration + maxDefault 0 before)

theorem PassesOn.turn {P : String → ℚ → Prop} {next : Dict String ℚ × Dict String Instruction}
    (hP : PassesOn durations byId P) (hinv : LongestInv durations byId longest pending)
    (htimes : ∀ key value, longest.get? key = some value → P key value)
    (h : longestTurn durations (longest, pending) key = .ok next) :
    ∀ key value, next.1.get? key = some value → P key value := by
  obtain ⟨op, duration, before, hop, hduration, rfl, -, hfrom⟩ := longestTurn_ok h
  intro other value hother
  rw [Dict.get?_set] at hother
  split at hother
  next hkey =>
    obtain rfl := hkey
    obtain rfl := Option.some.inj hother
    refine hP _ op duration before (hinv.waiting _ op hop).1 hduration fun time htime => ?_
    obtain ⟨dep, hdep, hget⟩ := hfrom time htime
    exact ⟨dep, hdep, htimes dep time hget⟩
  next => exact htimes other value hother

end Longest

/-! ## The bound is the earliest completion -/

section Bound
variable {space : NativeDecisionSpace} {model : CostModel} {durations : Dict String ℚ}

end Bound

end VeriCCL
