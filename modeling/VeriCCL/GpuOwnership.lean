import VeriCCL.Checked
import VeriCCL.CostModel
import VeriCCL.Dict

/-! # Ownership of GPUs

`GPUOwnershipRegistry` of `execution/ownership.py`.  Every call holds the registry's file lock
from its first read to its last write, so calls are atomic to each other; what a call may leave
behind is what its file operations did before one of them failed or the process died.  Both end
a call in the same files, so both are one `WritePoint` here. -/
namespace VeriCCL

/-- A device's `state`. -/
inductive OwnershipPhase
  | active
  | quarantined
  | released
  deriving DecidableEq

/-- A device's entry.  The two receipts are absent until its owner finishes. -/
structure OwnershipRecord (ε : Type) where
  owner : String
  state : OwnershipPhase
  evidence : ε
  processClean : Option Bool := none
  gpuReleased : Option Bool := none
  deriving DecidableEq

/-- A line of `transitions.jsonl`. -/
inductive RegistryEvent (ε : Type)
  | acquire (devices : List String) (owner : String) (evidence : ε)
  | finish (devices : List String) (owner : String) (state : OwnershipPhase)
      (processClean gpuReleased : Bool)
  deriving DecidableEq

/-- Where `_write` may stop: at creating its temporary file, at filling it, at replacing
`ownership.json` with it, at the transition log (with or without the whole line in the file),
or at the directory. -/
inductive WritePoint
  | creation
  | content
  | replacement
  | log (written : Bool)
  | directory
  deriving DecidableEq

/-- Why a call raises. -/
inductive OwnershipError
  | identities
  | retainedByAnother (device : String)
  | unresolved (device : String)
  | anotherOwner
  | partialExists (process : ℕ)
  | stopped (point : WritePoint)
  deriving DecidableEq

/-- The registry's own messages. -/
def OwnershipError.message : OwnershipError → Option String
  | .identities => some "GPU ownership requires concrete device UUIDs and owner identity"
  | .retainedByAnother device => some ("GPU ownership retained by another run: " ++ device)
  | .unresolved device =>
    some ("GPU ownership retained after unresolved execution: " ++ device)
  | .anotherOwner => some "cannot release another GPU owner"
  | .partialExists _ => none
  | .stopped _ => none

/-- The registry's directory: `ownership.json`, the processes whose `ownership.<pid>.partial`
is there, and `transitions.jsonl`. -/
structure RegistryFiles (ε : Type) where
  values : Dict String (OwnershipRecord ε) := []
  partials : Finset ℕ := ∅
  transitions : List (RegistryEvent ε) := []
  deriving DecidableEq

/-- A call of the registry. -/
inductive OwnershipCall (ε : Type)
  | acquire (devices : List String) (owner : String) (evidence : ε)
  | finish (devices : List String) (owner : String) (processClean gpuReleased : Bool)
  deriving DecidableEq

/-- `_identities`. -/
def identities (devices : List String) (owner : String) : Except OwnershipError (List String) :=
  let devices := sortStrings devices.dedup
  if devices = [] ∨ (∃ d ∈ devices, d = "") ∨ owner = "" then .error .identities
  else .ok devices

section Calls

variable {ε : Type} (values : Dict String (OwnershipRecord ε))

/-- The checks of `acquire` for one device. -/
def checkDevice (owner device : String) : Except OwnershipError Unit := do
  match values.get? device with
  | none => return ()
  | some previous =>
    Checked.ensure (¬ (previous.state ≠ .released ∧ previous.owner ≠ owner))
      (.retainedByAnother device)
    Checked.ensure (¬ (previous.owner = owner ∧ previous.state = .quarantined))
      (.unresolved device)

/-- What `acquire` is about to write. -/
def acquirePlan (devices : List String) (owner : String) (evidence : ε) :
    Except OwnershipError (Dict String (OwnershipRecord ε) × RegistryEvent ε) := do
  let devices ← identities devices owner
  devices.forM (checkDevice values owner)
  let record : OwnershipRecord ε := { owner, state := .active, evidence }
  return (devices.foldl (fun values device => values.set device record) values,
    .acquire devices owner evidence)

/-- The state that `finish` leaves its devices in. -/
def finishState (processClean gpuReleased : Bool) : OwnershipPhase :=
  if processClean = true ∧ gpuReleased = true then .released else .quarantined

/-- A device's entry after `finish`. -/
def OwnershipRecord.finished (record : OwnershipRecord ε) (processClean gpuReleased : Bool) :
    OwnershipRecord ε :=
  { record with
    state := finishState processClean gpuReleased
    processClean := some processClean
    gpuReleased := some gpuReleased }

/-- The turn of `finish` for one device. -/
def finishDevice (processClean gpuReleased : Bool) (values : Dict String (OwnershipRecord ε))
    (device : String) : Dict String (OwnershipRecord ε) :=
  match values.get? device with
  | some record => values.set device (record.finished processClean gpuReleased)
  -- no device without an entry passes the check before
  | none => values

/-- What `finish` is about to write. -/
def finishPlan (devices : List String) (owner : String) (processClean gpuReleased : Bool) :
    Except OwnershipError (Dict String (OwnershipRecord ε) × RegistryEvent ε) := do
  let devices ← identities devices owner
  Checked.ensure (∀ device ∈ devices, (values.get? device).map (·.owner) = some owner)
    .anotherOwner
  return (devices.foldl (finishDevice processClean gpuReleased) values,
    .finish devices owner (finishState processClean gpuReleased) processClean gpuReleased)

/-- What a call is about to write, or its refusal. -/
def OwnershipCall.plan :
    OwnershipCall ε → Except OwnershipError (Dict String (OwnershipRecord ε) × RegistryEvent ε)
  | .acquire devices owner evidence => acquirePlan values devices owner evidence
  | .finish devices owner processClean gpuReleased =>
    finishPlan values devices owner processClean gpuReleased

end Calls

namespace RegistryFiles

variable {ε : Type} (files : RegistryFiles ε)

/-- `_write` by the process `process`, stopped at `failure` if there is one.  The temporary
file is created exclusively, and nothing but the replacement takes it away. -/
def write (process : ℕ) (values : Dict String (OwnershipRecord ε)) (event : RegistryEvent ε)
    (failure : Option WritePoint) : RegistryFiles ε × Except OwnershipError Unit :=
  if process ∈ files.partials then (files, .error (.partialExists process))
  else
    match failure with
    | some .creation => (files, .error (.stopped .creation))
    | some .content =>
      ({ files with partials := insert process files.partials }, .error (.stopped .content))
    | some .replacement =>
      ({ files with partials := insert process files.partials }, .error (.stopped .replacement))
    | some (.log written) =>
      ({ files with
          values
          transitions := if written then files.transitions ++ [event] else files.transitions },
        .error (.stopped (.log written)))
    | some .directory =>
      ({ files with values, transitions := files.transitions ++ [event] },
        .error (.stopped .directory))
    | none => ({ files with values, transitions := files.transitions ++ [event] }, .ok ())

end RegistryFiles

/-- A call by a process, and where its `_write` stops if it does. -/
structure OwnershipStep (ε : Type) where
  process : ℕ
  call : OwnershipCall ε
  failure : Option WritePoint := none
  deriving DecidableEq

namespace RegistryFiles

variable {ε : Type} (files : RegistryFiles ε)

/-- A call under the lock: the files it leaves, and how it ends. -/
def step (s : OwnershipStep ε) : RegistryFiles ε × Except OwnershipError Unit :=
  match s.call.plan files.values with
  | .error e => (files, .error e)
  | .ok (values, event) => files.write s.process values event s.failure

/-- The files after some calls. -/
def after (run : List (OwnershipStep ε)) : RegistryFiles ε :=
  run.foldl (fun files s => (files.step s).1) files

/-- The call passes its checks and creates its temporary file. -/
def Begun (s : OwnershipStep ε) : Prop :=
  (∃ plan, s.call.plan files.values = .ok plan) ∧ s.process ∉ files.partials ∧
    s.failure ≠ some .creation

/-- The call stops after it created its temporary file and before it replaced the registry's
file with it. -/
def Abandons (s : OwnershipStep ε) : Prop :=
  files.Begun s ∧ (s.failure = some .content ∨ s.failure = some .replacement)

/-- The call gets as far as replacing `ownership.json`, whether or not it returns. -/
def Stored (s : OwnershipStep ε) : Prop :=
  files.Begun s ∧ s.failure ≠ some .content ∧ s.failure ≠ some .replacement

end RegistryFiles
end VeriCCL
