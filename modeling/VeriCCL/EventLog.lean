import VeriCCL.Checked
import Mathlib.Data.List.DropRight

/-! # Event logs

`execution/events.py` and the part of `restore_checkpoint` that reads them back.  Every
event of a run is one line at the end of a log: `events.jsonl`, or `rank-k.events.jsonl`
for an event of rank `k`.  One counter numbers the events of all logs.  A resume takes the
counter from `events.jsonl`, cuts a broken last line off that file, and goes on.

An append is cut by a crash at any byte; replacing a file is atomic.  The data of an event
is opaque here, and so is its printed text (`EventCodec`), of which only two things are
used: it is one line, and reading it gives the event back. -/
namespace VeriCCL

variable {D : Type}

/-- An event, as `emit_event` builds it; the schema version is always 1. -/
structure RunEvent (D : Type) where
  taskId : String
  runId : String
  sequence : ℕ
  timeUtc : String
  monotonicNs : ℕ
  node : String
  rank : Option ℕ
  kind : String
  data : D
  deriving DecidableEq

/-- `json.dumps` of an event, in bytes, and `json.loads` of a line.  An event that has no
text raises `ValueError`; a line that is no event record does too. -/
structure EventCodec (D : Type) where
  dumps : RunEvent D → Option (List UInt8)
  loads : List UInt8 → Option (RunEvent D)

/-- The end of a line. -/
def newline : UInt8 := 10

/-- A carriage return ends a line too. -/
def carriageReturn : UInt8 := 13

/-- Printed events are single lines, and a line is read back as the event it was. -/
structure EventCodec.Faithful (codec : EventCodec D) : Prop where
  one_line : ∀ event text, codec.dumps event = some text →
    newline ∉ text ∧ carriageReturn ∉ text
  read_back : ∀ event text, codec.dumps event = some text →
    codec.loads (text ++ [newline]) = some event

/-! ## Reading a log -/

/-- `bytes.splitlines(keepends=True)`. -/
def splitLines : List UInt8 → List (List UInt8)
  | [] => []
  | [b] => [[b]]
  | b :: c :: rest =>
    if b = newline ∨ b = carriageReturn ∧ c ≠ newline then [b] :: splitLines (c :: rest)
    else
      match splitLines (c :: rest) with
      | [] => [[b]]
      | line :: lines => (b :: line) :: lines

/-- `EventScan`. -/
structure EventScan (D : Type) where
  events : List (RunEvent D)
  truncatedTail : Bool

/-- The loop of `read_events`: a last line that does not end is no event. -/
def scanLines (codec : EventCodec D) : List (List UInt8) → Except String (EventScan D)
  | [] => .ok ⟨[], false⟩
  | line :: lines =>
    if lines = [] ∧ line.getLast? ≠ some newline then .ok ⟨[], true⟩
    else do
      let event ← Checked.required (codec.loads line) "invalid event record"
      let scan ← scanLines codec lines
      return ⟨event :: scan.events, scan.truncatedTail⟩

/-- `read_events`, of the bytes of a file. -/
def readEvents (codec : EventCodec D) (raw : List UInt8) : Except String (EventScan D) :=
  scanLines codec (splitLines raw)

/-- The bytes up to the last end of a line: `original[:original.rfind(b'\n') + 1]`. -/
def wholeLines (raw : List UInt8) : List UInt8 := raw.rdropWhile (· ≠ newline)

/-! ## A run -/

/-- What a caller of `emit_event` gives, with what the call reads from the clocks and the
host. -/
structure Emission (D : Type) where
  rank : Option ℕ
  kind : String
  data : D
  timeUtc : String
  monotonicNs : ℕ
  node : String

/-- How far `restore_checkpoint` gets: it dies before or after it repairs the log, or while
it appends its own event, or it succeeds. -/
inductive RestoreStop where
  | beforeRepair
  | afterRepair
  | emitting (cut : Option ℕ)

/-- The logs of a run, the counter of the process that runs, and the events whose appends
have completed, in that order.  A log is named by its rank; `none` is `events.jsonl`. -/
structure RunLogs (D : Type) where
  taskId : String
  runId : String
  files : Option ℕ → List UInt8 := fun _ => []
  live : Option ℕ := some 0
  completed : List (RunEvent D) := []

/-- What may happen: an event is emitted, its append perhaps cut after some bytes by a
crash; the process dies between events; a new process resumes the run. -/
inductive RunAction (D : Type) where
  | emit (emission : Emission D) (cut : Option ℕ)
  | crash
  | restore (resumed : Emission D) (stop : RestoreStop)

namespace RunLogs

variable (codec : EventCodec D) (s : RunLogs D)

/-- The event of an emission. -/
def eventOf (sequence : ℕ) (emission : Emission D) : RunEvent D where
  taskId := s.taskId
  runId := s.runId
  sequence := sequence
  timeUtc := emission.timeUtc
  monotonicNs := emission.monotonicNs
  node := emission.node
  rank := emission.rank
  kind := emission.kind
  data := emission.data

/-- Append to a log. -/
def append (log : Option ℕ) (bytes : List UInt8) : RunLogs D :=
  { s with files := Function.update s.files log (s.files log ++ bytes) }

/-- Append the line of an event, or a prefix of it and die. -/
def write (event : RunEvent D) (line : List UInt8) (cut : Option ℕ) : RunLogs D :=
  match cut with
  | none =>
    { s.append event.rank line with
      live := some event.sequence
      completed := s.completed ++ [event] }
  | some n =>
    { s.append event.rank (line.take n) with
      live := none
      completed := if line.length ≤ n then s.completed ++ [event] else s.completed }

/-- `emit_event` of the process that runs.  The counter moves before the event is printed. -/
def emit (emission : Emission D) (cut : Option ℕ) : Option (RunLogs D) :=
  match s.live with
  | none => none
  | some sequence =>
    if emission.kind = "" ∨ 128 < emission.kind.length then some s
    else
      let event := s.eventOf (sequence + 1) emission
      match codec.dumps event with
      | none => some { s with live := some (sequence + 1) }
      | some text => some (s.write event (text ++ [newline]) cut)

/-- The numbers of events. -/
def numbers (events : List (RunEvent D)) : List ℕ := events.map (·.sequence)

/-- What `restore_checkpoint` gets from `events.jsonl`: the counter, and the file without a
cut last line. -/
def recover (raw : List UInt8) : Except String (ℕ × List UInt8) := do
  let scan ← readEvents codec raw
  Checked.ensure (∀ event ∈ scan.events, event.taskId = s.taskId ∧ event.runId = s.runId)
    "event log task identity differs"
  Checked.ensure ((numbers scan.events).Pairwise (· < ·))
    "event log sequence is not strictly increasing"
  return ((numbers scan.events).foldl max 0, if scan.truncatedTail then wholeLines raw else raw)

/-- `restore_checkpoint`, as far as the logs go.  It ends by emitting `run_resumed`. -/
def restore (resumed : Emission D) (stop : RestoreStop) : Option (RunLogs D) :=
  match s.recover codec (s.files none) with
  | .error _ => none
  | .ok (sequence, repaired) =>
    let repair : RunLogs D := { s with files := Function.update s.files none repaired }
    match stop with
    | .beforeRepair => some { s with live := none }
    | .afterRepair => some { repair with live := none }
    | .emitting cut =>
      { repair with live := some sequence }.emit codec
        { resumed with rank := none, kind := "run_resumed" } cut

/-- One step of a run. -/
def step : RunAction D → Option (RunLogs D)
  | .emit emission cut => s.emit codec emission cut
  | .crash => some { s with live := none }
  | .restore resumed stop => s.restore codec resumed stop

/-- A run from a state. -/
def run (actions : List (RunAction D)) : Option (RunLogs D) :=
  actions.foldlM (fun s action => s.step codec action) s

/-- The events whose appends to a log have completed. -/
def completedIn (log : Option ℕ) : List (RunEvent D) := s.completed.filter (·.rank = log)

/-- **The logs are intact**: each is read without an error and gives exactly its completed
events, and no number is used twice. -/
structure Intact : Prop where
  readable : ∀ log, ∃ tail, readEvents codec (s.files log) = .ok ⟨s.completedIn log, tail⟩
  increasing : ∀ log, (numbers (s.completedIn log)).Pairwise (· < ·)
  unique : (numbers s.completed).Nodup

/-- A log that a crash has not cut. -/
def Uncut (log : Option ℕ) : Prop :=
  s.files log = [] ∨ (s.files log).getLast? = some newline

instance (log : Option ℕ) : Decidable (s.Uncut log) := inferInstanceAs (Decidable (_ ∨ _))

/-- A step in a state where `events.jsonl` speaks for all logs: an event is appended to a
log that is not cut, and when the run is resumed no log has a later event than
`events.jsonl`. -/
def Careful : RunAction D → Prop
  | .emit emission _ => s.Uncut emission.rank
  | .crash => True
  | .restore _ _ => ∀ scan, readEvents codec (s.files none) = .ok scan →
      ∀ log events tail, readEvents codec (s.files log) = .ok ⟨events, tail⟩ →
        ∀ event ∈ events, event.sequence ≤ (numbers scan.events).foldl max 0

end RunLogs

end VeriCCL
