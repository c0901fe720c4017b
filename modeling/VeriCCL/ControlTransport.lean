import VeriCCL.Checked
import VeriCCL.Dict

/-! # The control transport

`runtime/execution/control_transport.cc`.  The ranks of a session agree on one list of
payloads after another: the `k`-th call of `gather` at every rank contributes to round
`k`, and returns once every rank has contributed.  One coordinator collects the rounds.
A rank asks it over a connection that carries one request and at most one answer; when
no answer comes it opens a new connection and repeats the same request.

What a connection carries arrives late, out of order, or never (`ControlAction`): a
frame may be read long after its sender has given the connection up, and an answer may
be lost after the coordinator has sent it.  The bytes of a frame are the message
itself; only their number matters here, for the limits (`ControlCodec`). -/
namespace VeriCCL

variable {P : Type}

/-- A request of `gather`. -/
structure ControlRequest (P : Type) where
  group : String
  session : String
  sequence : ℕ
  phase : String
  rank : ℕ
  payload : P

/-- The decision of a round, as it is sent to every rank. -/
structure ControlReply (P : Type) where
  group : String
  session : String
  sequence : ℕ
  phase : String
  members : List P

/-- What the coordinator sends back on a connection. -/
inductive ControlAnswer (P : Type) where
  | error (message : String)
  | decision (reply : ControlReply P)

/-- The sizes of the printed messages: `envelope.dump().size()`, and the text of a
request and of a reply. -/
structure ControlCodec (P : Type) where
  envelopeBytes : P → ℕ
  requestBytes : ControlRequest P → ℕ
  replyBytes : ControlReply P → ℕ

/-- A control frame is at most 4 MiB. -/
def frameLimit : ℕ := 4 * 1024 * 1024

/-- The payloads of a round are at most 3 MiB. -/
def payloadLimit : ℕ := 3 * 1024 * 1024

/-! ## The coordinator -/

/-- `Round`: `members` has a place for every rank, empty until the rank's request comes. -/
structure ControlRound (P : Type) where
  phase : String
  members : List (Option P)
  reply : Option (ControlReply P) := none
  bytes : ℕ := 0

/-- `Coordinator`, without its sockets.  `rounds` is in the order of the keys. -/
structure Coordinator (P : Type) where
  group : String
  session : String
  ranks : ℕ
  rounds : Dict ℕ (ControlRound P) := []
  next : ℕ := 0
  fatal : String := ""

/-- What a member of a round has sent, if anything. -/
def ControlRound.seat (round : ControlRound P) (rank : ℕ) : Option P :=
  (round.members[rank]?).join

/-- Every member has sent its payload. -/
def ControlRound.full (round : ControlRound P) : Prop := ∀ member ∈ round.members, member.isSome = true

instance (round : ControlRound P) : Decidable round.full :=
  inferInstanceAs (Decidable (∀ _ ∈ _, _))

/-- Take a member's payload.  The bytes are counted before they are refused. -/
def ControlRound.contribute [DecidableEq P] (codec : ControlCodec P) (round : ControlRound P)
    (rank : ℕ) (payload : P) : ControlRound P × Except String Unit :=
  match round.seat rank with
  | some present =>
    (round, Checked.ensure (present = payload) "duplicate control identity has different contents")
  | none =>
    let bytes := round.bytes + codec.envelopeBytes payload
    if payloadLimit < bytes then
      ({ round with bytes := bytes }, .error "control group payload exceeds 3 MiB")
    else
      ({ round with bytes := bytes, members := round.members.set rank (some payload) }, .ok ())

namespace Coordinator

/-- Put a round at its place in the map. -/
def emplace (rounds : Dict ℕ (ControlRound P)) (sequence : ℕ) (round : ControlRound P) :
    Dict ℕ (ControlRound P) :=
  rounds.takeWhile (fun e => e.1 < sequence) ++
    (sequence, round) :: rounds.dropWhile (fun e => e.1 < sequence)

/-- Only the two newest rounds are kept. -/
def evict (rounds : Dict ℕ (ControlRound P)) : Dict ℕ (ControlRound P) :=
  rounds.drop (rounds.length - 2)

/-- What is checked of a request before its round is looked up. -/
def check (c : Coordinator P) (message : ControlRequest P) : Except String Unit := do
  Checked.ensure (message.group = c.group ∧ message.session = c.session)
    "control session identity mismatch"
  Checked.ensure (message.rank < c.ranks) "rank exceeds limit"
  Checked.ensure (message.phase ≠ "" ∧ message.phase.utf8ByteSize ≤ 128) "invalid control phase"
  Checked.ensure (message.sequence = c.next ∨ message.sequence < c.next ∧
      message.sequence ∈ c.rounds.keys)
    "control sequence is outside the retained decision boundary"

/-- The round of a request; the first request of a round makes it. -/
def openRound (c : Coordinator P) (message : ControlRequest P) : ControlRound P × Coordinator P :=
  match c.rounds.get? message.sequence with
  | some round => (round, c)
  | none =>
    let round : ControlRound P := ⟨message.phase, List.replicate c.ranks none, none, 0⟩
    (round, { c with rounds := emplace c.rounds message.sequence round })

/-- The decision of a round whose members have all sent their payloads. -/
def decision (c : Coordinator P) (sequence : ℕ) (round : ControlRound P) : ControlReply P :=
  ⟨c.group, c.session, sequence, round.phase, round.members.filterMap id⟩

/-- Store a round; when it has just become full, decide it. -/
def settle (c : Coordinator P) (sequence : ℕ) (round : ControlRound P) : Coordinator P :=
  if round.reply.isNone = true ∧ round.full then
    { c with
      rounds := evict (c.rounds.set sequence
        { round with reply := some (c.decision sequence round) })
      next := c.next + 1 }
  else
    { c with rounds := c.rounds.set sequence round }

/-- `Coordinator::request`. -/
def request [DecidableEq P] (codec : ControlCodec P) (c : Coordinator P)
    (message : ControlRequest P) : Coordinator P × Except String Unit :=
  match c.check message with
  | .error fault => (c, .error fault)
  | .ok _ =>
    let (round, c) := c.openRound message
    if round.phase ≠ message.phase then
      (c, .error "control phase/sequence identity mismatch")
    else
      match round.contribute codec message.rank message.payload with
      | (round, .error fault) =>
        ({ c with rounds := c.rounds.set message.sequence round }, .error fault)
      | (round, .ok _) => (c.settle message.sequence round, .ok ())

end Coordinator

/-! ## Connections -/

/-- How far a connection is: its frame is on the way, or the coordinator has read it, or
an answer is on the way, or it is gone. -/
inductive ConnectionStage (P : Type) where
  | sent
  | parsed
  | answered (answer : ControlAnswer P)
  | closed

/-- A connection, with the one request it carries. -/
structure Connection (P : Type) where
  request : ControlRequest P
  stage : ConnectionStage P := .sent

namespace Coordinator

/-- Answer a client whose request has been read: with the fatal error if there is one,
else with the decision of its round.  A round that is gone is past for every rank. -/
def answer (codec : ControlCodec P) (c : Coordinator P) (connection : Connection P) :
    Coordinator P × Connection P :=
  if c.fatal ≠ "" then
    (c, { connection with stage := .answered (.error c.fatal) })
  else
    match c.rounds.get? connection.request.sequence with
    | none => (c, { connection with stage := .closed })
    | some round =>
      match round.reply with
      | none => (c, { connection with stage := .parsed })
      | some reply =>
        if frameLimit < codec.replyBytes reply then
          let fault := "control group result exceeds 4 MiB"
          ({ c with fatal := fault }, { connection with stage := .answered (.error fault) })
        else
          (c, { connection with stage := .answered (.decision reply) })

/-- One turn of `loop` for one client.  `arrived` says whether its whole frame is there. -/
def visit [DecidableEq P] (codec : ControlCodec P) (c : Coordinator P) (connection : Connection P)
    (arrived : Bool) : Coordinator P × Connection P :=
  match connection.stage with
  | .sent =>
    if arrived then
      match c.request codec connection.request with
      | (c, .error fault) =>
        ({ c with fatal := fault }, { connection with stage := .answered (.error fault) })
      | (c, .ok _) => c.answer codec connection
    else if c.fatal ≠ "" then
      (c, { connection with stage := .answered (.error c.fatal) })
    else
      (c, connection)
  | .parsed => c.answer codec connection
  | .answered _ | .closed => (c, connection)

end Coordinator

/-! ## The ranks -/

/-- `ControlTransport` of one rank.  `calling` is the call under way, `current` the
connection it listens to.  `calls` and `returned` are the history of the rank: every call
of `gather`, and what the calls that returned brought back. -/
structure Caller (P : Type) where
  sequence : ℕ := 0
  broken : Bool := false
  calling : Option (String × P) := none
  current : Option ℕ := none
  calls : List (String × P) := []
  returned : List (ControlReply P) := []

/-- A call that throws leaves the transport broken. -/
def Caller.fail (caller : Caller P) : Caller P :=
  { caller with broken := true, calling := none, current := none }

/-- The ranks, the coordinator and the connections ever opened. -/
structure ControlSystem (P : Type) where
  coordinator : Coordinator P
  callers : ℕ → Caller P
  connections : List (Connection P) := []

/-- What may happen next: a rank calls `gather`, opens a connection, gives it up, reads
its answer, or runs out of time; the coordinator serves a client; a connection is lost. -/
inductive ControlAction (P : Type) where
  | call (rank : ℕ) (phase : String) (payload : P)
  | connect (rank : ℕ)
  | abandon (rank : ℕ)
  | deliver (rank : ℕ)
  | expire (rank : ℕ)
  | visit (connection : ℕ) (arrived : Bool)
  | lose (connection : ℕ)

namespace ControlSystem

/-- A session of `ranks` ranks before the first call. -/
def start (group session : String) (ranks : ℕ) : ControlSystem P where
  coordinator := { group := group, session := session, ranks := ranks }
  callers := fun _ => {}

variable (s : ControlSystem P)

/-- Replace the state of a rank. -/
def setCaller (rank : ℕ) (caller : Caller P) : ControlSystem P :=
  { s with callers := Function.update s.callers rank caller }

/-- The request a rank sends for a call, on every connection the same. -/
def requestOf (rank : ℕ) (phase : String) (payload : P) : ControlRequest P where
  group := s.coordinator.group
  session := s.coordinator.session
  sequence := (s.callers rank).sequence
  phase := phase
  rank := rank
  payload := payload

/-- The reply names the request it answers, and has a member for every rank. -/
def accepts (rank : ℕ) (phase : String) (reply : ControlReply P) : Prop :=
  reply.group = s.coordinator.group ∧ reply.session = s.coordinator.session ∧
    reply.sequence = (s.callers rank).sequence ∧ reply.phase = phase ∧
    reply.members.length = s.coordinator.ranks

instance (rank : ℕ) (phase : String) (reply : ControlReply P) :
    Decidable (s.accepts rank phase reply) :=
  inferInstanceAs (Decidable (_ ∧ _))

/-- `gather` is entered; on a broken transport it throws at once. -/
def call (rank : ℕ) (phase : String) (payload : P) : Option (ControlSystem P) :=
  let caller := s.callers rank
  if rank < s.coordinator.ranks ∧ caller.calling.isNone = true then
    some (s.setCaller rank { caller with
      calls := caller.calls ++ [(phase, payload)]
      calling := if caller.broken then none else some (phase, payload) })
  else none

/-- A trial of `gather`: a new connection with the same request. -/
def connect (codec : ControlCodec P) (rank : ℕ) : Option (ControlSystem P) :=
  let caller := s.callers rank
  match caller.calling with
  | none => none
  | some (phase, payload) =>
    let request := s.requestOf rank phase payload
    if frameLimit < codec.requestBytes request then
      some (s.setCaller rank caller.fail)
    else
      some { s.setCaller rank { caller with current := some s.connections.length } with
        connections := s.connections ++ [{ request := request }] }

/-- The trial of a rank ends without an answer. -/
def abandon (rank : ℕ) : Option (ControlSystem P) :=
  match (s.callers rank).current with
  | none => none
  | some _ => some (s.setCaller rank { s.callers rank with current := none })

/-- The deadline of the call passes. -/
def expire (rank : ℕ) : Option (ControlSystem P) :=
  match (s.callers rank).calling with
  | none => none
  | some _ => some (s.setCaller rank (s.callers rank).fail)

/-- What a rank does with an answer: an error or a reply to something else breaks the
transport, the decision of its round is returned. -/
def receive (rank : ℕ) (phase : String) : ControlAnswer P → Caller P
  | .error _ => (s.callers rank).fail
  | .decision reply =>
    if s.accepts rank phase reply then
      { s.callers rank with
        sequence := (s.callers rank).sequence + 1
        calling := none
        current := none
        returned := (s.callers rank).returned ++ [reply] }
    else (s.callers rank).fail

/-- The connection a rank listens to and what it listens for. -/
def listening (rank : ℕ) : Option (ℕ × String) := do
  let id ← (s.callers rank).current
  let call ← (s.callers rank).calling
  return (id, call.1)

/-- A rank reads the answer on its connection, which is then closed. -/
def deliver (rank : ℕ) : Option (ControlSystem P) := do
  let (id, phase) ← s.listening rank
  let connection ← s.connections[id]?
  match connection.stage with
  | .answered answer =>
    some { s.setCaller rank (s.receive rank phase answer) with
      connections := s.connections.set id { connection with stage := .closed } }
  | _ => none

/-- The coordinator serves a client. -/
def visit [DecidableEq P] (codec : ControlCodec P) (id : ℕ) (arrived : Bool) :
    Option (ControlSystem P) := do
  let connection ← s.connections[id]?
  let (coordinator, connection) := s.coordinator.visit codec connection arrived
  return { s with coordinator := coordinator, connections := s.connections.set id connection }

/-- A connection is lost, with whatever it carries. -/
def lose (id : ℕ) : Option (ControlSystem P) := do
  let connection ← s.connections[id]?
  return { s with connections := s.connections.set id { connection with stage := .closed } }

/-- One step of the system. -/
def step [DecidableEq P] (codec : ControlCodec P) : ControlAction P → Option (ControlSystem P)
  | .call rank phase payload => s.call rank phase payload
  | .connect rank => s.connect codec rank
  | .abandon rank => s.abandon rank
  | .deliver rank => s.deliver rank
  | .expire rank => s.expire rank
  | .visit id arrived => s.visit codec id arrived
  | .lose id => s.lose id

/-- A run of the system. -/
def run [DecidableEq P] (codec : ControlCodec P) (s : ControlSystem P)
    (actions : List (ControlAction P)) : Option (ControlSystem P) :=
  actions.foldlM (fun s action => s.step codec action) s

end ControlSystem

end VeriCCL
