import Boreas.Bridge
import Boreas.Runs
import Boreas.Table

/-! # The driver of one QUIC connection

egress/quic.rs: one task owns the transport and hands out bidirectional streams as bridges.  Of the transport, `Conn`
keeps the peer's stream limit, how many of our streams count against it, and the bytes taken for each stream.  A
stream counts from its first `streamSend` on, with every stream of a lower id; what else a send or a receive answers
is the event's.  Datagrams are left out. -/

namespace Boreas.Quic

open L4

/-! ### The transport -/

inductive SendError
  | done
  | streamLimit
  | stopped
deriving DecidableEq, Repr

/-- What a send on an open stream answers: bytes taken, no room, or a stream that is reset or closed. -/
inductive SendAnswer
  | written (count : ℕ)
  | done
  | stopped
deriving DecidableEq, Repr

inductive RecvAnswer
  | data (bytes : Bytes) (fin : Bool)
  | reset
deriving DecidableEq, Repr

structure Conn where
  /-- The peer's limit for the streams we open. -/
  maxStreamsBidi : ℕ
  /-- The streams counted against it. -/
  openedBidi : ℕ
  /-- The bytes taken for each stream. -/
  sent : ℕ → Bytes
  /-- The streams a send found reset or closed. -/
  stopped : List ℕ

namespace Conn

def peerStreamsLeftBidi (c : Conn) : ℕ := c.maxStreamsBidi - c.openedBidi

def Within (c : Conn) (id : ℕ) : Prop := id / 4 < c.maxStreamsBidi

def opens (c : Conn) (id : ℕ) : Conn := { c with openedBidi := max c.openedBidi (id / 4 + 1) }

def streamSend (c : Conn) (id : ℕ) (chunk : Bytes) (answer : SendAnswer) : Conn × Except SendError ℕ :=
  if c.openedBidi ≤ id / 4 ∧ c.maxStreamsBidi ≤ id / 4 then (c, .error .streamLimit)
  else
    let c := c.opens id
    match answer with
    | .written count =>
      ({ c with sent := fun other => if other = id then c.sent id ++ chunk.take count else c.sent other },
        .ok (min count chunk.length))
    | .done => (c, .error .done)
    | .stopped => ({ c with stopped := id :: c.stopped }, .error .stopped)

end Conn

/-! ### One stream -/

/-- `pump_in`: a permit is reserved before a receive, so a full consumer leaves the bytes with the peer. -/
def pumpIn : Bridge → List RecvAnswer → Bridge
  | b, answers =>
    if b.toTask = false then b
    else if b.reading = false then b.dropSender
    else if Bridge.depth ≤ b.inbound.length then b
    else
      match answers with
      | [] => b
      | .reset :: _ => b.markReset
      | .data bytes fin :: rest =>
        let b := if bytes = [] then b else b.deliver bytes
        if fin then b.dropSender else pumpIn b rest

/-- The sends of `pump_out`, one chunk after the other, with what is left: the rest of a chunk, the chunks not looked
at, and whether the stream is given up. -/
def sendChunks (id : ℕ) : Conn → List Bytes → List SendAnswer → Conn × Option Bytes × List Bytes × Bool
  | c, [], _ => (c, none, [], false)
  | c, chunk :: chunks, answers =>
    match c.streamSend id chunk (answers.headD .done) with
    | (c, .ok written) =>
      if written < chunk.length then (c, some (chunk.drop written), chunks, false)
      else sendChunks id c chunks answers.tail
    | (c, .error .done) => (c, some chunk, chunks, false)
    -- a reset or closed stream is not retried, nor is one the limit refuses
    | (c, .error _) => (c, none, chunks, true)

def pumpOut (c : Conn) (id : ℕ) (b : Bridge) (answers : List SendAnswer) : Conn × Bridge :=
  if b.finished then (c, b)
  else
    match sendChunks id c (b.pendingOut.toList ++ b.outbound) answers with
    | (c, pendingOut, outbound, gaveUp) =>
      let b := { b with pendingOut := pendingOut, outbound := outbound }
      if gaveUp then (c, { b with finished := true })
      -- the write half is closed once the task has dropped its end and all is sent
      else if pendingOut = none ∧ outbound = [] ∧ b.writing = false then
        ((c.streamSend id [] (.written 0)).1, { b with finished := true })
      else (c, b)

/-! ### The driver -/

structure Driver where
  conn : Conn
  nextStreamId : ℕ
  streams : Table ℕ Bridge

namespace Driver

variable (d : Driver)

def openBidi (present : Bool) : Driver × Option ℕ :=
  if d.conn.peerStreamsLeftBidi = 0 then (d, none)
  else
    let id := d.nextStreamId
    let d := { d with nextStreamId := id + 4 }
    if present then ({ d with streams := d.streams.insert id Bridge.pair }, some id) else (d, none)

def pumpInOf (turn : ℕ × List RecvAnswer) : Driver :=
  match d.streams.lookup turn.1 with
  | none => d
  | some b => { d with streams := d.streams.insert turn.1 (pumpIn b turn.2) }

def pumpOutOf (turn : ℕ × List SendAnswer) : Driver :=
  match d.streams.lookup turn.1 with
  | none => d
  | some b =>
    let sent := pumpOut d.conn turn.1 b turn.2
    { d with conn := sent.1, streams := d.streams.insert turn.1 sent.2 }

def sweepOut : Driver :=
  { d with streams := d.streams.retain fun _ b => if b.toTask || !b.finished then some b else none }

/-- `service`, with the readable streams and the order of the map given. -/
def service (readable : List (ℕ × List RecvAnswer)) (sweep : List (ℕ × List SendAnswer)) : Driver :=
  (Runs.run pumpOutOf (Runs.run pumpInOf d readable) sweep).sweepOut

end Driver

/-! ### The driver among its tasks -/

/-- The driver, the streams it has handed out, and the bytes that each of them has accepted from its task. -/
structure System extends Driver where
  handed : List ℕ
  accepted : ℕ → Bytes

inductive Event
  | openBidi (present : Bool)
  | maxStreams (limit : ℕ)
  | service (readable : List (ℕ × List RecvAnswer)) (sweep : List (ℕ × List SendAnswer))
  | write (id : ℕ) (bytes : Bytes)
  | read (id room : ℕ)
  | shutdown (id : ℕ)
  | drop (id : ℕ)

namespace System

def start (opened limit : ℕ) : System :=
  ⟨⟨⟨limit, opened, fun _ => [], []⟩, 4 * opened, ∅⟩, [], fun _ => []⟩

def taken (bytes : Bytes) : WriteResult → Bytes
  | .written count => bytes.take count
  | _ => []

def onStream (s : System) (id : ℕ) (act : Bridge → Bridge × Bytes) : System :=
  match s.streams.lookup id with
  | none => s
  | some b =>
    { s with
      streams := s.streams.insert id (act b).1
      accepted := fun other => if other = id then s.accepted id ++ (act b).2 else s.accepted other }

def step (s : System) : Event → System
  | .openBidi present =>
    match s.toDriver.openBidi present with
    | (d, none) => { s with toDriver := d }
    | (d, some id) => { s with toDriver := d, handed := s.handed ++ [id] }
  -- a limit is only ever raised
  | .maxStreams limit => { s with conn := { s.conn with maxStreamsBidi := max s.conn.maxStreamsBidi limit } }
  | .service readable sweep => { s with toDriver := s.toDriver.service readable sweep }
  | .write id bytes => s.onStream id fun b => ((b.pollWrite bytes).1, taken bytes (b.pollWrite bytes).2)
  | .read id room => s.onStream id fun b => ((b.pollRead room).1, [])
  | .shutdown id => s.onStream id fun b => (b.pollShutdown, [])
  | .drop id => s.onStream id fun b => (b.dropStream, [])

end System

end Boreas.Quic
