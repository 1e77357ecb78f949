import Boreas.DatapathQueues

/-! # Counting dropped datagrams

The way of every datagram through a tunnel with a relay, and that of the counts of those that are dropped
(host/shell.rs, l4/relay.rs, api.rs).  A step is what one task does between two waits.  A datagram that is neither
delivered nor queued has been dropped (`Tunnel.dropped`).  `Tunnel.start` drops the receiver of the relay's counts, so
none of them arrives: `counted_run` says when the sum over the host's events and what is held is right. -/

namespace Boreas

open L3 Table

namespace Counting

/-! ### The state -/

structure RelayCounts where
  associationsRefused : ℕ
  datagramsDropped : ℕ
  associationsFailed : ℕ
deriving DecidableEq, Repr

def RelayCounts.default : RelayCounts := ⟨0, 0, 0⟩

/-- What the reactor tells the host. The variants that count no datagrams are `other`. -/
inductive Telemetry
  | datagramsDropped (count : ℕ)
  | lost (count : ℕ)
  | other
deriving DecidableEq, Repr

def Telemetry.counted : Telemetry → ℕ
  | .datagramsDropped count => count
  | .lost _ => 0
  | .other => 0

/-- A channel whose receiver is gone refuses every offer, as one without capacity. -/
def closed {α : Type} : Channel α := ⟨0, []⟩

/-- How far `serve_association` is. A failed association counts what its queue holds, and returns. -/
inductive Phase
  | connecting
  | serving
  | returned (counted : ℕ)
  | ended
deriving DecidableEq, Repr

structure Association where
  client : InternalEndpoint
  queue : List Outbound
  phase : Phase
  counts : RelayCounts

def associationDepth : ℕ := 32

def channelDepth : ℕ := 256

/-- A tunnel with a relay. `entered` and `delivered` count datagrams of both directions, and `given` is what the
host has been given; no task keeps these. -/
structure Tunnel where
  running : Bool
  datapath : Datapath
  counters : ℕ
  telemetry : Channel Telemetry
  lost : ℕ
  outbound : Channel Outbound
  inbound : Channel Inbound
  maxAssociations : ℕ+
  live : Table InternalEndpoint ℕ
  associations : Table ℕ Association
  next : ℕ
  pending : RelayCounts
  counts : Channel RelayCounts
  given : List Telemetry
  entered : ℕ
  delivered : ℕ

namespace Tunnel

/-- The part of `Tunnel::start` that the datagrams meet. The receiver of the relay's counts is dropped there. -/
def start (datapath : Datapath) (maxAssociations : ℕ+) : Tunnel where
  running := true
  datapath := datapath
  counters := 0
  telemetry := ⟨channelDepth, []⟩
  lost := 0
  outbound := ⟨channelDepth, []⟩
  inbound := ⟨channelDepth, []⟩
  maxAssociations := maxAssociations
  live := ∅
  associations := ∅
  next := 0
  pending := .default
  counts := closed
  given := []
  entered := 0
  delivered := 0

/-! ### The reactor -/

def captures (d : Datapath) (packet : IngressPacket) (origin : Side) (plan : FlowPlan) (now : Instant) : Bool :=
  match packet.transport, keyOf packet with
  | .udp _ _, some key => origin = .tunnel ∧ (d.openFlow key plan now).2.toBool
  | _, _ => false

variable (t : Tunnel)

def emit (observation : Telemetry) : Tunnel :=
  match t.telemetry.trySend observation with
  | (_, false) => { t with lost := min (t.lost + 1) BufferPool.u64Max }
  | (telemetry, true) =>
    if t.lost = 0 then { t with telemetry := telemetry }
    else
      match telemetry.trySend (.lost t.lost) with
      | (telemetry, true) => { t with telemetry := telemetry, lost := 0 }
      | (_, false) => { t with telemetry := telemetry }

/-- The part of `Counters::flush` for dropped datagrams: the count is reset whether or not it was taken. -/
def flush : Tunnel :=
  if t.counters = 0 then t else { t.emit (.datagramsDropped t.counters) with counters := 0 }

def drainDatagram : Tunnel :=
  match t.datapath.pollDatagram with
  | (datapath, none) => { t with datapath := datapath }
  | (datapath, some datagram) =>
    match t.outbound.trySend datagram with
    | (outbound, true) => { t with datapath := datapath, outbound := outbound }
    | (_, false) => { t with datapath := datapath, counters := t.counters + 1 }

def drainEvent : Tunnel :=
  match t.datapath.events with
  | [] => t
  | event :: events =>
    { t with
      datapath := { t.datapath with events := events }
      counters := if Datapath.isDrop event then t.counters + 1 else t.counters }

def deliver (now : Instant) : Tunnel :=
  match t.inbound.queue with
  | [] => t
  | ⟨client, peer, payload⟩ :: rest =>
    let t := { t with inbound := { t.inbound with queue := rest } }
    match t.datapath.deliverDatagram client peer payload now with
    | (datapath, .ok .buffered) => { t with datapath := datapath, delivered := t.delivered + 1 }
    | (datapath, .ok .dropped) => { t with datapath := datapath, counters := t.counters + 1 }
    -- Counted as a rejected packet.
    | (datapath, .error _) => { t with datapath := datapath }

def reactorEnds : Tunnel :=
  { t with
    running := false
    datapath := { t.datapath with flows := { t.datapath.flows with flows := ∅ }, events := [], ready := [] }
    counters := 0
    inbound := closed }

/-! ### The relay -/

variable (k : ℕ)

def isOpen : Bool :=
  match t.associations.lookup k with
  | some a => a.phase ≠ .ended
  | none => false

/-- Associations whose tasks ended are forgotten: the client's own, and at the ceiling every client's. -/
def reap (client : InternalEndpoint) : Table InternalEndpoint ℕ :=
  let live := match t.live.lookup client with
    | some k => if t.isOpen k then t.live else t.live.erase client
    | none => t.live
  if live.lookup client = none ∧ t.maxAssociations ≤ size live then
    retain (fun _ k => if t.isOpen k then some k else none) live
  else live

def dropPending : Tunnel :=
  { t with pending := { t.pending with datagramsDropped := t.pending.datagramsDropped + 1 } }

def offer (datagram : Outbound) : Tunnel :=
  match t.associations.lookup k with
  | none => t.dropPending
  | some a =>
    if a.phase ≠ .ended ∧ a.queue.length < associationDepth then
      { t with associations := t.associations.insert k { a with queue := a.queue ++ [datagram] } }
    else t.dropPending

def openAssociation (client : InternalEndpoint) : Tunnel :=
  { t with
    live := t.live.insert client t.next
    associations := t.associations.insert t.next ⟨client, [], .connecting, .default⟩
    next := t.next + 1 }

def relayRecv : Tunnel :=
  match t.outbound.queue with
  | [] => t
  | datagram :: rest =>
    let t := { t with outbound := { t.outbound with queue := rest }, live := t.reap datagram.client }
    match t.live.lookup datagram.client with
    | some k => t.offer k datagram
    | none =>
      if t.maxAssociations ≤ size t.live then
        { t with pending := { t.pending with associationsRefused := t.pending.associationsRefused + 1 } }
      else (t.openAssociation datagram.client).offer t.next datagram

def send (report : RelayCounts) : Tunnel := { t with counts := (t.counts.trySend report).1 }

def report : Tunnel := { t.send t.pending with pending := .default }

def relayEnds : Tunnel := { t.report with outbound := closed }

/-! ### Associations -/

def update (phase : Phase) (f : Association → Tunnel) : Tunnel :=
  match t.associations.lookup k with
  | some a => if a.phase = phase then f a else t
  | none => t

def put (a : Association) : Tunnel := { t with associations := t.associations.insert k a }

def associate (ok : Bool) : Tunnel :=
  t.update k .connecting fun a =>
    if ok then t.put k { a with phase := .serving }
    else t.put k
      { a with
        phase := .returned a.queue.length
        counts := { a.counts with
          associationsFailed := a.counts.associationsFailed + 1
          datagramsDropped := a.counts.datagramsDropped + a.queue.length } }

def sendTo (ok : Bool) : Tunnel :=
  t.update k .serving fun a =>
    match a.queue with
    | [] => t
    | _ :: rest =>
      if ok then { t.put k { a with queue := rest } with delivered := t.delivered + 1 }
      else t.put k
        { a with
          queue := rest
          counts := { a.counts with datagramsDropped := a.counts.datagramsDropped + 1 } }

def arrivals : Received → ℕ
  | .ok _ => 1
  | .error (.datagramTooLarge _) => 1
  | .error _ => 0

def receive (r : Received) : Tunnel :=
  t.update k .serving fun a =>
    let s : Served := ⟨t.datapath.pool, t.inbound, a.counts.datagramsDropped⟩
    let (s, goesOn) := s.onReceived a.client r
    { t.put k
        { a with
          phase := if goesOn then .serving else .returned 0
          counts := { a.counts with datagramsDropped := s.dropped } } with
      datapath := { t.datapath with pool := s.pool }
      inbound := s.inbound
      entered := t.entered + arrivals r }

def stop : Tunnel := t.update k .serving fun a => t.put k { a with phase := .returned 0 }

def close : Tunnel :=
  match t.associations.lookup k with
  | some a =>
    match a.phase with
    | .returned _ => (t.send a.counts).put k { a with queue := [], phase := .ended, counts := .default }
    | _ => t
  | none => t

/-! ### The host -/

def hostTakes : Tunnel :=
  match t.telemetry.queue with
  | [] => t
  | observation :: rest =>
    { t with telemetry := { t.telemetry with queue := rest }, given := t.given ++ [observation] }

end Tunnel

/-! ### Runs -/

inductive Event
  | capture (packet : IngressPacket) (buf : Bytes) (origin : Side) (plan : FlowPlan) (now : Instant)
  | openStream (key : FlowKey) (plan : FlowPlan) (now : Instant)
  | onTimeout (now : Instant)
  | onPathChange (accepts : Accepts) (next : PathProperties)
  | drainDatagram
  | drainEvent
  | deliver (now : Instant)
  | flush
  | emit
  | reactorEnds
  | relayRecv
  | report
  | relayEnds
  | associate (k : ℕ) (ok : Bool)
  | sendTo (k : ℕ) (ok : Bool)
  | receive (k : ℕ) (r : Received)
  | stop (k : ℕ)
  | close (k : ℕ)
  | hostTakes
  | hostCloses
  /-- The shared pool is used by others. -/
  | poolUsed (pool : BufferPool)

/-- The reactor's part of a step; it does nothing once it has ended. -/
def Tunnel.reacts (t : Tunnel) : Event → Tunnel
  | .capture packet buf origin plan now =>
    { t with
      datapath := (t.datapath.openDatagram packet buf origin plan now).1
      entered := if Tunnel.captures t.datapath packet origin plan now then t.entered + 1 else t.entered }
  | .openStream key plan now => { t with datapath := (t.datapath.openFlow key plan now).1 }
  | .onTimeout now => { t with datapath := t.datapath.onTimeout now }
  | .onPathChange accepts next => { t with datapath := t.datapath.onPathChange accepts next }
  | .drainDatagram => t.drainDatagram
  | .drainEvent => t.drainEvent
  | .deliver now => t.deliver now
  | .flush => t.flush
  | .emit => t.emit .other
  | .reactorEnds => t.reactorEnds
  | _ => t

def step (t : Tunnel) : Event → Tunnel
  | .relayRecv => t.relayRecv
  | .report => t.report
  | .relayEnds => t.relayEnds
  | .associate k ok => t.associate k ok
  | .sendTo k ok => t.sendTo k ok
  | .receive k r => t.receive k r
  | .stop k => t.stop k
  | .close k => t.close k
  | .hostTakes => t.hostTakes
  | .hostCloses => { t with telemetry := closed }
  | .poolUsed pool => { t with datapath := { t.datapath with pool := pool } }
  | event => if t.running then t.reacts event else t

/-! ### The balance -/

def Association.waiting (a : Association) : ℕ :=
  match a.phase with
  | .returned counted => a.queue.length - counted
  | _ => a.queue.length

def Association.Ok (a : Association) : Prop := ∀ n, a.phase = .returned n → n ≤ a.queue.length

def counted (observations : List Telemetry) : ℕ := (observations.map Telemetry.counted).sum

namespace Tunnel

variable (t : Tunnel)

def inFlight : ℕ :=
  t.datapath.queued + t.outbound.queue.length + t.inbound.queue.length +
    total (fun _ a => a.waiting) t.associations

def held : ℕ :=
  t.counters + t.datapath.noted + counted t.telemetry.queue + t.pending.datagramsDropped +
    total (fun _ a => a.counts.datagramsDropped) t.associations +
    (t.counts.queue.map RelayCounts.datagramsDropped).sum

/-- The sum that the host makes of the events it has been given. -/
def reported : ℕ := counted t.given

/-- The datagrams that entered and are neither delivered nor in a queue. -/
def dropped : ℕ := t.entered - (t.delivered + t.inFlight)

structure Sound (t : Tunnel) : Prop where
  known : ∀ k a, t.associations.lookup k = some a → k < t.next ∧ a.Ok
  silent : t.counts = closed

structure Balanced (t : Tunnel) : Prop extends t.Sound where
  balance : t.entered = t.delivered + t.inFlight + (t.reported + t.held)

def Admitted (client : InternalEndpoint) : Prop :=
  (∃ k, t.live.lookup client = some k ∧ t.isOpen k = true) ∨
    total (fun _ k => if t.isOpen k then 1 else 0) t.live < t.maxAssociations

def Accounts : Event → Prop
  -- The pool can hold a captured datagram.
  | .capture packet buf origin plan now => captures t.datapath packet origin plan now = true →
      ∃ payload, packet.payload buf = some payload ∧ payload.length ≤ t.datapath.pool.sliceSize ∧
        0 < t.datapath.pool.available
  -- No flow expires, and the path does not change, while datagrams are queued.
  | .onTimeout now => Datapath.Unexpired now t.datapath.flows
  | .onPathChange _ _ =>
    ∀ key st, t.datapath.flows.flows.lookup key = some st → st.value.buffer.datagrams = []
  -- A reply can be written for its client.
  | .deliver now => ∀ inbound ∈ t.inbound.queue.head?,
      t.datapath.Deliverable inbound.client inbound.peer inbound.payload now
  -- The telemetry channel takes a report.
  | .flush => t.counters = 0 ∨ t.telemetry.queue.length < t.telemetry.capacity
  | .reactorEnds => t.datapath.queued = 0 ∧ t.datapath.noted = 0 ∧ t.counters = 0 ∧ t.inbound.queue = []
  -- No client is refused an association.
  | .relayRecv => ∀ datagram ∈ t.outbound.queue.head?, t.Admitted datagram.client
  -- The relay and its associations have dropped nothing when they report.
  | .report => t.pending.datagramsDropped = 0
  | .relayEnds => t.outbound.queue = [] ∧ t.pending.datagramsDropped = 0
  | .close k => ∀ a n, t.associations.lookup k = some a → a.phase = .returned n →
      a.queue.length = n ∧ a.counts.datagramsDropped = 0
  | .hostCloses => counted t.telemetry.queue = 0
  | _ => True

end Tunnel

end Counting

end Boreas
