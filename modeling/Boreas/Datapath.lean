import Boreas.FlowTable
import Boreas.Plan
import Boreas.Pool
import Boreas.UdpPacket

/-! # Client datagrams in the datapath

The part of datapath.rs that carries the UDP datagrams of terminated flows: `openDatagram` queues a client's datagram
at its flow, `pollDatagram` hands the queued ones out round robin, `deliverDatagram` turns a reply into a packet.  A
queued datagram's target is of its client's family (`attributed_run`). -/

namespace Boreas

open L3 List Option

inductive IcmpClass
  | error
  | informational
deriving DecidableEq, Repr

inductive Transport
  | tcp (sourcePort destinationPort : UInt16)
  | udp (sourcePort destinationPort : UInt16)
  | icmp (kind : IcmpClass)
  | other
  | fragment
deriving DecidableEq, Repr

structure IngressPacket where
  source : IpAddr
  destination : IpAddr
  transport : Transport
  payloadAt : ℕ
  payloadLen : ℕ
  family : sameFamily source destination = true

inductive PacketError
  | malformed
  | missingNetworkLayer
  | unsupportedNetworkLayer
  | oversized
deriving DecidableEq, Repr

def IngressPacket.payload (p : IngressPacket) (packet : Bytes) : Option Bytes :=
  takeAt packet p.payloadAt p.payloadLen

inductive FlowKey
  | connection (client server : InternalEndpoint)
  | mapping (client : InternalEndpoint)
deriving DecidableEq, Repr

def FlowKey.client : FlowKey → InternalEndpoint
  | .connection client _ => client
  | .mapping client => client

def keyOf (packet : IngressPacket) : Option FlowKey :=
  match packet.transport with
  | .tcp sourcePort destinationPort =>
    some (.connection ⟨packet.source, sourcePort⟩ ⟨packet.destination, destinationPort⟩)
  | .udp sourcePort _ => some (.mapping ⟨packet.source, sourcePort⟩)
  | .icmp _ => none
  | .other => none
  | .fragment => none

inductive SendOutcome
  | buffered
  | dropped
deriving DecidableEq, Repr

structure DatagramBuffer (τ : Type*) where
  capacity : ℕ+
  datagrams : List τ
  dropped : ℕ

namespace DatagramBuffer

variable {τ : Type*}

def new (capacity : ℕ+) : DatagramBuffer τ := ⟨capacity, [], 0⟩

def trySend (b : DatagramBuffer τ) (datagram : τ) : DatagramBuffer τ × SendOutcome :=
  if b.datagrams.length = b.capacity then
    ({ b with dropped := min (b.dropped + 1) BufferPool.u64Max }, .dropped)
  else ({ b with datagrams := b.datagrams ++ [datagram] }, .buffered)

def recv (b : DatagramBuffer τ) : Option (τ × DatagramBuffer τ) :=
  match b.datagrams with
  | [] => none
  | datagram :: rest => some (datagram, { b with datagrams := rest })

end DatagramBuffer

structure Outbound where
  client : InternalEndpoint
  target : SocketAddr
  payload : Bytes
deriving DecidableEq, Repr

structure FlowState where
  plan : FlowPlan
  buffer : DatagramBuffer (SocketAddr × Bytes)

inductive Side
  | tunnel
  | egress
deriving DecidableEq, Repr

structure Transmit where
  to_ : Side
  bytes : Bytes
deriving DecidableEq, Repr

inductive FlowEvent
  | streamOpened (client : InternalEndpoint)
  | datagramOpened (client : InternalEndpoint)
  | datagramDropped (client : InternalEndpoint)
  | reassemblyDiscarded
  | resteered (reason : SteeringReason)
  | flowTornDown (client : InternalEndpoint)
  | transmitDropped
  | quicSteered
  | pathReported (mtu : Mtu)
  | hopsExhausted
deriving DecidableEq, Repr

inductive DatapathError
  | malformed (error : PacketError)
  | plan (error : PlanError)
  | flowTable (error : FlowTableError)
  | write (error : WriteError)
  | vacuous
deriving DecidableEq, Repr

structure Limits where
  flowIdleTimeout : Duration
  maxFlows : ℕ+
  datagramBufferCapacity : ℕ+

/-- The datapath, as far as client datagrams reach. The cached plans are those of the current path. -/
structure Datapath where
  filter : FilterPolicy
  accepts : Accepts
  egress : PathProperties
  pathMtu : Mtu
  plans : Inspection → Except PlanError FlowPlan
  plans_eq : ∀ inspection, plans inspection = planFlow filter inspection accepts egress pathMtu
  pool : BufferPool
  datagramBufferCapacity : ℕ+
  flows : UdpFlowTable FlowKey FlowState
  events : List FlowEvent
  transmits : List Transmit
  ready : List FlowKey

namespace Datapath

def new (filter : FilterPolicy) (dns : DnsPolicy) (accepts : Accepts) (egress : PathProperties) (pathMtu : Mtu)
    (limits : Limits) (pool : BufferPool) (epoch : Instant) : Except DatapathError Datapath :=
  -- Forwarded DNS cannot select flows for inspection on a packet egress.
  if filter = .inspectHttp ∧ dns = .forward ∧ accepts = .ipPackets then .error .vacuous
  else
    match planFlow filter .candidate accepts egress pathMtu, planFlow filter .excluded accepts egress pathMtu,
      UdpFlowTable.new limits.flowIdleTimeout limits.maxFlows epoch with
    | .error e, _, _ => .error (.plan e)
    | .ok _, .error e, _ => .error (.plan e)
    | .ok _, .ok _, .error e => .error (.flowTable e)
    | .ok _, .ok _, .ok flows => .ok
        { filter := filter
          accepts := accepts
          egress := egress
          pathMtu := pathMtu
          plans := fun inspection => planFlow filter inspection accepts egress pathMtu
          plans_eq := fun _ => rfl
          pool := pool
          datagramBufferCapacity := limits.datagramBufferCapacity
          flows := flows
          events := []
          transmits := []
          ready := [] }

theorem empty_of_new {filter : FilterPolicy} {accepts : Accepts} {egress : PathProperties}
    {pathMtu : Mtu} {pool : BufferPool}
    (h : Datapath.new filter dns accepts egress pathMtu limits pool epoch = .ok d) :
    d.flows.flows = ∅ ∧ d.flows.idleTimeout = limits.flowIdleTimeout ∧ d.events = [] ∧ d.transmits = [] ∧
      d.pathMtu = pathMtu := by
  unfold Datapath.new at h
  split_ifs at h
  split at h <;> try cases h
  next flows hflows =>
    unfold UdpFlowTable.new at hflows
    split_ifs at hflows
    cases hflows
    exact ⟨rfl, rfl, rfl, rfl, rfl⟩

variable (d : Datapath)

def contains (key : FlowKey) : Bool := (d.flows.flows.lookup key).isSome

def openFlow (key : FlowKey) (plan : FlowPlan) (now : Instant) :
    Datapath × Except DatapathError Bool :=
  match d.flows.getOrInsertWith key now ⟨plan, .new d.datagramBufferCapacity⟩ with
  | (flows, .error e) => ({ d with flows := flows }, .error (.flowTable e))
  | (flows, .ok _) => ({ d with flows := flows }, .ok (!d.contains key))

def captureDatagram (packet : IngressPacket) (buf : Bytes) (client : FlowKey) : Datapath :=
  match packet.transport with
  | .udp _ destinationPort =>
    let target : SocketAddr := ⟨packet.destination, destinationPort⟩
    match (packet.payload buf).map d.pool.take with
    | none => { d with events := d.events ++ [.transmitDropped] }
    | some (pool, none) => { d with pool := pool, events := d.events ++ [.transmitDropped] }
    | some (pool, some payload) =>
      match d.flows.getMut client with
      | none => { d with pool := pool.release, events := d.events ++ [.transmitDropped] }
      | some flow =>
        match flow.buffer.trySend (target, payload) with
        | (buffer, .dropped) =>
          { d with
            pool := pool.release
            flows := d.flows.putMut client { flow with buffer := buffer }
            events := d.events ++ [.datagramDropped client.client] }
        | (buffer, .buffered) =>
          { d with
            pool := pool
            flows := d.flows.putMut client { flow with buffer := buffer }
            -- One entry for each turn from empty to non-empty.
            ready := if flow.buffer.datagrams = [] then d.ready ++ [client] else d.ready }
  | _ => d

def openDatagram (packet : IngressPacket) (buf : Bytes) (origin : Side) (plan : FlowPlan)
    (now : Instant) : Datapath × Except DatapathError Unit :=
  match keyOf packet with
  | none => (d, .ok ())
  | some key =>
    match d.openFlow key plan now with
    | (d, .error e) => (d, .error e)
    | (d, .ok opened) =>
      let d := if opened then { d with events := d.events ++ [.datagramOpened key.client] } else d
      (if origin = .tunnel then d.captureDatagram packet buf key else d, .ok ())

def pollLoop (flows : UdpFlowTable FlowKey FlowState) :
    List FlowKey → UdpFlowTable FlowKey FlowState × List FlowKey × Option Outbound
  | [] => (flows, [], none)
  | client :: ready =>
    match flows.getMut client with
    -- The flow expired with its queue.
    | none => pollLoop flows ready
    | some flow =>
      match flow.buffer.recv with
      -- Another turn drained the queue.
      | none => pollLoop flows ready
      | some ((target, payload), buffer) =>
        (flows.putMut client { flow with buffer := buffer },
          if buffer.datagrams = [] then ready else ready ++ [client],
          some ⟨client.client, target, payload⟩)

def pollDatagram : Datapath × Option Outbound :=
  let (flows, ready, out) := pollLoop d.flows d.ready
  ({ d with flows := flows, ready := ready }, out)

def deliverDatagram (client peer : InternalEndpoint) (payload : Bytes) (now : Instant) :
    Datapath × Except DatapathError SendOutcome :=
  if d.contains (.mapping client) = false then (d, .ok .dropped)
  else
    match d.plans .excluded with
    | .error e => (d, .error (.plan e))
    | .ok plan =>
      match d.flows.getOrInsertWith (.mapping client) now ⟨plan, .new d.datagramBufferCapacity⟩ with
      | (flows, .error e) => ({ d with flows := flows }, .error (.flowTable e))
      | (flows, .ok _) =>
        match d.pool.takeZeroed (udpDatagramLen peer.address payload.length) with
        | (pool, none) =>
          ({ d with flows := flows, pool := pool, events := d.events ++ [.transmitDropped] }, .ok .dropped)
        | (pool, some bytes) =>
          match writeUdp bytes peer client payload with
          | .error e => ({ d with flows := flows, pool := pool.release }, .error (.write e))
          | .ok (bytes, _) =>
            ({ d with flows := flows, pool := pool, transmits := d.transmits ++ [⟨.tunnel, bytes⟩] },
              .ok .buffered)

def replanned (accepts : Accepts) (next : PathProperties) (state : FlowState) : Option FlowState :=
  match replan state.plan d.filter .excluded accepts next d.pathMtu with
  | .ok .unchanged => some state
  | .ok (.resteer _ plan) => some { state with plan := plan }
  | .ok .teardown => none
  | .error _ => none

def replanEvent (accepts : Accepts) (next : PathProperties) (key : FlowKey) (state : FlowState) :
    Option FlowEvent :=
  match replan state.plan d.filter .excluded accepts next d.pathMtu with
  | .ok .unchanged => none
  | .ok (.resteer reason _) => some (.resteered reason)
  | .ok .teardown => some (.flowTornDown key.client)
  | .error _ => some (.flowTornDown key.client)

def onPathChange (accepts : Accepts) (next : PathProperties) : Datapath :=
  { d with
    accepts := accepts
    egress := next
    plans := fun inspection => planFlow d.filter inspection accepts next d.pathMtu
    plans_eq := fun _ => rfl
    flows := (d.flows.retain (fun _ => d.replanned accepts next)).1
    events := d.events ++ d.flows.flows.entries.filterMap (fun e => d.replanEvent accepts next e.1 e.2.value) }

def onTimeout (now : Instant) : Datapath := { d with flows := (d.flows.expire now).1 }

/-! ### Runs -/

/-- A call that reaches the flows. Streams are opened by `openFlow` alone. -/
inductive Op
  | openStream (key : FlowKey) (plan : FlowPlan) (now : Instant)
  | openDatagram (packet : IngressPacket) (buf : Bytes) (origin : Side) (plan : FlowPlan) (now : Instant)
  | pollDatagram
  | deliverDatagram (client peer : InternalEndpoint) (payload : Bytes) (now : Instant)
  | onTimeout (now : Instant)
  | onPathChange (accepts : Accepts) (next : PathProperties)

def step : Op → Datapath
  | .openStream key plan now => (d.openFlow key plan now).1
  | .openDatagram packet buf origin plan now => (d.openDatagram packet buf origin plan now).1
  | .pollDatagram => d.pollDatagram.1
  | .deliverDatagram client peer payload now => (d.deliverDatagram client peer payload now).1
  | .onTimeout now => d.onTimeout now
  | .onPathChange accepts next => d.onPathChange accepts next

def QueuedSameFamily (key : FlowKey) (state : FlowState) : Prop :=
  ∀ x ∈ state.buffer.datagrams, sameFamily key.client.address x.1.ip = true

def Attributed : Prop := d.flows.AllFlows QueuedSameFamily

theorem queuedSameFamily_new (key : FlowKey) (plan : FlowPlan) (cap : ℕ+) :
    QueuedSameFamily key ⟨plan, .new cap⟩ := by
  intro x hx
  cases hx

variable {d : Datapath}

theorem attributed_openFlow (h : d.Attributed) (key : FlowKey) (plan : FlowPlan) (now : Instant) :
    (d.openFlow key plan now).1.Attributed := by
  have hflows := h.getOrInsertWith now (queuedSameFamily_new key plan d.datagramBufferCapacity)
  unfold openFlow
  rcases hr : d.flows.getOrInsertWith key now ⟨plan, .new d.datagramBufferCapacity⟩ with ⟨flows, result⟩
  rw [hr] at hflows
  cases result with
  | error e | ok _ => exact hflows

theorem queuedSameFamily_trySend (target : SocketAddr) (payload : Bytes)
    (h : QueuedSameFamily key state) (htgt : sameFamily key.client.address target.ip = true) :
    QueuedSameFamily key { state with buffer := (state.buffer.trySend (target, payload)).1 } := by
  unfold DatagramBuffer.trySend
  split_ifs with hfull
  · exact h
  intro x hx
  rcases mem_append.mp hx with hx | hx
  · exact h x hx
  · rw [mem_singleton.mp hx]
    exact htgt

theorem attributed_captureDatagram (h : d.Attributed) (buf : Bytes)
    (hkey : keyOf pkt = some key) : (d.captureDatagram pkt buf key).Attributed := by
  unfold captureDatagram
  cases ht : pkt.transport with
  | udp srcPort dstPort =>
    have hclient : key.client.address = pkt.source := by
      rw [keyOf, ht] at hkey
      cases hkey
      rfl
    rcases hp : (pkt.payload buf).map d.pool.take with _ | ⟨pool, payload⟩
    · exact h
    rcases payload with _ | payload
    · exact h
    rcases hflow : d.flows.getMut key with _ | flow
    · exact h
    obtain ⟨st, hst, rfl⟩ := map_eq_some_iff.mp hflow
    have hsent := queuedSameFamily_trySend ⟨pkt.destination, dstPort⟩ payload
      (h key st hst) (by rw [hclient]; exact pkt.family)
    have hput := UdpFlowTable.AllFlows.putMut h hsent
    dsimp only
    rcases hr : st.value.buffer.trySend (⟨pkt.destination, dstPort⟩, payload) with ⟨buffer, outcome⟩
    rw [hr] at hput
    cases outcome with
    | dropped | buffered => exact hput
  | _ => exact h

theorem attributed_openDatagram (h : d.Attributed) (pkt : IngressPacket) (buf : Bytes)
    (origin : Side) (plan : FlowPlan) (now : Instant) : (d.openDatagram pkt buf origin plan now).1.Attributed := by
  unfold openDatagram
  rcases hkey : keyOf pkt with _ | key
  · exact h
  have hopen := attributed_openFlow h key plan now
  dsimp only
  rcases hr : d.openFlow key plan now with ⟨d', result⟩
  rw [hr] at hopen
  rcases result with _ | opened
  · exact hopen
  dsimp only
  have hevent : (if opened then { d' with events := d'.events ++ [.datagramOpened key.client] }
      else d').Attributed := by
    cases opened with
    | true | false => exact hopen
  by_cases horig : origin = .tunnel
  · rw [if_pos horig]
    exact attributed_captureDatagram hevent buf hkey
  · rw [if_neg horig]
    exact hevent

def Dry (flows : UdpFlowTable FlowKey FlowState) (key : FlowKey) : Prop :=
  ∀ flow, flows.getMut key = some flow → flow.buffer.datagrams = []

theorem pollLoop_dry {flows : UdpFlowTable FlowKey FlowState} (h : Dry flows client) (ready : List FlowKey) :
    pollLoop flows (client :: ready) = pollLoop flows ready := by
  conv_lhs => unfold pollLoop
  cases hflow : flows.getMut client with
  | none => rfl
  | some flow => simp only [DatagramBuffer.recv, h flow hflow]

theorem pollLoop_spec (flows : UdpFlowTable FlowKey FlowState) (ready : List FlowKey) :
    (pollLoop flows ready = (flows, [], none) ∧ ∀ key ∈ ready, Dry flows key) ∨
      ∃ before client after flow target payload rest,
        ready = before ++ client :: after ∧ (∀ key ∈ before, Dry flows key) ∧
        flows.getMut client = some flow ∧ flow.buffer.datagrams = (target, payload) :: rest ∧
        pollLoop flows ready = (flows.putMut client { flow with buffer := { flow.buffer with datagrams := rest } },
            if rest = [] then after else after ++ [client], some ⟨client.client, target, payload⟩) := by
  induction ready with
  | nil => exact .inl ⟨rfl, by simp⟩
  | cons client ready ih =>
    by_cases hdry : Dry flows client
    · rw [pollLoop_dry hdry]
      obtain ⟨heq, hall⟩ | ⟨before, client', after, flow, target, payload, rest, hsplit, hall, hrest⟩ := ih
      · exact .inl ⟨heq, forall_mem_cons.mpr ⟨hdry, hall⟩⟩
      · exact .inr ⟨client :: before, client', after, flow, target, payload, rest, by simp [hsplit],
          forall_mem_cons.mpr ⟨hdry, hall⟩, hrest⟩
    · unfold Dry at hdry
      push Not at hdry
      obtain ⟨flow, hflow, hne⟩ := hdry
      obtain ⟨⟨target, payload⟩, rest, hqueue⟩ := exists_cons_of_ne_nil hne
      right
      refine ⟨[], client, ready, flow, target, payload, rest, rfl, by simp, hflow, hqueue, ?_⟩
      unfold pollLoop
      simp only [hflow, DatagramBuffer.recv, hqueue]

theorem pollLoop_sameFamily {flows : UdpFlowTable FlowKey FlowState} (h : flows.AllFlows QueuedSameFamily)
    (ready : List FlowKey) : (pollLoop flows ready).1.AllFlows QueuedSameFamily ∧
      ∀ out ∈ (pollLoop flows ready).2.2, sameFamily out.client.address out.target.ip = true := by
  obtain ⟨heq, -⟩ | ⟨before, client, after, flow, target, payload, rest, -, -, hflow, hqueue, heq⟩ :=
    pollLoop_spec flows ready <;> rw [heq]
  · exact ⟨h, nofun⟩
  obtain ⟨st, hst, rfl⟩ := map_eq_some_iff.mp hflow
  have hqueued := h client st hst
  rw [QueuedSameFamily, hqueue, forall_mem_cons] at hqueued
  refine ⟨h.putMut hqueued.2, fun out hout => ?_⟩
  cases hout
  exact hqueued.1

/-- What `deliverDatagram` can do: nothing, or refresh the client's flow and go on from there. -/
theorem deliverDatagram_cases (d : Datapath) (client peer : InternalEndpoint) (payload : Bytes) (now : Instant) :
    (d.deliverDatagram client peer payload now).1 = d ∨ d.contains (.mapping client) = true ∧
      ∃ plan pool transmits events, (d.deliverDatagram client peer payload now).1 = { d with
        flows := (d.flows.getOrInsertWith (.mapping client) now ⟨plan, .new d.datagramBufferCapacity⟩).1
        pool := pool, transmits := transmits, events := events } ∧
      (events = d.events ∨ events = d.events ++ [.transmitDropped]) ∧
      (transmits = d.transmits ∨ ∃ bytes out,
        (d.pool.takeZeroed (udpDatagramLen peer.address payload.length)).2 = some bytes ∧
        writeUdp bytes peer client payload = .ok out ∧ transmits = d.transmits ++ [⟨.tunnel, out.1⟩]) := by
  unfold deliverDatagram
  split_ifs with hlive
  · exact .inl rfl
  rw [Bool.not_eq_false] at hlive
  rcases d.plans .excluded with _ | plan
  · exact .inl rfl
  refine .inr ⟨hlive, plan, ?_⟩
  dsimp only
  rcases d.flows.getOrInsertWith (.mapping client) now ⟨plan, .new d.datagramBufferCapacity⟩ with ⟨flows, result⟩
  rcases result with _ | _
  · exact ⟨_, _, _, rfl, .inl rfl, .inl rfl⟩
  rcases htaken : d.pool.takeZeroed (udpDatagramLen peer.address payload.length) with ⟨pool, taken⟩
  rcases taken with _ | bytes
  · exact ⟨_, _, _, rfl, .inr rfl, .inl rfl⟩
  dsimp only
  cases hwrite : writeUdp bytes peer client payload with
  | error e => exact ⟨_, _, _, rfl, .inl rfl, .inl rfl⟩
  | ok out => exact ⟨_, _, _, rfl, .inl rfl, .inr ⟨bytes, out, rfl, hwrite, rfl⟩⟩

theorem attributed_deliverDatagram (h : d.Attributed) (client peer : InternalEndpoint) (payload : Bytes) (now : Instant) :
    (d.deliverDatagram client peer payload now).1.Attributed := by
  obtain heq | ⟨-, plan, pool, transmits, events, heq, -⟩ := d.deliverDatagram_cases client peer payload now <;> rw [heq]
  · exact h
  · exact h.getOrInsertWith now (queuedSameFamily_new (.mapping client) plan d.datagramBufferCapacity)

theorem buffer_replanned {d : Datapath} {accepts : Accepts} {next : PathProperties}
    (h : d.replanned accepts next state = some state') : state'.buffer = state.buffer := by
  unfold replanned at h
  split at h <;> cases h <;> rfl

theorem attributed_onPathChange (h : d.Attributed) (accepts : Accepts) (next : PathProperties) :
    (d.onPathChange accepts next).Attributed := by
  refine h.retain fun key state state' hstate hkeep => ?_
  unfold QueuedSameFamily
  rw [buffer_replanned hkeep]
  exact hstate

theorem attributed_step (h : d.Attributed) (op : Op) : (d.step op).Attributed := by
  cases op with
  | openStream key plan now => exact attributed_openFlow h key plan now
  | openDatagram pkt buf origin plan now => exact attributed_openDatagram h pkt buf origin plan now
  | pollDatagram => exact (pollLoop_sameFamily h d.ready).1
  | deliverDatagram client peer payload now => exact attributed_deliverDatagram h client peer payload now
  | onTimeout now => exact h.expire now
  | onPathChange accepts next => exact attributed_onPathChange h accepts next

/-- **Queues stay attributed in every run** from a datapath without flows. -/
theorem attributed_run (h : d.flows.flows = ∅) (ops : List Op) : (Runs.run step d ops).Attributed := by
  have hstart : d.Attributed := by
    intro key st hst
    rw [h] at hst
    cases hst
  exact Runs.run_kept (I := Attributed) (fun _ op hd => attributed_step hd op) ops d hstart

/-- **A datagram handed out has a target of its client's family**, after any run. -/
theorem pollDatagram_sameFamily (h : d.flows.flows = ∅) (hout : (Runs.run step d ops).pollDatagram.2 = some out) :
    sameFamily out.client.address out.target.ip = true :=
  (pollLoop_sameFamily (attributed_run h ops) _).2 out hout

/-! ### Delivering a reply -/

theorem getOrInsertWith_of_live {flows : UdpFlowTable FlowKey FlowState}
    (create : FlowState) (hlive : (flows.flows.lookup key).isSome) (hclock : (now.checkedAdd flows.idleTimeout).isSome) :
    ∃ flows' state, flows.getOrInsertWith key now create = (flows', .ok state) := by
  obtain ⟨st, hst⟩ := isSome_iff_exists.mp hlive
  obtain ⟨due, hdl⟩ := isSome_iff_exists.mp hclock
  unfold UdpFlowTable.getOrInsertWith
  rw [hdl, hst]
  exact ⟨_, _, rfl⟩

/-- **A reply from a peer of the client's family is queued for the client**, while the mapping lives and the pool
has room for the packet. -/
theorem deliverDatagram_sameFamily (hacc : d.accepts = .flows) (hlive : d.contains (.mapping client) = true)
    (hclock : (now.checkedAdd d.flows.idleTimeout).isSome) (hroom : 0 < d.pool.available)
    (hslice : udpDatagramLen peer.address payload.length ≤ d.pool.sliceSize)
    (hmax : payload.length ≤ maxUdpPayload peer.address) (hfam : sameFamily peer.address client.address = true) :
    (d.deliverDatagram client peer payload now).2 = .ok .buffered ∧
      ∃ bytes, (d.deliverDatagram client peer payload now).1.transmits = d.transmits ++ [⟨.tunnel, bytes⟩] ∧
        readUdp bytes = some ⟨peer, client, payload⟩ := by
  obtain ⟨flows, state, hflows⟩ := getOrInsertWith_of_live
    ⟨⟨.localTermination, planQuic d.filter .excluded d.egress .localTermination⟩, .new d.datagramBufferCapacity⟩
    hlive hclock
  obtain ⟨pool, htake⟩ := BufferPool.takeZeroed_of_room hslice hroom
  have hlen : (List.replicate (udpDatagramLen peer.address payload.length) (0 : UInt8)).length =
      udpDatagramLen peer.address payload.length := length_replicate
  obtain ⟨bytes, hwrite, hbytes, hread⟩ := readUdp_writeUdp hfam hmax (Nat.le_of_eq hlen.symm)
  rw [take_of_length_le (by rw [hbytes, hlen])] at hread
  have hplan := d.plans_eq .excluded
  rw [hacc, planFlow_flows] at hplan
  have heq : d.deliverDatagram client peer payload now =
      ({ d with flows := flows, pool := pool, transmits := d.transmits ++ [⟨.tunnel, bytes⟩] }, .ok .buffered) := by
    unfold deliverDatagram
    rw [if_neg (by rw [hlive]; decide), hplan]
    dsimp only
    rw [hflows]
    rw [htake]
    dsimp only
    rw [hwrite]
  rw [heq]
  exact ⟨rfl, bytes, rfl, hread⟩

theorem deliverDatagram_mixed (hfam : sameFamily peer.address client.address = false) :
    (d.deliverDatagram client peer payload now).2 ≠ .ok .buffered := by
  unfold deliverDatagram
  split_ifs with hlive
  · simp
  rcases d.plans .excluded with _ | plan
  · simp
  dsimp only
  rcases d.flows.getOrInsertWith (.mapping client) now ⟨plan, .new d.datagramBufferCapacity⟩ with ⟨flows, result⟩
  rcases result with _ | state
  · simp
  rcases d.pool.takeZeroed (udpDatagramLen peer.address payload.length) with ⟨pool, taken⟩
  rcases taken with _ | bytes
  · simp
  dsimp only
  rw [writeUdp_mixedFamilies hfam]
  simp

end Datapath

end Boreas
