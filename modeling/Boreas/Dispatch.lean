import Boreas.Clamp
import Boreas.Inspected
import Boreas.Packet

/-! # Dispatching packets

The packet path of datapath.rs: a packet from the tunnel or the egress is reassembled, answered as DNS, dropped as
QUIC to an inspected address, or planned.  `dispatch` and `on_fragment` call each other, once for each datagram a
fragment completes; `dispatchWithin` bounds the depth, which the calls cannot use up (`dispatchWithin_of_depth`). -/

namespace Boreas

open L3

def Side.across : Side → Side
  | .tunnel => .egress
  | .egress => .tunnel

/-! ### Admission -/

def dnsPort : UInt16 := 53

def httpsPort : UInt16 := 443

inductive IngressAction
  | reassemble
  | resolveDns
  | dropSteered
  | forwardPacket (plan : FlowPlan)
  | openStream (plan : FlowPlan)
  | openDatagram (plan : FlowPlan)
  | handleIcmp (plan : FlowPlan)
  | dropUnsupported
deriving DecidableEq

inductive Backstop
  | lapsed
  | active
deriving DecidableEq, Repr

inductive Admission
  | settled (action : IngressAction)
  | planned
deriving DecidableEq

def admitPacket (transport : Transport) (dns : DnsPolicy) (backstop : Backstop) : Admission :=
  match transport with
  | .fragment => .settled .reassemble
  | .other => .settled .dropUnsupported
  | .udp _ destinationPort =>
    if destinationPort = dnsPort ∧ dns = .intercept then .settled .resolveDns
    else if destinationPort = httpsPort ∧ backstop = .active then .settled .dropSteered
    else .planned
  | .tcp _ _ => .planned
  | .icmp _ => .planned

def routePlanned (transport : Transport) (plan : FlowPlan) : IngressAction :=
  match plan.transport with
  | .packetFastPath _ => .forwardPacket plan
  | .localTermination =>
    match transport with
    | .tcp _ _ => .openStream plan
    | .udp _ _ => .openDatagram plan
    | .icmp _ => .handleIcmp plan
    | .other => .dropUnsupported
    | .fragment => .dropUnsupported

/-- Source ports of the connections this session originates itself. -/
structure OriginationPorts where
  start : UInt16
  end_ : UInt16
  start_ne : start ≠ 0
  lt : start < end_

def OriginationPorts.contains (ports : OriginationPorts) (port : UInt16) : Bool :=
  ports.start ≤ port ∧ port < ports.end_

/-! ### The state -/

structure DnsQuery where
  client : InternalEndpoint
  resolver : InternalEndpoint
  payload : Bytes
deriving DecidableEq, Repr

/-- A packet as it came: bytes of the caller, or a pool slice that moves along. -/
inductive Ingress
  | borrowed (bytes : Bytes)
  | owned (bytes : Bytes)
deriving DecidableEq, Repr

def Ingress.bytes : Ingress → Bytes
  | .borrowed bytes => bytes
  | .owned bytes => bytes

def Ingress.intoPooled (pool : BufferPool) : Ingress → BufferPool × Option Bytes
  | .borrowed bytes => pool.take bytes
  | .owned bytes => (pool, some bytes)

structure DispatchLimits extends Limits where
  reassemblyTimeout : Duration
  maxPendingReassemblies : ℕ+
  inspectionWindow : Duration
  maxInspectedAddresses : ℕ+
  inspectedPorts : List UInt16
  originationPorts : Option OriginationPorts

/-- The whole datapath. The inspected ports are sorted for a binary search, so that looking one up is membership. -/
structure Dispatcher extends Datapath where
  dns : DnsPolicy
  inspectedPorts : List UInt16
  originationPorts : Option OriginationPorts
  reassembler : Reassembler
  inspected : InspectedAddresses
  queries : List DnsQuery
  terminate : List Bytes
  icmp : IcmpBudget

namespace Dispatcher

def new (filter : FilterPolicy) (dns : DnsPolicy) (accepts : Accepts) (egress : PathProperties) (pathMtu : Mtu)
    (limits : DispatchLimits) (pool : BufferPool) (epoch : Instant) : Except DatapathError Dispatcher :=
  match Datapath.new filter dns accepts egress pathMtu limits.toLimits pool epoch with
  | .error e => .error e
  | .ok datapath => .ok
      { toDatapath := datapath
        dns := dns
        inspectedPorts := (limits.inspectedPorts.insertionSort (· ≤ ·)).dedup
        originationPorts := limits.originationPorts
        reassembler := .new limits.reassemblyTimeout limits.maxPendingReassemblies
        inspected := .new limits.inspectionWindow limits.maxInspectedAddresses
        queries := []
        terminate := []
        icmp := .new epoch }

variable (d : Dispatcher)

def pooling (pool : BufferPool) : Dispatcher := { d with pool := pool }

def resolving (reassembler : Reassembler) (events : List FlowEvent) : Dispatcher :=
  { d with reassembler := reassembler, events := events }

/-- What is left of a packet that goes no further: its slice returns to the pool. -/
def dropping : Ingress → Dispatcher
  | .borrowed _ => d
  | .owned _ => { d with pool := d.pool.release }

def noting (event : FlowEvent) : Dispatcher := { d with events := d.events ++ [event] }

/-! ### The decision -/

section

variable (packet : IngressPacket)

variable (origin : Side)

def inspection (now : Instant) : Inspection :=
  match packet.transport with
  | .tcp sourcePort destinationPort =>
    if d.originationPorts.any (·.contains sourcePort) then .excluded
    else if origin ≠ .tunnel ∨ d.filter ≠ .inspectHttp ∨ destinationPort ∉ d.inspectedPorts ∨
        d.inspected.live packet.destination now = false then .excluded
    else .candidate
  | _ => .excluded

def backstop (now : Instant) : Backstop :=
  match origin with
  | .tunnel => if d.inspected.live packet.destination now then .active else .lapsed
  | .egress => .lapsed

def kept : Option FlowPlan :=
  if origin = .tunnel then (keyOf packet).bind (fun key => (d.flows.getMut key).map FlowState.plan) else none

/-- A live flow keeps its plan; the inspection window decides new flows. -/
def planFor (now : Instant) : Except PlanError FlowPlan :=
  match d.kept packet origin with
  | some plan => .ok plan
  | none => d.plans (d.inspection packet origin now)

def action (d : Dispatcher) (packet : IngressPacket) (origin : Side) (now : Instant) : Except PlanError IngressAction :=
  match admitPacket packet.transport d.dns (d.backstop packet origin now) with
  | .settled action => .ok action
  | .planned =>
    match d.planFor packet origin now with
    | .error e => .error e
    | .ok plan => .ok (routePlanned packet.transport plan)

/-! ### What is done with a packet -/

def interceptDns (buf : Bytes) : Dispatcher :=
  match packet.transport with
  | .udp sourcePort destinationPort =>
    match (packet.payload buf).map d.pool.take with
    | none => d.noting .transmitDropped
    | some (pool, none) => { d with pool := pool }.noting .transmitDropped
    | some (pool, some payload) =>
      { d with
        pool := pool
        queries := d.queries ++
          [⟨⟨packet.source, sourcePort⟩, ⟨packet.destination, destinationPort⟩, payload⟩] }
  | _ => d

end

def captureForTermination (ingress : Ingress) : Dispatcher :=
  match ingress.intoPooled d.pool with
  | (pool, some packet) => { d with pool := pool, terminate := d.terminate ++ [packet] }
  | (pool, none) => { d with pool := pool }.noting .transmitDropped

def answerWith (write : Bytes → Except WriteError (Bytes × ℕ)) : Dispatcher × Bool :=
  match d.pool.takeZeroed d.pool.sliceSize with
  | (pool, none) => ({ d with pool := pool }.noting .transmitDropped, false)
  | (pool, some reply) =>
    match write reply with
    | .ok (reply, len) => ({ d with pool := pool, transmits := d.transmits ++ [⟨.tunnel, reply.take len⟩] }, true)
    | .error _ => ({ d with pool := pool.release }.noting .transmitDropped, false)

def takeIcmp (now : Instant) : Dispatcher × Bool :=
  let (icmp, granted) := d.icmp.take now
  ({ d with icmp := icmp }, granted)

variable (E : Etherparse)

def exhaust (d : Dispatcher) (bytes : Bytes) (to_ : Side) (quotingAllowed : Bool) (now : Instant) :
    Dispatcher :=
  let d := d.noting .hopsExhausted
  let d :=
    if to_ = .egress ∧ quotingAllowed then
      match d.takeIcmp now with
      | (d, true) => (d.answerWith (fun reply => writeTimeExceeded E reply bytes)).1
      | (d, false) => d
    else d
  { d with pool := d.pool.release }

def forward (d : Dispatcher) (ingress : Ingress) (to_ : Side) (clamp : Option Mtu)
    (quotingAllowed : Bool) (now : Instant) : Dispatcher :=
  match ingress.intoPooled d.pool with
  | (pool, none) => { d with pool := pool }.noting .transmitDropped
  | (pool, some bytes) =>
    match spendHop bytes with
    | (bytes, some 0) => { d with pool := pool }.exhaust E bytes to_ quotingAllowed now
    | (bytes, _) =>
      let bytes := clamp.elim bytes (fun innerMtu => (clampMss bytes innerMtu).1)
      { d with pool := pool, transmits := d.transmits ++ [⟨to_, bytes⟩] }

def reportTooBig (d : Dispatcher) (buf : Bytes) (innerMtu : Mtu) (now : Instant) : Dispatcher :=
  match d.takeIcmp now with
  | (d, false) => d
  | (d, true) =>
    match d.answerWith (fun reply => writeTooBig E reply buf innerMtu.bytes) with
    | (d, true) => d.noting (.pathReported innerMtu)
    | (d, false) => d

/-- The `ForwardPacket` arm: an oversized packet of the client is answered instead. -/
def forwardPacket (d : Dispatcher) (packet : IngressPacket) (ingress : Ingress) (origin : Side)
    (plan : FlowPlan) (now : Instant) : Dispatcher :=
  -- An ICMP error is never answered with one.
  let quotingAllowed := packet.transport ≠ .icmp .error
  match plan.transport with
  | .packetFastPath innerMtu =>
    if origin = .tunnel ∧ quotingAllowed ∧ innerMtu.bytes < ingress.bytes.length then
      (d.reportTooBig E ingress.bytes innerMtu now).dropping ingress
    else d.forward E ingress origin.across (some innerMtu) quotingAllowed now
  | .localTermination => d.forward E ingress origin.across none quotingAllowed now

/-- The `OpenStream` arm. The shell owns TCP, so only the client's packets are captured. -/
def openStream (packet : IngressPacket) (ingress : Ingress) (origin : Side) (plan : FlowPlan)
    (now : Instant) : Dispatcher × Except DatapathError Unit :=
  match keyOf packet with
  | none => (d.dropping ingress, .ok ())
  | some key =>
    match d.openFlow key plan now with
    | (datapath, .error e) => ({ d with toDatapath := datapath }.dropping ingress, .error e)
    | (datapath, .ok opened) =>
      let d := { d with toDatapath := datapath }
      let d := if opened then d.noting (.streamOpened key.client) else d
      (if origin = .tunnel then d.captureForTermination ingress else d.dropping ingress, .ok ())

def onFragment
    (dispatch : Dispatcher → IngressPacket → Ingress → Side → Instant → Dispatcher × Except DatapathError Unit)
    (d : Dispatcher) (buf : Bytes) (origin : Side) (now : Instant) : Dispatcher × Except DatapathError Unit :=
  match fragmentOf E buf with
  | .error e => (d, .error (.malformed e))
  | .ok none => (d, .ok ())
  | .ok (some fragment) =>
    match d.reassembler.push fragment now with
    | (reassembler, .pending) => ({ d with reassembler := reassembler }, .ok ())
    | (reassembler, .discarded) => ({ d with reassembler := reassembler }.noting .reassemblyDiscarded, .ok ())
    | (reassembler, .complete datagram) =>
      let d := { d with reassembler := reassembler }
      match IngressPacket.parse E datagram with
      | .error e => (d, .error (.malformed e))
      | .ok packet => dispatch d packet (.borrowed datagram) origin now

/-! ### Dispatch -/

/-- `dispatch`, for at most `depth` calls within one another. -/
def dispatchWithin (E : Etherparse) : ℕ → Dispatcher → IngressPacket → Ingress → Side → Instant →
    Dispatcher × Except DatapathError Unit
  | 0, d, _, _, _, _ => (d, .ok ())
  | depth + 1, d, packet, ingress, origin, now =>
    match d.action packet origin now with
    | .error e => (d.dropping ingress, .error (.plan e))
    | .ok .reassemble =>
      let (d, result) := d.onFragment E (dispatchWithin E depth) ingress.bytes origin now
      (d.dropping ingress, result)
    | .ok .resolveDns => ((d.interceptDns packet ingress.bytes).dropping ingress, .ok ())
    | .ok .dropSteered => ((d.noting .quicSteered).dropping ingress, .ok ())
    | .ok (.forwardPacket plan) => (d.forwardPacket E packet ingress origin plan now, .ok ())
    | .ok (.openStream plan) => d.openStream packet ingress origin plan now
    | .ok (.openDatagram plan) =>
      let (datapath, result) := d.openDatagram packet ingress.bytes origin plan now
      ({ d with toDatapath := datapath }.dropping ingress, result)
    | .ok (.handleIcmp _) => (d.forward E ingress origin.across none false now, .ok ())
    | .ok .dropUnsupported => (d.dropping ingress, .ok ())

def maxRebuilt : ℕ := ipv6HeaderBytes + 65535

def depth (buf : Bytes) : ℕ :=
  Table.size d.reassembler.pending * (maxRebuilt + 1) + buf.length + 1

section

variable (d : Dispatcher)

def dispatch (packet : IngressPacket) (ingress : Ingress) (origin : Side)
    (now : Instant) : Dispatcher × Except DatapathError Unit :=
  dispatchWithin E (d.depth ingress.bytes) d packet ingress origin now

def dispatchFromEgress (packet : IngressPacket) (ingress : Ingress)
    (now : Instant) : Dispatcher × Except DatapathError Unit :=
  if packet.transport = .fragment then ((d.noting .reassemblyDiscarded).dropping ingress, .ok ())
  else d.dispatch E packet ingress .egress now

/-! ### Calls -/

/-- A packet from one side: `on_tun_packet`, `on_tun_owned`, `on_egress_packet` or `on_egress_owned`. -/
def onPacket (origin : Side) (ingress : Ingress) (now : Instant) :
    Dispatcher × Except DatapathError Unit :=
  match IngressPacket.parse E ingress.bytes with
  | .error e => (d.dropping ingress, .error (.malformed e))
  | .ok packet =>
    match origin with
    | .tunnel => d.dispatch E packet ingress .tunnel now
    | .egress => d.dispatchFromEgress E packet ingress now

def onTunPacket (buf : Bytes) (now : Instant) :
    Dispatcher × Except DatapathError Unit := d.onPacket E .tunnel (.borrowed buf) now

def onTunOwned (packet : Bytes) (now : Instant) :
    Dispatcher × Except DatapathError Unit := d.onPacket E .tunnel (.owned packet) now

def onEgressPacket (buf : Bytes) (now : Instant) :
    Dispatcher × Except DatapathError Unit := d.onPacket E .egress (.borrowed buf) now

def onEgressOwned (packet : Bytes) (now : Instant) :
    Dispatcher × Except DatapathError Unit := d.onPacket E .egress (.owned packet) now

end

/-- One `TransmitDropped` for each address that found no room. -/
def inspectAddresses (addresses : List IpAddr) (now : Instant) : Dispatcher :=
  let (inspected, refused) := d.inspected.admitAddresses addresses now
  { d with inspected := inspected, events := d.events ++ List.replicate refused .transmitDropped }

def answerDns (client resolver : InternalEndpoint) (response : Bytes) :
    Dispatcher × Except DatapathError Unit :=
  match d.pool.takeZeroed (udpDatagramLen resolver.address response.length) with
  | (pool, none) => ({ d with pool := pool }.noting .transmitDropped, .ok ())
  | (pool, some bytes) =>
    match writeUdp bytes resolver client response with
    | .error e => ({ d with pool := pool.release }, .error (.write e))
    | .ok (bytes, _) => ({ d with pool := pool, transmits := d.transmits ++ [⟨.tunnel, bytes⟩] }, .ok ())

def releasing (ended : List FlowState) : Dispatcher :=
  { d with pool := BufferPool.release^[(ended.map (fun state => state.buffer.datagrams.length)).sum] d.pool }

def onTimeout (now : Instant) : Dispatcher :=
  { d with
    toDatapath := d.toDatapath.onTimeout now
    reassembler := (d.reassembler.expire now).1
    inspected := d.inspected.expire now }.releasing (d.flows.expire now).2

def ended (accepts : Accepts) (next : PathProperties) : List FlowState :=
  (d.flows.flows.entries.map (fun e => e.2.value)).filter (fun state => (d.replanned accepts next state).isNone)

def onPathChange (accepts : Accepts) (next : PathProperties) : Dispatcher :=
  { d with toDatapath := d.toDatapath.onPathChange accepts next }.releasing (d.ended accepts next)

/-! ### Runs -/

/-- A call on the datapath. The shell also takes slices from the pool, for the packets it hands over, and returns
those it was handed. -/
inductive Op
  | packet (origin : Side) (ingress : Ingress) (now : Instant)
  | inspectAddresses (addresses : List IpAddr) (now : Instant)
  | answerDns (client resolver : InternalEndpoint) (response : Bytes)
  | deliverDatagram (client peer : InternalEndpoint) (payload : Bytes) (now : Instant)
  | onTimeout (now : Instant)
  | onPathChange (accepts : Accepts) (next : PathProperties)
  | pollDatagram
  | pollQuery
  | pollTerminate
  | pollTransmit
  | pollEvent
  | takeSlice (len : ℕ)
  | returnSlice

def Op.reading : Op → Option Instant
  | .packet _ _ now => some now
  | .inspectAddresses _ now => some now
  | .deliverDatagram _ _ _ now => some now
  | .onTimeout now => some now
  | _ => none

def step (d : Dispatcher) : Op → Dispatcher
  | .packet origin ingress now => (d.onPacket E origin ingress now).1
  | .inspectAddresses addresses now => d.inspectAddresses addresses now
  | .answerDns client resolver response => (d.answerDns client resolver response).1
  | .deliverDatagram client peer payload now =>
    { d with toDatapath := (d.deliverDatagram client peer payload now).1 }
  | .onTimeout now => d.onTimeout now
  | .onPathChange accepts next => d.onPathChange accepts next
  | .pollDatagram => { d with toDatapath := d.pollDatagram.1 }
  | .pollQuery => { d with queries := d.queries.tail }
  | .pollTerminate => { d with terminate := d.terminate.tail }
  | .pollTransmit => { d with transmits := d.transmits.tail }
  | .pollEvent => { d with events := d.events.tail }
  | .takeSlice len => { d with pool := (d.pool.reserve len).1 }
  | .returnSlice => { d with pool := d.pool.release }

/-! ### A session that inspects HTTP on a packet egress -/

def packetPath : PathProperties := ⟨.native, 0, none⟩

def tunnelMtu : Mtu := ⟨1500, by decide, by decide⟩

def exampleLimits : DispatchLimits where
  flowIdleTimeout := fromSecs 120
  maxFlows := 16
  datagramBufferCapacity := 16
  reassemblyTimeout := fromSecs 30
  maxPendingReassemblies := 4
  inspectionWindow := fromSecs 60
  maxInspectedAddresses := 4
  inspectedPorts := [443, 80]
  originationPorts := none

def inspecting (accepts : Accepts) : Dispatcher where
  filter := .inspectHttp
  accepts := accepts
  egress := packetPath
  pathMtu := tunnelMtu
  plans := fun inspection => planFlow .inspectHttp inspection accepts packetPath tunnelMtu
  plans_eq := fun _ => rfl
  pool := .new 1500 8
  datagramBufferCapacity := 16
  flows := ⟨fromSecs 120, 16, ∅, TimerWheel.new (Instant.ofSecs 0)⟩
  events := []
  transmits := []
  ready := []
  dns := .intercept
  inspectedPorts := [80, 443]
  originationPorts := none
  reassembler := .new (fromSecs 30) 4
  inspected := .new (fromSecs 60) 4
  queries := []
  terminate := []
  icmp := .new (Instant.ofSecs 0)

theorem new_inspecting (accepts : Accepts) : new .inspectHttp .intercept accepts packetPath tunnelMtu exampleLimits
    (.new 1500 8) (Instant.ofSecs 0) = .ok (inspecting accepts) := by
  cases accepts <;> rfl

def plainPacket (protocol : UInt8) (source destination : BitVec 32) (sourcePort destinationPort : UInt16)
    (rest : Bytes) : Bytes :=
  [0x45, 0] ++ octets 2 (24 + rest.length) ++ [0, 0, 0, 0, 64, protocol, 0, 0] ++ octets 4 source.toNat ++
    octets 4 destination.toNat ++ octets 2 sourcePort.toNat ++ octets 2 destinationPort.toNat ++ rest

def exampleSegment : Bytes :=
  plainPacket 6 0xc0000201#32 0xc6336402#32 4000 443 (List.replicate 8 0 ++ 0x50 :: List.replicate 7 0)

def exampleConnection : FlowKey := .connection ⟨.v4 0xc0000201#32, 4000⟩ ⟨.v4 0xc6336402#32, 443⟩

end Dispatcher

end Boreas
