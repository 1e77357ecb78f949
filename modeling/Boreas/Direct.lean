import Boreas.Relay

/-! # Direct UDP

The path of a reply through the direct egress.  The system reports an IPv4 peer of a dual-stack socket as its
IPv4-mapped IPv6 address, and no layer turns it back.  `returned_iff` says exactly when a reply comes back from the
address it was asked of. -/

namespace Boreas.Direct

open Datapath Instant L3 Runs

/-! ### The socket -/

inductive Family
  | v4
  | v6
deriving DecidableEq, Repr

structure UdpSocket where
  family : Family
deriving DecidableEq, Repr

/-- How the system answers the calls of `dual_stack_udp`. -/
structure SocketCalls where
  ipv6Socket : Bool
  setOnlyV6 : Bool
  ipv6Bind : Bool
  ipv4Socket : Bool
  ipv4Bind : Bool
  setNonblocking : Bool
deriving DecidableEq, Repr

def dualStackUdp (calls : SocketCalls) : Except ErrorKind UdpSocket := do
  let socket : UdpSocket ←
    if calls.ipv6Socket then
      if calls.setOnlyV6 = false ∨ calls.ipv6Bind = false then .error .other else .ok ⟨.v6⟩
    else if calls.ipv4Socket = false ∨ calls.ipv4Bind = false then .error .other
    else .ok ⟨.v4⟩
  if calls.setNonblocking = false then .error .other else .ok socket

def ipv4Mapped (address : BitVec 32) : BitVec 128 := BitVec.ofNat 128 (0xffff * 2 ^ 32 + address.toNat)

def UdpSocket.reports (s : UdpSocket) (peer : SocketAddr) : SocketAddr :=
  match s.family, peer.ip with
  | .v6, .v4 address => ⟨.v6 (ipv4Mapped address), peer.port⟩
  | _, _ => peer

/-- A UDP datagram as it arrives at a socket. Its length fits the length fields of its family. -/
structure Datagram where
  origin : SocketAddr
  payload : Bytes
  fits : payload.length ≤ maxUdpPayload origin.ip

theorem Datagram.length_le (d : Datagram) : d.payload.length ≤ 65535 := by
  refine le_trans d.fits ?_
  cases d.origin.ip <;> simp [maxUdpPayload, maxIpv4UdpPayload, maxIpv6UdpPayload]

/-- What a socket gives its next receive: a datagram, or the error that stands against it. -/
abbrev Arrived := Except ErrorKind Datagram

/-- The system's `recvfrom`: a buffer shorter than the datagram is filled and the rest discarded. -/
def UdpSocket.recvFrom (s : UdpSocket) (arrived : Datagram) (size : ℕ) : Bytes × SocketAddr :=
  (arrived.payload.take size, s.reports arrived.origin)

def recvFrom (relay : UdpSocket) (arrived : Datagram) (size : ℕ) : Received :=
  let (bytes, origin) := relay.recvFrom arrived size
  .ok (bytes, .ip origin)

/-! ### The way back -/

/-- The reply comes back: the association hands one datagram to the reactor, and delivering it queues one packet
for the tunnel, from the target to the client, with the whole reply. -/
def Returned (socket : UdpSocket) (s : Served) (d : Datapath) (now : Instant) (out : Outbound) (reply : Datagram) :
    Prop :=
  ∃ inbound, (s.onReceived out.client (recvFrom socket reply s.bufferSize)).1.inbound.queue =
      s.inbound.queue ++ [inbound] ∧
    (d.deliverDatagram inbound.client inbound.peer inbound.payload now).2 = .ok .buffered ∧
    ∃ bytes, (d.deliverDatagram inbound.client inbound.peer inbound.payload now).1.transmits =
        d.transmits ++ [⟨.tunnel, bytes⟩] ∧
      readUdp bytes = some ⟨out.target.endpoint, out.client, reply.payload⟩

/-- While the mapping lives, with room in the pool and the channels: the relay's association `s` when the reply
arrives, and the datapath `d` when it is delivered. A flow egress is configured, and the clock can express the
mapping's next deadline. -/
structure Room (s : Served) (d : Datapath) (now : Instant) (out : Outbound) (reply : Datagram) : Prop where
  slices : d.pool.sliceSize = s.pool.sliceSize
  relayPool : 0 < s.pool.available
  channel : s.inbound.queue.length < s.inbound.capacity
  pool : 0 < d.pool.available
  packet : udpDatagramLen reply.origin.ip reply.payload.length ≤ d.pool.sliceSize
  accepts : d.accepts = .flows
  live : d.contains (.mapping out.client) = true
  clock : (now.checkedAdd d.flows.idleTimeout).isSome = true

instance (s : Served) (d : Datapath) (now : Instant) (out : Outbound) (reply : Datagram) :
    Decidable (Room s d now out reply) :=
  decidable_of_iff (d.pool.sliceSize = s.pool.sliceSize ∧ 0 < s.pool.available ∧
      s.inbound.queue.length < s.inbound.capacity ∧ 0 < d.pool.available ∧
      udpDatagramLen reply.origin.ip reply.payload.length ≤ d.pool.sliceSize ∧ d.accepts = .flows ∧
      d.contains (.mapping out.client) = true ∧ (now.checkedAdd d.flows.idleTimeout).isSome = true)
    ⟨fun ⟨h1, h2, h3, h4, h5, h6, h7, h8⟩ => ⟨h1, h2, h3, h4, h5, h6, h7, h8⟩,
      fun h => ⟨h.slices, h.relayPool, h.channel, h.pool, h.packet, h.accepts, h.live, h.clock⟩⟩

theorem length_le_udpDatagramLen (family : IpAddr) (n : ℕ) : n ≤ udpDatagramLen family n := by
  cases family <;> exact Nat.le_add_left _ _

variable {socket : UdpSocket} {reply : Datagram} {out : Outbound} {now : Instant} {d : Datapath} {s : Served}

theorem handed_over (room : Room s d now out reply) :
    (s.onReceived out.client (recvFrom socket reply s.bufferSize)).1.inbound.queue =
      s.inbound.queue ++ [⟨out.client, (socket.reports reply.origin).endpoint, reply.payload⟩] := by
  have hlen : reply.payload.length ≤ s.pool.sliceSize := by
    rw [← room.slices]
    exact le_trans (length_le_udpDatagramLen reply.origin.ip reply.payload.length) room.packet
  have hwhole : recvFrom socket reply s.bufferSize = .ok (reply.payload, .ip (socket.reports reply.origin)) := by
    unfold recvFrom UdpSocket.recvFrom Served.bufferSize
    rw [List.take_of_length_le hlen]
  rw [hwhole]
  exact Served.onReceived_of_room out.client _ hlen room.relayPool room.channel

theorem sameFamily_comm (a b : IpAddr) : sameFamily a b = sameFamily b a := by
  cases a <;> cases b <;> rfl

theorem returned_of_reports (hfam : sameFamily out.client.address out.target.ip = true)
    (hreply : reply.origin = out.target) (hreps : socket.reports reply.origin = reply.origin)
    (room : Room s d now out reply) : Returned socket s d now out reply := by
  refine ⟨_, handed_over room, ?_⟩
  rw [hreps, hreply]
  have hpkt := room.packet
  have hmax := reply.fits
  rw [hreply] at hpkt hmax
  exact deliverDatagram_sameFamily room.accepts room.live room.clock room.pool hpkt hmax
    (by rw [sameFamily_comm]; exact hfam)

theorem not_returned_of_mixed (hmixed : sameFamily (socket.reports reply.origin).ip out.client.address = false)
    (room : Room s d now out reply) : ¬ Returned socket s d now out reply := by
  rintro ⟨inbound, hqueue, hdel, -⟩
  rw [handed_over room, List.append_cancel_left_eq, List.cons.injEq] at hqueue
  rw [← hqueue.1] at hdel
  exact deliverDatagram_mixed hmixed hdel

theorem family_dualStackUdp (h : dualStackUdp calls = .ok socket) :
    socket.family = if calls.ipv6Socket then .v6 else .v4 := by
  obtain ⟨six, only, bind6, four, bind4, nonblocking⟩ := calls
  cases six <;> cases only <;> cases bind6 <;> cases four <;> cases bind4 <;> cases nonblocking <;> cases h <;> rfl

/-- **When a reply comes back.** For every client datagram that the datapath handed out after any run and that the
relay sent through the direct egress, and every reply from its target, with room and while the mapping lives: the
reply comes back exactly when the host makes no IPv6 socket or the target is an IPv6 address. -/
theorem returned_iff {filter : FilterPolicy} {dns : DnsPolicy} {accepts : Accepts} {egress : PathProperties}
    {pathMtu : Mtu} {limits : Limits} {pool : BufferPool} {epoch : Instant} {d₀ : Datapath} {ops : List Datapath.Op}
    {out : Outbound} {calls : SocketCalls} {socket : UdpSocket} {s : Served} {d : Datapath} {now : Instant}
    {reply : Datagram} (hnew : new filter dns accepts egress pathMtu limits pool epoch = .ok d₀)
    (hout : (run step d₀ ops).pollDatagram.2 = some out)
    (hsocket : dualStackUdp calls = .ok socket) (hreply : reply.origin = out.target) (room : Room s d now out reply) :
    Returned socket s d now out reply ↔ calls.ipv6Socket = false ∨ ∃ address, out.target.ip = .v6 address := by
  have hfam := pollDatagram_sameFamily (empty_of_new hnew).1 hout
  have hmade := family_dualStackUdp hsocket
  cases hip : out.target.ip with
  | v6 address =>
    have hreps : socket.reports reply.origin = reply.origin := by
      unfold UdpSocket.reports
      rw [hreply, hip]
      cases socket.family <;> rfl
    exact ⟨fun _ => .inr ⟨address, rfl⟩, fun _ => returned_of_reports hfam hreply hreps room⟩
  | v4 address =>
    cases hsix : calls.ipv6Socket with
    | false =>
      rw [hsix] at hmade
      have hreps : socket.reports reply.origin = reply.origin := by
        unfold UdpSocket.reports
        rw [hmade]
        rfl
      exact ⟨fun _ => .inl rfl, fun _ => returned_of_reports hfam hreply hreps room⟩
    | true =>
      rw [hsix] at hmade
      have hreps : socket.reports reply.origin = ⟨.v6 (ipv4Mapped address), out.target.port⟩ := by
        unfold UdpSocket.reports
        rw [hmade, hreply, hip]
        rfl
      refine ⟨fun h => absurd h (not_returned_of_mixed ?_ room), fun h => ?_⟩
      · rw [hreps]
        rw [hip] at hfam
        cases hclient : out.client.address with
        | v4 client => rfl
        | v6 client => rw [hclient] at hfam; cases hfam
      · rcases h with h | ⟨_, h⟩ <;> cases h

/-! ### Two replies -/

def flowPath : PathProperties := ⟨.native, 0, none⟩

def pathMtu1500 : Mtu := ⟨1500, Nat.le_add_right 1280 220, Nat.le_of_ble_eq_true rfl⟩

def limits : Limits := ⟨fromSecs 120, Nat.succPNat 15, Nat.succPNat 15⟩

def fresh : Datapath :=
  { filter := .passThrough
    accepts := .flows
    egress := flowPath
    pathMtu := pathMtu1500
    plans := fun inspection => planFlow .passThrough inspection .flows flowPath pathMtu1500
    plans_eq := fun _ => rfl
    pool := .new (Nat.succPNat 1499) (Nat.succPNat 7)
    datagramBufferCapacity := Nat.succPNat 15
    flows := ⟨fromSecs 120, Nat.succPNat 15, ∅, TimerWheel.new (ofSecs 0)⟩
    events := []
    transmits := []
    ready := [] }

theorem new_fresh : new .passThrough .forward .flows flowPath pathMtu1500 limits (.new 1500 8)
    (ofSecs 0) = .ok fresh := rfl

def query (source destination : IpAddr) (header : ℕ) (h : sameFamily source destination = true) : Datapath.Op :=
  .openDatagram ⟨source, destination, .udp 4000 53, header, 1, h⟩ (List.replicate header 0 ++ [7]) .tunnel
    ⟨.localTermination, .passThrough⟩ (ofSecs 1)

def served : Served := ⟨.new (Nat.succPNat 1499) (Nat.succPNat 7), ⟨32, []⟩, 0⟩

def allCalls : SocketCalls := ⟨true, true, true, true, true, true⟩

theorem dualStackUdp_allCalls : dualStackUdp allCalls = .ok ⟨.v6⟩ := rfl

def client6 : IpAddr := .v6 0x20010db8000000000000000000000001#128

def target6 : IpAddr := .v6 0x20010db8000000000000000000000053#128

def query6 : Datapath.Op := query client6 target6 48 rfl

theorem returned_ipv6 :
    let d := run step fresh [query6]
    let out : Outbound := ⟨⟨client6, 4000⟩, ⟨target6, 53⟩, [7]⟩
    let reply : Datagram := ⟨⟨target6, 53⟩, [1, 2, 3], by decide⟩
    d.pollDatagram.2 = some out ∧ Room served d (ofSecs 2) out reply ∧
      Returned ⟨.v6⟩ served d (ofSecs 2) out reply := by
  intro d out reply
  have hout : d.pollDatagram.2 = some out := by decide +revert
  have room : Room served d (ofSecs 2) out reply := by decide +revert
  exact ⟨hout, room, (returned_iff new_fresh hout dualStackUdp_allCalls rfl room).mpr (.inr ⟨_, rfl⟩)⟩

def client4 : IpAddr := .v4 0xc0000201#32

def target4 : IpAddr := .v4 0xc6336402#32

def query4 : Datapath.Op := query client4 target4 28 rfl

/-- **A reply from an IPv4 target does not come back**: the system reports `::ffff:198.51.100.2`, and no packet can
be written from it to the client `192.0.2.1`. -/
theorem not_returned_ipv4 :
    let d := run step fresh [query4]
    let out : Outbound := ⟨⟨client4, 4000⟩, ⟨target4, 53⟩, [7]⟩
    let reply : Datagram := ⟨⟨target4, 53⟩, [1, 2, 3], by decide⟩
    d.pollDatagram.2 = some out ∧ dualStackUdp allCalls = .ok ⟨.v6⟩ ∧
      Room served d (ofSecs 2) out reply ∧ ¬ Returned ⟨.v6⟩ served d (ofSecs 2) out reply := by
  intro d out reply
  have hout : d.pollDatagram.2 = some out := by decide +revert
  have room : Room served d (ofSecs 2) out reply := by decide +revert
  exact ⟨hout, dualStackUdp_allCalls, room, not_returned_of_mixed rfl room⟩

end Boreas.Direct
