import Boreas.Datapath
import Boreas.Reassembly

/-! # Packets in and out

The rest of l3/packet.rs: `IngressPacket.parse` summarises a packet as the slicer cut it, `writeIcmpError` quotes
one in an ICMP error, and `spendHop` takes one hop of a packet that is forwarded.  The slicer and the packet
builder are a library: `Etherparse` holds their answers, with what that library documents of them. -/

namespace Boreas

open L3 Slices List

structure Subslice (packet : Bytes) where
  at_ : ℕ
  len : ℕ
  within : at_ + len ≤ packet.length

inductive TransportSlice (packet : Bytes)
  | tcp (sourcePort destinationPort : UInt16) (payload : Subslice packet)
  | udp (sourcePort destinationPort : UInt16) (payload : Subslice packet)
  | icmpv4 (kind : UInt8) (payload : Subslice packet)
  | icmpv6 (kind : UInt8) (payload : Subslice packet)
  | igmp

structure SlicedPacket (packet : Bytes) where
  net : Option (NetSlice packet)
  transport : Option (TransportSlice packet)

inductive IcmpError
  | tooBig (nextHopMtu : ℕ)
  | timeExceeded
deriving DecidableEq, Repr

/-- The packet library: `fromIp` is `none` for bytes it refuses, and each builder's packet is its headers and the
quote. An IPv4 payload is fragmented when its header says so. -/
structure Etherparse where
  fromIp : (packet : Bytes) → Option (SlicedPacket packet)
  icmpv4 (source destination : BitVec 32) (error : IcmpError) (quote : Bytes) : Bytes
  icmpv6 (source destination : BitVec 128) (error : IcmpError) (quote : Bytes) : Bytes
  length_icmpv4 : ∀ source destination error quote,
    (icmpv4 source destination error quote).length = 20 + 8 + quote.length
  length_icmpv6 : ∀ source destination error quote,
    (icmpv6 source destination error quote).length = 40 + 8 + quote.length
  fragmented_ipv4 : ∀ packet sliced slice, fromIp packet = some sliced → sliced.net = some (.ipv4 slice) →
    slice.isPayloadFragmented = true → slice.moreFragments = true ∨ slice.fragmentsOffset ≠ 0

/-- An IPv4 header without options, and the packet within the length that it declares. -/
abbrev IsPlain (packet : Bytes) (total : ℕ) : Prop := packet.headD 0 = 0x45 ∧ 28 ≤ total ∧ total ≤ packet.length

def plainHeader (packet : Bytes) {total : ℕ} (h : IsPlain packet total) : Ipv4Slice packet :=
  let moreFragments : Bool := packet.getD 6 0 &&& 0x20 ≠ 0
  let offset : Fin 8192 := Fin.ofNat 8192 (fromBeBytes (packet.getD 6 0) (packet.getD 7 0))
  { isPayloadFragmented := moreFragments || offset ≠ 0
    ihl := 5
    source := BitVec.ofNat 32 (ofOctets (slice packet 12 4))
    destination := BitVec.ofNat 32 (ofOctets (slice packet 16 4))
    protocol := packet.getD 9 0
    identification := BitVec.ofNat 16 (ofOctets (slice packet 4 2))
    fragmentsOffset := offset
    moreFragments := moreFragments
    payload := slice packet 20 (total - 20)
    headerRead := ⟨le_refl _, by omega, by rw [h.1]; decide⟩
    version := by rw [h.1]; decide }

def plainTransport (packet : Bytes) {total : ℕ} (h : total ≤ packet.length) : Option (TransportSlice packet) :=
  let port (at_ : ℕ) : UInt16 := UInt16.ofNat (ofOctets (slice packet at_ 2))
  let length := fromBeBytes (packet.getD 24 0) (packet.getD 25 0)
  if ht : packet.getD 9 0 = 6 ∧ packet.getD 32 0 >>> 4 = 5 ∧ 40 ≤ total then
    some (.tcp (port 20) (port 22) ⟨40, total - 40, by omega⟩)
  else if hu : packet.getD 9 0 = 17 ∧ 8 ≤ length ∧ 20 + length ≤ total then
    some (.udp (port 20) (port 22) ⟨28, length - 8, by omega⟩)
  else none

/-- The library on IPv4 packets that carry TCP or UDP, without options; it refuses the rest. -/
def plainIp : Etherparse where
  fromIp packet :=
    if h : IsPlain packet (fromBeBytes (packet.getD 2 0) (packet.getD 3 0)) then
      let ipv4 := plainHeader packet h
      if ipv4.isPayloadFragmented then some ⟨some (.ipv4 ipv4), none⟩
      else (plainTransport packet h.2.2).map (⟨some (.ipv4 ipv4), some ·⟩)
    else none
  icmpv4 _ _ _ quote := List.replicate (20 + 8) 0 ++ quote
  icmpv6 _ _ _ quote := List.replicate (40 + 8) 0 ++ quote
  length_icmpv4 _ _ _ _ := by rw [length_append, length_replicate]
  length_icmpv6 _ _ _ _ := by rw [length_append, length_replicate]
  fragmented_ipv4 := by
    intro packet sliced slice hsliced hnet hfragmented
    dsimp only at hsliced
    split_ifs at hsliced with h hfrag
    · cases hsliced
      cases hnet
      simpa [plainHeader] using hfragmented
    · obtain ⟨transport, -, rfl⟩ := Option.map_eq_some_iff.mp hsliced
      cases hnet
      exact absurd hfragmented hfrag

/-- The library on IPv6 packets whose first extension is a Fragment header; it refuses the rest. -/
def plainFragments : Etherparse where
  fromIp packet :=
    let headers := packet.take 56
    let fragmenting (at_ : ℕ) : Bool := fromBeBytes (headers.getD (at_ + 2) 0) (headers.getD (at_ + 3) 0) &&& 0xfff9 ≠ 0
    let declared := ipv6HeaderBytes + fromBeBytes (headers.getD 4 0) (headers.getD 5 0)
    if h : packet.headD 0 = 0x60 ∧ headers.getD 6 0 = ipv6Fragment ∧ 56 ≤ declared ∧ declared ≤ packet.length then
      some ⟨some (.ipv6
        { isPayloadFragmented := fragmenting 40 || headers.getD 40 0 = ipv6Fragment && fragmenting 48
          source := BitVec.ofNat 128 (ofOctets (slice headers 8 16))
          destination := BitVec.ofNat 128 (ofOctets (slice headers 24 16))
          fragment := some
            { nextHeader := headers.getD 40 0
              identification := BitVec.ofNat 32 (ofOctets (slice headers 44 4))
              fragmentOffset := Fin.ofNat 8192 (fromBeBytes (headers.getD 42 0) (headers.getD 43 0) / 8)
              moreFragments := headers.getD 43 0 &&& 1 ≠ 0 }
          version := by rw [h.1]; decide }), none⟩
    else none
  icmpv4 := plainIp.icmpv4
  icmpv6 := plainIp.icmpv6
  length_icmpv4 := plainIp.length_icmpv4
  length_icmpv6 := plainIp.length_icmpv6
  fragmented_ipv4 _ _ _ hsliced hnet := by
    dsimp only at hsliced
    split_ifs at hsliced
    cases hsliced
    cases hnet

/-! ### Reading -/

def icmpv4Class (kind : UInt8) : IcmpClass :=
  if kind = 3 ∨ kind = 4 ∨ kind = 5 ∨ kind = 11 ∨ kind = 12 then .error else .informational

def icmpv6Class (kind : UInt8) : IcmpClass := if kind < 128 then .error else .informational

def TransportSlice.read {packet : Bytes} : Option (TransportSlice packet) → Transport × Option (Subslice packet)
  | some (.tcp sourcePort destinationPort payload) => (.tcp sourcePort destinationPort, some payload)
  | some (.udp sourcePort destinationPort payload) => (.udp sourcePort destinationPort, some payload)
  | some (.icmpv4 kind payload) => (.icmp (icmpv4Class kind), some payload)
  | some (.icmpv6 kind payload) => (.icmp (icmpv6Class kind), some payload)
  | some .igmp => (.other, none)
  | none => (.other, none)

def IngressPacket.summary {packet : Bytes} (source destination : IpAddr)
    (family : sameFamily source destination = true) (fragmented : Bool) (transport : Option (TransportSlice packet)) :
    Except PacketError IngressPacket :=
  match if fragmented then (.fragment, none) else TransportSlice.read transport with
  | (transport, none) => .ok ⟨source, destination, transport, 0, 0, family⟩
  | (transport, some payload) =>
    if payload.at_ < 65536 ∧ payload.len < 65536 then
      .ok ⟨source, destination, transport, payload.at_, payload.len, family⟩
    else .error .oversized

variable (E : Etherparse)

def IngressPacket.parse (packet : Bytes) : Except PacketError IngressPacket :=
  match E.fromIp packet with
  | none => .error .malformed
  | some sliced =>
    match sliced.net with
    | none => .error .missingNetworkLayer
    | some .arp => .error .unsupportedNetworkLayer
    | some (.ipv4 ipv4) =>
      summary (.v4 ipv4.source) (.v4 ipv4.destination) rfl ipv4.isPayloadFragmented sliced.transport
    | some (.ipv6 ipv6) =>
      summary (.v6 ipv6.source) (.v6 ipv6.destination) rfl ipv6.isPayloadFragmented sliced.transport

def fragmentOf (packet : Bytes) : Except PacketError (Option Fragment) :=
  match E.fromIp packet with
  | none => .error .malformed
  | some sliced => .ok (Fragment.parse sliced.net)

/-! ### Writing ICMP errors -/

def maxIcmpv4Error : ℕ := 576

def maxIcmpv6Error : ℕ := 1280

def emit (out packet : Bytes) : Except WriteError (Bytes × ℕ) :=
  if packet.length ≤ out.length then .ok (overwrite out 0 packet, packet.length) else .error .outputTooSmall

variable (out quoted : Bytes)

def writeIcmpError (error : IcmpError) : Except WriteError (Bytes × ℕ) :=
  match IngressPacket.parse E quoted with
  | .error _ => .error .unquotable
  | .ok parsed =>
    match parsed.destination, parsed.source with
    | .v4 source, .v4 destination =>
      emit out (E.icmpv4 source destination error (quoted.take (maxIcmpv4Error - (20 + 8))))
    | .v6 source, .v6 destination =>
      emit out (E.icmpv6 source destination error (quoted.take (maxIcmpv6Error - (40 + 8))))
    | _, _ => .error .mixedFamilies

def writeTooBig (nextHopMtu : ℕ) : Except WriteError (Bytes × ℕ) :=
  writeIcmpError E out quoted (.tooBig nextHopMtu)

def writeTimeExceeded : Except WriteError (Bytes × ℕ) :=
  writeIcmpError E out quoted .timeExceeded

/-! ### Hops -/

/-- `spend_hop`: the packet with one hop less, and the hops left; `none` for a packet that is not IP. A packet
whose last hop this is stays as it was. -/
def spendHop (packet : Bytes) : Bytes × Option ℕ :=
  match packet.head? with
  | none => (packet, none)
  | some version =>
    if version >>> 4 = 4 ∧ 20 ≤ packet.length then
      let left := (packet.getD 8 0).toNat - 1
      if left = 0 then (packet, some 0)
      else
        let packet := packet.set 8 (UInt8.ofNat left)
        -- The word of TTL and protocol fell by 0x0100, so the complement sum rises by it, carried end around.
        let check := fromBeBytes (packet.getD 10 0) (packet.getD 11 0) + 0x0100
        let check := check % 65536 + check / 65536
        (overwrite packet 10 (toBeBytes check), some left)
    else if version >>> 4 = 6 ∧ 40 ≤ packet.length then
      let left := (packet.getD 7 0).toNat - 1
      (if 0 < left then packet.set 7 (UInt8.ofNat left) else packet, some left)
    else (packet, none)

theorem length_spendHop (pkt : Bytes) : (spendHop pkt).1.length = pkt.length := by
  unfold spendHop
  split
  · rfl
  dsimp only
  split_ifs with hipv4 hlast hipv6 hleft
  · rfl
  · rw [length_overwrite, length_set]
    rw [length_toBeBytes, length_set]
    omega
  · exact length_set
  · rfl
  · rfl

theorem spendHop_exhausted {packet : Bytes} (h : (spendHop packet).2 = some 0) : (spendHop packet).1 = packet := by
  unfold spendHop at h ⊢
  split at h
  · cases h
  dsimp only at h ⊢
  split_ifs at h ⊢ with hipv4 hlast hipv6 hleft
  · rfl
  · simp only [Option.some.injEq] at h
    omega
  · simp only [Option.some.injEq] at h
    omega
  · rfl

end Boreas
