import Boreas.Packet

/-! # UDP packets read back

What `writeUdp` writes is read by `IngressPacket.parse` as it was written, with sums that verify (`udp_reads_back`).
The slicer is assumed to cut the packet at its header lengths (`CutsUdp`). -/

namespace Boreas

open L3 List Slices

def NetSlice.endpoints {packet : Bytes} : NetSlice packet → Option (IpAddr × IpAddr)
  | .ipv4 slice => if slice.isPayloadFragmented then none else some (.v4 slice.source, .v4 slice.destination)
  | .ipv6 slice => if slice.isPayloadFragmented then none else some (.v6 slice.source, .v6 slice.destination)
  | .arp => none

/-- A well-formed UDP packet is cut at its header lengths. -/
def Etherparse.CutsUdp (E : Etherparse) (packet : Bytes) : Prop :=
  ∀ u, readUdp packet = some u → ∃ net payload, E.fromIp packet =
    some ⟨some net, some (.udp u.source.port u.destination.port payload)⟩ ∧
      NetSlice.endpoints net = some (u.source.address, u.destination.address) ∧
      payload.at_ = udpDatagramLen u.source.address 0 ∧ payload.len = u.payload.length

structure ReadsBack (E : Etherparse) (u : UdpPacket) (packet : Bytes) : Prop where
  valid : readUdp packet = some u
  check : slice packet (udpDatagramLen u.source.address 0 - 2) 2 ≠ toBeBytes 0
  parsed : E.CutsUdp packet → ∃ p, IngressPacket.parse E packet = .ok p ∧ p.source = u.source.address ∧
    p.destination = u.destination.address ∧ p.transport = .udp u.source.port u.destination.port ∧
    slice packet p.payloadAt p.payloadLen = u.payload

theorem parse_of_readUdp (h : readUdp packet = some u) (hmax : u.payload.length ≤ maxUdpPayload u.source.address)
    (hdrop : packet.drop (udpDatagramLen u.source.address 0) = u.payload) (hcuts : E.CutsUdp packet) :
    ∃ p, IngressPacket.parse E packet = .ok p ∧ p.source = u.source.address ∧
      p.destination = u.destination.address ∧ p.transport = .udp u.source.port u.destination.port ∧
      slice packet p.payloadAt p.payloadLen = u.payload := by
  obtain ⟨net, payload, hfrom, hnet, hat, hlen⟩ := hcuts u h
  have hslice : slice packet payload.at_ payload.len = u.payload := by
    rw [slice, hat, hdrop, hlen, take_length]
  have hfits : payload.at_ < 65536 ∧ payload.len < 65536 := by
    rw [hat, hlen]
    unfold maxUdpPayload maxIpv4UdpPayload maxIpv6UdpPayload ipv4UdpHeader at hmax
    cases hfam : u.source.address <;> simp [hfam, udpDatagramLen, ipv4UdpHeader, ipv6UdpHeader] at hmax ⊢ <;> omega
  unfold IngressPacket.parse IngressPacket.summary
  rw [hfrom]
  cases net <;> simp only [NetSlice.endpoints] at hnet
  case arp => cases hnet
  all_goals
    split_ifs at hnet with hwhole
    obtain ⟨hsource, hdestination⟩ := Prod.mk.inj (Option.some.inj hnet)
    simp [hwhole, TransportSlice.read, hfits, hsource, hdestination, hslice]

theorem udpSegment_fields (pseudo : List Bytes) (sourcePort destinationPort : UInt16) (payload : Bytes) :
    let segment := udpSegment pseudo sourcePort destinationPort payload
    slice segment 6 2 ≠ toBeBytes 0 ∧ segment.drop 8 = payload := by
  unfold udpSegment
  dsimp only
  generalize hsegment : writeUdpHeader _ sourcePort destinationPort payload = segment
  generalize hsum : checksum (pseudo ++ [segment]) = sum
  have hlt : transmittedChecksum sum < 65536 ∧ transmittedChecksum sum ≠ 0 := by
    have : sum < 65536 := hsum ▸ checksum_lt _
    unfold transmittedChecksum
    split_ifs <;> omega
  have hlen : 6 + (toBeBytes (transmittedChecksum sum)).length ≤ segment.length := by
    rw [← hsegment]
    simp [writeUdpHeader, overwrite]
    omega
  constructor
  · intro heq
    rw [show slice _ 6 2 = _ from slice_overwrite hlen] at heq
    injection heq with hhigh hrest
    injection hrest with hlow
    have := fromBeBytes_toBeBytes hlt.1
    rw [hhigh, hlow] at this
    exact hlt.2 this.symm
  · rw [← hsegment]
    simp [writeUdpHeader, overwrite, toBeBytes]
    omega

/-- **A written packet reads back**, with a sum that is never sent as zero. -/
theorem udp_reads_back (E : Etherparse) (source destination : InternalEndpoint) (out payload : Bytes) :
    ((∃ written, writeUdp out source destination payload = .ok written) ↔
      sameFamily source.address destination.address = true ∧ payload.length ≤ maxUdpPayload source.address ∧
        udpDatagramLen source.address payload.length ≤ out.length) ∧
      ∀ out' len, writeUdp out source destination payload = .ok (out', len) →
        ReadsBack E ⟨source, destination, payload⟩ (out'.take len) := by
  refine ⟨writeUdp_iff, fun out' len h => ?_⟩
  obtain ⟨⟨hfam, hmax, hout⟩, header, pseudo, hheader, hpacket⟩ := writeUdp_ok h
  obtain ⟨hsum, hdrop⟩ := udpSegment_fields pseudo source.port destination.port payload
  obtain ⟨out'', hwrite, -, hread⟩ := readUdp_writeUdp hfam hmax hout
  cases h.symm.trans hwrite
  refine ⟨hread, ?_, parse_of_readUdp hread hmax ?_⟩
  · rw [hpacket, slice, show _ - 2 = header.length + 6 from by simp [← hheader], ← drop_drop, drop_left]
    exact hsum
  · rw [hpacket, ← hheader, ← drop_drop, drop_left]
    exact hdrop

/-- What is written from 192.0.2.1, port 4000, to 198.51.100.2, port 53, with three bytes of payload. -/
def writtenUdp : Bytes :=
  [0x45, 0, 0, 31, 0, 0, 64, 0, 64, 17, 78, 151, 192, 0, 2, 1, 198, 51, 100, 2, 15, 160, 0, 53, 0, 11, 255, 201, 1, 2, 3]

set_option maxRecDepth 2000 in
theorem udp_reads_back_plain : ∃ p, plainIp.CutsUdp writtenUdp ∧ IngressPacket.parse plainIp writtenUdp = .ok p ∧
    p.source = .v4 0xc0000201#32 ∧ p.destination = .v4 0xc6336402#32 ∧ p.transport = .udp 4000 53 ∧
    slice writtenUdp p.payloadAt p.payloadLen = [1, 2, 3] := by
  have hwrite : writeUdp (replicate 31 0) ⟨.v4 0xc0000201#32, 4000⟩ ⟨.v4 0xc6336402#32, 53⟩ [1, 2, 3] =
      .ok (writtenUdp, 31) := rfl
  have hback := (udp_reads_back plainIp _ _ _ _).2 _ _ hwrite
  have hcuts : plainIp.CutsUdp writtenUdp := by
    intro u hu
    cases hu.symm.trans hback.valid
    exact ⟨.ipv4 (plainHeader writtenUdp (by decide)), ⟨28, 3, by decide⟩, rfl, rfl, rfl, rfl⟩
  obtain ⟨p, hparsed⟩ := hback.parsed hcuts
  exact ⟨p, hcuts, hparsed⟩

end Boreas
