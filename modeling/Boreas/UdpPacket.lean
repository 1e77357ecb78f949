import Boreas.Wire

/-! # Synthesized UDP packets

The model of `write_udp` of l3/packet.rs: an IP header, a UDP header and a payload written into a buffer, with
complete checksums.  `readUdp` is what a host makes of such a packet: it checks the lengths, the protocol and both
checksums, and gives the endpoints and the payload.

`readUdp_writeUdp` says when `writeUdp` succeeds, and that the packet then reads back. -/

namespace Boreas.L3

open Slices List Option

structure InternalEndpoint where
  address : IpAddr
  port : UInt16
deriving DecidableEq, Repr

structure SocketAddr where
  ip : IpAddr
  port : UInt16
deriving DecidableEq, Repr

def SocketAddr.endpoint (address : SocketAddr) : InternalEndpoint := ⟨address.ip, address.port⟩

inductive WriteError
  | mixedFamilies
  | payloadTooLarge
  | outputTooSmall
  | unquotable
deriving DecidableEq, Repr

def ipv4UdpHeader : ℕ := 20 + 8

def ipv6UdpHeader : ℕ := 40 + 8

def maxIpv4UdpPayload : ℕ := 65535 - ipv4UdpHeader

def maxIpv6UdpPayload : ℕ := 65535 - 8

def udpProtocol : UInt8 := 17

def udpDatagramLen (family : IpAddr) (payloadLen : ℕ) : ℕ :=
  match family with
  | .v4 _ => ipv4UdpHeader + payloadLen
  | .v6 _ => ipv6UdpHeader + payloadLen

/-! ### Writing -/

def writeUdpHeader (out : Bytes) (sourcePort destinationPort : UInt16) (payload : Bytes) : Bytes :=
  let out := overwrite out 0 (toBeBytes sourcePort.toNat)
  let out := overwrite out 2 (toBeBytes destinationPort.toNat)
  let out := overwrite out 4 (toBeBytes (8 + payload.length))
  let out := overwrite out 6 (List.replicate 2 0)
  overwrite out 8 payload

section

variable (source destination : BitVec 32)

def ipv4Fields (total : ℕ) : Bytes :=
  let header := List.replicate 20 0
  let header := overwrite header 0 [0x45]
  let header := overwrite header 2 (toBeBytes total)
  -- Don't Fragment, and the hop budget.
  let header := overwrite header 6 (toBeBytes 0x4000)
  let header := overwrite header 8 [64]
  let header := overwrite header 9 [udpProtocol]
  let header := overwrite header 12 (octets 4 source.toNat)
  overwrite header 16 (octets 4 destination.toNat)

def ipv4Header (total : ℕ) : Bytes :=
  let header := ipv4Fields source destination total
  overwrite header 10 (toBeBytes (checksum [header]))

def ipv6Header (source destination : BitVec 128) (udpLen : ℕ) : Bytes :=
  let header := List.replicate 40 0
  let header := overwrite header 0 [0x60]
  let header := overwrite header 4 (toBeBytes udpLen)
  let header := overwrite header 6 [udpProtocol]
  let header := overwrite header 7 [64]
  let header := overwrite header 8 (octets 16 source.toNat)
  overwrite header 24 (octets 16 destination.toNat)

def ipv4Pseudo (udpLen : ℕ) : List Bytes :=
  [octets 4 source.toNat, octets 4 destination.toNat, [0, udpProtocol], toBeBytes udpLen]

end

def ipv6Pseudo (source destination : BitVec 128) (udpLen : ℕ) : List Bytes :=
  [octets 16 source.toNat, octets 16 destination.toNat, toBeBytes32 udpLen, [0, 0, 0, udpProtocol]]

variable (pseudo : List Bytes)

def udpSegment (sourcePort destinationPort : UInt16) (payload : Bytes) : Bytes :=
  let segment := writeUdpHeader (List.replicate (8 + payload.length) 0) sourcePort destinationPort payload
  overwrite segment 6 (toBeBytes (transmittedChecksum (checksum (pseudo ++ [segment]))))

def datagramV4 (source destination : BitVec 32 × UInt16) (payload : Bytes) : Bytes :=
  ipv4Header source.1 destination.1 (ipv4UdpHeader + payload.length) ++
    udpSegment (ipv4Pseudo source.1 destination.1 (8 + payload.length)) source.2 destination.2 payload

def datagramV6 (source destination : BitVec 128 × UInt16) (payload : Bytes) : Bytes :=
  ipv6Header source.1 destination.1 (8 + payload.length) ++
    udpSegment (ipv6Pseudo source.1 destination.1 (8 + payload.length)) source.2 destination.2 payload

def writeUdpV4 (out : Bytes) (source destination : BitVec 32 × UInt16) (payload : Bytes) :
    Except WriteError (Bytes × ℕ) :=
  if maxIpv4UdpPayload < payload.length then .error .payloadTooLarge
  else
    let total := ipv4UdpHeader + payload.length
    if out.length < total then .error .outputTooSmall
    else .ok (overwrite out 0 (datagramV4 source destination payload), total)

def writeUdpV6 (out : Bytes) (source destination : BitVec 128 × UInt16) (payload : Bytes) :
    Except WriteError (Bytes × ℕ) :=
  if maxIpv6UdpPayload < payload.length then .error .payloadTooLarge
  else
    let total := ipv6UdpHeader + payload.length
    if out.length < total then .error .outputTooSmall
    else .ok (overwrite out 0 (datagramV6 source destination payload), total)

def writeUdp (out : Bytes) (source destination : InternalEndpoint) (payload : Bytes) :
    Except WriteError (Bytes × ℕ) :=
  match source.address, destination.address with
  | .v4 sourceIp, .v4 destinationIp =>
    writeUdpV4 out (sourceIp, source.port) (destinationIp, destination.port) payload
  | .v6 sourceIp, .v6 destinationIp =>
    writeUdpV6 out (sourceIp, source.port) (destinationIp, destination.port) payload
  | _, _ => .error .mixedFamilies

/-! ### Reading -/

structure UdpPacket where
  source : InternalEndpoint
  destination : InternalEndpoint
  payload : Bytes
deriving DecidableEq, Repr

def readSegment (segment : Bytes) : Option (UInt16 × UInt16 × Bytes) := do
  let sourcePort ← u16At segment 0
  let destinationPort ← u16At segment 2
  let length ← u16At segment 4
  if 8 ≤ length ∧ length = segment.length ∧ checksum (pseudo ++ [segment]) = 0 then
    return (UInt16.ofNat sourcePort, UInt16.ofNat destinationPort, segment.drop 8)
  else none

def readUdpV4 (packet : Bytes) : Option UdpPacket := do
  let total ← u16At packet 2
  let fragment ← u16At packet 6
  let protocol ← packet[9]?
  if total = packet.length ∧ fragment % 0x4000 = 0 ∧ protocol = udpProtocol ∧ checksum [packet.take 20] = 0 then
    let source := BitVec.ofNat 32 (ofOctets (slice packet 12 4))
    let destination := BitVec.ofNat 32 (ofOctets (slice packet 16 4))
    let segment := packet.drop 20
    let (sourcePort, destinationPort, payload) ← readSegment (ipv4Pseudo source destination segment.length) segment
    return ⟨⟨.v4 source, sourcePort⟩, ⟨.v4 destination, destinationPort⟩, payload⟩
  else none

def readUdpV6 (packet : Bytes) : Option UdpPacket := do
  let length ← u16At packet 4
  let nextHeader ← packet[6]?
  if 40 + length = packet.length ∧ nextHeader = udpProtocol then
    let source := BitVec.ofNat 128 (ofOctets (slice packet 8 16))
    let destination := BitVec.ofNat 128 (ofOctets (slice packet 24 16))
    let segment := packet.drop 40
    let (sourcePort, destinationPort, payload) ← readSegment (ipv6Pseudo source destination segment.length) segment
    return ⟨⟨.v6 source, sourcePort⟩, ⟨.v6 destination, destinationPort⟩, payload⟩
  else none

def readUdp (packet : Bytes) : Option UdpPacket :=
  match packet[0]? with
  | none => none
  | some version =>
    if version = 0x45 then readUdpV4 packet
    else if version.toNat / 16 = 6 then readUdpV6 packet
    else none

/-! ### Reading back -/

theorem ipv4Fields_eq :
    ipv4Fields source destination total = [0x45, 0] ++ (toBeBytes total ++ ([0, 0] ++ (toBeBytes 0x4000 ++
      ([64, udpProtocol] ++ (toBeBytes 0 ++ (octets 4 source.toNat ++ octets 4 destination.toNat)))))) := by
  rfl

theorem ipv6Header_eq (source destination : BitVec 128) (udpLen : ℕ) :
    ipv6Header source destination udpLen = [0x60, 0, 0, 0] ++ (toBeBytes udpLen ++ ([udpProtocol, 64] ++
      (octets 16 source.toNat ++ octets 16 destination.toNat))) := by
  unfold ipv6Header
  simp [overwrite, toBeBytes]

theorem overwrite_field (hi : front.length = i) :
    overwrite (front ++ (toBeBytes 0 ++ back)) i (toBeBytes c) = front ++ (toBeBytes c ++ back) :=
  overwrite_middle back hi (by rw [length_toBeBytes, length_toBeBytes])

theorem ipv4Header_eq (source destination : BitVec 32) (total : ℕ) :
    ∃ c, ipv4Header source destination total = [0x45, 0] ++ (toBeBytes total ++ ([0, 0] ++ (toBeBytes 0x4000 ++
        ([64, udpProtocol] ++ (toBeBytes c ++ (octets 4 source.toNat ++ octets 4 destination.toNat)))))) ∧
      checksum [ipv4Header source destination total] = 0 := by
  let front := [0x45, 0] ++ (toBeBytes total ++ ([0, 0] ++ (toBeBytes 0x4000 ++ [64, udpProtocol])))
  let back := octets 4 source.toNat ++ octets 4 destination.toNat
  have hfront : front.length = 10 := rfl
  have hfld : ipv4Fields source destination total = front ++ (toBeBytes 0 ++ back) := by
    rw [ipv4Fields_eq]
    simp only [front, back, append_assoc]
  have hhdr : ipv4Header source destination total =
      front ++ (toBeBytes (checksum [front ++ toBeBytes 0 ++ back]) ++ back) := by
    unfold ipv4Header
    rw [hfld]
    exact overwrite_field hfront
  refine ⟨checksum [front ++ toBeBytes 0 ++ back], ?_, ?_⟩
  · rw [hhdr]
    simp only [front, back, append_assoc]
  · rw [hhdr, ← append_assoc]
    refine checksum_field (by rw [hfront]) ?_ (.inl rfl)
    simp only [front, cons_append, wordSum, fromBeBytes]
    have : (0x45 : UInt8).toNat = 69 := rfl
    omega

variable {payload : Bytes}

theorem udpSegment_eq (srcPort dstPort : UInt16)
    (hpseudo : pseudo.flatten.length % 2 = 0) (hlen : payload.length ≤ maxIpv6UdpPayload) :
    ∃ c, udpSegment pseudo srcPort dstPort payload =
        toBeBytes srcPort.toNat ++ (toBeBytes dstPort.toNat ++ (toBeBytes (8 + payload.length) ++
          (toBeBytes c ++ payload))) ∧
      checksum (pseudo ++ [udpSegment pseudo srcPort dstPort payload]) = 0 := by
  let front := toBeBytes srcPort.toNat ++ (toBeBytes dstPort.toNat ++ toBeBytes (8 + payload.length))
  have hfld : writeUdpHeader (List.replicate (8 + payload.length) 0) srcPort dstPort payload =
      front ++ (toBeBytes 0 ++ payload) := by
    simp [writeUdpHeader, overwrite, toBeBytes, front]
    omega
  let c := transmittedChecksum (checksum [pseudo.flatten ++ (front ++ (toBeBytes 0 ++ payload))])
  have hseg : udpSegment pseudo srcPort dstPort payload = front ++ (toBeBytes c ++ payload) := by
    unfold udpSegment
    dsimp only
    rw [hfld, checksum_append]
    exact overwrite_field (by simp [front])
  refine ⟨c, ?_, ?_⟩
  · rw [hseg]
    simp only [front, append_assoc]
  · rw [checksum_append, hseg, ← append_assoc, ← append_assoc]
    have heven : (pseudo.flatten ++ front).length % 2 = 0 := by
      rw [length_append]
      have : front.length = 6 := rfl
      omega
    refine checksum_field heven ?_ (.inr ?_)
    · -- The length field is a word of its own and not zero.
      rw [append_assoc, wordSum_append _ heven, wordSum_append _ hpseudo]
      simp only [front, toBeBytes, cons_append, nil_append, wordSum]
      have := fromBeBytes_toBeBytes (n := 8 + payload.length) (by unfold maxIpv6UdpPayload at hlen; omega)
      omega
    · simp only [c, append_assoc]

theorem readSegment_of_eq {pseudo : List Bytes} {seg : Bytes}
    (hseg : seg = toBeBytes sourcePort.toNat ++ (toBeBytes destinationPort.toNat ++
      (toBeBytes (8 + payload.length) ++ (toBeBytes c ++ payload)))) (hlen : payload.length ≤ maxIpv6UdpPayload)
    (hsum : checksum (pseudo ++ [seg]) = 0) : seg.length = 8 + payload.length ∧
      readSegment pseudo seg = some (sourcePort, destinationPort, payload) := by
  have hst := stands_self seg
  nth_rewrite 2 [hseg] at hst
  simp only [stands_append, length_toBeBytes] at hst
  obtain ⟨h0, h2, h4, -, -⟩ := hst
  have hlength : seg.length = 8 + payload.length := by
    rw [hseg]
    simp only [length_append, length_toBeBytes]
    omega
  have hdrop : seg.drop 8 = payload := by rw [hseg]; rfl
  unfold maxIpv6UdpPayload at hlen
  simp only [readSegment, u16At_of_stands h0 sourcePort.toNat_lt, u16At_of_stands h2 destinationPort.toNat_lt,
    u16At_of_stands h4 (by omega), hsum, hdrop, hlength]
  simp

theorem ofOctets_slice (hw : 2 ^ w = 256 ^ n) (h : Stands packet at_ (octets n address.toNat)) :
    BitVec.ofNat w (ofOctets (slice packet at_ n)) = address := by
  have hslice := h.slice_eq
  rw [length_octets] at hslice
  rw [hslice, ofOctets_octets (by rw [← hw]; exact address.isLt), BitVec.ofNat_toNat, BitVec.setWidth_eq]

theorem readUdp_datagramV4 (source destination : BitVec 32) (srcPort dstPort : UInt16)
    (hlen : payload.length ≤ maxIpv4UdpPayload) :
    (datagramV4 (source, srcPort) (destination, dstPort) payload).length = ipv4UdpHeader + payload.length ∧
      readUdp (datagramV4 (source, srcPort) (destination, dstPort) payload) =
        some ⟨⟨.v4 source, srcPort⟩, ⟨.v4 destination, dstPort⟩, payload⟩ := by
  have hmax : payload.length ≤ maxIpv6UdpPayload := le_trans hlen (by decide)
  obtain ⟨c, hhdr, hheadersum⟩ := ipv4Header_eq source destination (ipv4UdpHeader + payload.length)
  obtain ⟨c', hseg, hsum⟩ := udpSegment_eq (ipv4Pseudo source destination (8 + payload.length)) srcPort
    dstPort (by simp [ipv4Pseudo]) hmax
  unfold datagramV4
  generalize ipv4Header source destination (ipv4UdpHeader + payload.length) = header at *
  generalize udpSegment (ipv4Pseudo source destination (8 + payload.length)) srcPort dstPort payload =
    segment at *
  have hheaderlen : header.length = 20 := by rw [hhdr]; simp
  obtain ⟨hsegmentlen, hread⟩ := readSegment_of_eq hseg hmax hsum
  have hst := stands_self (header ++ segment)
  nth_rewrite 2 [hhdr] at hst
  simp only [append_assoc, stands_append, length_toBeBytes, length_octets, length_cons, length_nil] at hst
  obtain ⟨h0, h2, -, h6, h8, -, h12, h16, -⟩ := hst
  have htake : (header ++ segment).take 20 = header := take_left' hheaderlen
  have hdrop : (header ++ segment).drop 20 = segment := drop_left' hheaderlen
  have hver := ((stands_cons).mp h0).1
  have hproto := ((stands_cons).mp ((stands_cons).mp h8).2).1
  unfold maxIpv4UdpPayload ipv4UdpHeader at hlen
  unfold ipv4UdpHeader at h2 ⊢
  refine ⟨by rw [length_append]; omega, ?_⟩
  unfold readUdp
  rw [hver]
  simp only [if_true, readUdpV4, u16At_of_stands h2 (by omega), u16At_of_stands h6 (by decide), hproto,
    bind_eq_bind, bind_some, htake, hdrop, hheadersum, ofOctets_slice rfl h12, ofOctets_slice rfl h16,
    hsegmentlen, hread, length_append]
  rw [if_pos ⟨by omega, by decide, trivial, trivial⟩]
  rfl

theorem readUdp_datagramV6 (source destination : BitVec 128) (srcPort dstPort : UInt16)
    (hlen : payload.length ≤ maxIpv6UdpPayload) :
    (datagramV6 (source, srcPort) (destination, dstPort) payload).length = ipv6UdpHeader + payload.length ∧
      readUdp (datagramV6 (source, srcPort) (destination, dstPort) payload) =
        some ⟨⟨.v6 source, srcPort⟩, ⟨.v6 destination, dstPort⟩, payload⟩ := by
  have hhdr := ipv6Header_eq source destination (8 + payload.length)
  obtain ⟨c', hseg, hsum⟩ := udpSegment_eq (ipv6Pseudo source destination (8 + payload.length)) srcPort
    dstPort (by simp [ipv6Pseudo]) hlen
  unfold datagramV6
  generalize ipv6Header source destination (8 + payload.length) = header at *
  generalize udpSegment (ipv6Pseudo source destination (8 + payload.length)) srcPort dstPort payload =
    segment at *
  have hheaderlen : header.length = 40 := by rw [hhdr]; simp
  obtain ⟨hsegmentlen, hread⟩ := readSegment_of_eq hseg hlen hsum
  have hst := stands_self (header ++ segment)
  nth_rewrite 2 [hhdr] at hst
  simp only [append_assoc, stands_append, length_toBeBytes, length_octets, length_cons, length_nil] at hst
  obtain ⟨h0, h4, h6, h8, h24, -⟩ := hst
  have hdrop : (header ++ segment).drop 40 = segment := drop_left' hheaderlen
  have hver := ((stands_cons).mp h0).1
  have hnext := ((stands_cons).mp h6).1
  unfold ipv6UdpHeader
  refine ⟨by rw [length_append]; omega, ?_⟩
  unfold readUdp
  rw [hver]
  have hmax := hlen
  unfold maxIpv6UdpPayload at hmax
  simp only [readUdpV6, u16At_of_stands h4 (by omega), hnext, bind_eq_bind, bind_some, hdrop,
    ofOctets_slice rfl h8, ofOctets_slice rfl h24, hsegmentlen, hread,
    length_append, hheaderlen]
  rfl

/-! ### The whole writer -/

def sameFamily : IpAddr → IpAddr → Bool
  | .v4 _, .v4 _ => true
  | .v6 _, .v6 _ => true
  | _, _ => false

def maxUdpPayload : IpAddr → ℕ
  | .v4 _ => maxIpv4UdpPayload
  | .v6 _ => maxIpv6UdpPayload

theorem take_overwrite_front (h : datagram.length = n) : (overwrite out 0 datagram).take n = datagram := by
  subst h
  simp [overwrite]

variable {source destination : InternalEndpoint}

/-- **A packet written for two endpoints of one family reads back.** -/
theorem readUdp_writeUdp (hfam : sameFamily source.address destination.address = true)
    (hmax : payload.length ≤ maxUdpPayload source.address)
    (hout : udpDatagramLen source.address payload.length ≤ out.length) :
    ∃ out', writeUdp out source destination payload = .ok (out', udpDatagramLen source.address payload.length) ∧
      out'.length = out.length ∧
      readUdp (out'.take (udpDatagramLen source.address payload.length)) = some ⟨source, destination, payload⟩ := by
  obtain ⟨srcIp, sourcePort⟩ := source
  obtain ⟨dstIp, destinationPort⟩ := destination
  cases srcIp with
  | v4 s =>
    cases dstIp with
    | v6 d => cases hfam
    | v4 d =>
      dsimp only [maxUdpPayload, udpDatagramLen] at hmax hout ⊢
      obtain ⟨hlen, hread⟩ := readUdp_datagramV4 s d sourcePort destinationPort hmax
      refine ⟨_, (if_neg (Nat.not_lt.mpr hmax)).trans (if_neg (Nat.not_lt.mpr hout)),
        length_overwrite (by simp [hlen, hout]), ?_⟩
      rw [take_overwrite_front hlen, hread]
  | v6 s =>
    cases dstIp with
    | v4 d => cases hfam
    | v6 d =>
      dsimp only [maxUdpPayload, udpDatagramLen] at hmax hout ⊢
      obtain ⟨hlen, hread⟩ := readUdp_datagramV6 s d sourcePort destinationPort hmax
      refine ⟨_, (if_neg (Nat.not_lt.mpr hmax)).trans (if_neg (Nat.not_lt.mpr hout)),
        length_overwrite (by simp [hlen, hout]), ?_⟩
      rw [take_overwrite_front hlen, hread]

theorem writeUdp_mixedFamilies (h : sameFamily source.address destination.address = false) :
    writeUdp out source destination payload = .error .mixedFamilies := by
  unfold writeUdp
  cases hs : source.address with
  | v4 s =>
    cases hd : destination.address with
    | v4 d => simp [hs, hd, sameFamily] at h
    | v6 d => rfl
  | v6 s =>
    cases hd : destination.address with
    | v4 d => rfl
    | v6 d => simp [hs, hd, sameFamily] at h

/-- When `writeUdp` succeeds, and what it then writes. -/
theorem writeUdp_ok {out payload : Bytes} (h : writeUdp out source destination payload = .ok (out', len)) :
    (sameFamily source.address destination.address = true ∧ payload.length ≤ maxUdpPayload source.address ∧
      udpDatagramLen source.address payload.length ≤ out.length) ∧
    ∃ header pseudo, header.length + 8 = udpDatagramLen source.address 0 ∧
      out'.take len = header ++ udpSegment pseudo source.port destination.port payload := by
  obtain ⟨sourceIp, sourcePort⟩ := source
  obtain ⟨destinationIp, destinationPort⟩ := destination
  cases sourceIp <;> cases destinationIp
  · dsimp only [writeUdp, writeUdpV4] at h
    split_ifs at h with hmax hout
    cases h
    rw [not_lt] at hmax hout
    rw [take_overwrite_front (readUdp_datagramV4 _ _ _ _ hmax).1]
    obtain ⟨c, hhdr, -⟩ := ipv4Header_eq _ _ (ipv4UdpHeader + payload.length)
    exact ⟨⟨rfl, hmax, hout⟩, _, _, by rw [hhdr]; simp [udpDatagramLen, ipv4UdpHeader], rfl⟩
  · cases h
  · cases h
  · dsimp only [writeUdp, writeUdpV6] at h
    split_ifs at h with hmax hout
    cases h
    rw [not_lt] at hmax hout
    rw [take_overwrite_front (readUdp_datagramV6 _ _ _ _ hmax).1]
    exact ⟨⟨rfl, hmax, hout⟩, _, _, by rw [ipv6Header_eq]; simp [udpDatagramLen, ipv6UdpHeader], rfl⟩

theorem writeUdp_iff {out payload : Bytes} :
    (∃ written, writeUdp out source destination payload = .ok written) ↔
      sameFamily source.address destination.address = true ∧ payload.length ≤ maxUdpPayload source.address ∧
        udpDatagramLen source.address payload.length ≤ out.length := by
  refine ⟨fun ⟨written, h⟩ => (writeUdp_ok h).1, fun ⟨hfam, hmax, hout⟩ => ?_⟩
  obtain ⟨out', hwrite, -⟩ := readUdp_writeUdp hfam hmax hout
  exact ⟨_, hwrite⟩

theorem length_writeUdp {out out' payload : Bytes} {len : ℕ}
    (h : writeUdp out source destination payload = .ok (out', len)) : out'.length = out.length := by
  obtain ⟨⟨hfam, hmax, hout⟩, -⟩ := writeUdp_ok h
  obtain ⟨out'', hwrite, hlen, -⟩ := readUdp_writeUdp hfam hmax hout
  cases h.symm.trans hwrite
  exact hlen

end Boreas.L3
