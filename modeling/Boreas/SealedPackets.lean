import Boreas.Dispatch
import Boreas.StreamCodecs

/-! # The size of a sealed packet

The sending half of a Shadowsocks 2022 UDP association (egress/shadowsocks.rs), from a payload to the datagram that
crosses the underlay.

`crosses_iff`: every payload of the advertised size crosses an underlay of the smallest IPv6 MTU, whatever padding is
chosen, exactly when the target's port is not that of DNS and, in the merged format, its address leaves room for the
identity. -/

namespace Boreas.Shadowsocks

open List
open Socks5 (atypIpv4 atypDomain atypIpv6)

def maxPadding : ℕ := 900
def packetToServer : UInt8 := 0

/-- `MAX_PROXIED_DATAGRAM`, the size that is reported to the planner. -/
def maxProxiedDatagram : ℕ :=
  let framing := mergedNonce + tag + 1 + 8 + 2
  let address := 1 + 1 + 255 + 2
  minIpv6Mtu - 48 - framing - address

def encodeAddress : Target → Bytes
  | .ip ⟨.v4 address, port⟩ => [atypIpv4] ++ octets 4 address.toNat ++ toBeBytes port.toNat
  | .ip ⟨.v6 address, port⟩ => [atypIpv6] ++ octets 16 address.toNat ++ toBeBytes port.toNat
  | .domain host port => [atypDomain] ++ (UInt8.ofNat host.bytes.length :: host.bytes) ++ toBeBytes port.toNat

def portOf : Target → UInt16
  | .ip address => address.port
  | .domain _ port => port

variable (target : Target)

/-- `padding_for`: `pick` and `fill` are what the random number generator gives. -/
def paddingFor (pick : UInt16) (fill : ℕ → UInt8) : Bytes :=
  if portOf target ≠ dnsPort then [] else (List.range (1 + pick.toNat % maxPadding)).map fill

def encodePacketRequest (now : ℕ) (payload : Bytes) (pick : UInt16) (fill : ℕ → UInt8) : Bytes :=
  let pad := paddingFor target pick fill
  [packetToServer] ++ octets 8 now ++ (toBeBytes pad.length ++ pad) ++ encodeAddress target ++ payload

/-- The AES block of the separate header, and what sealing in place makes of a nonce and a body: the body again and its
tag.  An error of the libraries sends no packet. -/
structure PacketSealer where
  block : Bytes → Bytes
  sealInPlace : Bytes → Bytes → Bytes × Bytes
  block_length : ∀ b, b.length = separateHeader → (block b).length = separateHeader
  sealed_length : ∀ nonce body, (sealInPlace nonce body).1.length = body.length
  tag_length : ∀ nonce body, (sealInPlace nonce body).2.length = tag

variable (K : PacketSealer)

variable (method : Method)

/-- `PacketCipher::seal`, with the nonce that the merged format draws. -/
def sealPacket (nonce session : Bytes) (packetId : UInt64) (message : Bytes) : Bytes :=
  let identity := session ++ octets 8 packetId.toNat
  match method with
  | .aes128Gcm | .aes256Gcm =>
    let (body, tag) := K.sealInPlace (identity.drop 4) message
    K.block identity ++ body ++ tag
  | .chaCha20Poly1305 =>
    let (body, tag) := K.sealInPlace nonce (identity ++ message)
    nonce ++ body ++ tag

theorem length_encodeAddress : 5 ≤ (encodeAddress target).length ∧ (encodeAddress target).length ≤ 259 := by
  match target with
  | .ip ⟨.v4 addr, port⟩ => simp [encodeAddress]
  | .ip ⟨.v6 addr, port⟩ => simp [encodeAddress]
  | .domain host port =>
    have hshort := host.short
    have hpos := length_pos_iff.mpr host.ne_nil
    simp only [encodeAddress, length_append, length_cons, length_nil, length_toBeBytes]
    omega

theorem length_paddingFor_of_ne {target : Target} (pick : UInt16) (fill : ℕ → UInt8) (hport : portOf target ≠ dnsPort) :
    (paddingFor target pick fill).length = 0 := by
  simp [paddingFor, hport]

theorem length_paddingFor_dns {target : Target} (pick : UInt16) (fill : ℕ → UInt8) (hport : portOf target = dnsPort) :
    (paddingFor target pick fill).length = 1 + pick.toNat % maxPadding := by
  simp [paddingFor, hport]

theorem length_encodePacketRequest (now : ℕ) (payload : Bytes) (pick : UInt16) (fill : ℕ → UInt8) :
    (encodePacketRequest target now payload pick fill).length =
      11 + (paddingFor target pick fill).length + (encodeAddress target).length + payload.length := by
  simp only [encodePacketRequest, length_append, length_cons, length_nil, length_octets, length_toBeBytes]
  omega

/-- What the format adds to a message. -/
def formatLength : Method → ℕ
  | .aes128Gcm | .aes256Gcm => separateHeader + tag
  | .chaCha20Poly1305 => mergedNonce + separateHeader + tag

theorem formatLength_ge : 32 ≤ formatLength method := by
  cases method <;> decide

theorem length_sealPacket (packetId : UInt64)
    (hnonce : nonce.length = mergedNonce) (hsess : session.length = 8) :
    (sealPacket K method nonce session packetId message).length = formatLength method + message.length := by
  have hident : (session ++ octets 8 packetId.toNat).length = separateHeader := by
    rw [length_append, hsess, length_octets]
    rfl
  cases method with
  | aes128Gcm | aes256Gcm =>
    simp only [sealPacket, length_append, K.block_length _ hident, K.sealed_length, K.tag_length, formatLength]
    omega
  | chaCha20Poly1305 =>
    have hbody : (session ++ octets 8 packetId.toNat ++ message).length = separateHeader + message.length := by
      rw [length_append, hident]
    change (nonce ++ (K.sealInPlace nonce _).1 ++ (K.sealInPlace nonce _).2).length = _
    rw [length_append, length_append, K.sealed_length, K.tag_length, hbody, hnonce, formatLength]
    omega

/-- **The advertised size.**  Every payload of it crosses the smallest IPv6 underlay exactly when the target is not a
DNS server and, in the merged format, its address has at most 243 bytes. -/
theorem crosses_iff (target : Target) :
    (∀ (payload : Bytes) (pick : UInt16) (fill : ℕ → UInt8) (now : ℕ) (nonce session : Bytes) (packetId : UInt64),
      payload.length ≤ maxProxiedDatagram → nonce.length = mergedNonce → session.length = 8 →
      (sealPacket K method nonce session packetId (encodePacketRequest target now payload pick fill)).length ≤
        minIpv6Mtu - 48) ↔
      portOf target ≠ dnsPort ∧ (method = .chaCha20Poly1305 → (encodeAddress target).length ≤ 243) := by
  obtain ⟨hmin, hmax⟩ := length_encodeAddress target
  constructor
  · intro h
    -- the largest payload with the longest padding is the worst case
    have hlarg := h (List.replicate 922 0) 899 (fun _ => 0) 0 (List.replicate 24 0) (List.replicate 8 0) 0
      (length_replicate.trans_le (by decide)) (by decide) (by decide)
    rw [length_sealPacket K method 0 (by decide) (by decide), length_encodePacketRequest,
      length_replicate] at hlarg
    by_cases hport : portOf target = dnsPort
    · have hpad := length_paddingFor_dns 899 (fun _ => 0) hport
      have hlongest : 1 + UInt16.toNat 899 % maxPadding = 900 := by decide
      have hformat := formatLength_ge method
      simp only [minIpv6Mtu] at hlarg
      omega
    · refine ⟨hport, fun hmethod => ?_⟩
      rw [length_paddingFor_of_ne 899 (fun _ => 0) hport, hmethod] at hlarg
      simp only [formatLength, mergedNonce, separateHeader, tag, minIpv6Mtu] at hlarg
      omega
  · rintro ⟨hport, haddr⟩ payload pick fill now nonce session packetId hpay hnonce hsess
    have hadv : maxProxiedDatagram = 922 := by decide
    rw [length_sealPacket K method packetId hnonce hsess, length_encodePacketRequest,
      length_paddingFor_of_ne pick fill hport]
    rw [hadv] at hpay
    cases method with
    | aes128Gcm | aes256Gcm =>
      simp only [formatLength, separateHeader, tag, minIpv6Mtu]
      omega
    | chaCha20Poly1305 =>
      have hshort := haddr rfl
      simp only [formatLength, mergedNonce, separateHeader, tag, minIpv6Mtu]
      omega

/-- Libraries that encrypt nothing. -/
def plainSealer : PacketSealer :=
  ⟨id, fun _ body => (body, List.replicate tag 0), fun _ h => h, fun _ _ => rfl, fun _ _ => rfl⟩

/-- A query to a DNS server with the longest padding, in the AES format: 1872 bytes. -/
theorem padded_query_too_long :
    maxProxiedDatagram = 922 ∧ (sealPacket plainSealer .aes128Gcm (List.replicate 24 0) (List.replicate 8 0) 0
      (encodePacketRequest (.ip ⟨.v4 0x08080808#32, 53⟩) 0 (List.replicate 922 0) 899 (fun _ => 0))).length = 1872 := by
  decide +kernel

end Boreas.Shadowsocks
