import Boreas.Negotiators
import Boreas.StreamCodecs

/-! # Proxy addresses and decoders

* `prefix_safe`: the decoders of SOCKS5, VLESS and Hysteria2 give the same answer however their input was cut into
  reads.
* `addresses_round_trip`: a target that is written in SOCKS5 or VLESS form is read back. -/

namespace Boreas

open List Reader Vless

/-! ### Decoders fed in parts -/

/-- What a decoder answers stays when more follows, and it answers nothing before the bytes that it takes are there. -/
structure PrefixSafe {α : Type} (decode : Bytes → Except ProxyError (Decoded α)) : Prop where
  complete : ∀ bytes value n, decode bytes = .ok (.complete value n) → n ≤ bytes.length ∧
    (∀ more, decode (bytes ++ more) = .ok (.complete value n)) ∧ ∀ k < n, decode (bytes.take k) = .ok .incomplete
  error : ∀ bytes e, decode bytes = .error e → ∀ more, decode (bytes ++ more) = .error e

theorem prefixSafe_of_stable (h : Reader.Stable decode)
    (hbound : ∀ {bytes value n}, decode bytes = .ok (.complete value n) → n ≤ bytes.length) : PrefixSafe decode := by
  refine ⟨fun bytes value n hdec => ⟨hbound hdec, fun more => ?_, fun k hk => ?_⟩, fun bytes e hdec more => ?_⟩
  · rw [h bytes more (by simp [hdec]), hdec]
  · -- an answer to a shorter input would be the answer to the whole
    by_contra hearly
    have hwhole := h (bytes.take k) (bytes.drop k) hearly
    rw [take_append_drop, hdec] at hwhole
    have hle := hbound hwhole.symm
    rw [length_take] at hle
    omega
  · rw [h bytes more (by simp [hdec]), hdec]

/-! ### VLESS destinations -/

namespace Vless

open Socks5 (addressBody addressTarget)

def atypIpv4 : UInt8 := 1

def atypDomain : UInt8 := 2

def atypIpv6 : UInt8 := 3

/-- The number of the same family in SOCKS5; unknown numbers go to one that SOCKS5 does not know either. -/
def family (atyp : UInt8) : UInt8 :=
  if atyp = atypIpv4 then Socks5.atypIpv4
  else if atyp = atypIpv6 then Socks5.atypIpv6
  else if atyp = atypDomain then Socks5.atypDomain
  else 0

def encodeAddrPort : Target → Bytes
  | .ip ⟨.v4 ip, port⟩ => toBeBytes port.toNat ++ atypIpv4 :: octets 4 ip.toNat
  | .ip ⟨.v6 ip, port⟩ => toBeBytes port.toNat ++ atypIpv6 :: octets 16 ip.toNat
  | .domain host port => toBeBytes port.toNat ++ atypDomain :: vector8 host.bytes

/-- `decode_addr_port`: the port stands before the family, and the families have other numbers than in SOCKS5. -/
def decodeAddrPort (bytes : Bytes) : Except ProxyError (Decoded Target) :=
  match u16 bytes with
  | none => .ok .incomplete
  | some (port, rest) =>
    match u8 rest with
    | none => .ok .incomplete
    | some (atyp, rest) => do
      match ← addressBody (family atyp) rest with
      | none => .ok .incomplete
      | some (body, rest) => do
        let target ← addressTarget (family atyp) body (UInt16.ofNat port)
        .ok (.complete target (bytes.length - rest.length))

theorem stable_decodeAddrPort : Reader.Stable decodeAddrPort := by
  intro bytes more h
  unfold decodeAddrPort at h ⊢
  rcases hport : u16 bytes with _ | ⟨port, rest⟩
  · simp [hport] at h
  rw [hport] at h
  rw [u16_more hport more]
  rcases rest with _ | ⟨atyp, rest⟩
  · exact absurd rfl h
  dsimp only [u8, cons_append] at h ⊢
  rcases hbody : addressBody (family atyp) rest with _ | body
  · rw [Socks5.addressBody_error hbody more]
    rfl
  rcases body with _ | read
  · simp [hbody, bind, Except.bind] at h
  rw [Socks5.addressBody_more hbody more]
  dsimp only [bind, Except.bind]
  rw [length_append, length_append, Nat.add_sub_add_right]

end Vless

/-- **The decoders of the proxy protocols are prefix-safe.** -/
theorem prefix_safe : PrefixSafe Socks5.decodeAddress ∧ PrefixSafe Socks5.decodeReply ∧
    PrefixSafe decodeAddrPort ∧ PrefixSafe decodeResponse ∧ PrefixSafe Hysteria2.decodeTcpResponse := by
  have haddr : ∀ {bytes value n}, Socks5.decodeAddress bytes = .ok (.complete value n) → n ≤ bytes.length := by
    intro bytes value n h
    obtain ⟨addr, rest, rfl, rfl, -⟩ := Socks5.decodeAddress_complete h
    simp
  refine ⟨prefixSafe_of_stable Socks5.stable_decodeAddress haddr,
    prefixSafe_of_stable Socks5.stable_decodeReply fun {bytes value n} h => ?_,
    prefixSafe_of_stable stable_decodeAddrPort fun {bytes value n} h => ?_,
    prefixSafe_of_stable (fun _ more h => decodeResponse_append h more) fun {bytes value n} h => ?_,
    prefixSafe_of_stable Hysteria2.stable_decodeTcpResponse fun {bytes value n} h => ?_⟩
  · unfold Socks5.decodeReply at h
    repeat' split at h
    all_goals cases h
    have := haddr ‹_›
    simp only [length_cons]
    omega
  · unfold decodeAddrPort at h
    repeat' split at h
    · cases h
    · cases h
    · obtain ⟨read, -, h⟩ := bind_eq_ok.mp h
      rcases read with _ | ⟨body, rest⟩
      · cases h
      · obtain ⟨target, -, h⟩ := bind_eq_ok.mp h
        cases h
        exact Nat.sub_le _ _
  · obtain ⟨header, rest, rfl, rfl, -⟩ := decodeResponse_complete h
    simp
  · unfold Hysteria2.decodeTcpResponse at h
    repeat' split at h
    all_goals cases h
    all_goals exact Nat.sub_le _ _

/-! ### Round trips -/

/-- The name of a target is text, as every `String` is. -/
def Target.isUtf8 : Target → Bool
  | .ip _ => true
  | .domain host _ => validUtf8 host.bytes

theorem DomainName.new_bytes (host : DomainName) : DomainName.new host.bytes = .ok host := by
  obtain ⟨bytes, hne, hshort, hnul, hlower⟩ := host
  simp only [DomainName.new, hne, hnul, hlower, dif_neg, not_false_eq_true, show ¬ 255 < bytes.length by omega]

/-- How both forms write a target: a family, the bytes of the address behind it, and the port. -/
theorem target_form (h : target.isUtf8) : ∃ atyp form body port,
    (∀ rest, Socks5.addressBody (family atyp) (form ++ rest) = .ok (some (body, rest))) ∧
      Socks5.addressTarget (family atyp) body port = .ok target ∧
      Socks5.encodeAddress target = family atyp :: form ++ toBeBytes port.toNat ∧
      encodeAddrPort target = toBeBytes port.toNat ++ atyp :: form := by
  match target, h with
  | .ip ⟨.v4 ip, port⟩, _ =>
    refine ⟨1, octets 4 ip.toNat, octets 4 ip.toNat, port, fun rest => ?_, ?_, rfl, rfl⟩
    · exact congrArg Except.ok (take_append (length_octets 4 _) rest)
    · have hip : ofOctets (octets 4 ip.toNat) = ip.toNat := ofOctets_octets ip.isLt
      simp [Socks5.addressTarget, family, atypIpv4, hip]
  | .ip ⟨.v6 ip, port⟩, _ =>
    refine ⟨3, octets 16 ip.toNat, octets 16 ip.toNat, port, fun rest => ?_, ?_, rfl, rfl⟩
    · exact congrArg Except.ok (take_append (length_octets 16 _) rest)
    · have hip : ofOctets (octets 16 ip.toNat) = ip.toNat := ofOctets_octets ip.isLt
      simp [Socks5.addressTarget, family, atypIpv4, atypIpv6, Socks5.atypIpv4, Socks5.atypIpv6, hip]
  | .domain host port, h =>
    refine ⟨2, vector8 host.bytes, host.bytes, port, fun rest => ?_, ?_, rfl, rfl⟩
    · exact congrArg Except.ok (vectorU8_vector8 (by have := host.short; omega) rest)
    · have hutf8 : validUtf8 host.bytes = true := h
      simp [Socks5.addressTarget, family, atypIpv4, atypIpv6, atypDomain, Socks5.atypIpv4,
        Socks5.atypIpv6, Socks5.atypDomain, hutf8, host.new_bytes]

def Socks5.encodeDatagram (target : Target) (payload : Bytes) : Bytes := [0, 0, 0] ++ encodeAddress target ++ payload

/-- **Addresses round-trip**: whatever follows, and with a payload behind them. -/
theorem addresses_round_trip (target : Target) (h : target.isUtf8) (more payload : Bytes) :
    Socks5.decodeAddress (Socks5.encodeAddress target ++ more) =
        .ok (.complete target (Socks5.encodeAddress target).length) ∧ decodeAddrPort (encodeAddrPort target ++ more) =
        .ok (.complete target (encodeAddrPort target).length) ∧
      Socks5.decodeDatagram (Socks5.encodeDatagram target payload) = .ok (target, payload) := by
  obtain ⟨atyp, form, body, port, hbody, htgt, hsocks, hvless⟩ := target_form h
  have hport : UInt16.ofNat (fromBeBytes (UInt8.ofNat (port.toNat / 256)) (UInt8.ofNat port.toNat)) = port := by
    rw [fromBeBytes_toBeBytes port.toNat_lt, UInt16.ofNat_toNat]
  have haddr : ∀ more, Socks5.decodeAddress (Socks5.encodeAddress target ++ more) =
      .ok (.complete target (Socks5.encodeAddress target).length) := by
    intro more
    rw [hsocks]
    exact Socks5.decodeAddress_of_body (hbody _) (by rw [Socks5.portOf, hport]; exact htgt)
  refine ⟨haddr more, ?_, ?_⟩
  · have hlen : (encodeAddrPort target ++ more).length - more.length = (encodeAddrPort target).length := by
      rw [length_append, Nat.add_sub_cancel_right]
    rw [← hlen]
    rw [hvless, append_assoc]
    simp only [decodeAddrPort, u16_toBeBytes port.toNat_lt, cons_append, u8, hbody, bind,
      Except.bind, UInt16.ofNat_toNat, htgt]
  · simp only [Socks5.encodeDatagram, cons_append, nil_append, Socks5.decodeDatagram, ne_eq, not_true_eq_false,
      if_false, haddr, bind, Except.bind, drop_left]

def nameServer : Target := .domain ⟨[110, 115], by decide, by decide, by decide, by decide⟩ 53

theorem addresses_round_trip_nameServer : nameServer.isUtf8 ∧
    decodeAddrPort (encodeAddrPort nameServer ++ [7]) = .ok (.complete nameServer 6) :=
  ⟨by decide +kernel, (addresses_round_trip nameServer (by decide +kernel) [7] []).2.1⟩

end Boreas
