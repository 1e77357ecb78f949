import Boreas.Reader
import Boreas.Direct
import Boreas.Source

/-! # SOCKS5 datagrams

The address decoder and the datagram half of egress/socks5.rs.  `Address` is the address form of RFC 1928 by itself,
and `decodeAddress_complete` says that what the decoder takes is one; `decodeDatagram_ok` is the same for the header
of a relayed datagram.  `source` is `Socks5Source`: it decodes each datagram of the relay from a buffer that holds
any, so that what it returns is whole (`invariant`). -/

namespace Boreas.Socks5

open List hiding after cons length nil
open Direct (Arrived)
open Reader (take take_append take_eq_some u16 u16_eq_some u8)

/-! ### Addresses -/

def atypIpv4 : UInt8 := 1

def atypDomain : UInt8 := 3

def atypIpv6 : UInt8 := 4

def addressBody (atyp : UInt8) (rest : Bytes) : Except ProxyError (Option (Bytes × Bytes)) :=
  if atyp = atypIpv4 then .ok (take 4 rest)
  else if atyp = atypIpv6 then .ok (take 16 rest)
  else if atyp = atypDomain then .ok (Reader.vectorU8 rest)
  else .error .address

def addressTarget (atyp : UInt8) (body : Bytes) (port : UInt16) : Except ProxyError Target :=
  if atyp = atypIpv4 then .ok (.ip ⟨.v4 (BitVec.ofNat 32 (ofOctets body)), port⟩)
  else if atyp = atypIpv6 then .ok (.ip ⟨.v6 (BitVec.ofNat 128 (ofOctets body)), port⟩)
  else if validUtf8 body then
    match DomainName.new body with
    | .ok host => .ok (.domain host port)
    | .error _ => .error .address
  else .error .address

def decodeAddress (bytes : Bytes) : Except ProxyError (Decoded Target) :=
  match u8 bytes with
  | none => .ok .incomplete
  | some (atyp, rest) => do
    match ← addressBody atyp rest with
    | none => .ok .incomplete
    | some (body, rest) =>
      match u16 rest with
      | none => .ok .incomplete
      | some (port, rest) => do
        let target ← addressTarget atyp body (UInt16.ofNat port)
        .ok (.complete target (bytes.length - rest.length))

def portOf (high low : UInt8) : UInt16 := UInt16.ofNat (fromBeBytes high low)

inductive Address : Bytes → Target → Prop
  | ipv4 (octets : Bytes) (high low : UInt8) (h : octets.length = 4) :
      Address (atypIpv4 :: (octets ++ [high, low])) (.ip ⟨.v4 (BitVec.ofNat 32 (ofOctets octets)), portOf high low⟩)
  | ipv6 (octets : Bytes) (high low : UInt8) (h : octets.length = 16) :
      Address (atypIpv6 :: (octets ++ [high, low])) (.ip ⟨.v6 (BitVec.ofNat 128 (ofOctets octets)), portOf high low⟩)
  | domain (length : UInt8) (name : Bytes) (high low : UInt8) (host : DomainName) (h : name.length = length.toNat)
      (hname : DomainName.new name = .ok host) :
      Address (atypDomain :: length :: (name ++ [high, low])) (.domain host (portOf high low))

variable {target : Target} {atyp high low : UInt8}

theorem address_of_body (hbody : addressBody atyp rest = .ok (some (body, after)))
    (htgt : addressTarget atyp body (portOf high low) = .ok target) :
    ∃ form, rest = form ++ after ∧ Address (atyp :: (form ++ [high, low])) target := by
  unfold addressBody at hbody
  unfold addressTarget at htgt
  split_ifs at hbody htgt with hv4 hv6 hdomain hutf8
  · cases htgt
    obtain ⟨hrest, hlen⟩ := take_eq_some.mp (Except.ok.inj hbody)
    exact ⟨body, hrest, hv4 ▸ .ipv4 body high low hlen⟩
  · cases htgt
    obtain ⟨hrest, hlen⟩ := take_eq_some.mp (Except.ok.inj hbody)
    exact ⟨body, hrest, hv6 ▸ .ipv6 body high low hlen⟩
  obtain ⟨length, hrest, hlen⟩ := Reader.vectorU8_eq_some (Except.ok.inj hbody)
  rcases hname : DomainName.new body with _ | host
  · simp [hname] at htgt
  rw [hname] at htgt
  cases htgt
  exact ⟨length :: body, hrest, hdomain ▸ .domain length body high low host hlen hname⟩

theorem decodeAddress_complete (h : decodeAddress bytes = .ok (.complete target consumed)) :
    ∃ address rest, bytes = address ++ rest ∧ address.length = consumed ∧ Address address target := by
  rcases bytes with _ | ⟨atyp, rest⟩
  · cases h
  obtain ⟨read, hbody, h⟩ := bind_eq_ok.mp h
  rcases read with _ | ⟨body, after⟩
  · cases h
  rcases hport : u16 after with _ | ⟨port, last⟩
  · simp [hport] at h
  dsimp only at h
  rw [hport] at h
  obtain ⟨value, htgt, h⟩ := bind_eq_ok.mp h
  cases h
  obtain ⟨high, low, rfl, rfl⟩ := u16_eq_some.mp hport
  obtain ⟨form, rfl, haddr⟩ := address_of_body hbody htgt
  refine ⟨atyp :: (form ++ [high, low]), last, by simp, ?_, haddr⟩
  simp only [length_cons, length_append, length_nil]
  omega

theorem decodeAddress_of_body
    (hbody : addressBody atyp (form ++ high :: low :: rest) = .ok (some (body, high :: low :: rest)))
    (htgt : addressTarget atyp body (portOf high low) = .ok target) :
    decodeAddress (atyp :: (form ++ [high, low]) ++ rest) =
      .ok (.complete target (atyp :: (form ++ [high, low])).length) := by
  have hport : u16 (high :: low :: rest) = some (fromBeBytes high low, rest) :=
    u16_eq_some.mpr ⟨high, low, rfl, rfl⟩
  have hbytes : atyp :: (form ++ [high, low]) ++ rest = atyp :: (form ++ high :: low :: rest) := by simp
  have hlen : (atyp :: (form ++ high :: low :: rest)).length - rest.length =
      (atyp :: (form ++ [high, low])).length := by
    simp only [length_cons, length_append, length_nil]
    omega
  unfold portOf at htgt
  rw [hbytes]
  simp only [decodeAddress, u8, hbody, bind, Except.bind, hport, htgt, hlen]

variable {peer : L3.SocketAddr}

theorem decodeAddress_ip (h : Address address (.ip peer)) (rest : Bytes) :
    decodeAddress (address ++ rest) = .ok (.complete (.ip peer) address.length) := by
  cases h with
  | ipv4 octets high low hlen =>
    have hbody : addressBody atypIpv4 (octets ++ high :: low :: rest) = .ok (some (octets, high :: low :: rest)) := by
      rw [addressBody, if_pos rfl, take_append hlen]
    exact decodeAddress_of_body hbody rfl
  | ipv6 octets high low hlen =>
    have hbody : addressBody atypIpv6 (octets ++ high :: low :: rest) = .ok (some (octets, high :: low :: rest)) := by
      rw [addressBody, if_neg (by decide), if_pos rfl, take_append hlen]
    exact decodeAddress_of_body hbody rfl

/-! ### Datagrams -/

def decodeDatagram : Bytes → Except ProxyError (Target × Bytes)
  | _ :: _ :: fragment :: rest =>
    if fragment ≠ 0 then .error .fragmented
    else do
      match ← decodeAddress rest with
      | .incomplete => .error .address
      | .complete value consumed => .ok (value, rest.drop consumed)
  | _ => .error .address

def Header (header : Bytes) (origin : Target) : Prop :=
  ∃ r₁ r₂ address, header = r₁ :: r₂ :: 0 :: address ∧ Address address origin

theorem decodeDatagram_ok (h : decodeDatagram bytes = .ok (origin, payload)) :
    ∃ header, Header header origin ∧ bytes = header ++ payload := by
  match bytes, h with
  | r₁ :: r₂ :: frag :: rest, h =>
    dsimp only [decodeDatagram] at h
    split_ifs at h with hfrag
    rw [not_not] at hfrag
    obtain ⟨decoded, hdec, h⟩ := bind_eq_ok.mp h
    cases decoded with
    | incomplete => cases h
    | complete value used =>
      cases h
      obtain ⟨addr, after, rfl, rfl, haddr⟩ := decodeAddress_complete hdec
      refine ⟨_, ⟨r₁, r₂, addr, rfl, haddr⟩, ?_⟩
      simp [hfrag]

theorem decodeDatagram_header (h : Header header (.ip peer)) :
    decodeDatagram (header ++ payload) = .ok (.ip peer, payload) := by
  obtain ⟨r₁, r₂, address, rfl, haddr⟩ := h
  simp only [decodeDatagram, cons_append, ne_eq, not_true_eq_false, if_false]
  rw [decodeAddress_ip haddr payload]
  simp [bind, Except.bind]

/-! ### The source -/

def maxUdpPayload : ℕ := 65535

structure State where
  socket : List Arrived
  ended : Bool

inductive Arrival
  | socket (arrived : Arrived)
  | controlEnded

def State.arrive (s : State) : Arrival → State
  | .socket arrived => { s with socket := s.socket ++ [arrived] }
  | .controlEnded => { s with ended := true }

def received (size : ℕ) : Arrived → Received
  | .error kind => .error (.io kind)
  | .ok d =>
    match decodeDatagram (d.payload.take maxUdpPayload) with
    | .error e => .error (.proxy e)
    | .ok (origin, payload) => copyWhole size payload origin

def recvFrom (s : State) (control : Bool) (size : ℕ) : State × Option Received :=
  if s.ended ∧ (control ∨ s.socket = []) then (s, some (.error (.io .connectionAborted)))
  else
    match s.socket with
    | [] => (s, none)
    | a :: rest => ({ s with socket := rest }, some (received size a))

def Carries (arrived : List Arrival) (payload : Bytes) (origin : Target) : Prop :=
  ∃ d header, .socket (.ok d) ∈ arrived ∧ Header header origin ∧ d.payload = header ++ payload

abbrev source : Source where
  State := State
  Arrival := Arrival
  Choice := Bool
  new := ⟨[], false⟩
  arrive := State.arrive
  turn := recvFrom
  Carries := Carries

theorem whole_received (h : .socket a ∈ arrived) (size : ℕ) : source.Whole arrived size (received size a) := by
  rcases a with _ | d
  · exact .inr ⟨_, rfl, nofun⟩
  have htake : d.payload.take maxUdpPayload = d.payload := take_of_length_le d.length_le
  dsimp only [received]
  rw [htake]
  rcases hdec : decodeDatagram d.payload with _ | ⟨origin, payload⟩
  · exact .inr ⟨_, rfl, nofun⟩
  obtain ⟨header, hhdr, hpay⟩ := decodeDatagram_ok hdec
  exact .inl ⟨payload, origin, ⟨d, header, h, hhdr, hpay⟩, rfl⟩

theorem mem_socket_recvFrom {control : Bool} (h : a ∈ (recvFrom s control size).1.socket) : a ∈ s.socket := by
  unfold recvFrom at h
  split_ifs at h
  · exact h
  rcases hsock : s.socket with _ | ⟨b, rest⟩
  · simp [hsock] at h
  rw [hsock] at h
  exact mem_cons_of_mem b h

theorem recvFrom_result {control : Bool} (h : (recvFrom s control size).2 = some r) :
    r = .error (.io .connectionAborted) ∨ ∃ a ∈ s.socket, r = received size a := by
  unfold recvFrom at h
  split_ifs at h
  · exact .inl (Option.some.inj h).symm
  rcases hsock : s.socket with _ | ⟨a, rest⟩
  · simp [hsock] at h
  rw [hsock] at h
  exact .inr ⟨a, mem_cons_self, (Option.some.inj h).symm⟩

def invariant : source.Invariant .none where
  Inv arrived s := ∀ a ∈ s.socket, .socket a ∈ arrived
  new := nofun
  arrive {arrived s a} h _ := by
    cases a with
    | socket a =>
      intro b hb
      rcases mem_append.mp hb with hb | hb
      · exact mem_append_left _ (h b hb)
      · rw [mem_singleton.mp hb]
        exact mem_append_right _ mem_cons_self
    | controlEnded => exact fun b hb => mem_append_left _ (h b hb)
  turn h a ha := h a (mem_socket_recvFrom ha)
  whole {arrived s c size r} h _ hr := by
    rcases recvFrom_result hr with haborted | ⟨a, ha, hreceived⟩
    · exact .inr ⟨_, haborted, nofun⟩
    · rw [hreceived]
      exact whole_received (h a ha) size

end Boreas.Socks5
