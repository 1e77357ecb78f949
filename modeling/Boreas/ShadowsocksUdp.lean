import Boreas.Socks5
import Boreas.Window

/-! # Shadowsocks 2022 datagrams

The receiving half of a Shadowsocks 2022 UDP association (egress/shadowsocks.rs); the block cipher and the AEAD are
parameters.  `PacketHeader` is the response header of SIP022 by itself, and `decodePacketResponse_ok` says that the
payload is what follows one.  `source` is `PacketSource`; its results are whole (`invariant`). -/

namespace Boreas.Shadowsocks

open List Option Reader
open Direct (Arrived)

open Socks5 (decodeAddress Address decodeAddress_complete maxUdpPayload)

/-! ### The packet cipher -/

def tag : ℕ := 16

def separateHeader : ℕ := 16

def mergedNonce : ℕ := 24

abbrev OpenInPlace := Bytes → Bytes → Bytes → Option Bytes

/-- The two packet formats: an AES block before a body keyed by the session, or the identity inside the body. -/
inductive PacketCipher
  | separate (block : Bytes → Option Bytes) (aead : Bytes → Option OpenInPlace)
  | merged (key : OpenInPlace)

structure Opened where
  session : Bytes
  packetId : UInt64
  /-- The message, beginning at its type byte. -/
  message : Bytes

def okOr {α : Type} (e : ProxyError) : Option α → Except ProxyError α
  | none => .error e
  | some a => .ok a

namespace PacketCipher

def reveal (key : OpenInPlace) (nonce body : Bytes) : Except ProxyError Bytes :=
  if body.length < tag then .error .header
  else okOr .crypto (key nonce (body.take (body.length - tag)) (body.drop (body.length - tag)))

def identify (identity message : Bytes) : Opened :=
  ⟨identity.take 8, UInt64.ofNat (ofOctets ((identity.drop 8).take 8)), message⟩

def openPacket : PacketCipher → Bytes → Except ProxyError Opened
  | .separate block aead, datagram => do
    let (header, body) ← okOr .header (take separateHeader datagram)
    let identity ← okOr .crypto (block header)
    let key ← okOr .crypto (aead (identity.take 8))
    let message ← reveal key ((identity.take separateHeader).drop 4) body
    .ok (identify identity message)
  | .merged key, datagram => do
    let (nonce, body) ← okOr .header (take mergedNonce datagram)
    let plain ← reveal key nonce body
    if plain.length < separateHeader then .error .header
    else .ok (identify (plain.take separateHeader) (plain.drop separateHeader))

end PacketCipher

/-! ### The response header -/

def packetToClient : UInt8 := 1

def clockSkewSeconds : ℕ := 30

def checkTimestamp (theirs ours : ℕ) : Except ProxyError Unit :=
  let skew := (ours - theirs) + (theirs - ours)
  if clockSkewSeconds < skew then .error (.stale skew) else .ok ()

def readFixed (message : Bytes) : Option (ℕ × Bytes × Bytes) := do
  let (type, rest) ← u8 message
  let (stamp, rest) ← u64 rest
  let (session, rest) ← take 8 rest
  if type = packetToClient then some (stamp, session, rest) else none

def decodePacketResponse (message clientSession : Bytes) (now : ℕ) : Except ProxyError (Target × ℕ) := do
  let (stamp, session, rest) ← okOr .header (readFixed message)
  checkTimestamp stamp now
  if session ≠ clientSession then .error .saltMismatch
  else
    let (_, rest) ← okOr .header (vectorU16 rest)
    match ← decodeAddress rest with
    | .complete value consumed => .ok (value, message.length - rest.length + consumed)
    | .incomplete => .error .header

/-- A response header for the client's session: type, time, session, padding and address. -/
def PacketHeader (session header : Bytes) (origin : Target) : Prop :=
  ∃ stamp high low padding address, stamp.length = 8 ∧ padding.length = fromBeBytes high low ∧
    Address address origin ∧ header = packetToClient :: (stamp ++ session ++ high :: low :: (padding ++ address))

theorem okOr_eq_ok : okOr e o = .ok a ↔ o = some a := by
  cases o with
  | none | some b => simp [okOr]

theorem readFixed_eq_some (h : readFixed message = some (stamp, session, rest)) :
    ∃ octets, octets.length = 8 ∧ message = packetToClient :: (octets ++ session ++ rest) := by
  unfold readFixed at h
  obtain ⟨⟨type, r₁⟩, htype, h⟩ := bind_eq_some_iff.mp h
  obtain ⟨⟨value, r₂⟩, hstamp, h⟩ := bind_eq_some_iff.mp h
  obtain ⟨⟨taken, r₃⟩, hsess, h⟩ := bind_eq_some_iff.mp h
  split_ifs at h with hclient
  cases h
  obtain ⟨⟨octets, r₂'⟩, htake, hvalue⟩ := map_eq_some_iff.mp hstamp
  cases hvalue
  obtain ⟨hr₁, hoctets⟩ := take_eq_some.mp htake
  obtain ⟨hr₂, -⟩ := take_eq_some.mp hsess
  refine ⟨octets, hoctets, ?_⟩
  rw [u8_eq_some.mp htype, hclient, hr₁, hr₂, append_assoc]

theorem decodePacketResponse_ok (h : decodePacketResponse message session now = .ok (origin, start)) :
    ∃ header, PacketHeader session header origin ∧ message = header ++ message.drop start := by
  unfold decodePacketResponse at h
  obtain ⟨⟨stamp, echoed, rest⟩, hfixed, h⟩ := bind_eq_ok.mp h
  obtain ⟨-, -, h⟩ := bind_eq_ok.mp h
  split_ifs at h with hsess
  obtain ⟨⟨padding, tail⟩, hpadding, h⟩ := bind_eq_ok.mp h
  obtain ⟨decoded, hdec, h⟩ := bind_eq_ok.mp h
  cases decoded with
  | incomplete => cases h
  | complete value used =>
    cases h
    obtain ⟨octets, hoctets, rfl⟩ := readFixed_eq_some (okOr_eq_ok.mp hfixed)
    obtain ⟨high, low, rfl, hlen⟩ := vectorU16_eq_some (okOr_eq_ok.mp hpadding)
    obtain ⟨addr, payload, rfl, rfl, haddr⟩ := decodeAddress_complete hdec
    rw [not_not] at hsess
    refine ⟨_, ⟨octets, high, low, padding, addr, hoctets, hlen, haddr, rfl⟩, ?_⟩
    have hmsg : packetToClient :: (octets ++ echoed ++ high :: low :: (padding ++ (addr ++ payload))) =
        packetToClient :: (octets ++ session ++ high :: low :: (padding ++ addr)) ++ payload := by
      simp [hsess]
    rw [hmsg, eq_comm, append_cancel_left_eq]
    refine drop_left' ?_
    simp only [length_cons, length_append]
    omega

/-! ### The source -/

structure PacketRelay where
  cipher : PacketCipher
  session : Bytes

structure Sessions where
  current : Option (Bytes × Window)
  previous : Option (Bytes × Window)

def windowOf (held : Option (Bytes × Window)) (session : Bytes) : Option Window :=
  held.bind fun (id, window) => if id = session then some window else none

def Sessions.admitPacket (s : Sessions) (session : Bytes) (id : UInt64) : Bool × Sessions :=
  match windowOf s.current session with
  | some window => ((window.admitId id).1, { s with current := some (session, (window.admitId id).2) })
  | none =>
    match windowOf s.previous session with
    | some window => ((window.admitId id).1, { s with previous := some (session, (window.admitId id).2) })
    | none => ((Window.fresh.admitId id).1, ⟨some (session, (Window.fresh.admitId id).2), s.current⟩)

structure State where
  socket : List Arrived
  sessions : Sessions

variable (relay : PacketRelay)

def readPacket (now : ℕ) (framed : Bytes) : Except ProxyError (Opened × Target × ℕ) := do
  let opened ← relay.cipher.openPacket framed
  let (origin, start) ← decodePacketResponse opened.message relay.session now
  .ok (opened, origin, start)

def recvFrom (s : State) (now size : ℕ) : State × Option Received :=
  match s.socket with
  | [] => (s, none)
  | .error kind :: rest => ({ s with socket := rest }, some (.error (.io kind)))
  | .ok d :: rest =>
    match readPacket relay now (d.payload.take maxUdpPayload) with
    | .error _ => ({ s with socket := rest }, none)
    | .ok (opened, origin, start) =>
      -- Replay state advances only after authentication and validation.
      match s.sessions.admitPacket opened.session opened.packetId with
      | (false, sessions) => (⟨rest, sessions⟩, none)
      | (true, sessions) => (⟨rest, sessions⟩, some (copyWhole size (opened.message.drop start) origin))

def Carries (arrived : List Arrived) (payload : Bytes) (origin : Target) : Prop :=
  ∃ d opened header, .ok d ∈ arrived ∧ relay.cipher.openPacket d.payload = .ok opened ∧
    PacketHeader relay.session header origin ∧ opened.message = header ++ payload

abbrev source : Source where
  State := State
  Arrival := Arrived
  Choice := ℕ
  new := ⟨[], none, none⟩
  arrive s a := { s with socket := s.socket ++ [a] }
  turn := recvFrom relay
  Carries := Carries relay

variable {relay : PacketRelay}

theorem carries_of_readPacket (hd : .ok d ∈ arrived)
    (h : readPacket relay now (d.payload.take maxUdpPayload) = .ok (opened, origin, start)) :
    Carries relay arrived (opened.message.drop start) origin := by
  have htake : d.payload.take maxUdpPayload = d.payload := take_of_length_le d.length_le
  rw [htake] at h
  unfold readPacket at h
  obtain ⟨opened', hopen, h⟩ := bind_eq_ok.mp h
  obtain ⟨⟨origin', start'⟩, hdec, h⟩ := bind_eq_ok.mp h
  cases h
  obtain ⟨header, hhdr, hmsg⟩ := decodePacketResponse_ok hdec
  exact ⟨d, opened, header, hd, hopen, hhdr, hmsg⟩

theorem mem_socket_recvFrom (h : a ∈ (recvFrom relay s now size).1.socket) : a ∈ s.socket := by
  unfold recvFrom at h
  split at h
  · exact h
  · rename_i hsock
    rw [hsock]
    exact mem_cons_of_mem _ h
  rename_i hsock
  rw [hsock]
  refine mem_cons_of_mem _ ?_
  split at h
  · exact h
  · split at h <;> exact h

theorem recvFrom_result (h : (recvFrom relay s now size).2 = some r) :
    (∃ kind, r = .error (.io kind)) ∨ ∃ d opened origin start, .ok d ∈ s.socket ∧
      readPacket relay now (d.payload.take maxUdpPayload) = .ok (opened, origin, start) ∧
      r = copyWhole size (opened.message.drop start) origin := by
  unfold recvFrom at h
  split at h
  · cases h
  · cases h
    exact .inl ⟨_, rfl⟩
  rename_i d rest hsock
  split at h
  · cases h
  rename_i opened origin start hread
  split at h
  · cases h
  · cases h
    exact .inr ⟨d, opened, origin, start, hsock ▸ mem_cons_self, hread, rfl⟩

def invariant (relay : PacketRelay) : (source relay).Invariant .none where
  Inv arrived s := ∀ a ∈ s.socket, a ∈ arrived
  new := nofun
  arrive h _ a ha := by
    rcases mem_append.mp ha with ha | ha
    · exact mem_append_left _ (h a ha)
    · exact mem_append_right _ ha
  turn h a ha := h a (mem_socket_recvFrom ha)
  whole {arrived s c size r} h _ hr := by
    rcases recvFrom_result hr with ⟨kind, hfailed⟩ | ⟨d, opened, origin, start, hd, hread, hcopied⟩
    · exact .inr ⟨_, hfailed, nofun⟩
    · exact .inl ⟨_, origin, carries_of_readPacket (h _ hd) hread, hcopied⟩

end Boreas.Shadowsocks
