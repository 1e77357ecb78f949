import Boreas.Datapath

/-! # The datagram relay

l4/relay.rs for one association: a sink and a source of datagrams.  `Served.onReceived` is the arm for one result of
the source.  What it hands over is what the source gave, and nothing for an error (`onReceived_queue`); with room in
the pool and the channel it does so (`onReceived_of_room`). -/

namespace Boreas

open BufferPool L3

/-! ### Targets and errors -/

inductive DomainNameError
  | empty
  | tooLong (length : ℕ)
  | interior
deriving DecidableEq, Repr

@[ext]
structure DomainName where
  bytes : Bytes
  ne_nil : bytes ≠ []
  short : bytes.length ≤ 255
  no_nul : 0 ∉ bytes
  lowercase : bytes.map lower = bytes

instance : DecidableEq DomainName := fun _ _ => decidable_of_iff _ DomainName.ext_iff.symm

theorem lower_ne_zero (h : lower b = 0) : b = 0 := by
  unfold lower at h
  split_ifs at h with hupper
  · have h1 := UInt8.le_iff_toNat_le.mp hupper.1
    have h2 := UInt8.le_iff_toNat_le.mp hupper.2
    have h3 := congrArg UInt8.toNat h
    simp at h1 h2 h3
    omega
  · exact h

def DomainName.new (name : Bytes) : Except DomainNameError DomainName :=
  if hempty : name = [] then .error .empty
  else if hlong : 255 < name.length then .error (.tooLong name.length)
  else if hnul : 0 ∈ name then .error .interior
  else .ok
    { bytes := name.map lower
      ne_nil := by simpa using hempty
      short := by rw [List.length_map]; omega
      no_nul := fun h => by
        obtain ⟨b, hb, hzero⟩ := List.mem_map.mp h
        exact hnul (lower_ne_zero hzero ▸ hb)
      lowercase := by simp [Function.comp_def, lower_lower] }

inductive Target
  | ip (address : SocketAddr)
  | domain (host : DomainName) (port : UInt16)
deriving DecidableEq

inductive Reply
  | succeeded
  | generalFailure
  | notAllowed
  | networkUnreachable
  | hostUnreachable
  | connectionRefused
  | ttlExpired
  | commandNotSupported
  | addressTypeNotSupported
  | other (code : UInt8)
deriving DecidableEq, Repr

inductive ProxyError
  | version (version : UInt8)
  | denied (reason : Bytes)
  | noAcceptableMethod
  | unexpectedMethod (method : UInt8)
  | authFailed
  | refused (reply : Reply)
  | address
  | fragmented
  | crypto
  | header
  | stale (skew : ℕ)
  | saltMismatch
  | unframed
deriving DecidableEq, Repr

inductive ErrorKind
  | connectionAborted
  | brokenPipe
  | notFound
  | unexpectedEof
  | other
deriving DecidableEq, Repr

inductive EgressError
  | quic
  | datagramsUnsupported
  | datagramTooLarge (required : ℕ)
  | proxy (error : ProxyError)
  | io (kind : ErrorKind)
deriving DecidableEq, Repr

abbrev Received := Except EgressError (Bytes × Target)

def copyWhole (size : ℕ) (payload : Bytes) (origin : Target) : Received :=
  if payload.length ≤ size then .ok (payload, origin) else .error (.datagramTooLarge payload.length)

/-! ### The association -/

structure Channel (α : Type*) where
  capacity : ℕ
  queue : List α

def Channel.trySend {α : Type*} (c : Channel α) (a : α) : Channel α × Bool :=
  if c.queue.length < c.capacity then ({ c with queue := c.queue ++ [a] }, true) else (c, false)

theorem Channel.mem_trySend {c : Channel α} (h : b ∈ (c.trySend a).1.queue) : b ∈ c.queue ∨ b = a := by
  unfold Channel.trySend at h
  split_ifs at h
  · simpa using h
  · exact .inl h

structure Inbound where
  client : InternalEndpoint
  peer : InternalEndpoint
  payload : Bytes
deriving DecidableEq

/-- The state of `serve_association` besides its sockets: the shared pool, the channel to the reactor, and the
datagrams it dropped. -/
structure Served where
  pool : BufferPool
  inbound : Channel Inbound
  dropped : ℕ

namespace Served

variable (s : Served)

def drop : Served := { s with dropped := s.dropped + 1 }

variable (client : InternalEndpoint)

def onReceived : Received → Served × Bool
  | .ok (payload, .ip peer) =>
    match s.pool.take payload with
    | (pool, none) => ({ s with pool := pool }.drop, true)
    | (pool, some payload) =>
      match s.inbound.trySend ⟨client, peer.endpoint, payload⟩ with
      | (inbound, true) => ({ s with pool := pool, inbound := inbound }, true)
      | (_, false) => ({ s with pool := pool.release }.drop, true)
  -- A peer known by name only cannot be the source of a packet.
  | .ok (_, .domain _ _) => (s.drop, true)
  | .error (.datagramTooLarge _) => (s.drop, true)
  | .error _ => (s, false)

def onOutbound : Option (Except EgressError Unit) → Served × Bool
  | none => (s, false)
  | some (.ok ()) => (s, true)
  | some (.error _) => (s.drop, true)

def bufferSize : ℕ := s.pool.sliceSize

theorem onReceived_queue (r : Received) :
    (s.onReceived client r).1.inbound.queue = s.inbound.queue ∨ ∃ payload peer, r = .ok (payload, .ip peer) ∧
        (s.onReceived client r).1.inbound.queue = s.inbound.queue ++ [⟨client, peer.endpoint, payload⟩] := by
  rcases r with e | ⟨payload, origin⟩
  · cases e <;> exact .inl rfl
  cases origin with
  | domain host port => exact .inl rfl
  | ip peer =>
    rcases hresv : s.pool.reserve payload.length with ⟨pool, granted⟩
    rcases granted with _ | _
    · simp [onReceived, take, hresv, drop]
    by_cases hroom : s.inbound.queue.length < s.inbound.capacity
    · simp [onReceived, take, hresv, Channel.trySend, hroom]
    · simp [onReceived, take, hresv, Channel.trySend, hroom, drop]

theorem onReceived_of_room {s : Served} {payload : Bytes} (peer : SocketAddr)
    (hsize : payload.length ≤ s.pool.sliceSize) (hpool : 0 < s.pool.available)
    (hchannel : s.inbound.queue.length < s.inbound.capacity) :
    (s.onReceived client (.ok (payload, .ip peer))).1.inbound.queue =
      s.inbound.queue ++ [⟨client, peer.endpoint, payload⟩] := by
  have htake := take_of_room hsize hpool
  rcases ht : s.pool.take payload with ⟨pool, taken⟩
  rw [ht] at htake
  dsimp only at htake
  simp [onReceived, ht, htake, Channel.trySend, hchannel]

end Served

end Boreas
