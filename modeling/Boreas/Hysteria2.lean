import Boreas.Reader
import Boreas.Source

/-! # Hysteria2 datagrams

The receiving half of UDP over Hysteria2 (egress/hysteria2.rs) for one session; the parser of socket addresses is a
parameter.  The defragmenter tells datagrams apart by packet id and count only, so it may complete a mixture of two;
when that does not happen (`Apart`), what it returns is the concatenation of one datagram's fragments (`invariant`). -/

namespace Boreas.Hysteria2

open List
open L3 (SocketAddr)

/-! ### Messages -/

def maxMessageLen : ℕ := 2048

structure UdpMessage where
  session : ℕ
  packet : ℕ
  fragment : UInt8
  fragments : UInt8
  address : Bytes
  payload : Bytes
deriving DecidableEq, Repr

def UdpMessage.read (bytes : Bytes) : Option UdpMessage := do
  let (session, rest) ← Reader.u32 bytes
  let (packet, rest) ← Reader.u16 rest
  let (fragment, rest) ← Reader.u8 rest
  let (fragments, rest) ← Reader.u8 rest
  let (length, rest) ← Reader.varint rest
  if length = 0 ∨ maxMessageLen < length then none
  else
    let (address, payload) ← Reader.take length rest
    if payload = [] then none
    else if validUtf8 address then some ⟨session, packet, fragment, fragments, address, payload⟩
    else none

/-- The message is one of several fragments, with a number below their count. -/
def UdpMessage.Stored (m : UdpMessage) : Prop := 1 < m.fragments ∧ m.fragment < m.fragments

instance (m : UdpMessage) : Decidable m.Stored := inferInstanceAs (Decidable (_ ∧ _))

/-! ### The defragmenter -/

structure Defragmenter where
  packet : ℕ
  fragments : UInt8
  held : List (Option Bytes)
deriving DecidableEq, Repr

namespace Defragmenter

def fresh : Defragmenter := ⟨0, 0, []⟩

def select (d : Defragmenter) (m : UdpMessage) : Defragmenter :=
  if d.packet ≠ m.packet ∨ d.fragments ≠ m.fragments then
    ⟨m.packet, m.fragments, List.replicate m.fragments.toNat none⟩
  else d

def push (d : Defragmenter) (m : UdpMessage) : Defragmenter × Option Bytes :=
  if m.fragments ≤ 1 then (d, some m.payload)
  else if m.fragments ≤ m.fragment then (d, none)
  else
    let held := (d.select m).held.set m.fragment.toNat (some m.payload)
    if held.any Option.isNone then ({ d.select m with held := held }, none)
    else ({ d.select m with held := [], fragments := 0 }, some held.reduceOption.flatten)

end Defragmenter

/-! ### The route -/

def sessionDepth : ℕ := 64

structure Session where
  id : ℕ
  parse : Bytes → Option SocketAddr

variable (session : Session)

def Session.reads (bytes : Bytes) : Option (UdpMessage × SocketAddr) := do
  let message ← UdpMessage.read bytes
  if message.session ≠ session.id then none
  else
    let origin ← session.parse message.address
    some (message, origin)

/-- A QUIC datagram of the server. `datagram` numbers the UDP datagram it is a part of, which nothing on the wire
says. -/
structure Frame where
  datagram : ℕ
  bytes : Bytes

/-- The session's part of the reader task and its route. `holding` is the datagram whose fragments are held; the
source keeps no such number. -/
structure State where
  partials : Defragmenter
  holding : ℕ
  route : Channel (Bytes × Target)

/-- One round of the loop in `Sessions::serve`, as the session sees it. -/
def State.arrive (s : State) (frame : Frame) : State :=
  match session.reads frame.bytes with
  | none => s
  | some (message, origin) =>
    let (partials, whole) := s.partials.push message
    { partials := partials
      holding := if message.Stored then frame.datagram else s.holding
      -- A full route drops the datagram.
      route := match whole with
        | none => s.route
        | some whole => (s.route.trySend (whole, .ip origin)).1 }

def recvFrom (s : State) (closed : Bool) (size : ℕ) : State × Option Received :=
  let (queue, received) := Source.recvQueued .quic s.route.queue closed size
  ({ s with route := { s.route with queue := queue } }, received)

def Part (arrived : List Frame) (i packet : ℕ) (fragments : UInt8) (k : ℕ) (payload : Bytes)
    (origin : SocketAddr) : Prop :=
  ∃ frame ∈ arrived, frame.datagram = i ∧ ∃ message, session.reads frame.bytes = some (message, origin) ∧
    message.packet = packet ∧ message.fragments = fragments ∧ message.fragment.toNat = k ∧ message.payload = payload

/-- A datagram is carried by one message, or by all the fragments of one datagram in their order. -/
def Carries (arrived : List Frame) (payload : Bytes) (origin : Target) : Prop :=
  (∃ frame ∈ arrived, ∃ message address, session.reads frame.bytes = some (message, address) ∧
    message.fragments ≤ 1 ∧ payload = message.payload ∧ origin = .ip address) ∨
  ∃ i packet fragments address, ∃ parts : List Bytes, origin = .ip address ∧ parts.length = fragments.toNat ∧
    payload = parts.flatten ∧ (∃ k part, Part session arrived i packet fragments k part address) ∧
    ∀ k part, parts[k]? = some part → ∃ from_, Part session arrived i packet fragments k part from_

abbrev source : Source where
  State := State
  Arrival := Frame
  Choice := Bool
  new := ⟨.fresh, 0, ⟨sessionDepth, []⟩⟩
  arrive := State.arrive session
  turn := recvFrom
  Carries := Carries session

/-- A fragment that meets held fragments of its packet id and count is of the same datagram. -/
def Apart (s : State) (frame : Frame) : Prop :=
  ∀ message origin, session.reads frame.bytes = some (message, origin) → message.Stored →
    s.partials.packet = message.packet → s.partials.fragments = message.fragments → s.holding = frame.datagram

def conditions : (source session).Conditions := ⟨Apart session, fun _ _ => True⟩

/-! ### Whole datagrams -/

variable {session : Session}

variable {arrived later : List Frame}

theorem Part.mono (h : Part session arrived i packet fragments k payload origin) :
    Part session (arrived ++ later) i packet fragments k payload origin := by
  obtain ⟨frame, hframe, h⟩ := h
  exact ⟨frame, mem_append_left _ hframe, h⟩

theorem Carries.mono
    (h : Carries session arrived payload origin) : Carries session (arrived ++ later) payload origin := by
  rcases h with ⟨frame, hframe, h⟩ | ⟨i, packet, fragments, address, parts, horig, hlen, hpay, ⟨k, part, hpart⟩, hparts⟩
  · exact .inl ⟨frame, mem_append_left _ hframe, h⟩
  refine .inr ⟨i, packet, fragments, address, parts, horig, hlen, hpay, ⟨k, part, hpart.mono⟩, ?_⟩
  intro k part hk
  obtain ⟨from_, h⟩ := hparts k part hk
  exact ⟨from_, h.mono⟩

/-- The held fragments are of the datagram `holding`, and there is a place for each fragment of the packet. -/
structure HeldOk (session : Session) (arrived : List Frame) (d : Defragmenter) (holding : ℕ) : Prop where
  length : d.fragments ≠ 0 → d.held.length = d.fragments.toNat
  part : ∀ k payload, d.held[k]? = some (some payload) →
    ∃ from_, Part session arrived holding d.packet d.fragments k payload from_

variable {d : Defragmenter}

theorem HeldOk.mono (h : HeldOk session arrived d holding) : HeldOk session (arrived ++ later) d holding := by
  refine ⟨h.length, fun k payload hk => ?_⟩
  obtain ⟨from_, hpart⟩ := h.part k payload hk
  exact ⟨from_, hpart.mono⟩

theorem HeldOk.select (h : HeldOk session arrived d holding)
    (hapart : d.packet = m.packet → d.fragments = m.fragments → holding = datagram) :
    HeldOk session arrived (d.select m) datagram := by
  unfold Defragmenter.select
  split_ifs with hother
  · refine ⟨fun _ => length_replicate, fun k payload hk => ?_⟩
    rw [getElem?_replicate] at hk
    split_ifs at hk
    cases hk
  · rw [not_or, not_not, not_not] at hother
    rw [← hapart hother.1 hother.2]
    exact h

theorem select_packet (d : Defragmenter) (m : UdpMessage) : (d.select m).packet = m.packet := by
  unfold Defragmenter.select
  split_ifs with hother
  · rfl
  · rw [not_or, not_not] at hother
    exact hother.1

theorem select_fragments (d : Defragmenter) (m : UdpMessage) : (d.select m).fragments = m.fragments := by
  unfold Defragmenter.select
  split_ifs with hother
  · rfl
  · rw [not_or, not_not, not_not] at hother
    exact hother.2

theorem HeldOk.store
    (h : HeldOk session arrived (d.select m) frame.datagram) (hreads : session.reads frame.bytes = some (m, origin)) :
    HeldOk session (arrived ++ [frame])
      { d.select m with held := (d.select m).held.set m.fragment.toNat (some m.payload) } frame.datagram := by
  refine ⟨fun hne => by rw [length_set]; exact h.length hne, fun k payload hk => ?_⟩
  rw [getElem?_set] at hk
  split_ifs at hk with hindex hrange
  · cases hk
    refine ⟨origin, frame, mem_append_right _ mem_cons_self, rfl, m, hreads, ?_, ?_, hindex, rfl⟩
    · exact (select_packet d m).symm
    · exact (select_fragments d m).symm
  · obtain ⟨from_, hpart⟩ := h.part k payload hk
    exact ⟨from_, hpart.mono⟩

theorem exists_map_some (h : held.any Option.isNone = false) : ∃ parts : List Bytes, held = parts.map some := by
  refine ⟨held.reduceOption, ?_⟩
  induction held with
  | nil => rfl
  | cons o held ih =>
    rw [any_cons, Bool.or_eq_false_iff] at h
    cases o with
    | none => cases h.1
    | some part =>
      rw [reduceOption_cons_of_some, map_cons, ← ih h.2]

theorem HeldOk.carries {part : Bytes} (h : HeldOk session arrived d datagram) (hne : d.fragments ≠ 0)
    (hfull : d.held.any Option.isNone = false) (hpart : Part session arrived datagram d.packet d.fragments k part origin) :
    Carries session arrived d.held.reduceOption.flatten (.ip origin) := by
  obtain ⟨parts, hparts⟩ := exists_map_some hfull
  have hreduce : d.held.reduceOption = parts := by
    rw [hparts]
    simp [List.reduceOption, filterMap_map]
  have hlen := h.length hne
  rw [hparts, length_map] at hlen
  refine .inr ⟨datagram, d.packet, d.fragments, origin, parts, rfl, hlen, by rw [hreduce], ⟨k, part, hpart⟩, ?_⟩
  intro j payload hj
  refine h.part j payload ?_
  rw [hparts, getElem?_map, hj]
  rfl

theorem push_cases (d : Defragmenter) (m : UdpMessage) :
    (¬ m.Stored ∧ d.push m = (d, if m.fragments ≤ 1 then some m.payload else none)) ∨
      m.Stored ∧ ∃ held, held = (d.select m).held.set m.fragment.toNat (some m.payload) ∧
        (d.push m = ({ d.select m with held := held }, none) ∨
          held.any Option.isNone = false ∧
            d.push m = ({ d.select m with held := [], fragments := 0 }, some held.reduceOption.flatten)) := by
  unfold Defragmenter.push UdpMessage.Stored
  by_cases hsgl : m.fragments ≤ 1
  · simp only [if_pos hsgl]
    exact .inl ⟨fun h => absurd hsgl (UInt8.not_le.mpr h.1), trivial⟩
  by_cases hrange : m.fragments ≤ m.fragment
  · simp only [if_neg hsgl, if_pos hrange]
    exact .inl ⟨fun h => absurd hrange (UInt8.not_le.mpr h.2), trivial⟩
  simp only [if_neg hsgl, if_neg hrange]
  refine .inr ⟨⟨UInt8.not_le.mp hsgl, UInt8.not_le.mp hrange⟩, _, rfl, ?_⟩
  by_cases hmiss : ((d.select m).held.set m.fragment.toNat (some m.payload)).any Option.isNone = true
  · exact .inl (if_pos hmiss)
  · exact .inr ⟨Bool.eq_false_iff.mpr hmiss, if_neg hmiss⟩

structure Inv (session : Session) (arrived : List Frame) (s : State) : Prop where
  held : HeldOk session arrived s.partials s.holding
  route : ∀ reply ∈ s.route.queue, Carries session arrived reply.1 reply.2

theorem Inv.arrive (h : Inv session arrived s)
    (hapart : Apart session s frame) : Inv session (arrived ++ [frame]) (s.arrive session frame) := by
  have hroute : ∀ reply ∈ s.route.queue, Carries session (arrived ++ [frame]) reply.1 reply.2 :=
    fun reply hreply => (h.route reply hreply).mono
  unfold State.arrive
  rcases hreads : session.reads frame.bytes with _ | ⟨m, origin⟩
  · exact ⟨h.held.mono, hroute⟩
  dsimp only
  rcases push_cases s.partials m with ⟨hsto, hpush⟩ | ⟨hsto, held, hheld, hpush⟩
  · rw [hpush, if_neg hsto]
    split_ifs with hsgl
    · refine ⟨h.held.mono, fun reply hreply => ?_⟩
      rcases Channel.mem_trySend hreply with hreply | rfl
      · exact hroute reply hreply
      · exact .inl ⟨frame, mem_append_right _ mem_cons_self, m, origin, hreads, hsgl, rfl, rfl⟩
    · exact ⟨h.held.mono, hroute⟩
  · have hok := (h.held.select (hapart m origin hreads hsto)).store hreads
    rw [← hheld] at hok
    rcases hpush with hpush | ⟨hfull, hpush⟩
    · rw [hpush, if_pos hsto]
      exact ⟨hok, hroute⟩
    rw [hpush, if_pos hsto]
    refine ⟨⟨fun hne => absurd rfl hne, nofun⟩, fun reply hreply => ?_⟩
    rcases Channel.mem_trySend hreply with hreply | rfl
    · exact hroute reply hreply
    have hne : m.fragments ≠ 0 := fun hzero => by
      have hone := hsto.1
      rw [hzero] at hone
      cases hone
    refine hok.carries (by rw [select_fragments]; exact hne) hfull
      ⟨frame, mem_append_right _ mem_cons_self, rfl, m, hreads, ?_, ?_, rfl, rfl⟩
    · exact (select_packet s.partials m).symm
    · exact (select_fragments s.partials m).symm

/-- The held fragments are of one datagram, and the route holds whole datagrams. -/
def invariant (session : Session) : (source session).Invariant (conditions session) where
  Inv := Inv session
  new := ⟨⟨fun h => absurd rfl h, fun k payload h => by cases h⟩, fun reply h => by cases h⟩
  arrive h hapart := Inv.arrive h hapart
  turn h := ⟨h.held, fun reply hreply => h.route reply (Source.mem_recvQueued hreply)⟩
  whole h _ hr := Source.whole_recvQueued (fun _ hgone => by cases hgone) h.route hr

end Boreas.Hysteria2
