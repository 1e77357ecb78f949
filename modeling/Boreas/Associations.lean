import Boreas.ShadowsocksUdp
import Boreas.Hysteria2
import Boreas.Vless

/-! # Every association

The five datagram sources behind one promise: `recv_from` gives the whole payload of one datagram, or refuses it with
its length.  `DirectSource` receives into the caller's buffer, where the system cuts a long datagram, and Hysteria2
may mix fragments.  `whole_run` is the promise over every run that avoids both. -/

namespace Boreas.Associations

open Direct List Runs
open Direct (Arrived UdpSocket)

/-! ### The direct source -/

variable (socket : UdpSocket)

def recvDirect (queue : List Arrived) (size : ℕ) : List Arrived × Option Received :=
  match queue with
  | [] => ([], none)
  | .error kind :: rest => (rest, some (.error (.io kind)))
  | .ok d :: rest => (rest, some (recvFrom socket d size))

def CarriesDirect (arrived : List Arrived) (payload : Bytes) (origin : Target) : Prop :=
  ∃ d, .ok d ∈ arrived ∧ payload = d.payload ∧ origin = .ip (socket.reports d.origin)

abbrev direct (socket : UdpSocket) : Source where
  State := List Arrived
  Arrival := Arrived
  Choice := Unit
  new := []
  arrive queue a := queue ++ [a]
  turn queue _ size := recvDirect socket queue size
  Carries := CarriesDirect socket

def Fits (queue : List Arrived) (size : ℕ) : Prop := ∀ d, queue.head? = some (.ok d) → d.payload.length ≤ size

def directConditions : (direct socket).Conditions := ⟨fun _ _ => True, Fits⟩

theorem whole_recvDirect {socket : UdpSocket} {arrived : List Arrived}
    (harr : ∀ a ∈ queue, a ∈ arrived) (hfits : Fits queue size)
    (h : (recvDirect socket queue size).2 = some r) : (direct socket).Whole arrived size r := by
  rcases queue with _ | ⟨kind | d, rest⟩
  · cases h
  · cases h
    exact .inr ⟨_, rfl, fun _ h => by cases h⟩
  · cases h
    have hsize := hfits d rfl
    refine .inl ⟨d.payload, _, ⟨d, harr _ mem_cons_self, rfl, rfl⟩, ?_⟩
    unfold recvFrom UdpSocket.recvFrom copyWhole
    rw [take_of_length_le hsize, if_pos hsize]

def directInvariant : (direct socket).Invariant (directConditions socket) where
  Inv arrived queue := ∀ a ∈ queue, a ∈ arrived
  new := nofun
  arrive h _ a ha := by
    rcases mem_append.mp ha with ha | ha
    · exact mem_append_left _ (h a ha)
    · exact mem_append_right _ ha
  turn {arrived queue c size} h := by
    match queue with
    | [] => exact h
    | .error kind :: rest => exact fun a ha => h a (mem_cons_of_mem _ ha)
    | .ok d :: rest => exact fun a ha => h a (mem_cons_of_mem _ ha)
  whole h hfits hr := whole_recvDirect h hfits hr

/-! ### The five sources -/

inductive Kind
  | direct (socket : UdpSocket)
  | socks5
  | shadowsocks (relay : Shadowsocks.PacketRelay)
  | hysteria2 (session : Hysteria2.Session)
  | vless (targets : ℕ → Target)

def source : Kind → Source
  | .direct socket => direct socket
  | .socks5 => Socks5.source
  | .shadowsocks relay => Shadowsocks.source relay
  | .hysteria2 session => Hysteria2.source session
  | .vless targets => Vless.source targets

def conditions : (kind : Kind) → (source kind).Conditions
  | .direct socket => directConditions socket
  | .socks5 => .none
  | .shadowsocks _ => .none
  | .hysteria2 session => Hysteria2.conditions session
  | .vless _ => .none

def invariant : (kind : Kind) → (source kind).Invariant (conditions kind)
  | .direct socket => directInvariant socket
  | .socks5 => Socks5.invariant
  | .shadowsocks relay => Shadowsocks.invariant relay
  | .hysteria2 session => Hysteria2.invariant session
  | .vless targets => Vless.invariant targets

/-- **Whole datagrams.** In every run of every association whose steps meet the conditions, each result of
`recv_from` is one datagram copied whole or refused for its length, or an error of another kind, and what the relay
hands over for the client is a whole datagram. -/
theorem whole_run (kind : Kind) (es : List (source kind).Event)
    (hmet : Along Source.step (conditions kind).Met .new es) :
    ∀ result ∈ (run Source.step (.new : (source kind).Used) es).results,
      Source.Whole result.arrived result.size result.received ∧ Source.Relayed result.arrived result.received :=
  fun result hres =>
    have hwhole := (invariant kind).whole_results es hmet result hres
    ⟨hwhole, hwhole.relayed⟩

/-! ### Two replies -/

def peer : L3.SocketAddr := ⟨.v4 0xc6336402#32, 53⟩

def small : Direct.Datagram := ⟨peer, [1, 2, 3], by decide⟩

theorem whole_small :
    let kind : Kind := .direct ⟨.v4⟩
    let es : List (source kind).Event := [.arrives (.ok small), .turns () served.bufferSize]
    Along Source.step (conditions kind).Met .new es ∧
      ∀ result ∈ (run Source.step (.new : (source kind).Used) es).results,
        Source.Whole result.arrived result.size result.received ∧ Source.Relayed result.arrived result.received := by
  have hmet : Along Source.step (conditions (.direct ⟨.v4⟩)).Met .new
      [.arrives (.ok small), .turns () served.bufferSize] := by
    refine ⟨trivial, fun d hd => ?_, trivial⟩
    cases hd
    decide
  exact ⟨hmet, whole_run (.direct ⟨.v4⟩) _ hmet⟩

def large : Direct.Datagram := ⟨peer, List.replicate 2000 7, by rw [length_replicate]; decide⟩

/-- **A reply cut short**: the buffer of 1500 bytes is filled with the beginning of the reply, `recv_from` returns
it as a datagram, and the relay hands it over for the client. -/
theorem cut_short :
    let kind : Kind := .direct ⟨.v4⟩
    let es : List (source kind).Event := [.arrives (.ok large), .turns () served.bufferSize]
    let cut : Received := .ok (List.replicate 1500 7, .ip peer)
    (run Source.step (.new : (source kind).Used) es).results = [⟨[.ok large], 1500, cut⟩] ∧
      ¬ (source kind).Whole [.ok large] 1500 cut ∧
      (served.onReceived ⟨client4, 4000⟩ cut).1.inbound.queue =
        [⟨⟨client4, 4000⟩, peer.endpoint, List.replicate 1500 7⟩] := by
  have hcut : recvFrom ⟨.v4⟩ large 1500 = .ok (List.replicate 1500 7, .ip peer) := by
    unfold recvFrom UdpSocket.recvFrom large
    rw [take_replicate]
    rfl
  refine ⟨?_, ?_, ?_⟩
  · exact congrArg (fun r => [(⟨[.ok large], 1500, r⟩ : (direct ⟨.v4⟩).Result)]) hcut
  · rintro (⟨payload, origin, ⟨d, hd, hpay, -⟩, hcop⟩ | ⟨error, herror, -⟩)
    · cases mem_singleton.mp hd
      have hlen : payload.length = 2000 := by
        rw [hpay]
        exact length_replicate
      unfold copyWhole at hcop
      rw [hlen, if_neg (by decide)] at hcop
      cases hcop
    · cases herror
  · exact Served.onReceived_of_room _ peer (by rw [length_replicate]; decide) (by decide) (by decide)

end Boreas.Associations
