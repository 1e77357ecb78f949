import Boreas.Associations
import Boreas.Serving

/-! # One bad datagram

What a datagram that cannot be decoded does to its association, for every source that the relay can serve.  SOCKS5
alone returns its decoding error from `recv_from`, and the relay ends the association for it.  By `onlyItself_run` a
run in which what a SOCKS5 relay sends decodes keeps `OnlyItself`. -/

namespace Boreas.Associations

open Hysteria2.State List Runs Shadowsocks
open L3 (SocketAddr InternalEndpoint)
open Direct (Arrived UdpSocket)
open Source.Ordered (Serving Taken Event)

/-! ### What waits in each source -/

theorem head_toList_append_tail (l : List α) : l.head?.toList ++ l.tail = l := by
  cases l <;> rfl

def directOrdered (socket : UdpSocket) : (direct socket).Ordered where
  Item := Arrived
  waiting queue := queue
  added _ a := [a]
  next queue _ := queue.head?
  waiting_new := rfl
  waiting_arrive _ _ := rfl
  waiting_turn queue c size := by
    match queue with
    | [] => rfl
    | .error kind :: rest => rfl
    | .ok d :: rest => rfl

def nextSocks5 (s : Socks5.State) (control : Bool) : Option Arrived :=
  if s.ended ∧ (control ∨ s.socket = []) then none else s.socket.head?

theorem recvFrom_socks5 {control : Bool} (h : nextSocks5 s control = some a) (size : ℕ) :
    Socks5.recvFrom s control size = ({ s with socket := s.socket.tail }, some (Socks5.received size a)) := by
  unfold nextSocks5 at h
  unfold Socks5.recvFrom
  split_ifs at h ⊢
  rcases hsock : s.socket with _ | ⟨b, rest⟩
  · simp [hsock] at h
  rw [hsock] at h
  cases h
  rfl

def socks5Ordered : Socks5.source.Ordered where
  Item := Arrived
  waiting s := s.socket
  added _ a := match a with
    | .socket arrived => [arrived]
    | .controlEnded => []
  next := nextSocks5
  waiting_new := rfl
  waiting_arrive s a := by
    cases a with
    | socket arrived => rfl
    | controlEnded => simp [Socks5.State.arrive]
  waiting_turn s control size := by
    unfold nextSocks5
    show s.socket = _ ++ (Socks5.recvFrom s control size).1.socket
    unfold Socks5.recvFrom
    split_ifs
    · rfl
    · cases hsocket : s.socket with
      | nil => simp [hsocket]
      | cons a rest => rfl

variable (gone : EgressError) (relay : Shadowsocks.PacketRelay)

theorem socket_recvFrom (s : Shadowsocks.State) (now size : ℕ) :
    (recvFrom relay s now size).1.socket = s.socket.tail := by
  unfold recvFrom
  rcases hsock : s.socket with _ | ⟨a, rest⟩
  · exact hsock
  rcases a with _ | d
  · rfl
  dsimp only
  split
  · rfl
  · split <;> rfl

def shadowsocksOrdered (relay : Shadowsocks.PacketRelay) : (Shadowsocks.source relay).Ordered where
  Item := Arrived
  waiting s := s.socket
  added _ a := [a]
  next s _ := s.socket.head?
  waiting_new := rfl
  waiting_arrive _ _ := rfl
  waiting_turn s now size := by
    show s.socket = _ ++ (Shadowsocks.recvFrom relay s now size).1.socket
    rw [socket_recvFrom, head_toList_append_tail]

theorem recvQueued_fst (queue : List (Bytes × Target)) (closed : Bool) (size : ℕ) :
    (Source.recvQueued gone queue closed size).1 = queue.tail := by
  cases queue <;> rfl

def addedHysteria2 (session : Hysteria2.Session) (s : Hysteria2.State) (frame : Hysteria2.Frame) :
    List (Bytes × Target) :=
  match session.reads frame.bytes with
  | none => []
  | some (message, origin) => match (s.partials.push message).2 with
    | none => []
    | some whole => if s.route.queue.length < s.route.capacity then [(whole, .ip origin)] else []

def hysteria2Ordered (session : Hysteria2.Session) : (Hysteria2.source session).Ordered where
  Item := Bytes × Target
  waiting s := s.route.queue
  added := addedHysteria2 session
  next s _ := s.route.queue.head?
  waiting_new := rfl
  waiting_arrive s frame := by
    show (s.arrive session frame).route.queue = s.route.queue ++ addedHysteria2 session s frame
    unfold arrive addedHysteria2
    cases session.reads frame.bytes with
    | none => simp
    | some read =>
      obtain ⟨message, origin⟩ := read
      dsimp only
      cases (s.partials.push message).2 with
      | none => simp
      | some whole =>
        dsimp only [Channel.trySend]
        split_ifs
        · rfl
        · simp
  waiting_turn s closed size := by
    show s.route.queue = _ ++ (Source.recvQueued .quic s.route.queue closed size).1
    rw [recvQueued_fst, head_toList_append_tail]

def addedVless (targets : ℕ → Target) (s : Vless.State) (a : Vless.Arrival) : List (Bytes × Target) :=
  (((s.streams a.stream).next a.read).2.take (s.inbound.capacity - s.inbound.queue.length)).map
    fun payload => (payload, targets a.stream)

def vlessOrdered (targets : ℕ → Target) : (Vless.source targets).Ordered where
  Item := Bytes × Target
  waiting s := s.inbound.queue
  added := addedVless targets
  next s _ := s.inbound.queue.head?
  waiting_new := rfl
  waiting_arrive s a := by
    rw [addedVless, map_take]
    exact congrArg Channel.queue (Vless.offer_queue s.inbound _)
  waiting_turn s closed size := by
    show s.inbound.queue = _ ++ (Source.recvQueued (.io .brokenPipe) s.inbound.queue closed size).1
    rw [recvQueued_fst, head_toList_append_tail]

def ordered : (kind : Kind) → (source kind).Ordered
  | .direct socket => directOrdered socket
  | .socks5 => socks5Ordered
  | .shadowsocks relay => shadowsocksOrdered relay
  | .hysteria2 session => hysteria2Ordered session
  | .vless targets => vlessOrdered targets

/-! ### Datagrams, well formed and not -/

def IsDatagram : (kind : Kind) → (ordered kind).Item → Prop
  | .direct _, item => ∃ d : Direct.Datagram, item = .ok d
  | .socks5, item => ∃ d : Direct.Datagram, item = .ok d
  | .shadowsocks _, item => ∃ d : Direct.Datagram, item = .ok d
  | .hysteria2 _, _ => True
  | .vless _, _ => True

/-- The item is a datagram that its egress cannot decode. What Hysteria2 and VLESS queue is decoded. -/
def Undecodable : (kind : Kind) → (ordered kind).Item → Prop
  | .socks5, item => ∃ d : Direct.Datagram, item = .ok d ∧ ∃ e, Socks5.decodeDatagram d.payload = .error e
  | .shadowsocks relay, item =>
    ∃ d : Direct.Datagram, item = .ok d ∧ ∀ now, ∃ e, Shadowsocks.readPacket relay now d.payload = .error e
  | _, _ => False

/-- The item is a datagram of a peer, as the source finds it: for Shadowsocks also in time and not a replay. -/
def WellFormed : (kind : Kind) → (source kind).State → (source kind).Choice → (ordered kind).Item → Bytes →
    SocketAddr → Prop
  | .direct socket, _, _, item, payload, peer =>
    ∃ d : Direct.Datagram, item = .ok d ∧ payload = d.payload ∧ peer = socket.reports d.origin
  | .socks5, _, _, item, payload, peer =>
    ∃ (d : Direct.Datagram) (header : Bytes), item = .ok d ∧ Socks5.Header header (.ip peer) ∧ d.payload = header ++ payload
  | .shadowsocks relay, s, now, item, payload, peer =>
    ∃ (d : Direct.Datagram) (opened : Shadowsocks.Opened) (start : ℕ), item = .ok d ∧
      Shadowsocks.readPacket relay now d.payload = .ok (opened, .ip peer, start) ∧
      (s.sessions.admitPacket opened.session opened.packetId).1 = true ∧ payload = opened.message.drop start
  | .hysteria2 _, _, _, item, payload, peer => item = (payload, .ip peer)
  | .vless _, _, _, item, payload, peer => item = (payload, .ip peer)

def Garbage : (kind : Kind) → (source kind).Arrival → Prop
  | .hysteria2 session, frame => session.reads frame.bytes = none
  | _, _ => False

def skip : (kind : Kind) → (source kind).State → (source kind).State
  | .direct _, queue => queue.tail
  | .socks5, s => { s with socket := s.socket.tail }
  | .shadowsocks _, s => { s with socket := s.socket.tail }
  | .hysteria2 _, s => { s with route := { s.route with queue := s.route.queue.tail } }
  | .vless _, s => { s with inbound := { s.inbound with queue := s.inbound.queue.tail } }

/-! ### What the relay makes of a turn -/

variable {client : InternalEndpoint}

theorem relay_goesOn (h : ∀ e, received = some (.error e) → ∃ required, e = .datagramTooLarge required) :
    (Serving.relay client served received).2 = true := by
  match received with
  | none | some (.ok (payload, .domain host port)) => rfl
  | some (.error e) =>
    obtain ⟨required, rfl⟩ := h e rfl
    rfl
  | some (.ok (payload, .ip peer)) =>
    dsimp only [Serving.relay, Served.onReceived]
    split
    · rfl
    · split <;> rfl

theorem relay_copyWhole (client : InternalEndpoint) (served : Served) (size : ℕ) (payload : Bytes) (origin : Target) :
    (Serving.relay client served (some (copyWhole size payload origin))).2 = true := by
  refine relay_goesOn fun e he => ?_
  unfold copyWhole at he
  split_ifs at he
  · cases he
  · exact ⟨_, (Except.error.inj (Option.some.inj he)).symm⟩

def Roomy (served : Served) (payload : Bytes) : Prop :=
  payload.length ≤ served.pool.sliceSize ∧ 0 < served.pool.available ∧
    served.inbound.queue.length < served.inbound.capacity

theorem relay_delivers {peer : SocketAddr} (hsize : payload.length ≤ size) (hroom : Roomy served payload) :
    (Serving.relay client served (some (copyWhole size payload (.ip peer)))).1.inbound.queue =
      served.inbound.queue ++ [⟨client, peer.endpoint, payload⟩] := by
  rw [copyWhole, if_pos hsize]
  exact Served.onReceived_of_room client peer hroom.1 hroom.2.1 hroom.2.2

theorem received_ok : Socks5.received size (.ok d) =
    match Socks5.decodeDatagram d.payload with
    | .error e => .error (.proxy e)
    | .ok (origin, payload) => copyWhole size payload origin := by
  have htake : d.payload.take Socks5.maxUdpPayload = d.payload := take_of_length_le d.length_le
  have hrecv : Socks5.received size (.ok d) =
      match Socks5.decodeDatagram (d.payload.take Socks5.maxUdpPayload) with
      | .error e => .error (.proxy e)
      | .ok (origin, payload) => copyWhole size payload origin := rfl
  rw [hrecv, htake]

theorem recvFrom_shadowsocks {s : Shadowsocks.State} {d : Direct.Datagram} (now size : ℕ)
    (h : s.socket.head? = some (.ok d)) : recvFrom relay s now size =
      match readPacket relay now d.payload with
      | .error _ => ({ s with socket := s.socket.tail }, none)
      | .ok (opened, origin, start) => match s.sessions.admitPacket opened.session opened.packetId with
        | (false, sessions) => (⟨s.socket.tail, sessions⟩, none)
        | (true, sessions) => (⟨s.socket.tail, sessions⟩, some (copyWhole size (opened.message.drop start) origin)) := by
  have htake : d.payload.take Socks5.maxUdpPayload = d.payload := take_of_length_le d.length_le
  unfold recvFrom
  rcases hsock : s.socket with _ | ⟨a, rest⟩
  · simp [hsock] at h
  rw [hsock] at h
  cases h
  dsimp only
  rw [htake]
  rfl

theorem recvQueued_of_head (h : queue.head? = some reply) (closed : Bool) (size : ℕ) :
    (Source.recvQueued gone queue closed size).2 = some (copyWhole size reply.1 reply.2) := by
  rcases queue with _ | ⟨first, rest⟩
  · cases h
  cases h
  rfl

theorem recvDirect_of_head (socket : UdpSocket) (h : queue.head? = some (.ok d))
    (size : ℕ) : (recvDirect socket queue size).2 =
      some (.ok (d.payload.take size, .ip (socket.reports d.origin))) := by
  rcases queue with _ | ⟨first, rest⟩
  · cases h
  cases h
  rfl

/-- A SOCKS5 datagram that decodes; the other sources report no decoding error. -/
def Readable : (kind : Kind) → (ordered kind).Item → Prop
  | .socks5, item => ¬ Undecodable .socks5 item
  | _, _ => True

section entries

variable {client : InternalEndpoint} {size : ℕ}

theorem goesOn_of_datagram (kind : Kind) {t : Taken (ordered kind)} (h : Serving.Recorded client size t)
    (hdg : IsDatagram kind t.item) (hreadable : Readable kind t.item) : t.after.2 = true := by
  rw [h.after]
  have hnext := h.next
  cases kind with
  | direct socket =>
    obtain ⟨d, hd⟩ := hdg
    refine relay_goesOn fun e he => ?_
    have hturn := recvDirect_of_head socket (hnext.trans (congrArg some hd)) size
    exact absurd (hturn.symm.trans he) nofun
  | socks5 =>
    obtain ⟨d, hd⟩ := hdg
    have hturn := recvFrom_socks5 hnext size
    show (Serving.relay client t.served (Socks5.recvFrom t.source t.choice size).2).2 = true
    rw [hturn, hd, received_ok]
    cases hdec : Socks5.decodeDatagram d.payload with
    | error e => exact absurd ⟨d, hd, e, hdec⟩ hreadable
    | ok decoded => exact relay_copyWhole client t.served size decoded.2 decoded.1
  | shadowsocks relay =>
    obtain ⟨d, hd⟩ := hdg
    have hturn := recvFrom_shadowsocks relay t.choice size (hnext.trans (congrArg some hd))
    show (Serving.relay client t.served (Shadowsocks.recvFrom relay t.source t.choice size).2).2 = true
    rw [hturn]
    split
    · rfl
    · split
      · rfl
      · exact relay_copyWhole _ _ _ _ _
  | hysteria2 sess =>
    have hturn : ((source (.hysteria2 sess)).turn t.source t.choice size).2 = some (copyWhole size _ _) :=
      recvQueued_of_head .quic hnext t.choice size
    rw [hturn]
    exact relay_copyWhole _ _ _ _ _
  | vless targets =>
    have hturn : ((source (.vless targets)).turn t.source t.choice size).2 = some (copyWhole size _ _) :=
      recvQueued_of_head (.io .brokenPipe) hnext t.choice size
    rw [hturn]
    exact relay_copyWhole _ _ _ _ _

theorem delivered_of_wellFormed (kind : Kind) {t : Taken (ordered kind)} (h : Serving.Recorded client size t)
    {peer : SocketAddr} (hform : WellFormed kind t.source t.choice t.item payload peer)
    (hsize : payload.length ≤ size) (hroom : Roomy t.served payload) :
    t.after.1.inbound.queue = t.served.inbound.queue ++ [⟨client, peer.endpoint, payload⟩] := by
  rw [h.after]
  have hnext := h.next
  suffices hturn : ((source kind).turn t.source t.choice size).2 = some (copyWhole size payload (.ip peer)) by
    rw [hturn]
    exact relay_delivers hsize hroom
  cases kind with
  | direct socket =>
    obtain ⟨d, hd, rfl, rfl⟩ := hform
    have hturn := recvDirect_of_head socket (hnext.trans (congrArg some hd)) size
    rw [take_of_length_le hsize] at hturn
    rw [copyWhole, if_pos hsize]
    exact hturn
  | socks5 =>
    obtain ⟨d, header, hd, hhdr, hpay⟩ := hform
    show (Socks5.recvFrom t.source t.choice size).2 = _
    rw [recvFrom_socks5 hnext, hd, received_ok, hpay, Socks5.decodeDatagram_header hhdr]
  | shadowsocks relay =>
    obtain ⟨d, opened, start, hd, hread, hfresh, rfl⟩ := hform
    show (recvFrom relay t.source t.choice size).2 = _
    rw [recvFrom_shadowsocks relay t.choice size (hnext.trans (congrArg some hd)), hread]
    dsimp only
    split
    · rename_i hwin
      rw [hwin] at hfresh
      cases hfresh
    · rfl
  | hysteria2 sess =>
    have hturn := recvQueued_of_head .quic hnext t.choice size
    rw [hform] at hturn
    exact hturn
  | vless targets =>
    have hturn := recvQueued_of_head (.io .brokenPipe) hnext t.choice size
    rw [hform] at hturn
    exact hturn

theorem skipped_of_undecodable (kind : Kind) {t : Taken (ordered kind)} (h : Serving.Recorded client size t)
    (hbad : Undecodable kind t.item) :
    ((source kind).turn t.source t.choice size).1 = skip kind t.source ∧ t.after.1 = t.served := by
  rw [h.after]
  have hnext := h.next
  cases kind with
  | direct socket => exact hbad.elim
  | socks5 =>
    obtain ⟨d, hd, e, hdec⟩ := hbad
    have hturn := recvFrom_socks5 hnext size
    rw [hd, received_ok, hdec] at hturn
    refine ⟨congrArg Prod.fst hturn, ?_⟩
    show (Serving.relay client t.served (Socks5.recvFrom t.source t.choice size).2).1 = t.served
    rw [hturn]
    rfl
  | shadowsocks relay =>
    obtain ⟨d, hd, hunr⟩ := hbad
    obtain ⟨e, hread⟩ := hunr t.choice
    have hturn := recvFrom_shadowsocks relay t.choice size (hnext.trans (congrArg some hd))
    rw [hread] at hturn
    refine ⟨congrArg Prod.fst hturn, ?_⟩
    show (Serving.relay client t.served (Shadowsocks.recvFrom relay t.source t.choice size).2).1 = t.served
    rw [hturn]
    rfl
  | hysteria2 sess | vless targets => exact hbad.elim

end entries

/-! ### The promise -/

def Enters : (kind : Kind) → (source kind).State → (source kind).Arrival → (ordered kind).Item → Prop
  | .direct _, _, arrived, item => arrived = item
  | .socks5, _, arrived, item => arrived = .socket item
  | .shadowsocks _, _, arrived, item => arrived = item
  | .hysteria2 session, s, frame, item => s.route.queue.length < s.route.capacity ∧
      ∃ message origin whole, session.reads frame.bytes = some (message, origin) ∧
        (s.partials.push message).2 = some whole ∧ item = (whole, .ip origin)
  | .vless targets, s, arrived, item =>
    s.inbound.queue.length + ((s.streams arrived.stream).next arrived.read).2.length ≤ s.inbound.capacity ∧
      ∃ payload ∈ ((s.streams arrived.stream).next arrived.read).2, item = (payload, targets arrived.stream)

theorem added_of_enters (kind : Kind) {s : (source kind).State} {a : (source kind).Arrival} {item : (ordered kind).Item}
    (h : Enters kind s a item) : item ∈ (ordered kind).added s a := by
  cases kind with
  | direct socket => exact mem_singleton.mpr h.symm
  | socks5 =>
    cases h
    exact mem_singleton.mpr rfl
  | shadowsocks relay => exact mem_singleton.mpr h.symm
  | hysteria2 sess =>
    obtain ⟨hroom, message, origin, whole, hreads, hwhole, rfl⟩ := h
    show _ ∈ addedHysteria2 sess s a
    simp [addedHysteria2, hreads, hwhole, hroom]
  | vless targets =>
    obtain ⟨hroom, payload, hpay, rfl⟩ := h
    show _ ∈ addedVless targets s a
    unfold addedVless
    rw [take_of_length_le (by omega)]
    exact mem_map.mpr ⟨payload, hpay, rfl⟩

structure OnlyItself (kind : Kind) (s : Serving (ordered kind)) : Prop where
  /-- The association goes on after every datagram. -/
  goesOn : ∀ t ∈ s.taken, IsDatagram kind t.item → t.after.2 = true
  ended : ∀ item, s.ending = some (.failed (some item)) → ¬ IsDatagram kind item
  /-- The client's datagrams are sent or still queued. -/
  kept : s.ending = none → s.sent ++ s.outbound.queue = s.accepted
  /-- What arrives is taken in order, and delivered with room for it. -/
  entered : ∀ a item, Enters kind s.source a item → item ∈ (ordered kind).added s.source a
  inOrder : s.taken.map Taken.item ++ (ordered kind).waiting s.source = s.added
  delivered : ∀ t ∈ s.taken, ∀ payload peer, WellFormed kind t.source t.choice t.item payload peer →
    payload.length ≤ s.size → Roomy t.served payload →
    t.after.1.inbound.queue = t.served.inbound.queue ++ [⟨s.client, peer.endpoint, payload⟩]
  /-- A datagram that cannot be decoded changes nothing. -/
  skipped : ∀ t ∈ s.taken, Undecodable kind t.item →
    ((source kind).turn t.source t.choice s.size).1 = skip kind t.source ∧ t.after.1 = t.served
  ignored : ∀ a, Garbage kind a → s.step (.arrives a) = s

theorem step_garbage (kind : Kind) (s : Serving (ordered kind)) {a : (source kind).Arrival} (h : Garbage kind a) :
    s.step (.arrives a) = s := by
  cases kind with
  | hysteria2 sess =>
    have hreads : sess.reads a.bytes = none := h
    have hsrc : (source (.hysteria2 sess)).arrive s.source a = s.source := by
      show arrive sess s.source a = s.source
      unfold arrive
      rw [hreads]
    have hadded : (ordered (.hysteria2 sess)).added s.source a = [] := by
      show addedHysteria2 sess s.source a = []
      unfold addedHysteria2
      rw [hreads]
    unfold Serving.step
    dsimp only
    rw [hsrc, hadded, append_nil]
    split_ifs <;> rfl
  | _ => exact h.elim

def Decodes : (kind : Kind) → Serving (ordered kind) → Event (source kind) → Prop
  | .socks5, _, .arrives (.socket (.ok d)) => ∃ decoded, Socks5.decodeDatagram d.payload = .ok decoded
  | _, _, _ => True

theorem readable_of_decodes (kind : Kind) (s : Serving (ordered kind)) (a : (source kind).Arrival)
    (h : Decodes kind s (.arrives a)) : ∀ item ∈ (ordered kind).added s.source a, Readable kind item := by
  intro item hitem
  cases kind with
  | socks5 =>
    cases a with
    | controlEnded => exact absurd hitem not_mem_nil
    | socket arrived =>
      rw [mem_singleton.mp hitem]
      rintro ⟨d, rfl, e, hdec⟩
      obtain ⟨decoded, h⟩ := h
      exact absurd (hdec.symm.trans h) nofun
  | _ => exact trivial

/-- **One bad datagram costs only itself**, in every run of every association, from any shared pool and channel and
with any datagrams of the client queued, in which what a SOCKS5 relay sends decodes. -/
theorem onlyItself_run (kind : Kind) (client : InternalEndpoint) (served : Served) (outbound : Channel Outbound)
    (es : List (Event (source kind)))
    (hdecodes : Along Serving.step (Decodes kind) (Serving.start (ordered kind) client served outbound) es) :
    OnlyItself kind (run Serving.step (Serving.start (ordered kind) client served outbound) es) := by
  have hled := Serving.ledger_run (O := ordered kind) client served outbound es
  have hreadable := Serving.added_run (P := Readable kind) (readable_of_decodes kind) _ es
    (fun item hitem => absurd hitem not_mem_nil) hdecodes
  generalize run Serving.step (Serving.start (ordered kind) client served outbound) es = s at hled hreadable
  have hgoesOn : ∀ t ∈ s.taken, IsDatagram kind t.item → t.after.2 = true := by
    intro t ht hdg
    refine goesOn_of_datagram kind (hled.recorded t ht) hdg (hreadable t.item ?_)
    rw [← hled.inOrder]
    exact mem_append_left _ (mem_map_of_mem ht)
  exact
    { goesOn := hgoesOn
      ended := by
        rintro item hended hdg
        obtain ⟨t, ht, rfl, hfail⟩ := hled.failed item hended
        rw [hgoesOn t ht hdg] at hfail
        cases hfail
      kept := hled.unsent
      entered := fun _ _ => added_of_enters kind
      inOrder := hled.inOrder
      delivered := fun t ht _ _ hform hsize hroom => delivered_of_wellFormed kind (hled.recorded t ht) hform hsize hroom
      skipped := fun t ht hbad => skipped_of_undecodable kind (hled.recorded t ht) hbad
      ignored := fun _ => step_garbage kind s }

/-! ### A fragment from a SOCKS5 relay -/

def relayed (fragment : UInt8) : Direct.Datagram where
  origin := peer
  payload := [0, 0, fragment, 1, 198, 51, 100, 2, 0, 53, 7]
  fits := (by decide : 11 ≤ L3.maxUdpPayload peer.ip)

def query : Outbound := ⟨⟨Direct.client4, 4000⟩, peer, [1, 2, 3]⟩

def queried : Serving (ordered .socks5) :=
  Serving.start (ordered .socks5) ⟨Direct.client4, 4000⟩ Direct.served ⟨32, [query]⟩

/-- A reply, and the query it does not wait for. -/
theorem onlyItself_reply :
    let es : List (Event (source .socks5)) := [.arrives (.socket (.ok (relayed 0))), .turns false, .sends (.ok ())]
    Along Serving.step (Decodes .socks5) queried es ∧ OnlyItself .socks5 (run Serving.step queried es) := by
  intro es
  have hdecodes : Along Serving.step (Decodes .socks5) queried es := by
    refine ⟨⟨(.ip peer, [7]), ?_⟩, trivial, trivial, trivial⟩
    decide +kernel
  exact ⟨hdecodes, onlyItself_run .socks5 _ _ _ es hdecodes⟩

def fragmented : List (Event (source .socks5)) :=
  [.arrives (.socket (.ok (relayed 1))), .arrives (.socket (.ok (relayed 0))), .turns false]

/-- **One fragment ends the association**: the reply behind it is not taken, and the query that was queued is not
sent. -/
theorem ended_by_fragment : (run Serving.step queried fragmented).ending = some (.failed (some (.ok (relayed 1)))) ∧
      (ordered .socks5).waiting (run Serving.step queried fragmented).source = [.ok (relayed 0)] ∧
      (run Serving.step queried fragmented).accepted = [query] ∧ (run Serving.step queried fragmented).sent = [] ∧
      (run Serving.step queried fragmented).outbound.queue = [] ∧
      ¬ OnlyItself .socks5 (run Serving.step queried fragmented) := by
  have hended : (run Serving.step queried fragmented).ending = some (.failed (some (.ok (relayed 1)))) := rfl
  exact ⟨hended, rfl, rfl, rfl, rfl, fun h => h.ended _ hended ⟨_, rfl⟩⟩

end Boreas.Associations
