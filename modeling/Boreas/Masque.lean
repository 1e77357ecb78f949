import Boreas.HttpResponse
import Boreas.Pool
import Boreas.Reader
import Boreas.Runs

/-! # The MASQUE egress

`egress/masque.rs`: the state of a CONNECT-IP tunnel, and the loops between quiche and the buffer pool.  What quiche
answers during a call is part of the state.  `nothing_lost_iff`: the two loops lose no packet exactly when all that
they could emit finds a slice.  `follows_iff`: the state is at each event of a run what the answer to the CONNECT
request makes it, exactly when every event meets `Expected`. -/

namespace Boreas.Masque

open List
open Http (ascii)
open Http1 (fromUtf8 parseUsize)
open Runs

inductive CloseReason
  | refused (status : ℕ)
  | connectionClosed
  | malformed
  deriving DecidableEq

inductive TunnelState
  | connecting
  | requested (flowId : ℕ)
  | established (flowId : ℕ)
  | closed (reason : CloseReason)
  deriving DecidableEq

def ipPacketContext : ℕ := 0

def decodeIpDatagram (datagram : Bytes) (expectedFlowId : ℕ) : Option Bytes := do
  let (flowId, rest) ← Reader.varint datagram
  if flowId ≠ expectedFlowId then none
  else
    let (context, packet) ← Reader.varint rest
    if context ≠ ipPacketContext then none else if packet.isEmpty then none else some packet

inductive H3Event
  | headers (list : List (Bytes × Bytes))
  | finished
  | data
  | other

/-- What quiche answers: the stream of the CONNECT request (`none` if HTTP/3 cannot be set up), the events of the
streams and the packets and datagrams that are waiting, each with whether an error follows them. -/
structure Quiche where
  isClosed : Bool
  isEstablished : Bool
  request : Option ℕ
  events : List (ℕ × H3Event)
  pollFails : Bool
  outgoing : List Bytes
  sendFails : Bool
  datagrams : List Bytes

inductive EgressError
  | poolExhausted
  | masque
  deriving DecidableEq

inductive EgressEmit
  | toNetwork (packet : Bytes)
  | toTunnel (packet : Bytes)
  deriving DecidableEq

structure MasqueEgress where
  conn : Quiche
  h3 : Bool
  state : TunnelState
  pool : BufferPool

/-! ### Draining -/

/-- What a loop over a queue of quiche has come to: what it left, what it emitted, and whether it came to the end. -/
structure Drained where
  left : List Bytes
  pool : BufferPool
  emitted : List Bytes
  ended : Bool

/-- Each entry is taken out of the queue, read, and copied into a slice of the pool; the first packet that finds none
ends the loop. -/
def drain (read : Bytes → Option Bytes) : List Bytes → BufferPool → Drained
  | [], pool => ⟨[], pool, [], true⟩
  | entry :: queue, pool =>
    match read entry with
    | none => drain read queue pool
    | some packet =>
      match pool.take packet with
      | (pool, some pooled) =>
        let rest := drain read queue pool
        { rest with emitted := pooled :: rest.emitted }
      | (pool, none) => ⟨queue, pool, [], false⟩

def Fits (pool : BufferPool) (packets : List Bytes) : Prop :=
  (∀ p ∈ packets, p.length ≤ pool.sliceSize) ∧ packets.length ≤ pool.available

theorem take_cases {pool : BufferPool} (h : pool.take packet = (pool', taken)) :
    (taken = some packet ∧ packet.length ≤ pool.sliceSize ∧ pool'.available + 1 = pool.available ∧
      pool'.sliceSize = pool.sliceSize) ∨ (taken = none ∧ ¬(packet.length ≤ pool.sliceSize ∧ 0 < pool.available)) := by
  have hroom := pool.reserve_iff packet.length
  have hsize := pool.reserve_sliceSize packet.length
  unfold BufferPool.take at h
  cases hr : pool.reserve packet.length with
  | mk next granted =>
    rw [hr] at h hroom hsize
    cases granted with
    | true =>
      cases h
      exact .inl ⟨rfl, (hroom.mp rfl).1, BufferPool.available_reserve hr, hsize⟩
    | false =>
      cases h
      exact .inr ⟨rfl, fun hfits => nomatch hroom.mpr hfits⟩

/-- **A loop loses nothing exactly when all its packets find slices.** -/
theorem drain_lossless_iff (read : Bytes → Option Bytes) : ∀ (queue : List Bytes) (pool : BufferPool),
    queue.filterMap read = (drain read queue pool).emitted ++ (drain read queue pool).left.filterMap read ↔
      Fits pool (queue.filterMap read) := by
  intro queue
  induction queue with
  | nil => intro pool; simp [drain, Fits]
  | cons entry queue ih =>
    intro pool
    rw [drain]
    rcases hread : read entry with _ | pkt
    · rw [filterMap_cons_none hread]
      exact ih pool
    rw [filterMap_cons_some hread]
    cases htake : pool.take pkt with
    | mk next taken =>
      obtain ⟨rfl, hle, havail, hsize⟩ | ⟨rfl, hno⟩ := take_cases htake <;> dsimp only <;> rw [htake]
      · simp only [cons_append, List.cons.injEq]
        rw [ih next]
        simp only [Fits, forall_mem_cons, length_cons, hsize, hle, true_and]
        exact and_congr_right fun _ => by omega
      -- The packet is out of the queue, and nowhere.
      refine iff_of_false (fun h => ?_) fun h => hno ⟨h.1 pkt mem_cons_self, ?_⟩
      · have hlen := congrArg List.length h
        simp at hlen
      · have hcount := h.2
        rw [length_cons] at hcount
        omega

namespace MasqueEgress

variable (m : MasqueEgress)

def drainSend : MasqueEgress × List EgressEmit × Except EgressError Unit :=
  let drained := drain some m.conn.outgoing m.pool
  let emits := drained.emitted.map .toNetwork
  let m := { m with conn.outgoing := drained.left, pool := drained.pool }
  if drained.ended = false then (m, emits, .error .poolExhausted)
  else if m.conn.sendFails then ({ m with state := .closed .connectionClosed }, emits, .ok ())
  else (m, emits, .ok ())

def drainDatagrams : MasqueEgress × List EgressEmit :=
  match m.state with
  | .established flowId =>
    let drained := drain (decodeIpDatagram · flowId) m.conn.datagrams m.pool
    ({ m with conn.datagrams := drained.left, pool := drained.pool }, drained.emitted.map .toTunnel)
  | _ => (m, [])

/-- The packets for the tunnel among the datagrams that have been received. -/
def waiting : List Bytes :=
  match m.state with
  | .established flowId => m.conn.datagrams.filterMap (decodeIpDatagram · flowId)
  | _ => []

/-- **Draining loses nothing exactly when there are slices for all**: with an exhausted pool, when there is nothing to
emit. -/
theorem nothing_lost_iff :
    (m.conn.outgoing.map .toNetwork = m.drainSend.2.1 ++ m.drainSend.1.conn.outgoing.map .toNetwork ↔
      Fits m.pool m.conn.outgoing) ∧
    (m.waiting.map .toTunnel = m.drainDatagrams.2 ++ m.drainDatagrams.1.waiting.map .toTunnel ↔
      Fits m.pool m.waiting) := by
  have hnetwork : Function.Injective (List.map EgressEmit.toNetwork) := map_injective_iff.mpr fun _ _ h => by
    cases h; rfl
  have htunnel : Function.Injective (List.map EgressEmit.toTunnel) := map_injective_iff.mpr fun _ _ h => by
    cases h; rfl
  constructor
  · have hloop := drain_lossless_iff some m.conn.outgoing m.pool
    rw [filterMap_some, filterMap_some] at hloop
    rw [← hloop, ← hnetwork.eq_iff, map_append]
    unfold drainSend
    dsimp only
    split_ifs <;> rfl
  · unfold drainDatagrams waiting
    cases hstate : m.state with
    | established flowId =>
      rw [← drain_lossless_iff, ← htunnel.eq_iff, map_append]
    | connecting | requested flowId | closed reason =>
      exact iff_of_true (by simp [hstate]) ⟨by simp, Nat.zero_le _⟩

/-- An exhausted pool: the packet of each loop is gone. -/
theorem exhausted_loses :
    let m : MasqueEgress := ⟨⟨false, true, some 0, [], false, [[1]], false, [[0, 0, 2]]⟩, true, .established 0,
      ⟨1500, 1, 0, 1, 0, by decide, by decide⟩⟩
    m.pool.available = 0 ∧ m.conn.outgoing = [[1]] ∧ m.drainSend.2.1 = [] ∧ m.drainSend.1.conn.outgoing = [] ∧
      m.waiting = [[2]] ∧ m.drainDatagrams.2 = [] ∧ m.drainDatagrams.1.waiting = [] := by
  decide +kernel

/-! ### The state of the tunnel -/

def parseU16 (text : Text) : Option ℕ := (parseUsize text).filter (· < 65536)

def statusOf (list : List (Bytes × Bytes)) : Option ℕ :=
  ((list.find? fun header => header.1 == ascii ":status").bind fun header => fromUtf8 header.2).bind parseU16

def onHeaders (state : TunnelState) (status : Option ℕ) : TunnelState :=
  match status, state with
  | some status, .requested flowId =>
    if 200 ≤ status ∧ status < 300 then .established flowId else .closed (.refused status)
  | some status, _ => .closed (.refused status)
  | none, _ => .closed .malformed

def onEvent (state : TunnelState) : ℕ × H3Event → TunnelState
  | (_, .headers list) => onHeaders state (statusOf list)
  | (_, .finished) => .closed .connectionClosed
  | (_, .data) | (_, .other) => state

def pollH3 : MasqueEgress :=
  let state := m.conn.events.foldl onEvent m.state
  { m with state := if m.conn.pollFails then .closed .connectionClosed else state, conn.events := [] }

def advance : MasqueEgress × List EgressEmit × Except EgressError Unit :=
  if m.conn.isClosed then ({ m with state := .closed .connectionClosed }, [], .ok ())
  else if m.conn.isEstablished = false then (m, [], .ok ())
  else
    match if m.h3 then some m else m.conn.request.map fun streamId =>
      { m with state := .requested (streamId / 4), h3 := true } with
    | none => (m, [], .error .masque)
    | some m =>
      let (m, emits) := m.pollH3.drainDatagrams
      (m, emits, .ok ())

/-- `advance` and then `drain_send`: `tick`, and `handle_network_packet` once quiche has taken the packet. -/
def advanceAndSend : MasqueEgress × List EgressEmit × Except EgressError Unit :=
  match m.advance with
  | (m, emits, .error e) => (m, emits, .error e)
  | (m, emits, .ok ()) =>
    let (m, sent, result) := m.drainSend
    (m, emits ++ sent, result)

/-- A call: `handle_tun_packet`, `handle_network_packet` (with whether quiche takes the packet) or `tick`. -/
inductive Call
  | tunPacket
  | networkPacket (taken : Bool)
  | tick

def step : Call × Quiche → MasqueEgress
  | (.tunPacket, conn) => { m with conn := conn }.drainSend.1
  | (.networkPacket false, conn) => { m with conn := conn }
  | (.networkPacket true, conn) | (.tick, conn) => { m with conn := conn }.advanceAndSend.1

end MasqueEgress

/-- What the state of the tunnel is told. -/
inductive Happening
  | requests (streamId : ℕ)
  | headers (streamId : ℕ) (status : Option ℕ)
  | finishes (streamId : ℕ)
  | fails
  deriving DecidableEq

namespace TunnelState

variable (s : TunnelState)

def on : Happening → TunnelState
  | .requests streamId => .requested (streamId / 4)
  | .headers _ status => MasqueEgress.onHeaders s status
  | .finishes _ | .fails => .closed .connectionClosed

/-- What the answer to the CONNECT request makes of the state: the first final response on the request's own stream
decides, the end of that stream or of the connection closes, and what is closed stays so. -/
def intended : Happening → TunnelState
  | .requests streamId =>
    match s with
    | .connecting => .requested (streamId / 4)
    | _ => s
  | .headers streamId status =>
    match s, status with
    | .requested flowId, none => if streamId = 4 * flowId then .closed .malformed else s
    | .requested flowId, some status =>
      if streamId ≠ 4 * flowId ∨ 100 ≤ status ∧ status < 200 then s
      else if 200 ≤ status ∧ status < 300 then .established flowId
      else .closed (.refused status)
    | _, _ => s
  | .finishes streamId =>
    match s with
    | .requested flowId | .established flowId => if streamId = 4 * flowId then .closed .connectionClosed else s
    | _ => s
  | .fails =>
    match s with
    | .closed _ => s
    | _ => .closed .connectionClosed

/-- The happenings that the code takes as intended: the request before anything else, one final answer on the
request's stream, the end of that stream, and after the end nothing that would give another reason. -/
def Expected : Happening → Prop
  | .requests streamId => s = .connecting ∨ s = .requested (streamId / 4)
  | .headers streamId status =>
    match s with
    | .requested flowId => streamId = 4 * flowId ∧ ∀ n ∈ status, ¬(100 ≤ n ∧ n < 200)
    | .closed reason => reason = match status with
        | some status => .refused status
        | none => .malformed
    | _ => False
  | .finishes streamId =>
    match s with
    | .requested flowId | .established flowId => streamId = 4 * flowId
    | .closed reason => reason = .connectionClosed
    | .connecting => False
  | .fails => ∀ reason, s = .closed reason → reason = .connectionClosed

theorem on_eq_intended_iff : s.on h = s.intended h ↔ s.Expected h := by
  cases h with
  | requests streamId => cases s <;> simp [on, intended, Expected, eq_comm]
  | fails => cases s <;> simp [on, intended, Expected, eq_comm]
  | finishes streamId =>
    cases s with
    | connecting => simp [on, intended, Expected]
    | closed reason => simp [on, intended, Expected, eq_comm]
    | requested flowId | established flowId =>
      by_cases hown : streamId = 4 * flowId <;> simp [on, intended, Expected]
  | headers streamId status =>
    cases s with
    | connecting | established flowId =>
      cases status <;> simp [on, intended, Expected, MasqueEgress.onHeaders]
    | closed reason => cases status <;> simp [on, intended, Expected, MasqueEgress.onHeaders, eq_comm]
    | requested flowId =>
      by_cases hown : streamId = 4 * flowId
      · rcases status with _ | n
        · simp [on, intended, Expected, MasqueEgress.onHeaders]
        by_cases hinterim : 100 ≤ n ∧ n < 200
        · have hnot : ¬(200 ≤ n ∧ n < 300) := by omega
          simp [on, intended, Expected, MasqueEgress.onHeaders, hnot]
        · simp only [on, intended, Expected, MasqueEgress.onHeaders, hown, ne_eq, not_true_eq_false, false_or,
            if_neg hinterim, true_and, true_iff]
          exact fun m hm => by cases hm; exact hinterim
      · cases status with
        | none => simp [on, intended, Expected, MasqueEgress.onHeaders]
        | some n =>
          by_cases hok : 200 ≤ n ∧ n < 300 <;> simp [on, intended, Expected, MasqueEgress.onHeaders, hok]

theorem agrees_iff : ∀ (hs : List Happening) (s : TunnelState),
    (∀ pre, pre <+: hs → run on s pre = run intended s pre) ↔ Along on Expected s hs
  | [], s => by simp [Along]
  | h :: hs, s => by
    rw [Along, ← on_eq_intended_iff, ← agrees_iff hs]
    constructor
    · intro hall
      have hfirst : s.on h = s.intended h := hall [h] ⟨hs, rfl⟩
      refine ⟨hfirst, fun pre hpre => ?_⟩
      have hnext := hall (h :: pre) (cons_prefix_cons.mpr ⟨rfl, hpre⟩)
      rwa [run_cons, run_cons, ← hfirst] at hnext
    · rintro ⟨hfirst, hrest⟩ pre hpre
      rcases pre with _ | ⟨h', pre⟩
      · rfl
      obtain ⟨rfl, htail⟩ := cons_prefix_cons.mp hpre
      rw [run_cons, run_cons, ← hfirst]
      exact hrest pre htail

end TunnelState

def happeningOf : ℕ × H3Event → Option Happening
  | (streamId, .headers list) => some (.headers streamId (MasqueEgress.statusOf list))
  | (streamId, .finished) => some (.finishes streamId)
  | (_, .data) | (_, .other) => none

namespace MasqueEgress

open TunnelState (on)

section

variable (m : MasqueEgress)

/-- What the state is told by `poll_h3`, by `drain_send`, by `advance`, and by a call. -/
def toldByPoll : List Happening :=
  m.conn.events.filterMap happeningOf ++ if m.conn.pollFails then [.fails] else []

def toldBySend : List Happening :=
  if (drain some m.conn.outgoing m.pool).ended ∧ m.conn.sendFails then [.fails] else []

def toldByAdvance : List Happening :=
  if m.conn.isClosed then [.fails]
  else if m.conn.isEstablished = false then []
  else
    match if m.h3 then some [] else m.conn.request.map fun streamId => [.requests streamId] with
    | none => []
    | some first => first ++ m.toldByPoll

def told : Call × Quiche → List Happening
  | (.tunPacket, conn) => { m with conn := conn }.toldBySend
  | (.networkPacket false, _) => []
  | (.networkPacket true, conn) | (.tick, conn) =>
    let m := { m with conn := conn }
    m.toldByAdvance ++ if m.advance.2.2 = .ok () then m.advance.1.toldBySend else []

end

def toldAlong : MasqueEgress → List (Call × Quiche) → List Happening
  | _, [] => []
  | m, c :: calls => m.told c ++ toldAlong (m.step c) calls

variable (m : MasqueEgress)

theorem state_drainSend : m.drainSend.1.state = run on m.state m.toldBySend := by
  unfold drainSend toldBySend
  cases hended : (drain some m.conn.outgoing m.pool).ended <;> cases hfails : m.conn.sendFails <;>
    simp [hended, hfails, on]

theorem state_pollH3 : m.pollH3.state = run on m.state m.toldByPoll := by
  have hev : ∀ (evs : List (ℕ × H3Event)) (s : TunnelState),
      evs.foldl onEvent s = run on s (evs.filterMap happeningOf) := by
    intro evs
    induction evs with
    | nil => intro s; rfl
    | cons e evs ih =>
      intro s
      rw [foldl_cons, ih]
      obtain ⟨streamId, event⟩ := e
      cases event <;> rfl
  rw [toldByPoll, run_append, ← hev]
  unfold pollH3
  cases m.conn.pollFails <;> rfl

theorem state_drainDatagrams : m.drainDatagrams.1.state = m.state := by
  unfold drainDatagrams
  split <;> rfl

theorem state_advance : m.advance.1.state = run on m.state m.toldByAdvance := by
  unfold advance toldByAdvance
  split_ifs with hcl hest hh3
  · rfl
  · rfl
  · dsimp only
    rw [state_drainDatagrams, state_pollH3, nil_append]
  rcases m.conn.request with _ | streamId
  · rfl
  dsimp only [Option.map_some]
  rw [state_drainDatagrams, state_pollH3]
  rfl

theorem state_step : (m.step c).state = run on m.state (m.told c) := by
  have hsend : ∀ m : MasqueEgress, m.advanceAndSend.1.state =
      run on m.state (m.toldByAdvance ++ if m.advance.2.2 = .ok () then m.advance.1.toldBySend else []) := by
    intro m
    rw [run_append, ← state_advance, advanceAndSend]
    obtain ⟨next, emits, result⟩ := m.advance
    cases result with
    | error e => rfl
    | ok u => exact state_drainSend next
  obtain ⟨call, conn⟩ := c
  cases call with
  | tunPacket => exact state_drainSend _
  | networkPacket taken =>
    cases taken with
    | false => rfl
    | true => exact hsend _
  | tick => exact hsend _

theorem state_run : ∀ (calls : List (Call × Quiche)) (m : MasqueEgress),
    (run step m calls).state = run on m.state (m.toldAlong calls)
  | [], _ => rfl
  | c :: calls, m => by rw [run_cons, state_run calls, state_step, toldAlong, run_append]

/-- **The state of the tunnel.**  The state is what the calls were told, and at every point of a run it is the intended
one exactly when each happening was expected in the state that it met. -/
theorem follows_iff (calls : List (Call × Quiche)) :
    (run step m calls).state = run on m.state (m.toldAlong calls) ∧
    ((∀ pre, pre <+: m.toldAlong calls → run on m.state pre = run TunnelState.intended m.state pre) ↔
      Along on TunnelState.Expected m.state (m.toldAlong calls)) :=
  ⟨state_run calls m, TunnelState.agrees_iff _ _⟩

/-- An interim response closes the tunnel, and the final one changes the reason. -/
theorem interim_closes :
    let m : MasqueEgress := ⟨⟨false, true, some 0, [], false, [], false, []⟩, false, .connecting, .new 1500 1⟩
    let answers (status : String) : Quiche :=
      ⟨false, true, none, [(0, .headers [(ascii ":status", ascii status)])], false, [], false, []⟩
    let calls : List (Call × Quiche) := [(.tick, m.conn), (.networkPacket true, answers "103"),
      (.networkPacket true, answers "200")]
    (run step m (calls.take 2)).state = .closed (.refused 103) ∧
      (run step m calls).state = .closed (.refused 200) ∧
      run TunnelState.intended m.state (m.toldAlong calls) = .established 0 := by
  decide +kernel

end MasqueEgress

end Boreas.Masque
