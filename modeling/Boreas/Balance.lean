import Boreas.Counting
import Boreas.Direct

/-! # Every drop is counted, or is not

The proof of conservation for the tunnel of `Counting`: each step that meets its condition keeps the balance of the
datagrams (`Balanced.step`), so a run of such steps counts every dropped datagram (`counted_run`). -/

namespace Boreas.Counting

open L3 List Option Runs Table Tunnel
open Association (waiting)
open Datapath (isDrop new noted openDatagram queued queued_openFlow)

theorem counted_append (xs ys : List Telemetry) : counted (xs ++ ys) = counted xs + counted ys := by
  simp [counted]

namespace Tunnel

theorem counted_emit (t : Tunnel) (obs : Telemetry)
    (h : obs.counted = 0 ∨ t.telemetry.queue.length < t.telemetry.capacity) :
    ∃ telemetry lost, t.emit obs = { t with telemetry := telemetry, lost := lost } ∧
      counted telemetry.queue = counted t.telemetry.queue + obs.counted := by
  unfold emit Channel.trySend
  by_cases hroom : t.telemetry.queue.length < t.telemetry.capacity
  · rw [if_pos hroom]
    have hone : counted (t.telemetry.queue ++ [obs]) = counted t.telemetry.queue + obs.counted := by
      rw [counted_append]
      rfl
    dsimp only
    split_ifs with hlost hmore
    · exact ⟨_, _, rfl, hone⟩
    · refine ⟨_, _, rfl, ?_⟩
      rw [counted_append, hone]
      rfl
    · exact ⟨_, _, rfl, hone⟩
  · rw [if_neg hroom]
    refine ⟨_, _, rfl, ?_⟩
    rcases h with h | h
    · rw [h]
      rfl
    · exact absurd h hroom

variable {t : Tunnel}

theorem Balanced.flush (h : t.Balanced) (hroom : t.Accounts .flush) : t.flush.Balanced := by
  unfold Tunnel.flush
  split_ifs with hzero
  · exact h
  obtain ⟨telemetry, lost, hemit, hcnt⟩ := t.counted_emit (.datagramsDropped t.counters)
    (.inr (hroom.resolve_left hzero))
  rw [hemit]
  refine ⟨⟨h.known, h.silent⟩, ?_⟩
  have hbal := h.balance
  simp only [inFlight, held, reported, Telemetry.counted] at hbal hcnt ⊢
  omega

theorem Balanced.emit (h : t.Balanced) : (t.emit .other).Balanced := by
  obtain ⟨telemetry, lost, hemit, hcnt⟩ := t.counted_emit .other (.inl rfl)
  rw [hemit]
  refine ⟨⟨h.known, h.silent⟩, ?_⟩
  have hbal := h.balance
  simp only [inFlight, held, reported, Telemetry.counted] at hbal hcnt ⊢
  omega

theorem Balanced.drainDatagram (h : t.Balanced) : t.drainDatagram.Balanced := by
  have hqueued := Datapath.queued_pollDatagram t.datapath
  have hbal := h.balance
  unfold Tunnel.drainDatagram
  rcases hpoll : t.datapath.pollDatagram with ⟨path, out⟩
  rw [hpoll] at hqueued
  rcases out with _ | dgram
  · refine ⟨⟨h.known, h.silent⟩, ?_⟩
    simp only [inFlight, held, reported, toList_none, length_nil] at hbal hqueued ⊢
    omega
  dsimp only [Channel.trySend]
  split_ifs with hroom
  · refine ⟨⟨h.known, h.silent⟩, ?_⟩
    simp only [inFlight, held, reported, toList_some,
      length_append] at hbal hqueued ⊢
    omega
  · refine ⟨⟨h.known, h.silent⟩, ?_⟩
    simp only [inFlight, held, reported, toList_some, length_singleton] at hbal hqueued ⊢
    omega

theorem Balanced.drainEvent (h : t.Balanced) : t.drainEvent.Balanced := by
  have hbal := h.balance
  unfold Tunnel.drainEvent
  rcases hev : t.datapath.events with _ | ⟨event, evs⟩
  · exact h
  refine ⟨⟨h.known, h.silent⟩, ?_⟩
  simp only [inFlight, held, reported, noted, queued, hev, countP_cons] at hbal ⊢
  split_ifs at hbal ⊢ <;> omega

theorem Balanced.deliver (h : t.Balanced) (hdeliver : t.Accounts (.deliver now)) : (t.deliver now).Balanced := by
  have hbal := h.balance
  unfold Tunnel.deliver
  rcases hqueue : t.inbound.queue with _ | ⟨inbound, rest⟩
  · exact h
  obtain ⟨client, peer, payload⟩ := inbound
  have hok := Datapath.deliverDatagram_ne_error (hdeliver ⟨client, peer, payload⟩ (by rw [hqueue]; rfl))
  have hqueued := Datapath.queued_deliverDatagram t.datapath client peer payload now
  dsimp only at hok ⊢
  rcases hd : t.datapath.deliverDatagram client peer payload now with ⟨path, outcome⟩
  rw [hd] at hok hqueued
  match outcome with
  | .error e => exact absurd rfl (hok e)
  | .ok .buffered | .ok .dropped =>
    refine ⟨⟨h.known, h.silent⟩, ?_⟩
    simp only [inFlight, held, reported, hqueue, length_cons] at hbal hqueued ⊢
    omega

variable {packet : IngressPacket}

theorem queued_opened {d : Datapath} {origin : Side}
    (opened : Bool) (hflow : d.flows.getMut key = some flow)
    (hcap : captured = true ↔ origin = .tunnel ∧ ∃ srcPort dstPort,
      packet.transport = .udp srcPort dstPort)
    (hroom : captured = true → ∃ payload, packet.payload buf = some payload ∧ payload.length ≤ d.pool.sliceSize ∧
      0 < d.pool.available) :
    let announced := if opened then { d with events := d.events ++ [.datagramOpened key.client] } else d
    let out := if origin = .tunnel then announced.captureDatagram packet buf key else announced
    out.queued + out.noted = d.queued + d.noted + if captured then 1 else 0 := by
  intro announced out
  have hanno : announced.queued = d.queued ∧ announced.noted = d.noted ∧ announced.pool = d.pool ∧
      announced.flows = d.flows := by
    cases opened with
    | false => exact ⟨rfl, rfl, rfl, rfl⟩
    | true => exact ⟨rfl, Datapath.noted_append d (.datagramOpened key.client), rfl, rfl⟩
  obtain ⟨hqueued, hnoted, hpool, hflows⟩ := hanno
  rw [← hpool] at hroom
  rw [← hflows] at hflow
  rw [← hqueued, ← hnoted]
  cases captured with
  | true =>
    obtain ⟨horig, srcPort, dstPort, hudp⟩ := hcap.mp rfl
    obtain ⟨payload, hpay, hsize, havail⟩ := hroom rfl
    have hout : out = announced.captureDatagram packet buf key := if_pos horig
    rw [hout]
    exact Datapath.queued_captureDatagram hudp hpay hsize havail hflow
  | false =>
    have hout : out = announced := by
      by_cases horig : origin = .tunnel
      · have hcapture : announced.captureDatagram packet buf key = announced := by
          unfold Datapath.captureDatagram
          split
          next srcPort dstPort hudp =>
            exact absurd (hcap.mpr ⟨horig, srcPort, dstPort, hudp⟩) (by decide)
          next => rfl
        exact (if_pos horig).trans hcapture
      · exact if_neg horig
    rw [hout]
    rfl

theorem queued_openDatagram
    (hroom : captures d packet origin plan now = true → ∃ payload, packet.payload buf = some payload ∧
      payload.length ≤ d.pool.sliceSize ∧ 0 < d.pool.available) :
    (d.openDatagram packet buf origin plan now).1.queued + (d.openDatagram packet buf origin plan now).1.noted =
      d.queued + d.noted + if captures d packet origin plan now then 1 else 0 := by
  cases hkey : keyOf packet with
  | none =>
    have hcap : captures d packet origin plan now = false := by
      unfold captures
      rw [hkey]
      split
      next h => cases h
      next => rfl
    rw [hcap]
    unfold openDatagram
    rw [hkey]
    rfl
  | some key =>
    obtain ⟨hqueued, hev, hpool⟩ := queued_openFlow d key plan now
    have hlive := @Datapath.getMut_openFlow d now key plan
    have hcap : captures d packet origin plan now = true ↔ (origin = .tunnel ∧ ∃ srcPort dstPort,
        packet.transport = .udp srcPort dstPort) ∧ (d.openFlow key plan now).2.toBool = true := by
      unfold captures
      rw [hkey]
      cases packet.transport <;> simp
    unfold openDatagram
    rw [hkey]
    dsimp only
    rcases hopen : d.openFlow key plan now with ⟨d', result⟩
    rw [hopen] at hqueued hev hpool hlive hcap
    have hnoted : d'.noted = d.noted := congrArg (List.countP isDrop) hev
    rcases result with _ | opened
    · rw [Bool.eq_false_iff.mpr fun h => absurd (hcap.mp h).2 Bool.false_ne_true]
      have hsum : d'.queued + d'.noted = d.queued + d.noted := congrArg₂ (· + ·) hqueued hnoted
      exact hsum
    obtain ⟨flow, hflow⟩ := hlive rfl
    rw [← hpool] at hroom
    rw [← hqueued, ← hnoted]
    exact queued_opened opened hflow (hcap.trans (and_iff_left rfl)) hroom

theorem Balanced.capture (h : t.Balanced) (hroom : t.Accounts (.capture packet buf origin plan now)) :
    (t.reacts (.capture packet buf origin plan now)).Balanced := by
  have hdp := queued_openDatagram hroom
  have hbal := h.balance
  refine ⟨⟨h.known, h.silent⟩, ?_⟩
  simp only [reacts, inFlight, held, reported] at hbal hdp ⊢
  split_ifs at hdp ⊢ <;> omega

theorem Balanced.onTimeout (h : t.Balanced) (hdue : t.Accounts (.onTimeout now)) :
    (t.reacts (.onTimeout now)).Balanced := by
  have hqueued := Datapath.queued_onTimeout hdue
  refine ⟨⟨h.known, h.silent⟩, ?_⟩
  have hbal := h.balance
  have hnoted : (t.datapath.onTimeout now).noted = t.datapath.noted := rfl
  simp only [reacts, inFlight, held, reported] at hbal ⊢
  omega

theorem Balanced.onPathChange (h : t.Balanced) {next : PathProperties}
    (hempty : t.Accounts (.onPathChange accepts next)) : (t.reacts (.onPathChange accepts next)).Balanced := by
  have hqueued := Datapath.queued_onPathChange accepts next hempty
  refine ⟨⟨h.known, h.silent⟩, ?_⟩
  have hbal := h.balance
  simp only [reacts, inFlight, held, reported] at hbal ⊢
  omega

theorem Balanced.reactorEnds (h : t.Balanced) (hempty : t.Accounts .reactorEnds) : t.reactorEnds.Balanced := by
  obtain ⟨hqueued, hnoted, hcounters, hinb⟩ := hempty
  refine ⟨⟨h.known, h.silent⟩, ?_⟩
  have hbal := h.balance
  have hzero : t.reactorEnds.datapath.queued = 0 := rfl
  have hnone : t.reactorEnds.datapath.noted = 0 := rfl
  simp only [inFlight, held, reported] at hbal ⊢
  rw [hzero, hnone]
  simp only [Tunnel.reactorEnds, closed, hinb] at hbal ⊢
  omega

/-! ### The relay keeps the balance -/

theorem totals_insert {associations : Table ℕ Association} (h : associations.lookup k = some a) (a' : Association) :
    total (fun _ a => a.waiting) (associations.insert k a') + a.waiting =
        total (fun _ a => a.waiting) associations + a'.waiting ∧
      total (fun _ a => a.counts.datagramsDropped) (associations.insert k a') + a.counts.datagramsDropped =
        total (fun _ a => a.counts.datagramsDropped) associations + a'.counts.datagramsDropped := by
  have hwait := total_insert (fun _ a => a.waiting) associations k a'
  have hdrop := total_insert (fun _ a => a.counts.datagramsDropped) associations k a'
  rw [h] at hwait hdrop
  exact ⟨hwait, hdrop⟩

theorem Sound.insert (h : t.Sound) (hk : t.associations.lookup k = some a) (hok : a'.Ok) :
    ∀ j b, (t.associations.insert k a').lookup j = some b → j < t.next ∧ b.Ok :=
  forall_lookup_insert (P := fun j (b : Association) => j < t.next ∧ b.Ok) k ⟨(h.known k a hk).1, hok⟩ h.known

def Taken (t : Tunnel) : Prop := t.entered = t.delivered + t.inFlight + (t.reported + t.held) + 1

theorem Sound.dropPending (h : t.Sound) (htaken : t.Taken) : t.dropPending.Balanced := by
  refine ⟨⟨h.known, h.silent⟩, ?_⟩
  simp only [Taken, Tunnel.dropPending, inFlight, held, reported] at htaken ⊢
  omega

theorem waiting_push {a : Association} (h : a.Ok) :
    { a with queue := a.queue ++ [datagram] }.waiting = a.waiting + 1 := by
  unfold waiting
  cases hphase : a.phase with
  | returned n =>
    have hn := h n hphase
    simp only [length_append, length_singleton]
    omega
  | _ => simp

theorem Sound.offer (h : t.Sound) (htaken : t.Taken) (k : ℕ) (dgram : Outbound) :
    (t.offer k dgram).Balanced := by
  unfold Tunnel.offer
  rcases hk : t.associations.lookup k with _ | a
  · exact h.dropPending htaken
  dsimp only
  split_ifs with hopen
  · have hok := (h.known k a hk).2
    have htot := totals_insert hk { a with queue := a.queue ++ [dgram] }
    rw [waiting_push hok] at htot
    refine ⟨⟨h.insert hk fun n hn => ?_, h.silent⟩, ?_⟩
    · have := hok n hn
      simp only [length_append]
      omega
    · simp only [Taken, inFlight, held, reported] at htaken htot ⊢
      omega
  · exact h.dropPending htaken

theorem Sound.openAssociation (h : t.Sound) (client : InternalEndpoint) : (t.openAssociation client).Sound := by
  refine ⟨forall_lookup_insert (P := fun k (a : Association) => k < t.next + 1 ∧ a.Ok) t.next
    ⟨Nat.lt_succ_self _, nofun⟩ ?_, h.silent⟩
  exact fun k a hk => ⟨Nat.lt_succ_of_lt (h.known k a hk).1, (h.known k a hk).2⟩

theorem Sound.taken_openAssociation (h : t.Sound) (htaken : t.Taken) (client : InternalEndpoint) :
    (t.openAssociation client).Taken := by
  have hnone : t.associations.lookup t.next = none := by
    cases hk : t.associations.lookup t.next with
    | none => rfl
    | some a => exact absurd (h.known t.next a hk).1 (Nat.lt_irrefl _)
  have hwait := total_insert (fun _ a => a.waiting) t.associations t.next ⟨client, [], .connecting, .default⟩
  have hdrop := total_insert (fun _ a => a.counts.datagramsDropped) t.associations t.next
    ⟨client, [], .connecting, .default⟩
  rw [hnone] at hwait hdrop
  simp only [elim_none, waiting, RelayCounts.default, length_nil] at hwait hdrop
  simp only [Taken, Tunnel.openAssociation, inFlight, held, reported, RelayCounts.default,
    waiting] at htaken ⊢
  omega

theorem size_reap_lt (h : t.Admitted client)
    (hnone : (t.reap client).lookup client = none) : size (t.reap client) < t.maxAssociations := by
  -- The associations left after the client's own was forgotten.
  obtain ⟨live, hlive⟩ : ∃ live, live = (t.live.lookup client).elim t.live fun k =>
      if t.isOpen k then t.live else t.live.erase client := ⟨_, rfl⟩
  have hreap : t.reap client = if live.lookup client = none ∧ t.maxAssociations ≤ size live then
      retain (fun _ k => if t.isOpen k then some k else none) live else live := by
    rw [hlive, reap]
    cases t.live.lookup client <;> rfl
  rcases h with ⟨k, hk, hopen⟩ | hfew
  · rw [hk] at hlive
    dsimp only [Option.elim] at hlive
    rw [if_pos hopen] at hlive
    rw [hreap, hlive, hk, if_neg (by simp), hk] at hnone
    cases hnone
  · have hle : total (fun _ k => if t.isOpen k then 1 else 0) live ≤
        total (fun _ k => if t.isOpen k then 1 else 0) t.live := by
      have herase := total_erase (fun _ k => if t.isOpen k then 1 else 0) t.live client
      rw [hlive]
      cases t.live.lookup client with
      | none => exact le_refl _
      | some k =>
        dsimp only [Option.elim]
        split_ifs <;> omega
    by_cases hfull : live.lookup client = none ∧ t.maxAssociations ≤ size live
    · rw [if_pos hfull] at hreap
      rw [hreap, size_retain]
      have hsame : (fun (_ : InternalEndpoint) (k : ℕ) => if (if t.isOpen k then some k else none).isSome then 1 else 0) =
          fun _ k => if t.isOpen k then 1 else 0 := by
        funext _ k
        cases t.isOpen k <;> rfl
      rw [hsame]
      exact lt_of_le_of_lt hle hfew
    · rw [if_neg hfull] at hreap
      rw [hreap] at hnone ⊢
      exact not_le.mp fun hle => hfull ⟨hnone, hle⟩

theorem Balanced.relayRecv (h : t.Balanced) (hadm : t.Accounts .relayRecv) : t.relayRecv.Balanced := by
  have hbal := h.balance
  unfold Tunnel.relayRecv
  rcases hqueue : t.outbound.queue with _ | ⟨dgram, rest⟩
  · exact h
  have htaken : Taken { t with outbound := ⟨t.outbound.capacity, rest⟩, live := t.reap dgram.client } := by
    simp only [Taken, inFlight, held, reported, hqueue, length_cons] at hbal ⊢
    omega
  have hsound : Sound { t with outbound := ⟨t.outbound.capacity, rest⟩, live := t.reap dgram.client } :=
    ⟨h.known, h.silent⟩
  dsimp only
  cases hlive : (t.reap dgram.client).lookup dgram.client with
  | some k => exact hsound.offer htaken k dgram
  | none =>
    have hroom := size_reap_lt (hadm dgram (by rw [hqueue]; rfl)) hlive
    rw [if_neg (by omega)]
    exact (hsound.openAssociation _).offer (hsound.taken_openAssociation htaken _) t.next dgram

theorem Sound.send (h : t.Sound) (report : RelayCounts) : t.send report = t := by
  have hcnt : (t.counts.trySend report).1 = t.counts := by
    rw [h.silent]
    rfl
  unfold Tunnel.send
  rw [hcnt]

theorem Balanced.report (h : t.Balanced) (hzero : t.Accounts .report) : t.report.Balanced := by
  have hbal := h.balance
  have hpend : t.pending.datagramsDropped = 0 := hzero
  unfold Tunnel.report
  rw [h.send]
  refine ⟨⟨h.known, h.silent⟩, ?_⟩
  simp only [inFlight, held, reported, RelayCounts.default] at hbal ⊢
  omega

theorem Balanced.relayEnds (h : t.Balanced) (hempty : t.Accounts .relayEnds) : t.relayEnds.Balanced := by
  have hrep := h.report hempty.2
  have hqueue : t.outbound.queue = [] := hempty.1
  refine ⟨⟨hrep.known, hrep.silent⟩, ?_⟩
  have hbal := hrep.balance
  simp only [Tunnel.relayEnds, Tunnel.report, send, inFlight, hqueue] at hbal ⊢
  exact hbal

/-! ### Associations keep the balance -/

theorem Balanced.put (h : t.Balanced) (hk : t.associations.lookup k = some a) (hok : a'.Ok)
    (hparts : a'.waiting + a'.counts.datagramsDropped = a.waiting + a.counts.datagramsDropped) :
    (t.put k a').Balanced := by
  have htot := totals_insert hk a'
  have hbal := h.balance
  refine ⟨⟨h.toSound.insert hk hok, h.silent⟩, ?_⟩
  simp only [Tunnel.put, inFlight, held, reported] at hbal ⊢
  omega

theorem Balanced.update (h : t.Balanced)
    (hf : ∀ a, t.associations.lookup k = some a → a.phase = phase → (f a).Balanced) : (t.update k phase f).Balanced := by
  unfold Tunnel.update
  rcases hk : t.associations.lookup k with _ | a
  · exact h
  dsimp only
  split_ifs with hphase
  · exact hf a hk hphase
  · exact h

theorem Balanced.associate (h : t.Balanced) (k : ℕ) (ok : Bool) : (t.associate k ok).Balanced := by
  refine h.update fun a hk hphase => ?_
  split_ifs with hok
  · exact h.put hk nofun (by simp [waiting, hphase])
  refine h.put hk (fun n hn => ?_) ?_
  · cases hn
    exact le_refl _
  · simp only [waiting, hphase]
    omega

theorem Balanced.stop (h : t.Balanced) (k : ℕ) : (t.stop k).Balanced := by
  refine h.update fun a hk hphase => h.put hk (fun n hn => ?_) (by simp [waiting, hphase])
  cases hn
  exact Nat.zero_le _

theorem waiting_of_serving {a : Association} (h : a.phase = .serving) : a.waiting = a.queue.length := by
  rw [waiting, h]

theorem Balanced.sendTo (h : t.Balanced) (k : ℕ) (ok : Bool) : (t.sendTo k ok).Balanced := by
  refine h.update fun a hk hphase => ?_
  rcases hqueue : a.queue with _ | ⟨dgram, rest⟩
  · exact h
  have hbal := h.balance
  split_ifs with hok
  · have htot := totals_insert hk { a with queue := rest }
    have hrest : ({ a with queue := rest } : Association).waiting = rest.length := waiting_of_serving hphase
    rw [waiting_of_serving hphase, hqueue, length_cons] at htot
    refine ⟨⟨h.toSound.insert hk fun n hn => ?_, h.silent⟩, ?_⟩
    · rw [hphase] at hn
      cases hn
    · simp only [Tunnel.put, inFlight, held, reported] at hbal htot ⊢
      omega
  · refine h.put hk (fun n hn => ?_) ?_
    · rw [hphase] at hn
      cases hn
    · rw [@waiting_of_serving a hphase, waiting_of_serving (by exact hphase), hqueue, length_cons]
      dsimp only
      omega

theorem onReceived_balance (s : Served) (client : InternalEndpoint) (r : Received) :
    (s.onReceived client r).1.inbound.queue.length + (s.onReceived client r).1.dropped =
      s.inbound.queue.length + s.dropped + arrivals r := by
  match r with
  | .error (.datagramTooLarge _) | .ok (_, .domain _ _) =>
    simp only [Served.onReceived, Served.drop, arrivals]
    omega
  | .error .quic | .error .datagramsUnsupported | .error (.proxy _) | .error (.io _) => rfl
  | .ok (payload, .ip peer) =>
    rcases htake : s.pool.take payload with ⟨pool, taken⟩
    rcases taken with _ | payload
    · simp only [Served.onReceived, htake, Served.drop, arrivals]
      omega
    simp only [Served.onReceived, htake, Channel.trySend]
    split_ifs with hroom
    · simp only [arrivals, length_append, length_singleton]
      omega
    · simp only [Served.drop, arrivals]
      omega

theorem Balanced.receive (h : t.Balanced) (k : ℕ) (r : Received) : (t.receive k r).Balanced := by
  refine h.update fun a hk hphase => ?_
  have hparts := onReceived_balance ⟨t.datapath.pool, t.inbound, a.counts.datagramsDropped⟩ a.client r
  have hbal := h.balance
  dsimp only
  rcases hs : Served.onReceived ⟨t.datapath.pool, t.inbound, a.counts.datagramsDropped⟩ a.client r with ⟨s, goesOn⟩
  rw [hs] at hparts
  have htot := totals_insert hk
    ⟨a.client, a.queue, if goesOn then .serving else .returned 0, { a.counts with datagramsDropped := s.dropped }⟩
  have hwait : (⟨a.client, a.queue, if goesOn then .serving else .returned 0,
      { a.counts with datagramsDropped := s.dropped }⟩ : Association).waiting = a.queue.length := by
    cases goesOn <;> rfl
  rw [hwait, waiting_of_serving hphase] at htot
  refine ⟨⟨h.toSound.insert hk fun n hn => ?_, h.silent⟩, ?_⟩
  · cases goesOn with
    | true => cases hn
    | false =>
      cases hn
      exact Nat.zero_le _
  · simp only [Tunnel.put, inFlight, held, reported, queued, noted] at hbal hparts htot ⊢
    omega

theorem Balanced.close (h : t.Balanced) (hclose : t.Accounts (.close k)) : (t.close k).Balanced := by
  unfold Tunnel.close
  rcases hk : t.associations.lookup k with _ | a
  · exact h
  cases hphase : a.phase with
  | returned n =>
    obtain ⟨hqueue, hzero⟩ := hclose a n hk hphase
    simp only [hphase]
    rw [h.send]
    refine h.put hk nofun ?_
    simp only [waiting, hphase, RelayCounts.default, length_nil]
    omega
  | _ =>
    simp only [hphase]
    exact h

/-! ### The host -/

theorem Balanced.hostTakes (h : t.Balanced) : t.hostTakes.Balanced := by
  have hbal := h.balance
  unfold Tunnel.hostTakes
  rcases hqueue : t.telemetry.queue with _ | ⟨obs, rest⟩
  · exact h
  have hcnt : counted (obs :: rest) = counted [obs] + counted rest :=
    counted_append [obs] rest
  have hgiven := counted_append t.given [obs]
  refine ⟨⟨h.known, h.silent⟩, ?_⟩
  simp only [inFlight, held, reported, hqueue] at hbal ⊢
  omega

theorem Balanced.hostCloses (h : t.Balanced) (hzero : t.Accounts .hostCloses) :
    { t with telemetry := closed }.Balanced := by
  have hbal := h.balance
  have hqueue : counted t.telemetry.queue = 0 := hzero
  have hcl : counted (closed : Channel Telemetry).queue = 0 := rfl
  refine ⟨⟨h.known, h.silent⟩, ?_⟩
  simp only [inFlight, held, reported] at hbal ⊢
  omega

/-! ### Runs -/

theorem Balanced.reacts (h : t.Balanced) (hcnt : t.Accounts e) : (t.reacts e).Balanced := by
  cases e with
  | capture packet buf origin plan now => exact h.capture hcnt
  | openStream key plan now =>
    obtain ⟨hqueued, hev, -⟩ := queued_openFlow t.datapath key plan now
    have hbal := h.balance
    refine ⟨⟨h.known, h.silent⟩, ?_⟩
    simp only [Tunnel.reacts, inFlight, held, noted, hqueued, hev] at hbal ⊢
    exact hbal
  | onTimeout now => exact h.onTimeout hcnt
  | onPathChange accepts next => exact h.onPathChange hcnt
  | drainDatagram => exact h.drainDatagram
  | drainEvent => exact h.drainEvent
  | deliver now => exact h.deliver hcnt
  | flush => exact h.flush hcnt
  | emit => exact h.emit
  | reactorEnds => exact h.reactorEnds hcnt
  | _ => exact h

theorem Balanced.step (h : t.Balanced) (hcnt : t.Accounts e) : (Counting.step t e).Balanced := by
  have hreacts : (if t.running then t.reacts e else t).Balanced := by
    split_ifs
    · exact h.reacts hcnt
    · exact h
  cases e with
  | relayRecv => exact h.relayRecv hcnt
  | report => exact h.report hcnt
  | relayEnds => exact h.relayEnds hcnt
  | associate k ok => exact h.associate k ok
  | sendTo k ok => exact h.sendTo k ok
  | receive k r => exact h.receive k r
  | stop k => exact h.stop k
  | close k => exact h.close hcnt
  | hostTakes => exact h.hostTakes
  | hostCloses => exact h.hostCloses hcnt
  | poolUsed pool => exact ⟨⟨h.known, h.silent⟩, h.balance⟩
  | _ => exact hreacts

theorem balanced_start (hflows : d.flows.flows = ∅) (hev : d.events = []) (max : ℕ+) : (start d max).Balanced := by
  have hqueued : d.queued = 0 := by
    unfold queued
    rw [hflows]
    rfl
  have hnoted : d.noted = 0 := by
    unfold noted
    rw [hev]
    rfl
  refine ⟨⟨fun k a hk => (by cases hk), rfl⟩, ?_⟩
  simp only [start, inFlight, held, hqueued, hnoted]
  rfl

end Tunnel

/-- **Every drop is counted** in a run of steps that meet their conditions: what has entered is delivered, in a queue
or dropped, and what was dropped is in the host's sum or held to be reported. -/
theorem counted_run {filter : FilterPolicy} {dns : DnsPolicy} {accepts : Accepts} {egress : PathProperties}
    {pathMtu : Mtu} {limits : Limits} {pool : BufferPool} {epoch : Instant} {d : Datapath}
    (hnew : new filter dns accepts egress pathMtu limits pool epoch = .ok d) (max : ℕ+) {es : List Event}
    (h : Along step Tunnel.Accounts (start d max) es) :
    let t := run step (start d max) es
    t.entered = t.delivered + t.inFlight + t.dropped ∧ t.dropped = t.reported + t.held := by
  intro t
  obtain ⟨hflows, -, hev, -⟩ := Datapath.empty_of_new hnew
  have ht : t.Balanced := run_invariant (fun t e ht hcnt => ht.step hcnt) es _
    (balanced_start hflows hev max) h
  have hbal := ht.balance
  unfold dropped
  omega

/-! ### Two runs -/

def small : Datapath := { Direct.fresh with datagramBufferCapacity := Nat.succPNat 0 }

theorem new_small : new .passThrough .forward .flows Direct.flowPath Direct.pathMtu1500
    ⟨fromSecs 120, 16, 1⟩ (.new 1500 8) (Instant.ofSecs 0) = .ok small := rfl

theorem sameFamily_captured : L3.sameFamily Direct.client4 Direct.target4 = true := rfl

def captured : Event :=
  .capture ⟨Direct.client4, Direct.target4, .udp 4000 53, 28, 1, sameFamily_captured⟩ (List.replicate 28 0 ++ [7]) .tunnel
    ⟨.localTermination, .passThrough⟩ (Instant.ofSecs 1)

/-- The second datagram finds its queue full, and the host is told. -/
def fullQueue : List Event := [captured, captured, .drainEvent, .drainEvent, .flush, .hostTakes]

theorem counted_fullQueue :
    let t := run step (start small 1) fullQueue
    (t.dropped = 1 ∧ t.reported = 1) ∧
      t.entered = t.delivered + t.inFlight + t.dropped ∧ t.dropped = t.reported + t.held := by
  have hpay : ∀ t : Tunnel, t.datapath.pool.sliceSize = 1500 → 0 < t.datapath.pool.available → t.Accounts captured :=
    fun t hsize hroom _ => ⟨[7], by decide, by rw [hsize]; decide, hroom⟩
  have h : Along step Tunnel.Accounts (start small 1) fullQueue :=
    ⟨hpay _ rfl (by decide), hpay _ (by decide) (by decide), trivial, trivial,
      .inr (by decide), trivial, trivial⟩
  exact ⟨by decide, counted_run new_small 1 h⟩

def failedAssociation : List Event := [captured, .drainDatagram, .relayRecv, .associate 0 false, .close 0]

/-- **A drop that no one counts**: the failed association counts the datagram it holds, and its report goes to a
channel whose receiver `Tunnel::start` has dropped. -/
theorem uncounted_failure :
    let t := run step (start small 1) failedAssociation
    t.entered = 1 ∧ t.delivered = 0 ∧ t.inFlight = 0 ∧ t.dropped = 1 ∧ t.reported = 0 ∧ t.held = 0 := by
  decide

end Boreas.Counting
