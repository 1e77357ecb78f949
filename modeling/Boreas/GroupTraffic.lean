import Boreas.Reports

/-! # Errors about group traffic

No ICMP error may be sent about a packet to a group, or from an address that is not a single host's.  `dispatch` does
not look at the addresses.  `onlyHosts_iff` says exactly when a call keeps to the rules. -/

namespace Boreas

open BufferPool L3

/-! ### Addresses -/

namespace IpAddr

def multicast : IpAddr → Bool
  | .v4 address => address.toNat / 2 ^ 28 = 0xe
  | .v6 address => address.toNat / 2 ^ 120 = 0xff

def broadcast : IpAddr → Bool
  | .v4 address => address = 0xffffffff#32
  | .v6 _ => false

def unspecified : IpAddr → Bool
  | .v4 address => address = 0#32
  | .v6 address => address = 0#128

def isV4 : IpAddr → Bool
  | .v4 _ => true
  | .v6 _ => false

end IpAddr

def IpAddr.Group (address : IpAddr) : Prop := address.multicast = true ∨ address.broadcast = true

instance (address : IpAddr) : Decidable address.Group := instDecidableOr

def IngressPacket.GroupTraffic (packet : IngressPacket) : Prop :=
  packet.destination.Group ∨ packet.source.unspecified = true ∨ packet.source.Group

def Ingress.slices : Ingress → ℕ
  | .borrowed _ => 1
  | .owned _ => 0

namespace Dispatcher

/-! ### What is generated -/

/-- The packets that a call makes itself, and where they are from: an error in the name of the quoted destination, a DNS
answer of the resolver, a reply of the peer. -/
def Makes (E : Etherparse) (d : Dispatcher) (address : IpAddr) (bytes : Bytes) : Op → Prop
  | .packet origin ingress now =>
    ∃ r packet, d.report E (.packet origin ingress now) = some r ∧ r.packet E = some bytes ∧
      IngressPacket.parse E r.quoted = .ok packet ∧ address = packet.destination
  | .answerDns client resolver response =>
    (∃ out len, writeUdp out resolver client response = .ok (bytes, len)) ∧ address = resolver.address
  | .deliverDatagram client peer payload _ =>
    (∃ out len, writeUdp out peer client payload = .ok (bytes, len)) ∧ address = peer.address
  | _ => False

/-- The call queues a packet of its own making for the tunnel, from `address`. -/
def Queues (E : Etherparse) (d : Dispatcher) (op : Op) (address : IpAddr) : Prop :=
  ∃ bytes, (d.step E op).transmits = d.transmits ++ [⟨.tunnel, bytes⟩] ∧ d.Makes E address bytes op

/-- No Time Exceeded and no IPv4 Fragmentation Needed is generated about group traffic, and no packet that is made and
queued is from a group. -/
structure OnlyHosts (E : Etherparse) (d : Dispatcher) (op : Op) : Prop where
  reports : ∀ r packet, d.report E op = some r → IngressPacket.parse E r.quoted = .ok packet → packet.GroupTraffic →
    r.error ≠ .timeExceeded ∧ ∀ mtu, r.error = .tooBig mtu → packet.destination.isV4 = false
  source : ∀ address, d.Queues E op address → ¬ address.Group

/-! ### When an error is due -/

def errorLength (packet : IngressPacket) (length : ℕ) : ℕ :=
  match packet.destination with
  | .v4 _ => 20 + 8 + min (maxIcmpv4Error - (20 + 8)) length
  | .v6 _ => 40 + 8 + min (maxIcmpv6Error - (40 + 8)) length

/-- A packet that is not an ICMP error is to be forwarded on a path of `innerMtu`, and the budget has a token. -/
structure Accountable (d : Dispatcher) (packet : IngressPacket) (now : Instant) (innerMtu : Mtu) : Prop where
  forwards : ∃ plan, d.action packet .tunnel now = .ok (.forwardPacket plan) ∧
    plan.transport = .packetFastPath innerMtu
  informational : packet.transport ≠ .icmp .error
  token : 0 < d.icmp.tokens ∨ fromSecs 1 ≤ now.saturatingDurationSince d.icmp.refilled

/-- Packet Too Big is due: the packet exceeds the inner MTU, and there is a slice for the error. -/
structure TooBigDue (d : Dispatcher) (packet : IngressPacket) (ingress : Ingress) (now : Instant) (innerMtu : Mtu) :
    Prop where
  accountable : d.Accountable packet now innerMtu
  long : innerMtu.bytes < ingress.bytes.length
  room : 0 < d.pool.available
  slice : errorLength packet ingress.bytes.length ≤ d.pool.sliceSize

/-- Time Exceeded is due: the packet meets the inner MTU but this was its last hop, and there are slices for it and
for the error. -/
structure ExhaustedDue (d : Dispatcher) (packet : IngressPacket) (ingress : Ingress) (now : Instant) (innerMtu : Mtu) :
    Prop where
  accountable : d.Accountable packet now innerMtu
  fits : ingress.bytes.length ≤ innerMtu.bytes
  lastHop : (spendHop ingress.bytes).2 = some 0
  pooled : ∀ buf, ingress = .borrowed buf → buf.length ≤ d.pool.sliceSize
  room : ingress.slices < d.pool.available
  slice : errorLength packet ingress.bytes.length ≤ d.pool.sliceSize

structure Writes (pool : BufferPool) (source destination : InternalEndpoint) (payload : Bytes) : Prop where
  family : sameFamily source.address destination.address = true
  describable : payload.length ≤ maxUdpPayload source.address
  slice : udpDatagramLen source.address payload.length ≤ pool.sliceSize
  room : 0 < pool.available

structure Delivers (d : Dispatcher) (client peer : InternalEndpoint) (payload : Bytes) (now : Instant) : Prop where
  live : d.contains (.mapping client) = true
  planned : ∃ plan, d.plans .excluded = .ok plan
  clock : (now.checkedAdd d.flows.idleTimeout).isSome = true
  writes : Writes d.pool peer client payload

/-- Where an error is due, the packet is between single hosts; for an IPv6 packet that is too big it is enough that it
is to one. A DNS answer or a reply that is written comes from a single host. -/
def SparesGroups (E : Etherparse) (d : Dispatcher) : Op → Prop
  | .packet .tunnel ingress now =>
    ∀ d' packet ingress' innerMtu, d.handled E .tunnel ingress now = some (d', packet, ingress') →
      (d'.TooBigDue packet ingress' now innerMtu →
        ¬ packet.destination.Group ∧ (packet.destination.isV4 = true → ¬ packet.GroupTraffic)) ∧
      (d'.ExhaustedDue packet ingress' now innerMtu → ¬ packet.GroupTraffic)
  | .answerDns client resolver response => Writes d.pool resolver client response → ¬ resolver.address.Group
  | .deliverDatagram client peer payload now => d.Delivers client peer payload now → ¬ peer.address.Group
  | _ => True

/-! ### Exactly the errors that are due -/

theorem take_granted (b : IcmpBudget) :
    (b.take now).2 = true ↔ 0 < b.tokens ∨ fromSecs 1 ≤ now.saturatingDurationSince b.refilled := by
  unfold IcmpBudget.take IcmpBudget.refill
  by_cases hdue : fromSecs 1 ≤ now.saturatingDurationSince b.refilled
  · simp [hdue, icmpErrorsPerSecond]
  · simp only [hdue, if_false]
    split_ifs with hempty
    · simp [hempty]
    · simp [Nat.pos_of_ne_zero hempty]

variable {packet : IngressPacket} {E : Etherparse}

theorem emit_iff : (∃ written, emit out bytes = .ok written) ↔ bytes.length ≤ out.length := by
  unfold emit
  split_ifs with hle
  · exact iff_of_true ⟨_, rfl⟩ hle
  · exact iff_of_false (by rintro ⟨_, h⟩; cases h) hle

theorem writeIcmpError_iff (hpar : IngressPacket.parse E quoted = .ok packet) :
    (∃ written, writeIcmpError E out quoted error = .ok written) ↔ errorLength packet quoted.length ≤ out.length := by
  have hfam := packet.family
  unfold writeIcmpError errorLength
  simp only [hpar]
  cases hdst : packet.destination with
  | v4 src =>
    cases hsrc : packet.source with
    | v6 dst => simp [hdst, hsrc, sameFamily] at hfam
    | v4 dst =>
      dsimp only
      rw [emit_iff, E.length_icmpv4, List.length_take]
  | v6 src =>
    cases hsrc : packet.source with
    | v4 dst => simp [hdst, hsrc, sameFamily] at hfam
    | v6 dst =>
      dsimp only
      rw [emit_iff, E.length_icmpv6, List.length_take]

theorem answerWith_queued (d : Dispatcher) (write : Bytes → Except WriteError (Bytes × ℕ)) :
    (d.answerWith write).2 = true ↔
      0 < d.pool.available ∧ ∃ written, write (List.replicate d.pool.sliceSize 0) = .ok written := by
  have hroom := d.pool.reserve_iff d.pool.sliceSize
  simp only [le_refl, true_and] at hroom
  unfold answerWith takeZeroed
  rcases hresv : d.pool.reserve d.pool.sliceSize with ⟨pool, granted⟩
  rw [hresv] at hroom
  rcases granted with _ | _
  · exact iff_of_false (by simp) fun h => nomatch hroom.mpr h.1
  dsimp only
  cases hwrite : write (List.replicate d.pool.sliceSize 0) with
  | error e => exact iff_of_false (by simp) fun h => nomatch h.2.choose_spec
  | ok written => exact iff_of_true rfl ⟨hroom.mp rfl, written, rfl⟩

theorem answerReport_iff (hpar : IngressPacket.parse E r.quoted = .ok packet) (d : Dispatcher) :
    d.answerReport E r = some r' ↔
      (0 < d.pool.available ∧ errorLength packet r.quoted.length ≤ d.pool.sliceSize) ∧ r' = r := by
  have hqueued := d.answerWith_queued fun reply => writeIcmpError E reply r.quoted r.error
  rw [writeIcmpError_iff hpar, List.length_replicate] at hqueued
  unfold answerReport
  rw [← hqueued]
  split_ifs with h
  · simp [h, eq_comm]
  · simp [h]

variable {now : Instant} {d : Dispatcher} {r : Report}

theorem tooBigReport_iff (hpar : IngressPacket.parse E buf = .ok packet) (mtu : Mtu) :
    d.tooBigReport E buf mtu now = some r ↔
      (d.icmp.take now).2 = true ∧ (0 < d.pool.available ∧ errorLength packet buf.length ≤ d.pool.sliceSize) ∧
        r = ⟨.tooBig mtu.bytes, buf⟩ := by
  unfold tooBigReport takeIcmp
  rcases d.icmp.take now with ⟨icmp, granted⟩
  rcases granted with _ | _
  · simp
  simp only [true_and]
  exact answerReport_iff (r := ⟨.tooBig mtu.bytes, buf⟩) hpar _

theorem exhaustReport_iff {buf : Bytes} {quotingAllowed : Bool} (hpar : IngressPacket.parse E buf = .ok packet) :
    d.exhaustReport E buf .egress quotingAllowed now = some r ↔ quotingAllowed = true ∧ (d.icmp.take now).2 = true ∧
        (0 < d.pool.available ∧ errorLength packet buf.length ≤ d.pool.sliceSize) ∧ r = ⟨.timeExceeded, buf⟩ := by
  unfold exhaustReport takeIcmp
  rcases quotingAllowed with _ | _
  · simp
  dsimp only [noting]
  rcases d.icmp.take now with ⟨icmp, granted⟩
  rcases granted with _ | _
  · simp
  simp only [true_and]
  exact answerReport_iff (r := ⟨.timeExceeded, buf⟩) hpar _

theorem intoPooled_iff (pool : BufferPool) (ingress : Ingress) (n : ℕ) :
    (∃ pool' bytes, ingress.intoPooled pool = (pool', some bytes) ∧ n < pool'.available) ↔
      (∀ buf, ingress = .borrowed buf → buf.length ≤ pool.sliceSize) ∧ n + ingress.slices < pool.available := by
  cases ingress with
  | owned buf =>
    simp only [reduceCtorEq, false_implies, implies_true, true_and]
    exact ⟨fun ⟨_, _, h, hn⟩ => by cases h; exact hn, fun hn => ⟨_, _, rfl, hn⟩⟩
  | borrowed buf =>
    have hroom := pool.reserve_iff buf.length
    simp only [Ingress.intoPooled, take, Ingress.slices, Ingress.borrowed.injEq, forall_eq']
    rcases hresv : pool.reserve buf.length with ⟨pool₁, granted⟩
    rw [hresv] at hroom
    rcases granted with _ | _
    · simp only [Bool.false_eq_true, false_iff, not_and] at hroom
      exact iff_of_false (by simp) fun h => hroom h.1 (by omega)
    have havail := available_reserve hresv
    constructor
    · rintro ⟨pool', bytes, h, hn⟩
      cases h
      exact ⟨(hroom.mp rfl).1, by omega⟩
    · exact fun h => ⟨pool₁, buf, rfl, by omega⟩

theorem forwardReport_iff (hpar : IngressPacket.parse E ingress.bytes = .ok packet) :
    d.forwardReport E ingress .egress quotingAllowed now = some r ↔
      quotingAllowed = true ∧ (d.icmp.take now).2 = true ∧ (spendHop ingress.bytes).2 = some 0 ∧
        ((∀ buf, ingress = .borrowed buf → buf.length ≤ d.pool.sliceSize) ∧ ingress.slices < d.pool.available) ∧
        errorLength packet ingress.bytes.length ≤ d.pool.sliceSize ∧ r = ⟨.timeExceeded, ingress.bytes⟩ := by
  have hroom := intoPooled_iff d.pool ingress 0
  rw [Nat.zero_add] at hroom
  rw [← hroom]
  unfold forwardReport
  rcases hpooled : ingress.intoPooled d.pool with ⟨pool, taken⟩
  rcases taken with _ | bytes
  · exact iff_of_false (by simp) (by simp)
  obtain ⟨rfl, hsize, -⟩ := intoPooled_some hpooled
  have hsame : (∃ pool' bytes, (pool, some ingress.bytes) = (pool', some bytes) ∧ 0 < pool'.available) ↔
      0 < pool.available :=
    ⟨fun ⟨_, _, h, hn⟩ => by cases h; exact hn, fun hn => ⟨_, _, rfl, hn⟩⟩
  rw [hsame]
  dsimp only
  have hexh := @spendHop_exhausted ingress.bytes
  rcases hhop : spendHop ingress.bytes with ⟨spent, left⟩
  rw [hhop] at hexh
  by_cases hzero : left = some 0
  · subst hzero
    have hspent : spent = ingress.bytes := hexh rfl
    subst hspent
    have hrep := @exhaustReport_iff packet E now { d with pool := pool } r ingress.bytes quotingAllowed
      hpar
    simp only [hsize] at hrep
    exact hrep.trans (by tauto)
  · refine iff_of_false ?_ fun h => hzero h.2.2.1
    split
    · next h => exact absurd (congrArg Prod.snd h) hzero
    · simp

theorem forwardPacket_fast (h : d.action packet origin now = .ok (.forwardPacket plan)) :
    ∃ innerMtu, plan.transport = .packetFastPath innerMtu := by
  unfold action at h
  split at h
  · next action hadm =>
      cases h
      unfold admitPacket at hadm
      split at hadm <;> try cases hadm
      split_ifs at hadm <;> cases hadm
  · split at h
    · cases h
    · next plan' _ =>
        unfold routePlanned at h
        split at h
        · next innerMtu hplan =>
            cases h
            exact ⟨innerMtu, hplan⟩
        · split at h <;> cases h

/-- **The errors about a whole packet of the tunnel are those that are due.** -/
theorem handleReport_iff (hpar : IngressPacket.parse E ingress.bytes = .ok packet) :
    d.handleReport E packet ingress .tunnel now = some r ↔
      ∃ innerMtu, d.TooBigDue packet ingress now innerMtu ∧ r = ⟨.tooBig innerMtu.bytes, ingress.bytes⟩ ∨
        d.ExhaustedDue packet ingress now innerMtu ∧ r = ⟨.timeExceeded, ingress.bytes⟩ := by
  have hother : (∀ plan, d.action packet .tunnel now ≠ .ok (.forwardPacket plan)) →
      ∀ innerMtu, ¬ d.Accountable packet now innerMtu := by
    rintro hnot innerMtu ⟨⟨plan, hact, -⟩, -, -⟩
    exact hnot plan hact
  have hnone : (∀ innerMtu, ¬ d.Accountable packet now innerMtu) →
      ¬ ∃ innerMtu, d.TooBigDue packet ingress now innerMtu ∧ r = ⟨.tooBig innerMtu.bytes, ingress.bytes⟩ ∨
        d.ExhaustedDue packet ingress now innerMtu ∧ r = ⟨.timeExceeded, ingress.bytes⟩ := by
    rintro hnot ⟨innerMtu, ⟨hdue, -⟩ | ⟨hdue, -⟩⟩
    · exact hnot innerMtu hdue.accountable
    · exact hnot innerMtu hdue.accountable
  unfold handleReport
  split
  · next plan hact =>
      obtain ⟨innerMtu, hplan⟩ := forwardPacket_fast hact
      have hmtu : ∀ m, d.Accountable packet now m → m = innerMtu := by
        rintro m ⟨⟨plan', hact', hplan'⟩, -, -⟩
        rw [hact] at hact'
        cases hact'
        rw [hplan] at hplan'
        cases hplan'
        rfl
      have hacct : d.Accountable packet now innerMtu ↔
          packet.transport ≠ .icmp .error ∧ (d.icmp.take now).2 = true := by
        rw [take_granted]
        exact ⟨fun h => ⟨h.informational, h.token⟩, fun h => ⟨⟨plan, hact, hplan⟩, h.1, h.2⟩⟩
      have huniq : (∃ m, d.TooBigDue packet ingress now m ∧ r = ⟨.tooBig m.bytes, ingress.bytes⟩ ∨
            d.ExhaustedDue packet ingress now m ∧ r = ⟨.timeExceeded, ingress.bytes⟩) ↔
          d.TooBigDue packet ingress now innerMtu ∧ r = ⟨.tooBig innerMtu.bytes, ingress.bytes⟩ ∨
            d.ExhaustedDue packet ingress now innerMtu ∧ r = ⟨.timeExceeded, ingress.bytes⟩ := by
        constructor
        · rintro ⟨m, hdue⟩
          have hm : m = innerMtu := hmtu m (hdue.elim (fun h => h.1.accountable) fun h => h.1.accountable)
          exact hm ▸ hdue
        · exact fun hdue => ⟨innerMtu, hdue⟩
      rw [huniq]
      unfold forwardPacketReport
      simp only [hplan, true_and]
      by_cases hbig : packet.transport ≠ .icmp .error ∧ innerMtu.bytes < ingress.bytes.length
      · rw [if_pos hbig, tooBigReport_iff hpar]
        constructor
        · rintro ⟨htoken, ⟨hroom, hslice⟩, hr⟩
          exact .inl ⟨⟨hacct.mpr ⟨hbig.1, htoken⟩, hbig.2, hroom, hslice⟩, hr⟩
        · rintro (⟨hdue, hr⟩ | ⟨hdue, -⟩)
          · exact ⟨(hacct.mp hdue.accountable).2, ⟨hdue.room, hdue.slice⟩, hr⟩
          · exact absurd hdue.fits (not_le.mpr hbig.2)
      · rw [if_neg hbig]
        show d.forwardReport E ingress .egress _ now = some r ↔ _
        rw [forwardReport_iff hpar, decide_eq_true_eq]
        constructor
        · rintro ⟨hinfo, htoken, hhop, ⟨hpooled, hroom⟩, hslice, hr⟩
          refine .inr ⟨⟨hacct.mpr ⟨hinfo, htoken⟩, ?_, hhop, hpooled, hroom, hslice⟩, hr⟩
          exact not_lt.mp fun hlong => hbig ⟨hinfo, hlong⟩
        · rintro (⟨hdue, -⟩ | ⟨hdue, hr⟩)
          · exact absurd ⟨hdue.accountable.informational, hdue.long⟩ hbig
          · obtain ⟨hinfo, htoken⟩ := hacct.mp hdue.accountable
            exact ⟨hinfo, htoken, hdue.lastHop, ⟨hdue.pooled, hdue.room⟩, hdue.slice, hr⟩
  · next plan hact =>
      refine iff_of_false ?_ (hnone (hother (by simp [hact])))
      show ¬ d.forwardReport E ingress .egress false now = some r
      rw [forwardReport_iff hpar]
      simp
  · next hnot _ =>
      exact iff_of_false (by simp) (hnone (hother fun plan hact => hnot plan hact))

/-! ### Packets that are written -/

theorem writes_iff : Writes pool source destination payload ↔
    ∃ pool' bytes written, pool.takeZeroed (udpDatagramLen source.address payload.length) = (pool', some bytes) ∧
      writeUdp bytes source destination payload = .ok written := by
  have hroom := pool.reserve_iff (udpDatagramLen source.address payload.length)
  have hwrite := @writeUdp_iff source destination (List.replicate (udpDatagramLen source.address payload.length) 0)
    payload
  rw [List.length_replicate] at hwrite
  unfold takeZeroed
  rcases hresv : pool.reserve (udpDatagramLen source.address payload.length) with ⟨pool', granted⟩
  rw [hresv] at hroom
  rcases granted with _ | _
  · exact iff_of_false (fun h => nomatch hroom.mpr ⟨h.slice, h.room⟩) (by simp)
  obtain ⟨hslice, havail⟩ := hroom.mp rfl
  constructor
  · intro h
    obtain ⟨written, hwritten⟩ := hwrite.mpr ⟨h.family, h.describable, le_rfl⟩
    exact ⟨pool', _, written, rfl, hwritten⟩
  · rintro ⟨_, _, written, heq, hwritten⟩
    cases heq
    obtain ⟨hfam, hmax, -⟩ := hwrite.mp ⟨written, hwritten⟩
    exact ⟨hfam, hmax, hslice, havail⟩

theorem queues_written {queue : List Transmit} (hwrite : writeUdp out source destination payload = .ok written) :
    (∃ bytes, queue ++ [⟨.tunnel, written.1⟩] = queue ++ [⟨.tunnel, bytes⟩] ∧
      (∃ out len, writeUdp out source destination payload = .ok (bytes, len)) ∧ address = source.address) ↔
      address = source.address :=
  ⟨fun ⟨_, _, _, haddr⟩ => haddr, fun haddr => ⟨_, rfl, ⟨out, written.2, hwrite⟩, haddr⟩⟩

theorem queues_answerDns : d.Queues E (.answerDns client resolver response) address ↔
    Writes d.pool resolver client response ∧ address = resolver.address := by
  rw [writes_iff]
  unfold Queues
  dsimp only [step, answerDns, Makes]
  rcases d.pool.takeZeroed (udpDatagramLen resolver.address response.length) with ⟨pool, _ | bytes⟩
  · simp [noting]
  dsimp only
  cases hwrite : writeUdp bytes resolver client response with
  | error e => simp [hwrite]
  | ok written => exact (queues_written hwrite).trans ⟨fun h => ⟨⟨_, _, _, rfl, hwrite⟩, h⟩, And.right⟩

theorem queues_delivered : d.Queues E (.deliverDatagram client peer payload now) address ↔
    d.Delivers client peer payload now ∧ address = peer.address := by
  unfold Queues
  dsimp only [step, Datapath.step, Datapath.deliverDatagram, Makes]
  rcases hlive : d.contains (.mapping client) with _ | _
  · exact iff_of_false (by simp) fun h => by simpa [hlive] using h.1.live
  rcases hplan : d.plans .excluded with _ | plan
  · exact iff_of_false (by simp) fun ⟨h, _⟩ => by simpa [hplan] using h.planned
  dsimp only
  cases hclock : now.checkedAdd d.flows.idleTimeout with
  | none =>
    have href : d.flows.getOrInsertWith (.mapping client) now ⟨plan, .new d.datagramBufferCapacity⟩ =
        (d.flows, .error .deadlineOverflow) := by
      unfold UdpFlowTable.getOrInsertWith
      rw [hclock]
    rw [href]
    exact iff_of_false (by simp) fun h => by simpa [hclock] using h.1.clock
  | some due =>
    have hsome : (now.checkedAdd d.flows.idleTimeout).isSome = true := by rw [hclock]; rfl
    obtain ⟨flows, state, hflows⟩ :=
      Datapath.getOrInsertWith_of_live ⟨plan, .new d.datagramBufferCapacity⟩ hlive hsome
    have hdelivers : d.Delivers client peer payload now ↔ Writes d.pool peer client payload :=
      ⟨Delivers.writes, fun h => ⟨hlive, ⟨plan, hplan⟩, hsome, h⟩⟩
    rw [hflows, hdelivers, writes_iff]
    rcases d.pool.takeZeroed (udpDatagramLen peer.address payload.length) with ⟨pool, _ | bytes⟩
    · simp
    dsimp only
    cases hwrite : writeUdp bytes peer client payload with
    | error e => simp [hwrite]
    | ok written => exact (queues_written hwrite).trans ⟨fun h => ⟨⟨_, _, _, rfl, hwrite⟩, h⟩, And.right⟩

/-- The error that is reported about a packet is the packet that is queued. -/
theorem queues_reported (hr : d.report E (.packet origin ingress now) = some r)
    (hpar : IngressPacket.parse E r.quoted = .ok packet) :
    d.Queues E (.packet origin ingress now) packet.destination := by
  obtain ⟨-, hnone⟩ | ⟨-, whole, ingress', -, -, -, hout⟩ := outcome_packet E d origin ingress now
  · exact absurd (hnone.symm.trans hr) (by simp)
  rw [hr] at hout
  cases hout with
  | reported hquo hbytes horig hinfo hgr hicmp hqueue => exact ⟨_, hqueue, r, packet, hr, hbytes, hpar, rfl⟩

/-! ### The rules -/

theorem onlyHosts_packet (E : Etherparse) (d : Dispatcher) (ingress : Ingress) (now : Instant) :
    OnlyHosts E d (.packet .tunnel ingress now) ↔ d.SparesGroups E (.packet .tunnel ingress now) := by
  have hpkt := onPacket_handled E d .tunnel ingress now
  unfold SparesGroups
  cases hhand : d.handled E .tunnel ingress now with
  | none =>
    have hrep : d.report E (.packet .tunnel ingress now) = none := by
      dsimp only [report]
      rw [hhand]
    refine iff_of_true ⟨fun r packet hr => absurd (hrep.symm.trans hr) (by simp), ?_⟩ (by simp [hhand])
    rintro address ⟨bytes, -, r, packet, hr, -⟩
    exact absurd (hrep.symm.trans hr) (by simp)
  | some found =>
    obtain ⟨d', packet, ingress'⟩ := found
    rw [hhand] at hpkt
    obtain ⟨-, -, hpar, -, -⟩ := hpkt
    have hrep : ∀ r, d.report E (.packet .tunnel ingress now) = some r ↔
        ∃ innerMtu, d'.TooBigDue packet ingress' now innerMtu ∧ r = ⟨.tooBig innerMtu.bytes, ingress'.bytes⟩ ∨
          d'.ExhaustedDue packet ingress' now innerMtu ∧ r = ⟨.timeExceeded, ingress'.bytes⟩ := by
      intro r
      rw [← handleReport_iff hpar]
      dsimp only [report]
      rw [hhand]
    constructor
    · rintro ⟨hreps, hsources⟩ d₁ packet₁ ingress₁ innerMtu hfound
      rw [hhand] at hfound
      cases hfound
      refine ⟨fun hdue => ?_, fun hdue hgroup => ?_⟩
      · have hr := (hrep _).mpr ⟨innerMtu, .inl ⟨hdue, rfl⟩⟩
        refine ⟨hsources _ (queues_reported hr hpar), fun hv4 hgroup => ?_⟩
        have hv6 := (hreps _ packet hr hpar hgroup).2 _ rfl
        rw [hv4] at hv6
        cases hv6
      · have hr := (hrep _).mpr ⟨innerMtu, .inr ⟨hdue, rfl⟩⟩
        exact (hreps _ packet hr hpar hgroup).1 rfl
    · intro hspares
      refine ⟨fun r packet₁ hr hparsed₁ hgroup => ?_, ?_⟩
      · obtain ⟨innerMtu, ⟨hdue, rfl⟩ | ⟨hdue, rfl⟩⟩ := (hrep r).mp hr
        · cases hpar.symm.trans hparsed₁
          refine ⟨by simp, fun mtu _ => ?_⟩
          cases hv4 : packet.destination.isV4 with
          | false => rfl
          | true => exact absurd hgroup (((hspares d' packet ingress' innerMtu hhand).1 hdue).2 hv4)
        · cases hpar.symm.trans hparsed₁
          exact absurd hgroup ((hspares d' packet ingress' innerMtu hhand).2 hdue)
      · rintro address ⟨bytes, -, r, packet₁, hr, -, hparsed₁, rfl⟩
        obtain ⟨innerMtu, ⟨hdue, rfl⟩ | ⟨hdue, rfl⟩⟩ := (hrep r).mp hr
        · cases hpar.symm.trans hparsed₁
          exact ((hspares d' packet ingress' innerMtu hhand).1 hdue).1
        · cases hpar.symm.trans hparsed₁
          exact fun hgroup => (hspares d' packet ingress' innerMtu hhand).2 hdue (.inl hgroup)

/-- **A call keeps to the rules exactly when it spares groups**: for every state and every call. -/
theorem onlyHosts_iff (E : Etherparse) (d : Dispatcher) (op : Op) : OnlyHosts E d op ↔ d.SparesGroups E op := by
  have hquiet : (∀ r, d.report E op ≠ some r) → (∀ address bytes, ¬ d.Makes E address bytes op) →
      OnlyHosts E d op :=
    fun hrep hmakes => ⟨fun r _ hr => absurd hr (hrep r), fun address ⟨bytes, _, h⟩ => absurd h (hmakes address bytes)⟩
  cases op with
  | packet origin ingress now =>
    cases origin with
    | tunnel => exact onlyHosts_packet E d ingress now
    | egress =>
      have hrep : ∀ r, d.report E (.packet .egress ingress now) ≠ some r := by
        intro r hr
        obtain ⟨-, hnone⟩ | ⟨-, whole, ingress', -, -, -, hout⟩ := outcome_packet E d .egress ingress now
        · exact absurd (hnone.symm.trans hr) (by simp)
        · rw [hr] at hout
          cases hout with
          | reported hquo hbytes horig => cases horig
      exact iff_of_true (hquiet hrep fun _ _ ⟨r, _, hr, _⟩ => hrep r hr) trivial
  | answerDns client resolver resp =>
    refine ⟨fun h hwr => h.source _ (queues_answerDns.mpr ⟨hwr, rfl⟩), fun h => ?_⟩
    refine ⟨fun r _ hr => (nomatch hr), fun address hqueues => ?_⟩
    obtain ⟨hwr, rfl⟩ := queues_answerDns.mp hqueues
    exact h hwr
  | deliverDatagram client peer payload now =>
    refine ⟨fun h hdelivers => h.source _ (queues_delivered.mpr ⟨hdelivers, rfl⟩), fun h => ?_⟩
    refine ⟨fun r _ hr => (nomatch hr), fun address hqueues => ?_⟩
    obtain ⟨hdelivers, rfl⟩ := queues_delivered.mp hqueues
    exact h hdelivers
  | _ => exact iff_of_true (hquiet (fun _ h => nomatch h) fun _ _ h => h) trivial

/-! ### A multicast datagram -/

/-- A datagram of the client to 239.255.255.250, port 1900, with its last hop. -/
def discovery : Bytes := (plainPacket 17 0xc0000201#32 0xeffffffa#32 4000 1900 [0, 11, 0, 0, 1, 2, 3]).set 8 1

/-- **Its hops run out, and a Time Exceeded about it is queued**, from the group. -/
theorem reported_multicast :
    (inspecting .ipPackets).report plainIp (.packet .tunnel (.borrowed discovery) (Instant.ofSecs 1)) =
        some ⟨.timeExceeded, discovery⟩ ∧
      (inspecting .ipPackets).Queues plainIp (.packet .tunnel (.borrowed discovery) (Instant.ofSecs 1))
        (.v4 0xeffffffa#32) ∧ (IpAddr.v4 0xeffffffa#32).Group ∧
      ¬ OnlyHosts plainIp (inspecting .ipPackets) (.packet .tunnel (.borrowed discovery) (Instant.ofSecs 1)) := by
  have hreport : (inspecting .ipPackets).report plainIp
      (.packet .tunnel (.borrowed discovery) (Instant.ofSecs 1)) = some ⟨.timeExceeded, discovery⟩ := by decide +kernel
  have hto : (IngressPacket.parse plainIp discovery).toOption.map IngressPacket.destination =
      some (.v4 0xeffffffa#32) := by decide +kernel
  cases hpar : IngressPacket.parse plainIp discovery with
  | error e => simp [hpar, Except.toOption] at hto
  | ok packet =>
    have hdst : packet.destination = .v4 0xeffffffa#32 := by simpa [hpar, Except.toOption] using hto
    have hfrom := hdst ▸ queues_reported hreport hpar
    exact ⟨hreport, hfrom, by decide, fun h => h.source _ hfrom (by decide)⟩

end Dispatcher

end Boreas
