import Boreas.DispatchFlows

/-! # Packets from the egress

Both sides share `dispatch`, which answers DNS and opens flows before it looks at the side.  `OnlyForwarded` is what a
packet from the egress should leave behind: at most one more packet for the tunnel.  `onlyForwarded_iff` says exactly
when it does. -/

namespace Boreas.Dispatcher

open Datapath Table

/-- The call opened no flow, captured no datagram, queued no query and handed nothing to local termination; the packet
was forwarded to the tunnel or went no further. -/
structure OnlyForwarded (d d' : Dispatcher) : Prop where
  opens : ∀ key, d'.contains key = true → d.contains key = true
  captures : ∀ key st st', d.flows.flows.lookup key = some st → d'.flows.flows.lookup key = some st' →
    st'.value.buffer = st.value.buffer
  queries : d'.queries = d.queries
  terminate : d'.terminate = d.terminate
  transmits : d'.transmits = d.transmits ∨ ∃ bytes, d'.transmits = d.transmits ++ [⟨.tunnel, bytes⟩]

def Resolves (d : Dispatcher) (packet : IngressPacket) : Prop :=
  d.dns = .intercept ∧ ∃ sourcePort, packet.transport = .udp sourcePort dnsPort

def Queries (d : Dispatcher) (packet : IngressPacket) (buf : Bytes) : Prop :=
  d.Resolves packet ∧ ∃ payload, packet.payload buf = some payload ∧ payload.length ≤ d.pool.sliceSize ∧
    0 < d.pool.available

/-- There is room for the flow, which is not live. -/
def HasRoom (d : Dispatcher) (key : FlowKey) (now : Instant) : Prop :=
  d.contains key = false ∧ size d.flows.flows < d.flows.ceiling ∧
    (now.checkedAdd d.flows.idleTimeout).isSome = true

/-- There is room for the packet's flow, and a flow egress terminates it. -/
def Opens (d : Dispatcher) (packet : IngressPacket) (now : Instant) : Prop :=
  d.accepts = .flows ∧ ¬ d.Resolves packet ∧ ∃ key, keyOf packet = some key ∧ d.HasRoom key now

/-! ### What each action leaves behind -/

structure Unmoved (d d' : Dispatcher) : Prop where
  flows : d'.flows = d.flows
  queries : d'.queries = d.queries
  terminate : d'.terminate = d.terminate
  transmits : d'.transmits = d.transmits

theorem Unmoved.onlyForwarded (h : Unmoved d d') : OnlyForwarded d d' := by
  refine ⟨fun key hkey => ?_, fun key st st' hst hst' => ?_, h.queries, h.terminate, .inl h.transmits⟩
  · unfold contains at hkey ⊢
    rwa [h.flows] at hkey
  · rw [h.flows, hst] at hst'
    cases hst'
    rfl

theorem unmoved_dropping (d : Dispatcher) (ingress : Ingress) : Unmoved d (d.dropping ingress) := by
  cases ingress <;> exact ⟨rfl, rfl, rfl, rfl⟩

theorem OnlyForwarded.dropping (ingress : Ingress) : OnlyForwarded d (d'.dropping ingress) ↔ OnlyForwarded d d' := by
  have h := unmoved_dropping d' ingress
  have hcont : ∀ key, (d'.dropping ingress).contains key = d'.contains key := by
    intro key
    unfold contains
    rw [h.flows]
  constructor
  · rintro ⟨hopens, hcap, hqs, hterm, htx⟩
    rw [h.flows] at hcap
    rw [h.queries] at hqs
    rw [h.terminate] at hterm
    rw [h.transmits] at htx
    exact ⟨fun key hkey => hopens key ((hcont key).trans hkey), hcap, hqs, hterm, htx⟩
  · rintro ⟨hopens, hcap, hqs, hterm, htx⟩
    refine ⟨fun key hkey => hopens key ((hcont key).symm.trans hkey), ?_, ?_, ?_, ?_⟩
    · rwa [h.flows]
    · rwa [h.queries]
    · rwa [h.terminate]
    · rwa [h.transmits]

variable (E : Etherparse)

theorem onlyForwarded_forward (d : Dispatcher) (ingress : Ingress) (clamp : Option Mtu)
    (quotingAllowed : Bool) (now : Instant) :
    OnlyForwarded d (d.forward E ingress .tunnel clamp quotingAllowed now) := by
  unfold forward
  rcases ingress.intoPooled d.pool with ⟨pool, taken⟩
  rcases taken with _ | bytes
  · exact Unmoved.onlyForwarded ⟨rfl, rfl, rfl, rfl⟩
  dsimp only
  split
  · exact Unmoved.onlyForwarded ⟨rfl, rfl, rfl, rfl⟩
  · refine ⟨fun key hkey => hkey, fun key st st' hst hst' => ?_, rfl, rfl, .inr ⟨_, rfl⟩⟩
    rw [hst] at hst'
    cases hst'
    rfl

theorem onlyForwarded_forwardPacket (d : Dispatcher) (packet : IngressPacket) (ingress : Ingress)
    (plan : FlowPlan) (now : Instant) : OnlyForwarded d (d.forwardPacket E packet ingress .egress plan now) := by
  unfold forwardPacket
  cases plan.transport with
  | packetFastPath mtu =>
    dsimp only
    exact onlyForwarded_forward E d ingress _ _ now
  | localTermination => exact onlyForwarded_forward E d ingress _ _ now

variable {packet : IngressPacket} {d : Dispatcher}

theorem onlyForwarded_interceptDns (hudp : packet.transport = .udp sourcePort dnsPort) (buf : Bytes) :
    OnlyForwarded d (d.interceptDns packet buf) ↔ ¬ ∃ payload, packet.payload buf = some payload ∧
      payload.length ≤ d.pool.sliceSize ∧ 0 < d.pool.available := by
  unfold interceptDns
  rw [hudp]
  rcases hpay : packet.payload buf with _ | payload
  · refine iff_of_true (Unmoved.onlyForwarded ⟨rfl, rfl, rfl, rfl⟩) ?_
    simp
  rw [Option.map_some]
  have hroom := d.pool.reserve_iff payload.length
  unfold BufferPool.take
  rcases hr : d.pool.reserve payload.length with ⟨pool, granted⟩
  rw [hr] at hroom
  cases granted with
  | true =>
    have hfits := hroom.mp rfl
    refine iff_of_false (fun h => ?_) (not_not.mpr ⟨payload, rfl, hfits⟩)
    have hqs := h.queries
    simp at hqs
  | false =>
    refine iff_of_true (Unmoved.onlyForwarded ⟨rfl, rfl, rfl, rfl⟩) ?_
    rintro ⟨payload', hsame, hfits⟩
    cases hsame
    exact absurd (hroom.mpr hfits) Bool.false_ne_true

theorem openFlow_eq (d : Datapath) (key : FlowKey) (plan : FlowPlan) (now : Instant) :
    (d.openFlow key plan now).1 = { d with flows := (d.openFlow key plan now).1.flows } := by
  unfold openFlow
  cases d.flows.getOrInsertWith key now ⟨plan, .new d.datagramBufferCapacity⟩ with
  | mk flows res => cases res <;> rfl

theorem onlyForwarded_openFlow (d : Dispatcher) (key : FlowKey) (plan : FlowPlan) (now : Instant)
    (events : List FlowEvent) :
    OnlyForwarded d { d with toDatapath := { (d.openFlow key plan now).1 with events := events } } ↔
      ¬ d.HasRoom key now := by
  rw [openFlow_eq]
  unfold openFlow UdpFlowTable.getOrInsertWith HasRoom
  rcases hdl : now.checkedAdd d.flows.idleTimeout with _ | due
  · exact iff_of_true (Unmoved.onlyForwarded ⟨rfl, rfl, rfl, rfl⟩) (by simp)
  cases hkey : d.flows.flows.lookup key with
  | some st =>
    have hlive : d.contains key = true := by simp [contains, hkey]
    refine iff_of_true ⟨fun k hk => ?_, fun k old new hold hnew => ?_, rfl, rfl, .inl rfl⟩ (by simp [hlive])
    · unfold contains at hk ⊢
      rw [lookup_insert_eq] at hk
      split_ifs at hk with heq
      · rw [heq, hkey]
        rfl
      · exact hk
    · rw [lookup_insert_eq] at hnew
      split_ifs at hnew with heq
      · rw [heq, hkey] at hold
        cases hold
        cases hnew
        rfl
      · rw [hold] at hnew
        cases hnew
        rfl
  | none =>
    have hlive : d.contains key = false := by simp [contains, hkey]
    split_ifs with hfull
    · exact iff_of_true (Unmoved.onlyForwarded ⟨rfl, rfl, rfl, rfl⟩) (by simp only [not_and]; omega)
    · refine iff_of_false (fun h => ?_) (not_not.mpr ⟨hlive, by omega, rfl⟩)
      have hopen := h.opens key (by simp [contains])
      rw [hlive] at hopen
      cases hopen

variable {key : FlowKey}

theorem onlyForwarded_openStream
    (hkey : keyOf packet = some key) (ingress : Ingress) (plan : FlowPlan) (now : Instant) :
    OnlyForwarded d (d.openStream packet ingress .egress plan now).1 ↔ ¬ d.HasRoom key now := by
  have hopen := onlyForwarded_openFlow d key plan now
  unfold openStream
  rw [hkey]
  dsimp only
  rcases hr : d.openFlow key plan now with ⟨path, result⟩
  rw [hr] at hopen
  rcases result with _ | opened
  · exact (OnlyForwarded.dropping ingress).trans (hopen path.events)
  dsimp only
  rw [if_neg (by decide), OnlyForwarded.dropping]
  cases opened with
  | true => exact hopen _
  | false => exact hopen path.events

theorem onlyForwarded_openDatagram (hkey : keyOf packet = some key) (buf : Bytes) (plan : FlowPlan) (now : Instant) :
    OnlyForwarded d { d with toDatapath := (d.openDatagram packet buf .egress plan now).1 } ↔
      ¬ d.HasRoom key now := by
  have hopen := onlyForwarded_openFlow d key plan now
  unfold openDatagram
  rw [hkey]
  dsimp only
  rcases hr : d.openFlow key plan now with ⟨path, result⟩
  rw [hr] at hopen
  rcases result with _ | opened
  · exact hopen path.events
  cases opened with
  | true => exact hopen _
  | false => exact hopen path.events

/-! ### Every packet -/

theorem onlyForwarded_planned (hkey : keyOf packet = some key) (hplanned : d.action packet .egress now =
      match d.planFor packet .egress now with
      | .error e => .error e
      | .ok plan => .ok (routePlanned packet.transport plan))
    (hnot : ¬ d.Resolves packet) (depth : ℕ) (ingress : Ingress) :
    OnlyForwarded d (dispatchWithin E (depth + 1) d packet ingress .egress now).1 ↔ ¬ d.Opens packet now := by
  rw [planFor_egress] at hplanned
  rw [dispatchWithin, hplanned]
  have hopens : d.Opens packet now ↔ d.accepts = .flows ∧ d.HasRoom key now := by
    unfold Opens
    simp [hkey, hnot]
  rw [hopens]
  cases hacc : d.accepts with
  | ipPackets =>
    rcases hplan : planFlow d.filter .excluded .ipPackets d.egress d.pathMtu with _ | plan
    · exact iff_of_true (unmoved_dropping d ingress).onlyForwarded (by simp)
    obtain ⟨mtu, hmtu⟩ := packetFastPath_of_planFlow hplan
    have hroute : routePlanned packet.transport plan = .forwardPacket plan := by
      unfold routePlanned
      rw [hmtu]
    dsimp only
    rw [hroute]
    exact iff_of_true (onlyForwarded_forwardPacket E d packet ingress plan now) (by simp)
  | flows =>
    rw [planFlow_flows]
    simp only [true_and]
    cases htrans : packet.transport with
    | tcp srcPort dstPort => exact onlyForwarded_openStream hkey ingress _ now
    | udp srcPort dstPort =>
      exact (OnlyForwarded.dropping ingress).trans (onlyForwarded_openDatagram hkey ingress.bytes _ now)
    | icmp kind | other | fragment => rw [keyOf, htrans] at hkey; cases hkey

/-- **A packet from the egress is only forwarded, absorbed or dropped** unless it is queued as a DNS query or opens a
flow, and these are all the cases. -/
theorem onlyForwarded_iff (E : Etherparse) (d : Dispatcher) (packet : IngressPacket) (ingress : Ingress)
    (now : Instant) : OnlyForwarded d (d.dispatchFromEgress E packet ingress now).1 ↔
      ¬ d.Queries packet ingress.bytes ∧ ¬ d.Opens packet now := by
  unfold dispatchFromEgress dispatch depth
  cases htrans : packet.transport with
  | fragment =>
    refine iff_of_true ((OnlyForwarded.dropping ingress).mpr (Unmoved.onlyForwarded ⟨rfl, rfl, rfl, rfl⟩)) ?_
    simp [Queries, Resolves, Opens, keyOf, htrans]
  | other =>
    rw [if_neg (by simp), dispatchWithin, action, htrans]
    exact iff_of_true (unmoved_dropping d ingress).onlyForwarded
      (by simp [Queries, Resolves, Opens, keyOf, htrans])
  | icmp kind =>
    have hnone : ¬ d.Queries packet ingress.bytes ∧ ¬ d.Opens packet now := by
      simp [Queries, Resolves, Opens, keyOf, htrans]
    refine iff_of_true ?_ hnone
    rw [dispatchWithin, action, htrans]
    rcases d.planFor packet .egress now with _ | plan
    · exact (unmoved_dropping d ingress).onlyForwarded
    dsimp only [routePlanned]
    cases plan.transport with
    | packetFastPath mtu => exact onlyForwarded_forwardPacket E d packet ingress plan now
    | localTermination => exact onlyForwarded_forward E d ingress none false now
  | tcp sourcePort destinationPort =>
    have hnot : ¬ d.Resolves packet := by simp [Resolves, htrans]
    rw [if_neg (by simp), onlyForwarded_planned E (keyOf_tcp htrans) (action_tcp htrans .egress now) hnot]
    simp [Queries, hnot]
  | udp sourcePort destinationPort =>
    rw [if_neg (by simp)]
    by_cases hdns : destinationPort = dnsPort ∧ d.dns = .intercept
    · have hresolves : d.Resolves packet := ⟨hdns.2, sourcePort, by rw [htrans, hdns.1]⟩
      have hudp : packet.transport = .udp sourcePort dnsPort := by rw [htrans, hdns.1]
      have hact : d.action packet .egress now = .ok .resolveDns := by
        unfold action admitPacket
        rw [htrans]
        dsimp only
        rw [if_pos hdns]
      rw [dispatchWithin, hact]
      refine ((OnlyForwarded.dropping ingress).trans (onlyForwarded_interceptDns hudp ingress.bytes)).trans ?_
      simp [Queries, Opens, hresolves]
    · have hnot : ¬ d.Resolves packet := by
        rintro ⟨hintercept, port, hport⟩
        rw [htrans] at hport
        cases hport
        exact hdns ⟨rfl, hintercept⟩
      have hact : d.action packet .egress now = match d.planFor packet .egress now with
          | .error e => .error e
          | .ok plan => .ok (routePlanned packet.transport plan) := by
        unfold action admitPacket backstop
        rw [htrans]
        cases d.planFor packet .egress now <;> simp [hdns]
      rw [onlyForwarded_planned E (keyOf_udp htrans) hact hnot]
      simp [Queries, hnot]

def exampleReply : Bytes := plainPacket 17 0xc6336402#32 0xc0000201#32 4000 53 [0, 9, 0, 0, 7]

def exampleReplyPacket : IngressPacket := ⟨.v4 0xc6336402#32, .v4 0xc0000201#32, .udp 4000 53, 28, 1, rfl⟩

set_option maxRecDepth 2000 in
/-- **A packet from the egress becomes a client's DNS query**: it is sent to port 53 of the client, and the session
takes its payload as the server's query. -/
theorem query_from_egress : IngressPacket.parse plainIp exampleReply = .ok exampleReplyPacket ∧
      ((inspecting .ipPackets).dispatchFromEgress plainIp exampleReplyPacket (.borrowed exampleReply)
        (Instant.ofSecs 1)).1.queries = [⟨⟨.v4 0xc6336402#32, 4000⟩, ⟨.v4 0xc0000201#32, 53⟩, [7]⟩] ∧
      ¬ OnlyForwarded (inspecting .ipPackets) ((inspecting .ipPackets).dispatchFromEgress plainIp exampleReplyPacket
        (.borrowed exampleReply) (Instant.ofSecs 1)).1 := by
  have hqs : ((inspecting .ipPackets).dispatchFromEgress plainIp exampleReplyPacket (.borrowed exampleReply)
      (Instant.ofSecs 1)).1.queries = [⟨⟨.v4 0xc6336402#32, 4000⟩, ⟨.v4 0xc0000201#32, 53⟩, [7]⟩] := by
    decide +kernel
  refine ⟨rfl, hqs, fun h => ?_⟩
  have hnone := h.queries
  cases hnone

end Boreas.Dispatcher
