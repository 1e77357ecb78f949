import Boreas.Arrivals

/-! # What a packet does to the flows

A packet either leaves the flows alone (`Aside`) or opens or refreshes the flow of its own key (`Opened`), and which
of the two is read off `action`.  `handle_spec` says it of whole packets and `onPacket_spec` of every packet of either
side. -/

namespace Boreas

open L3 UdpFlowTable

namespace Dispatcher

/-! ### What decides about a packet -/

structure Setting where
  filter : FilterPolicy
  accepts : Accepts
  egress : PathProperties
  pathMtu : Mtu
  dns : DnsPolicy
  inspectedPorts : List UInt16
  originationPorts : Option OriginationPorts
  inspected : InspectedAddresses
  idleTimeout : Duration

def setting (d : Dispatcher) : Setting :=
  ⟨d.filter, d.accepts, d.egress, d.pathMtu, d.dns, d.inspectedPorts, d.originationPorts, d.inspected,
    d.flows.idleTimeout⟩

def flowOf (d : Dispatcher) (key : FlowKey) : Option (FlowPlan × Instant) :=
  (d.flows.flows.lookup key).map (fun st => (st.value.plan, st.deadline))

/-- Neither what decides about packets nor any flow's plan or deadline changes. -/
structure Aside (d d' : Dispatcher) : Prop where
  setting : d'.setting = d.setting
  flowOf : ∀ key, d'.flowOf key = d.flowOf key

/-- The flow under `key` is opened with `plan`, or refreshed with the plan it has. -/
structure Opened (d d' : Dispatcher) (key : FlowKey) (plan : FlowPlan) (now : Instant) : Prop where
  setting : d'.setting = d.setting
  flowOf : ∃ deadline, now.checkedAdd d.flows.idleTimeout = some deadline ∧ ∀ k, d'.flowOf k =
    if k = key then some (((d.flowOf key).map Prod.fst).getD plan, deadline) else d.flowOf k

variable (E : Etherparse) (d : Dispatcher)

theorem Aside.refl : Aside d d := ⟨rfl, fun _ => rfl⟩

theorem Aside.trans {d : Dispatcher} (h : Aside d d') (h' : Aside d' d'') : Aside d d'' :=
  ⟨h'.setting.trans h.setting, fun key => (h'.flowOf key).trans (h.flowOf key)⟩

/-- What decides about packets stays as it is, and so do the flows with their queues and the ready list. -/
structure Untouched (d d' : Dispatcher) : Prop where
  setting : d'.setting = d.setting
  flows : d'.flows = d.flows
  ready : d'.ready = d.ready

theorem Untouched.refl : Untouched d d := ⟨rfl, rfl, rfl⟩

theorem Untouched.trans {d : Dispatcher} (h : Untouched d d') (h' : Untouched d' d'') : Untouched d d'' :=
  ⟨h'.setting.trans h.setting, h'.flows.trans h.flows, h'.ready.trans h.ready⟩

theorem Untouched.aside {d : Dispatcher} (h : Untouched d d') : Aside d d' :=
  ⟨h.setting, fun key => by rw [flowOf, flowOf, h.flows]⟩

theorem untouched_ite {d : Dispatcher} (p : Prop) [Decidable p] (h : Untouched d d')
    (h' : Untouched d d'') : Untouched d (if p then d' else d'') := by
  split_ifs
  · exact h
  · exact h'

/-- What is sent besides goes into the tunnel. -/
structure Answered (d d' : Dispatcher) : Prop extends Untouched d d' where
  replies : ∃ replies : List Bytes, d'.transmits = d.transmits ++ replies.map (⟨.tunnel, ·⟩)

theorem Answered.trans {d : Dispatcher} (h : Answered d d') (h' : Answered d' d'') : Answered d d'' := by
  obtain ⟨replies, hreplies⟩ := h.replies
  obtain ⟨more, hmore⟩ := h'.replies
  exact ⟨h.toUntouched.trans h'.toUntouched, replies ++ more, by simp [hmore, hreplies]⟩

variable {now : Instant}

theorem Opened.after_aside {d : Dispatcher} (h : Aside d d')
    (h' : Opened d' d'' key plan now) : Opened d d'' key plan now := by
  obtain ⟨due, hdl, hflow⟩ := h'.flowOf
  have hidle : d'.flows.idleTimeout = d.flows.idleTimeout := congrArg Setting.idleTimeout h.setting
  refine ⟨h'.setting.trans h.setting, due, hidle ▸ hdl, fun k => ?_⟩
  rw [hflow k, h.flowOf key, h.flowOf k]

theorem Opened.then_aside {d : Dispatcher}
    (h : Opened d d' key plan now) (h' : Aside d' d'') : Opened d d'' key plan now := by
  obtain ⟨due, hdl, hflow⟩ := h.flowOf
  exact ⟨h'.setting.trans h.setting, due, hdl, fun k => (h'.flowOf k).trans (hflow k)⟩

/-! ### The decision -/

theorem plans_of_aside {d : Dispatcher} (h : Aside d d') : d'.plans = d.plans := by
  have hs := h.setting
  injection hs with hfilt hacc heg hmtu
  funext inspection
  rw [d'.plans_eq, d.plans_eq, hfilt, hacc, heg, hmtu]

theorem kept_eq (packet : IngressPacket) (origin : Side) : d.kept packet origin =
      if origin = .tunnel then (keyOf packet).bind (fun key => (d.flowOf key).map Prod.fst) else none := by
  unfold kept flowOf getMut
  simp only [Option.map_map, Function.comp_def]

theorem action_of_aside {d : Dispatcher} (h : Aside d d') :
    d'.action packet origin now = d.action packet origin now := by
  have hplans := plans_of_aside h
  have hs := h.setting
  injection hs with hfilt hacc heg hmtu hdns hports horig hinsp
  have hkept : d'.kept packet origin = d.kept packet origin := by
    simp only [kept_eq, h.flowOf]
  unfold action planFor backstop inspection
  rw [hdns, hinsp, hkept, hplans, hfilt, hports, horig]

variable {packet : IngressPacket} {sourcePort destinationPort : UInt16}

theorem keyOf_tcp (h : packet.transport = .tcp sourcePort destinationPort) :
    keyOf packet = some (.connection ⟨packet.source, sourcePort⟩ ⟨packet.destination, destinationPort⟩) := by
  rw [keyOf, h]

theorem keyOf_udp (h : packet.transport = .udp sourcePort destinationPort) :
    keyOf packet = some (.mapping ⟨packet.source, sourcePort⟩) := by
  rw [keyOf, h]

theorem action_tcp {d : Dispatcher}
    (h : packet.transport = .tcp sourcePort destinationPort) (origin : Side) (now : Instant) :
    d.action packet origin now = match d.planFor packet origin now with
      | .error e => .error e
      | .ok plan => .ok (routePlanned packet.transport plan) := by
  unfold action
  rw [h]
  rfl

def Opening (d : Dispatcher) (packet : IngressPacket) (origin : Side) (now : Instant) (plan : FlowPlan) : Prop :=
  d.action packet origin now = .ok (.openStream plan) ∨ d.action packet origin now = .ok (.openDatagram plan)

variable {origin : Side}

theorem Opening.plan {d : Dispatcher} {plan : FlowPlan} (h : d.Opening packet origin now plan) :
    d.planFor packet origin now = .ok plan ∧ plan.transport = .localTermination ∧ ∃ key, keyOf packet = some key := by
  unfold Opening action at h
  cases hadm : admitPacket packet.transport d.dns (d.backstop packet origin now) with
  | settled action =>
    -- What is settled before planning opens no flow.
    rw [hadm] at h
    unfold admitPacket at hadm
    split at hadm
    · cases hadm; simp at h
    · cases hadm; simp at h
    · split_ifs at hadm <;> cases hadm <;> simp at h
    · cases hadm
    · cases hadm
  | planned =>
    rw [hadm] at h
    rcases hplan : d.planFor packet origin now with _ | plan'
    · simp [hplan] at h
    simp only [hplan] at h
    unfold routePlanned at h
    cases htrans : plan'.transport with
    | packetFastPath mtu => simp [htrans] at h
    | localTermination =>
      unfold keyOf
      cases hp : packet.transport <;> simp_all

theorem filter_of_candidate {d : Dispatcher}
    (h : d.inspection packet origin now = .candidate) : d.filter = .inspectHttp := by
  unfold inspection at h
  split at h
  · split_ifs at h with horig hport
    simp only [not_or, not_not] at hport
    exact hport.2.1
  · cases h

theorem candidate_of_local {d : Dispatcher}
    (h : d.plans status = .ok plan) (hlocal : plan.transport = .localTermination) (hacc : d.accepts = .ipPackets) :
    status = .candidate := by
  rw [d.plans_eq, hacc] at h
  cases status with
  | candidate => rfl
  | excluded =>
    obtain ⟨mtu, hmtu⟩ := packetFastPath_of_planFlow h
    rw [hmtu] at hlocal
    cases hlocal

theorem planFor_egress (packet : IngressPacket) (now : Instant) :
    d.planFor packet .egress now = planFlow d.filter .excluded d.accepts d.egress d.pathMtu := by
  have hinsp : d.inspection packet .egress now = .excluded := by
    unfold inspection
    split
    · split_ifs with horig hport
      · rfl
      · rfl
      · exact absurd (.inl (by decide)) hport
    · rfl
  unfold planFor kept
  rw [if_neg (by decide), hinsp, d.plans_eq]

/-! ### Calls that leave the flows alone -/

theorem untouched_noting (event : FlowEvent) : Untouched d (d.noting event) := ⟨rfl, rfl, rfl⟩

variable (ingress : Ingress)

theorem untouched_dropping : Untouched d (d.dropping ingress) := by
  cases ingress <;> exact ⟨rfl, rfl, rfl⟩

theorem untouched_interceptDns (packet : IngressPacket) (buf : Bytes) : Untouched d (d.interceptDns packet buf) := by
  unfold interceptDns
  split
  · split <;> exact ⟨rfl, rfl, rfl⟩
  · exact .refl d

theorem untouched_captureForTermination : Untouched d (d.captureForTermination ingress) := by
  unfold captureForTermination
  split <;> exact ⟨rfl, rfl, rfl⟩

theorem answered_noting (event : FlowEvent) : Answered d (d.noting event) :=
  ⟨untouched_noting d event, [], (List.append_nil _).symm⟩

theorem answered_takeIcmp (now : Instant) : Answered d (d.takeIcmp now).1 :=
  ⟨⟨rfl, rfl, rfl⟩, [], (List.append_nil _).symm⟩

theorem answered_answerWith (write : Bytes → Except WriteError (Bytes × ℕ)) : Answered d (d.answerWith write).1 := by
  unfold answerWith
  split
  · exact ⟨⟨rfl, rfl, rfl⟩, [], (List.append_nil _).symm⟩
  · split
    · exact ⟨⟨rfl, rfl, rfl⟩, [_], rfl⟩
    · exact ⟨⟨rfl, rfl, rfl⟩, [], (List.append_nil _).symm⟩

theorem answered_exhaust (bytes : Bytes) (to_ : Side) (quotingAllowed : Bool)
    (now : Instant) : Answered d (d.exhaust E bytes to_ quotingAllowed now) := by
  have hrel : ∀ d' : Dispatcher, Answered d d' → Answered d { d' with pool := d'.pool.release } :=
    fun d' h => { h with }
  refine hrel _ ?_
  split_ifs with hquote
  · have htake := (answered_noting d .hopsExhausted).trans (answered_takeIcmp _ now)
    rcases hr : (d.noting .hopsExhausted).takeIcmp now with ⟨d', granted⟩
    rw [hr] at htake
    cases granted with
    | false => exact htake
    | true => exact htake.trans (answered_answerWith d' _)
  · exact answered_noting d _

theorem answered_reportTooBig (buf : Bytes) (innerMtu : Mtu) (now : Instant) :
    Answered d (d.reportTooBig E buf innerMtu now) := by
  have htake := answered_takeIcmp d now
  unfold reportTooBig
  rcases hr : d.takeIcmp now with ⟨d', granted⟩
  rw [hr] at htake
  rcases granted with _ | _
  · exact htake
  have hans := htake.trans (answered_answerWith d' fun reply => writeTooBig E reply buf innerMtu.bytes)
  dsimp only
  rcases ha : d'.answerWith fun reply => writeTooBig E reply buf innerMtu.bytes with ⟨d'', queued⟩
  rw [ha] at hans
  cases queued with
  | false => exact hans
  | true => exact hans.trans (answered_noting d'' _)

theorem untouched_forward (to_ : Side) (clamp : Option Mtu)
    (quotingAllowed : Bool) (now : Instant) : Untouched d (d.forward E ingress to_ clamp quotingAllowed now) := by
  unfold forward
  rcases ingress.intoPooled d.pool with ⟨pool, taken⟩
  rcases taken with _ | bytes
  · exact ⟨rfl, rfl, rfl⟩
  dsimp only
  split
  · exact (show Untouched d { d with pool := pool } from ⟨rfl, rfl, rfl⟩).trans
      (answered_exhaust E _ _ _ _ _).toUntouched
  · exact ⟨rfl, rfl, rfl⟩

theorem untouched_forwardPacket (packet : IngressPacket) (ingress : Ingress)
    (origin : Side) (plan : FlowPlan) (now : Instant) :
    Untouched d (d.forwardPacket E packet ingress origin plan now) := by
  unfold forwardPacket
  cases plan.transport with
  | packetFastPath mtu =>
    dsimp only
    split_ifs with hbig
    · exact (answered_reportTooBig E d _ mtu now).toUntouched.trans (untouched_dropping _ ingress)
    · exact untouched_forward E d _ _ _ _ _
  | localTermination => exact untouched_forward E d _ _ _ _ _

/-! ### Calls that open a flow -/

theorem openFlow_spec (key : FlowKey) (plan : FlowPlan) (now : Instant) :
    (∃ e, d.openFlow key plan now = (d.toDatapath, .error (.flowTable e))) ∨
      ∃ opened, (d.openFlow key plan now).2 = .ok opened ∧
        Opened d { d with toDatapath := (d.openFlow key plan now).1 } key plan now := by
  unfold Datapath.openFlow
  rcases d.flows.getOrInsertWith_spec key now ⟨plan, .new d.datagramBufferCapacity⟩ with
    ⟨e, h⟩ | ⟨flows, deadline, h, hdl, hidle, hlook⟩
  · rw [h]
    exact .inl ⟨e, rfl⟩
  rw [h]
  refine .inr ⟨_, rfl, ?_, deadline, hdl, fun k => ?_⟩
  · simp [setting, hidle]
  · unfold flowOf
    rw [hlook k]
    split_ifs with hk
    · unfold getMut
      cases d.flows.flows.lookup key <;> rfl
    · rfl

theorem flowOf_putMut {d : Dispatcher}
    (hst : d.flows.flows.lookup client = some st) (buffer : DatagramBuffer (SocketAddr × Bytes)) (key : FlowKey) :
    ((d.flows.putMut client { st.value with buffer := buffer }).flows.lookup key).map
        (fun st => (st.value.plan, st.deadline)) = d.flowOf key ∧
      (d.flows.putMut client { st.value with buffer := buffer }).idleTimeout = d.flows.idleTimeout := by
  unfold putMut flowOf
  rw [hst]
  rw [Table.lookup_insert_eq]
  split_ifs with hk
  · rw [hk, hst]
    exact ⟨rfl, rfl⟩
  · exact ⟨rfl, rfl⟩

theorem aside_captureDatagram (packet : IngressPacket) (buf : Bytes) (client : FlowKey) :
    Aside d { d with toDatapath := d.captureDatagram packet buf client } := by
  unfold Datapath.captureDatagram
  cases packet.transport with
  | udp sourcePort destinationPort =>
    rcases (packet.payload buf).map d.pool.take with _ | ⟨pool, payload⟩
    · exact ⟨rfl, fun _ => rfl⟩
    rcases payload with _ | payload
    · exact ⟨rfl, fun _ => rfl⟩
    rcases hflow : d.flows.getMut client with _ | flow
    · exact ⟨rfl, fun _ => rfl⟩
    obtain ⟨st, hst, rfl⟩ := Option.map_eq_some_iff.mp hflow
    dsimp only
    rcases hr : st.value.buffer.trySend (⟨packet.destination, destinationPort⟩, payload) with ⟨buffer, outcome⟩
    have hput := flowOf_putMut hst buffer
    have hidle := (hput client).2
    cases outcome with
    | dropped | buffered => exact ⟨by simp [setting, hidle], fun key => (hput key).1⟩
  | _ => exact ⟨rfl, fun _ => rfl⟩

/-- What a whole packet leaves behind: the flows as they were, unless its action opens its flow and that is not
refused. -/
def Effect (d d' : Dispatcher) (result : Except DatapathError Unit) (packet : IngressPacket) (origin : Side)
    (now : Instant) : Prop :=
  Aside d d' ∧ (∀ plan, d.Opening packet origin now plan → result ≠ .ok ()) ∨
    ∃ plan key, d.Opening packet origin now plan ∧ keyOf packet = some key ∧ Opened d d' key plan now ∧ result = .ok ()

theorem openStream_spec {d : Dispatcher}
    (hopen : d.action packet origin now = .ok (.openStream plan)) (ingress : Ingress) :
    Effect d (d.openStream packet ingress origin plan now).1 (d.openStream packet ingress origin plan now).2
      packet origin now := by
  obtain ⟨-, -, key, hkey⟩ := Opening.plan (.inl hopen)
  unfold openStream
  rw [hkey]
  dsimp only
  rcases d.openFlow_spec key plan now with ⟨e, h⟩ | ⟨opened, hok, h⟩
  · rw [h]
    exact .inl ⟨(untouched_dropping d ingress).aside, by simp⟩
  rcases hr : d.openFlow key plan now with ⟨path, result⟩
  rw [hr] at hok h
  subst hok
  refine .inr ⟨plan, key, .inl hopen, hkey, h.then_aside ?_, rfl⟩
  have hnote := untouched_ite (opened = true) (untouched_noting { d with toDatapath := path }
    (.streamOpened key.client)) (.refl _)
  exact (untouched_ite _ (hnote.trans (untouched_captureForTermination _ ingress))
    (hnote.trans (untouched_dropping _ ingress))).aside

theorem openDatagram_spec {d : Dispatcher}
    (hopen : d.action packet origin now = .ok (.openDatagram plan)) (buf : Bytes) :
    Effect d { d with toDatapath := (d.openDatagram packet buf origin plan now).1 }
      (d.openDatagram packet buf origin plan now).2 packet origin now := by
  obtain ⟨-, -, key, hkey⟩ := Opening.plan (.inr hopen)
  unfold Datapath.openDatagram
  rw [hkey]
  dsimp only
  rcases d.openFlow_spec key plan now with ⟨e, h⟩ | ⟨opened, hok, h⟩
  · rw [h]
    exact .inl ⟨.refl d, by simp⟩
  rcases hr : d.openFlow key plan now with ⟨datapath, result⟩
  rw [hr] at hok h
  subst hok
  refine .inr ⟨plan, key, .inr hopen, hkey, ?_, rfl⟩
  dsimp only
  generalize hnoted : (if opened = true then
    { datapath with events := datapath.events ++ [.datagramOpened key.client] } else datapath) = noted
  have hnote : Opened d { d with toDatapath := noted } key plan now := by
    subst hnoted
    cases opened with
    | true => exact ⟨h.setting, h.flowOf⟩
    | false => exact h
  split_ifs with horig
  · exact hnote.then_aside (aside_captureDatagram { d with toDatapath := noted } packet buf key)
  · exact hnote

theorem Effect.then_aside {d : Dispatcher} (h : Effect d d' result packet origin now) (h' : Aside d' d'') :
    Effect d d'' result packet origin now := by
  rcases h with ⟨haside, hopen⟩ | ⟨plan, key, hopen, hkey, h, hok⟩
  · exact .inl ⟨haside.trans h', hopen⟩
  · exact .inr ⟨plan, key, hopen, hkey, h.then_aside h', hok⟩

theorem Effect.after_aside {d : Dispatcher} (h : Aside d d') (h' : Effect d' d'' result packet origin now) :
    Effect d d'' result packet origin now := by
  unfold Effect Opening at h' ⊢
  rw [action_of_aside h] at h'
  rcases h' with ⟨haside, hopen⟩ | ⟨plan, key, hopen, hkey, h', hok⟩
  · exact .inl ⟨h.trans haside, hopen⟩
  · exact .inr ⟨plan, key, hopen, hkey, h'.after_aside h, hok⟩

theorem handle_spec (origin : Side) (now : Instant) (hwhole : packet.transport ≠ .fragment) :
    Effect d (d.handle E packet ingress origin now).1 (d.handle E packet ingress origin now).2 packet origin now := by
  have haside : ∀ {d' : Dispatcher} {result : Except DatapathError Unit}, Untouched d d' →
      (∀ plan, ¬ d.Opening packet origin now plan) → Effect d d' result packet origin now :=
    fun h hnot => .inl ⟨h.aside, fun plan hplan => absurd hplan (hnot plan)⟩
  unfold handle dispatchWithin
  rcases hact : d.action packet origin now with _ | action
  · exact haside (untouched_dropping d ingress) (by simp [Opening, hact])
  cases action with
  | reassemble => exact absurd (action_reassemble hact) hwhole
  | resolveDns =>
    exact haside ((untouched_interceptDns d packet ingress.bytes).trans (untouched_dropping _ ingress))
      (by simp [Opening, hact])
  | dropSteered =>
    exact haside ((untouched_noting d _).trans (untouched_dropping _ ingress)) (by simp [Opening, hact])
  | forwardPacket plan =>
    exact haside (untouched_forwardPacket E d packet ingress origin plan now) (by simp [Opening, hact])
  | openStream plan => exact openStream_spec hact ingress
  | openDatagram plan =>
    exact (openDatagram_spec hact ingress.bytes).then_aside (untouched_dropping _ ingress).aside
  | handleIcmp plan => exact haside (untouched_forward E d ingress _ _ _ now) (by simp [Opening, hact])
  | dropUnsupported => exact haside (untouched_dropping d ingress) (by simp [Opening, hact])

/-! ### Packets of either side -/

theorem Reassembled.untouched {d : Dispatcher} (h : Reassembled d d') : Untouched d d' := by
  obtain ⟨reasm, events, rfl⟩ := h
  exact ⟨rfl, rfl, rfl⟩

/-- **What a packet does to the flows**: nothing, or what its arrival's action says. -/
theorem onPacket_spec (origin : Side) (ingress : Ingress) (now : Instant) :
    (d.arrival E origin ingress now = none ∧ Aside d (d.onPacket E origin ingress now).1) ∨
      ∃ whole, d.arrival E origin ingress now = some whole ∧
        Effect d (d.onPacket E origin ingress now).1 (d.onPacket E origin ingress now).2 whole origin now := by
  have hpkt := onPacket_arrived E d origin ingress now
  have honly := (arrived_only E d origin ingress now).untouched
  rw [arrived_arrival]
  rcases harr : d.arrived E origin ingress now with ⟨d', found⟩
  rw [harr] at hpkt honly
  rcases found with _ | found
  · rw [hpkt]
    exact .inl ⟨rfl, (honly.trans (untouched_dropping d' ingress)).aside⟩
  obtain ⟨hwhole, ⟨-, -, heq⟩ | heq⟩ := hpkt
  · rw [heq]
    exact .inr ⟨found.1, rfl, handle_spec E d ingress origin now hwhole⟩
  · rw [heq]
    refine .inr ⟨found.1, rfl, ?_⟩
    exact ((handle_spec E d' _ origin now hwhole).after_aside honly.aside).then_aside
      (untouched_dropping _ ingress).aside

/-! ### The other calls -/

theorem untouched_answerDns (client resolver : InternalEndpoint) (resp : Bytes) :
    Untouched d (d.answerDns client resolver resp).1 := by
  unfold answerDns
  rcases d.pool.takeZeroed (udpDatagramLen resolver.address resp.length) with ⟨pool, taken⟩
  rcases taken with _ | bytes
  · exact ⟨rfl, rfl, rfl⟩
  dsimp only
  cases writeUdp bytes resolver client resp <;> exact ⟨rfl, rfl, rfl⟩

theorem flowOf_pollLoop (d : Dispatcher) (key : FlowKey) (ready : List FlowKey) :
    ((Datapath.pollLoop d.flows ready).1.flows.lookup key).map (fun st => (st.value.plan, st.deadline)) =
        d.flowOf key ∧ (Datapath.pollLoop d.flows ready).1.idleTimeout = d.flows.idleTimeout := by
  obtain ⟨heq, -⟩ | ⟨before, client, after, flow, target, payload, rest, -, -, hflow, -, heq⟩ :=
    Datapath.pollLoop_spec d.flows ready <;> rw [heq]
  · exact ⟨rfl, rfl⟩
  · obtain ⟨st, hst, rfl⟩ := Option.map_eq_some_iff.mp hflow
    exact flowOf_putMut hst _ key

theorem aside_pollDatagram : Aside d { d with toDatapath := d.pollDatagram.1 } := by
  have h := fun key => flowOf_pollLoop d key d.ready
  exact ⟨by simp [setting, Datapath.pollDatagram, (h (.mapping ⟨.v4 0, 0⟩)).2], fun key => (h key).1⟩

theorem deliverDatagram_spec (client peer : InternalEndpoint) (payload : Bytes) (now : Instant) :
    Aside d { d with toDatapath := (d.deliverDatagram client peer payload now).1 } ∨
      d.contains (.mapping client) = true ∧ ∃ plan,
        Opened d { d with toDatapath := (d.deliverDatagram client peer payload now).1 } (.mapping client) plan now := by
  obtain heq | ⟨hlive, plan, pool, transmits, events, heq, -⟩ := d.deliverDatagram_cases client peer payload now <;>
    rw [heq]
  · exact .inl (.refl d)
  rcases d.flows.getOrInsertWith_spec (.mapping client) now ⟨plan, .new d.datagramBufferCapacity⟩ with
    ⟨e, h⟩ | ⟨flows, deadline, h, hdl, hidle, hlook⟩ <;> rw [h]
  · exact .inl ⟨rfl, fun _ => rfl⟩
  refine .inr ⟨hlive, plan, by simp [setting, hidle], deadline, hdl, fun k => ?_⟩
  unfold flowOf
  rw [hlook k]
  split_ifs with hk
  · unfold getMut
    cases d.flows.flows.lookup (.mapping client) <;> rfl
  · rfl

/-- The calls that reach neither the flows nor what decides about packets. -/
def Op.Quiet : Op → Prop
  | .answerDns _ _ _ => True
  | .pollDatagram => True
  | .pollQuery => True
  | .pollTerminate => True
  | .pollTransmit => True
  | .pollEvent => True
  | .takeSlice _ => True
  | .returnSlice => True
  | _ => False

theorem aside_step {op : Op} (h : op.Quiet) : Aside d (d.step E op) := by
  cases op with
  | answerDns client resolver resp => exact (untouched_answerDns d client resolver resp).aside
  | pollDatagram => exact aside_pollDatagram d
  | pollQuery | pollTerminate | pollTransmit | pollEvent | takeSlice len | returnSlice => exact ⟨rfl, fun _ => rfl⟩
  | _ => cases h

theorem onTimeout_spec (now : Instant) :
    (d.onTimeout now).setting = { d.setting with inspected := d.inspected.expire now } ∧
      ∀ key, (d.onTimeout now).flowOf key = d.flowOf key ∨
        (d.onTimeout now).flowOf key = none ∧ ∃ plan due, d.flowOf key = some (plan, due) ∧ due ≤ now := by
  refine ⟨?_, fun key => ?_⟩
  · simp [setting, onTimeout, releasing, Datapath.onTimeout, idleTimeout_expire]
  · unfold flowOf onTimeout releasing Datapath.onTimeout
    rcases d.flows.keptOrDue_expire now key with h | ⟨hnone, st, hst, hdue⟩
    · exact .inl (by rw [h])
    · exact .inr ⟨by rw [hnone]; rfl, st.value.plan, st.deadline, by rw [hst]; rfl, hdue⟩

theorem fixed_step (op : Op) :
    (d.step E op).pathMtu = d.pathMtu ∧ (d.step E op).flows.idleTimeout = d.flows.idleTimeout := by
  have hset : ∀ {d' : Dispatcher}, d'.setting = d.setting →
      d'.pathMtu = d.pathMtu ∧ d'.flows.idleTimeout = d.flows.idleTimeout :=
    fun h => ⟨congrArg Setting.pathMtu h, congrArg Setting.idleTimeout h⟩
  cases op with
  | packet origin ingress now =>
    rcases onPacket_spec E d origin ingress now with ⟨-, h⟩ | ⟨whole, -, ⟨h, -⟩ | ⟨plan, key, -, -, h, -⟩⟩
    · exact hset h.setting
    · exact hset h.setting
    · exact hset h.setting
  | deliverDatagram client peer payload now =>
    rcases deliverDatagram_spec d client peer payload now with h | ⟨-, plan, h⟩
    · exact hset h.setting
    · exact hset h.setting
  | onTimeout now => exact ⟨rfl, congrArg Setting.idleTimeout (onTimeout_spec d now).1⟩
  | answerDns client resolver resp => exact hset (untouched_answerDns d client resolver resp).setting
  | pollDatagram => exact hset (aside_pollDatagram d).setting
  | _ => exact ⟨rfl, rfl⟩

theorem datapath_of_new {dns : DnsPolicy} {d : Dispatcher}
    (h : new filter dns accepts egress pathMtu limits pool epoch = .ok d) :
    Datapath.new filter dns accepts egress pathMtu limits.toLimits pool epoch = .ok d.toDatapath ∧
      d.icmp = .new epoch := by
  unfold new at h
  split at h
  · cases h
  · next path hdp =>
      cases h
      exact ⟨hdp, rfl⟩

end Dispatcher

end Boreas
