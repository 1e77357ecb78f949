import Boreas.DispatchFlows

/-! # Captured datagrams are neither lost nor duplicated

The queue of a live flow holds what was captured since the flow opened and not yet returned (`Ledger`), and the flows
with something queued are in the ready list (`Listed`).  Every call keeps both (`inv_step`); `captured_run` reads the
result off them. -/

namespace Boreas

open List hiding after cons contains filter next nil
open Option hiding filter none some
open L3 Runs
open UdpFlowTable (getMut getMut_putMut retain)

abbrev Datagram := SocketAddr × Bytes

namespace Datapath

def queueOf (d : Datapath) (key : FlowKey) : Option (List Datagram) :=
  (d.flows.getMut key).map fun flow => flow.buffer.datagrams

def captures (d : Datapath) (packet : IngressPacket) (buf : Bytes) (client : FlowKey) : Option Datagram :=
  match packet.transport, (packet.payload buf).map d.pool.take, d.flows.getMut client with
  | .udp _ destinationPort, some (_, some payload), some flow =>
    let datagram : Datagram := (⟨packet.destination, destinationPort⟩, payload)
    if (flow.buffer.trySend datagram).2 = .buffered then some datagram else none
  | _, _, _ => none

/-- Every flow with something in its queue is ready, and only mappings have queues. -/
def Listed (d : Datapath) : Prop :=
  ∀ key queue, d.queueOf key = some queue → queue ≠ [] → key ∈ d.ready ∧ key = .mapping key.client

/-! ### What each call does to the queues -/

structure Still (d d' : Datapath) : Prop where
  queues : ∀ key, d'.queueOf key = d.queueOf key
  ready : d'.ready = d.ready

theorem Still.of_flows (hflows : d'.flows = d.flows) (hready : d'.ready = d.ready) : Still d d' :=
  ⟨fun key => by rw [queueOf, queueOf, hflows], hready⟩

theorem Still.trans (h : Still d d') (h' : Still d' d'') : Still d d'' :=
  ⟨fun key => (h'.queues key).trans (h.queues key), h'.ready.trans h.ready⟩

theorem Listed.of_queues {d d' : Datapath} (h : d.Listed) (hready : d'.ready = d.ready)
    (hqueues : ∀ key queue, d'.queueOf key = some queue → queue = (d.queueOf key).getD []) : d'.Listed := by
  intro key queue hq hne
  have hold := hqueues key queue hq
  rw [hready]
  refine h key queue ?_ hne
  cases hd : d.queueOf key with
  | none => exact absurd (by simpa [hd] using hold) hne
  | some old => simp [hold, hd]

theorem Listed.of_still (h : d.Listed) (hs : Still d d') : d'.Listed :=
  h.of_queues hs.ready fun key queue hq => by simp [← hs.queues, hq]

variable (d : Datapath)

theorem openFlow_queue (key : FlowKey) (plan : FlowPlan) (now : Instant) :
    (∃ e, d.openFlow key plan now = (d, .error e)) ∨
      ∃ d' opened, d.openFlow key plan now = (d', .ok opened) ∧ d'.ready = d.ready ∧
        ∀ k, d'.queueOf k = if k = key then some ((d.queueOf key).getD []) else d.queueOf k := by
  unfold openFlow
  obtain ⟨e, h⟩ | ⟨flows, deadline, h, -, -, hlook⟩ :=
    d.flows.getOrInsertWith_spec key now ⟨plan, .new d.datagramBufferCapacity⟩
  · rw [h]
    exact .inl ⟨.flowTable e, rfl⟩
  rw [h]
  refine .inr ⟨_, _, rfl, rfl, fun k => ?_⟩
  simp only [queueOf, getMut, hlook k]
  split_ifs with hk
  · cases d.flows.flows.lookup key <;> rfl
  · rfl

theorem openFlow_keeps {d : Datapath} (hq : (d.openFlow key plan now).1.queueOf k = some queue) :
    queue = (d.queueOf k).getD [] := by
  obtain ⟨e, heq⟩ | ⟨d', opened, heq, -, hqueue⟩ := d.openFlow_queue key plan now <;> rw [heq] at hq
  · simp [hq]
  dsimp only at hq
  rw [hqueue] at hq
  split_ifs at hq with hk
  · rw [hk]
    exact (Option.some.inj hq).symm
  · simp [hq]

/-- The datagram joins the queue of its client, which becomes ready if the queue was empty. -/
structure Joined (d d' : Datapath) (client : FlowKey) (datagram : Option Datagram) : Prop where
  queues : ∀ k, d'.queueOf k = if k = client then (d.queueOf client).map (· ++ datagram.toList) else d.queueOf k
  ready : d'.ready = if datagram ≠ none ∧ d.queueOf client = some [] then d.ready ++ [client] else d.ready

theorem captureDatagram_spec (pkt : IngressPacket) (buf : Bytes) (client : FlowKey) :
    Joined d (d.captureDatagram pkt buf client) client (d.captures pkt buf client) := by
  have hstill : ∀ d' : Datapath, d'.flows = d.flows → d'.ready = d.ready → d.captures pkt buf client = none →
      Joined d d' client (d.captures pkt buf client) := by
    intro d' hflows hready hnone
    rw [hnone]
    refine ⟨fun k => ?_, by simpa using hready⟩
    rw [(Still.of_flows hflows hready).queues]
    split_ifs with hk
    · simp [hk]
    · rfl
  unfold captureDatagram
  cases htrans : pkt.transport with
  | udp srcPort dstPort =>
    rcases hpay : (pkt.payload buf).map d.pool.take with _ | ⟨pool, payload⟩
    · exact hstill _ rfl rfl (by simp [captures, hpay])
    rcases payload with _ | payload
    · exact hstill _ rfl rfl (by simp [captures, hpay])
    rcases hflow : d.flows.getMut client with _ | flow
    · exact hstill _ rfl rfl (by simp [captures, hflow])
    have hqueue : d.queueOf client = some flow.buffer.datagrams := by simp [queueOf, hflow]
    have hput := getMut_putMut hflow
    have hcap : d.captures pkt buf client =
        if flow.buffer.datagrams.length = flow.buffer.capacity then none
        else some (⟨pkt.destination, dstPort⟩, payload) := by
      split_ifs with hfull <;> simp [captures, htrans, hpay, hflow, DatagramBuffer.trySend, hfull]
    rw [hcap]
    by_cases hfull : flow.buffer.datagrams.length = flow.buffer.capacity
    all_goals
      simp only [DatagramBuffer.trySend, hfull, if_true, if_false]
      refine ⟨fun k => ?_, by simp [hqueue]⟩
      simp only [queueOf, hput]
      split_ifs with hk
      · simp [hflow]
      · rfl
  | _ => exact hstill _ rfl rfl (by simp [captures, htrans])

variable {client : FlowKey}

def capturesOpened (d : Datapath) (packet : IngressPacket) (buf : Bytes) (plan : FlowPlan) (now : Instant)
    (key : FlowKey) : Option Datagram :=
  if keyOf packet = some key then
    match d.openFlow key plan now with
    | (d, .ok _) => d.captures packet buf key
    | (_, .error _) => none
  else none

theorem Listed.openFlow {d : Datapath} (h : d.Listed) (key : FlowKey) (plan : FlowPlan) (now : Instant) :
    (d.openFlow key plan now).1.Listed := by
  refine h.of_queues ?_ fun _ _ => openFlow_keeps
  obtain ⟨e, heq⟩ | ⟨d', opened, heq, hready, -⟩ := d.openFlow_queue key plan now <;> rw [heq]
  exact hready

theorem Listed.captureDatagram {d : Datapath} (h : d.Listed) (pkt : IngressPacket) (buf : Bytes)
    (hkey : keyOf pkt = some client) : (d.captureDatagram pkt buf client).Listed := by
  obtain ⟨hqueue, hready⟩ := d.captureDatagram_spec pkt buf client
  intro k queue hq hne
  rw [hqueue] at hq
  rw [hready]
  split_ifs at hq with hk
  · subst hk
    obtain ⟨old, hold, rfl⟩ := map_eq_some_iff.mp hq
    constructor
    · split_ifs with hidle
      · simp
      refine (h k old hold ?_).1
      rintro rfl
      cases hcap : d.captures pkt buf k with
      | none => simp [hcap] at hne
      | some dgram => exact hidle ⟨by simp [hcap], hold⟩
    · cases htrans : pkt.transport with
      | udp srcPort dstPort =>
        rw [Dispatcher.keyOf_udp htrans] at hkey
        cases hkey
        rfl
      | _ =>
        refine (h k old hold ?_).2
        rintro rfl
        simp [captures, htrans] at hne
  · obtain ⟨hmem, hmapping⟩ := h k queue hq hne
    refine ⟨?_, hmapping⟩
    split_ifs
    · exact mem_append_left _ hmem
    · exact hmem

theorem openDatagram_queue {d : Datapath} (h : d.Listed) (packet : IngressPacket) (buf : Bytes) (origin : Side)
    (plan : FlowPlan) (now : Instant) : (d.openDatagram packet buf origin plan now).1.Listed ∧
      ∀ k queue, (d.openDatagram packet buf origin plan now).1.queueOf k = some queue →
        queue = (d.queueOf k).getD [] ++
          if origin = .tunnel then (d.capturesOpened packet buf plan now k).toList else [] := by
  unfold openDatagram
  rcases hkey : keyOf packet with _ | key
  · exact ⟨h, fun k queue hq => by simp [capturesOpened, hkey, hq]⟩
  have hlst := h.openFlow key plan now
  have hopen : ∀ k queue, (d.openFlow key plan now).1.queueOf k = some queue → queue = (d.queueOf k).getD [] :=
    fun _ _ => openFlow_keeps
  have hother : ∀ k, k ≠ key → d.capturesOpened packet buf plan now k = none := by
    intro k hk
    simp [capturesOpened, hkey, hk.symm]
  rcases heq : d.openFlow key plan now with ⟨d', e | opened⟩ <;>
    simp only [heq] at hlst hopen ⊢
  · refine ⟨hlst, fun k queue hq => ?_⟩
    have hcap : d.capturesOpened packet buf plan now k = none := by
      by_cases hk : k = key
      · simp [capturesOpened, hk, heq]
      · exact hother k hk
    simpa [hcap] using hopen k queue hq
  · have hown : d.capturesOpened packet buf plan now key = d'.captures packet buf key := by
      simp [capturesOpened, hkey, heq]
    -- the event of a new flow is of no concern to its queue
    generalize hnoted : (if opened = true then { d' with events := d'.events ++ [.datagramOpened key.client] }
      else d') = noted
    have hstill : Still d' noted := by
      subst hnoted
      split_ifs
      · exact .of_flows rfl rfl
      · exact .of_flows rfl rfl
    have hcap : noted.captures packet buf key = d'.captures packet buf key := by
      subst hnoted
      split_ifs <;> rfl
    cases origin with
    | egress =>
      simp only [reduceCtorEq, if_false, append_nil]
      exact ⟨hlst.of_still hstill, fun k queue hq => hopen k queue (by rwa [hstill.queues] at hq)⟩
    | tunnel =>
      simp only [if_true]
      refine ⟨(hlst.of_still hstill).captureDatagram packet buf hkey, fun k queue hq => ?_⟩
      rw [(noted.captureDatagram_spec packet buf key).queues, hcap, hstill.queues, hstill.queues] at hq
      split_ifs at hq with hk
      · obtain ⟨old, hold, rfl⟩ := map_eq_some_iff.mp hq
        rw [hk, hown, hopen key old hold]
      · rw [hother k hk]
        simpa using hopen k queue hq

def handed (client : InternalEndpoint) (out : Option Outbound) : List Datagram :=
  match out with
  | some out => if out.client = client then [(out.target, out.payload)] else []
  | none => []

theorem pollDatagram_queue {d : Datapath} (h : d.Listed) : d.pollDatagram.1.Listed ∧
      (d.pollDatagram.2 = none → ∀ key queue, d.pollDatagram.1.queueOf key = some queue → queue = []) ∧
      ∀ client queue, d.pollDatagram.1.queueOf (.mapping client) = some queue →
        d.queueOf (.mapping client) = some (handed client d.pollDatagram.2 ++ queue) := by
  unfold pollDatagram
  obtain ⟨heq, hdry⟩ | ⟨before, client, after, flow, target, payload, rest, hsplit, hdry, hflow, hqueue, heq⟩ :=
    pollLoop_spec d.flows d.ready
  · have hempty : ∀ key queue, d.queueOf key = some queue → queue = [] := by
      intro key queue hq
      by_contra hne
      obtain ⟨flow, hflow, rfl⟩ := map_eq_some_iff.mp hq
      exact hne (hdry key (h key _ hq hne).1 flow hflow)
    simp only [heq]
    exact ⟨fun key queue hq hne => absurd (hempty key queue hq) hne, fun _ => hempty, fun client queue hq => hq⟩
  · simp only [heq]
    have hput : ∀ k, (({ d with
        flows := d.flows.putMut client { flow with buffer := { flow.buffer with datagrams := rest } }
        ready := if rest = [] then after else after ++ [client] } : Datapath).queueOf k) =
          if k = client then some rest else d.queueOf k := by
      intro k
      simp only [queueOf, getMut_putMut hflow]
      split_ifs <;> rfl
    have hclient : d.queueOf client = some ((target, payload) :: rest) := by simp [queueOf, hflow, hqueue]
    have hmapping := (h client _ hclient (by simp)).2
    refine ⟨?_, by simp, ?_⟩
    · intro k queue hq hne
      rw [hput] at hq
      split_ifs at hq with hk
      · cases hq
        exact ⟨by simp [hne, hk], hk ▸ hmapping⟩
      obtain ⟨hmem, hown⟩ := h k queue hq hne
      refine ⟨?_, hown⟩
      -- the keys before the turn's own have nothing in their queues
      have hnot : k ∉ before := by
        intro hpre
        obtain ⟨flow, hflow, rfl⟩ := map_eq_some_iff.mp hq
        exact hne (hdry k hpre flow hflow)
      have hafter : k ∈ after := by simpa [hsplit, hnot, hk] using hmem
      split_ifs
      · exact hafter
      · exact mem_append_left _ hafter
    · intro endpoint queue hq
      rw [hput] at hq
      split_ifs at hq with hk
      · cases hq
        subst hk
        simp [handed, FlowKey.client, hclient]
      · have hne : client.client ≠ endpoint := by
          rintro rfl
          exact hk hmapping.symm
        simpa [handed, hne] using hq

theorem still_deliverDatagram (client peer : InternalEndpoint) (payload : Bytes) (now : Instant) :
    Still d (d.deliverDatagram client peer payload now).1 := by
  obtain heq | ⟨hlive, plan, pool, transmits, events, heq, -⟩ := d.deliverDatagram_cases client peer payload now <;>
    rw [heq]
  · exact .of_flows rfl rfl
  obtain ⟨e, hget⟩ | ⟨flows, deadline, hget, -, -, hlook⟩ :=
    d.flows.getOrInsertWith_spec (.mapping client) now ⟨plan, .new d.datagramBufferCapacity⟩
  · rw [hget]
    exact .of_flows rfl rfl
  rw [hget]
  refine ⟨fun key => ?_, rfl⟩
  simp only [queueOf, getMut, hlook]
  split_ifs with hkey
  · subst hkey
    obtain ⟨st, hst⟩ := Option.isSome_iff_exists.mp hlive
    simp [hst]
  · rfl

structure Ends (d d' : Datapath) : Prop where
  queues : ∀ key, d'.queueOf key = d.queueOf key ∨ d'.queueOf key = none
  ready : d'.ready = d.ready

theorem Ends.keeps {d : Datapath} (h : Ends d d')
    (hq : d'.queueOf key = some queue) : d.queueOf key = some queue := by
  cases h.queues key with
  | inl hsame => rwa [hsame] at hq
  | inr hnone =>
    rw [hnone] at hq
    cases hq

theorem Listed.of_ends {d : Datapath} (h : d.Listed) (hends : Ends d d') : d'.Listed :=
  h.of_queues hends.ready fun key queue hq => by simp [hends.keeps hq]

theorem ends_onTimeout (now : Instant) : Ends d (d.onTimeout now) := by
  refine ⟨fun key => ?_, rfl⟩
  unfold queueOf onTimeout getMut
  obtain hsame | ⟨hnone, -⟩ := d.flows.keptOrDue_expire now key
  · exact .inl (by rw [hsame])
  · exact .inr (by rw [hnone]; rfl)

theorem ends_onPathChange (accepts : Accepts) (next : PathProperties) : Ends d (d.onPathChange accepts next) := by
  refine ⟨fun key => ?_, rfl⟩
  simp only [queueOf, onPathChange, getMut, retain, Table.lookup_retain]
  rcases d.flows.flows.lookup key with _ | st
  · exact .inl rfl
  cases hrepl : d.replanned accepts next st.value with
  | none => exact .inr (by simp [hrepl])
  | some state => exact .inl (by simp [hrepl, buffer_replanned hrepl])

end Datapath

namespace Dispatcher

open Datapath (Still Ends handed)

theorem Untouched.still (h : Untouched d d') : Still d.toDatapath d'.toDatapath :=
  .of_flows h.flows h.ready

/-! ### Packets -/

def admitted (d : Dispatcher) (whole : IngressPacket) (bytes : Bytes) (origin : Side) (now : Instant) : Datapath :=
  match d.action whole origin now with
  | .ok (.openStream plan) =>
    match keyOf whole with
    | some key => (d.openFlow key plan now).1
    | none => d.toDatapath
  | .ok (.openDatagram plan) => (d.openDatagram whole bytes origin plan now).1
  | _ => d.toDatapath

theorem still_openStream (d : Dispatcher) (pkt : IngressPacket) (ingress : Ingress) (origin : Side)
    (plan : FlowPlan) (now : Instant) :
    Still (match keyOf pkt with
      | some key => (d.openFlow key plan now).1
      | none => d.toDatapath) (d.openStream pkt ingress origin plan now).1.toDatapath := by
  unfold openStream
  rcases keyOf pkt with _ | key
  · exact (untouched_dropping d ingress).still
  dsimp only
  rcases d.openFlow key plan now with ⟨path, result⟩
  rcases result with _ | opened
  · exact (untouched_dropping { d with toDatapath := path } ingress).still
  have hnoted := untouched_ite (opened = true) (untouched_noting { d with toDatapath := path }
    (.streamOpened key.client)) (.refl _)
  exact (untouched_ite _ (hnoted.trans (untouched_captureForTermination _ ingress))
    (hnoted.trans (untouched_dropping _ ingress))).still

variable (E : Etherparse)

theorem still_handle (d : Dispatcher) (ingress : Ingress) (origin : Side)
    (now : Instant) (hwhole : packet.transport ≠ .fragment) :
    Still (d.admitted packet ingress.bytes origin now) (d.handle E packet ingress origin now).1.toDatapath := by
  unfold handle dispatchWithin admitted
  rcases hact : d.action packet origin now with _ | action
  · exact (untouched_dropping d ingress).still
  cases action with
  | reassemble => exact absurd (action_reassemble hact) hwhole
  | resolveDns => exact ((untouched_interceptDns d packet _).trans (untouched_dropping _ ingress)).still
  | dropSteered => exact ((untouched_noting d _).trans (untouched_dropping _ ingress)).still
  | forwardPacket plan => exact (untouched_forwardPacket E d packet ingress origin plan now).still
  | openStream plan => exact still_openStream d packet ingress origin plan now
  | openDatagram plan => exact (untouched_dropping { d with toDatapath := _ } ingress).still
  | handleIcmp plan => exact (untouched_forward E d ingress _ _ _ now).still
  | dropUnsupported => exact (untouched_dropping d ingress).still

def capturedWhole (d : Dispatcher) (whole : IngressPacket) (bytes : Bytes) (origin : Side) (now : Instant)
    (key : FlowKey) : Option Datagram :=
  match origin, d.action whole origin now with
  | .tunnel, .ok (.openDatagram plan) => d.capturesOpened whole bytes plan now key
  | _, _ => none

variable {d : Dispatcher}

theorem admitted_queue (h : d.Listed) (whole : IngressPacket) (bytes : Bytes) (origin : Side) (now : Instant) :
    (d.admitted whole bytes origin now).Listed ∧
      ∀ key queue, (d.admitted whole bytes origin now).queueOf key = some queue →
        queue = (d.queueOf key).getD [] ++ (d.capturedWhole whole bytes origin now key).toList := by
  unfold admitted capturedWhole
  rcases d.action whole origin now with _ | action
  · exact ⟨h, fun key queue hq => by cases origin <;> simp [hq]⟩
  cases action with
  | openDatagram plan =>
    obtain ⟨hlst, hqueue⟩ := Datapath.openDatagram_queue h whole bytes origin plan now
    refine ⟨hlst, fun key queue hq => ?_⟩
    rw [hqueue key queue hq]
    cases origin <;> rfl
  | openStream plan =>
    rcases keyOf whole with _ | opened
    · exact ⟨h, fun key queue hq => by cases origin <;> simp [show d.queueOf key = some queue from hq]⟩
    refine ⟨h.openFlow opened plan now, fun key queue hq => ?_⟩
    cases origin <;> simpa using Datapath.openFlow_keeps hq
  | _ => exact ⟨h, fun key queue hq => by cases origin <;> simp [hq]⟩

/-! ### Runs -/

def captured (d : Dispatcher) (client : InternalEndpoint) : Op → List Datagram
  | .packet origin ingress now =>
    match d.arrived E origin ingress now with
    | (d, some (whole, bytes)) => (d.capturedWhole whole bytes origin now (.mapping client)).toList
    | (_, none) => []
  | _ => []

def returned (d : Dispatcher) (client : InternalEndpoint) : Op → List Datagram
  | .pollDatagram => handed client d.pollDatagram.2
  | _ => []

def Balanced (d : Dispatcher) (client : InternalEndpoint) (op : Op) : Prop :=
  ∀ queue, (d.step E op).queueOf (.mapping client) = some queue →
    (d.queueOf (.mapping client)).getD [] ++ d.captured E client op = d.returned client op ++ queue

theorem balanced_packet (h : d.Listed) (E : Etherparse) (origin : Side) (ingress : Ingress) (now : Instant) :
    (d.step E (.packet origin ingress now)).Listed ∧ ∀ client, Balanced E d client (.packet origin ingress now) := by
  have hpkt := onPacket_arrived E d origin ingress now
  have honly := (arrived_only E d origin ingress now).untouched
  unfold Balanced step captured returned
  rcases harr : d.arrived E origin ingress now with ⟨d', found⟩
  rw [harr] at hpkt honly
  cases found with
  | none =>
    dsimp only at hpkt ⊢
    rw [hpkt]
    have hstill := (honly.trans (untouched_dropping d' ingress)).still
    refine ⟨h.of_still hstill, fun client queue hq => ?_⟩
    rw [hstill.queues] at hq
    simp [hq, harr]
  | some found =>
    -- the packet as it is handled, in the slice it came in or as the datagram that was completed
    obtain ⟨hwhole, handled, hbytes, hstill⟩ : found.1.transport ≠ .fragment ∧ ∃ handled : Ingress,
        handled.bytes = found.2 ∧
        Still (d'.admitted found.1 handled.bytes origin now) (d.onPacket E origin ingress now).1.toDatapath := by
      obtain ⟨hwhole, ⟨hbytes, hd, heq⟩ | heq⟩ := hpkt
      · subst hd
        rw [heq]
        exact ⟨hwhole, ingress, hbytes.symm, still_handle E _ ingress origin now hwhole⟩
      · rw [heq]
        have hhandle := still_handle E d' (.borrowed found.2) origin now hwhole
        have hdrop := (untouched_dropping (d'.handle E found.1 (.borrowed found.2) origin now).1 ingress).still
        exact ⟨hwhole, .borrowed found.2, rfl, hhandle.trans hdrop⟩
    rw [hbytes] at hstill
    have hlst : d'.Listed := h.of_still honly.still
    obtain ⟨hadm, hqueue⟩ := admitted_queue hlst found.1 found.2 origin now
    refine ⟨hadm.of_still hstill, fun client queue hq => ?_⟩
    rw [hstill.queues] at hq
    rw [hqueue _ queue hq, honly.still.queues]
    simp only [harr]
    rfl

/-- **Step lemma**: a call adds what it captures at the end of a queue, and takes what it returns from its front. -/
theorem balanced_step (h : d.Listed) (E : Etherparse) (op : Op) :
    (d.step E op).Listed ∧ ∀ client, Balanced E d client op := by
  have hends : ∀ op', Ends d.toDatapath (d.step E op').toDatapath → (∀ client, d.captured E client op' = []) →
      (∀ client, d.returned client op' = []) →
      (d.step E op').Listed ∧ ∀ client, Balanced E d client op' := by
    intro op' hends hcap hreturned
    refine ⟨h.of_ends hends, fun client queue hq => ?_⟩
    simp [hends.keeps hq, hcap, hreturned]
  cases op with
  | packet origin ingress now => exact balanced_packet h E origin ingress now
  | deliverDatagram client peer payload now =>
    have hstill := d.still_deliverDatagram client peer payload now
    exact hends _ ⟨fun key => .inl (hstill.queues key), hstill.ready⟩ (fun _ => rfl) (fun _ => rfl)
  | onTimeout now => exact hends _ ⟨(d.ends_onTimeout now).queues, rfl⟩ (fun _ => rfl) (fun _ => rfl)
  | onPathChange accepts next =>
    exact hends _ ⟨(d.ends_onPathChange accepts next).queues, rfl⟩ (fun _ => rfl) (fun _ => rfl)
  | pollDatagram =>
    obtain ⟨hlst, -, hqueue⟩ := Datapath.pollDatagram_queue h
    refine ⟨hlst, fun client queue hq => ?_⟩
    rw [hqueue client queue hq]
    simp [captured, returned]
  | answerDns client resolver resp =>
    have hstill := (untouched_answerDns d client resolver resp).still
    exact hends _ ⟨fun key => .inl (hstill.queues key), hstill.ready⟩ (fun _ => rfl) (fun _ => rfl)
  | _ => exact hends _ ⟨fun _ => .inl rfl, rfl⟩ (fun _ => rfl) (fun _ => rfl)

/-- One call, with the datagrams of a client captured and returned since its flow was opened: none while it is not
live. -/
def account (client : InternalEndpoint) (s : Dispatcher × List Datagram × List Datagram) (op : Op) :
    Dispatcher × List Datagram × List Datagram :=
  if (s.1.step E op).queueOf (.mapping client) = none then (s.1.step E op, [], [])
  else (s.1.step E op, s.2.1 ++ s.1.captured E client op, s.2.2 ++ s.1.returned client op)

/-- What was captured and not returned is in the queue, in its order. -/
structure Ledger (client : InternalEndpoint) (s : Dispatcher × List Datagram × List Datagram) : Prop where
  listed : s.1.Listed
  closed : s.1.queueOf (.mapping client) = none → s.2.1 = [] ∧ s.2.2 = []
  live : ∀ queue, s.1.queueOf (.mapping client) = some queue → s.2.1 = s.2.2 ++ queue

theorem ledger_step (client : InternalEndpoint) (s : Dispatcher × List Datagram × List Datagram)
    (op : Op) (h : Ledger client s) : Ledger client (account E client s op) := by
  obtain ⟨hlst, hbal⟩ := balanced_step h.listed E op
  have hpre : s.2.1 = s.2.2 ++ (s.1.queueOf (.mapping client)).getD [] := by
    cases hq : s.1.queueOf (.mapping client) with
    | none => simp [h.closed hq]
    | some queue => simpa using h.live queue hq
  unfold account
  split_ifs with hcl
  · exact ⟨hlst, fun _ => ⟨rfl, rfl⟩, fun queue hq => by simp [hcl] at hq⟩
  refine ⟨hlst, fun hnone => absurd hnone hcl, fun queue hq => ?_⟩
  calc s.2.1 ++ s.1.captured E client op
      = s.2.2 ++ ((s.1.queueOf (.mapping client)).getD [] ++ s.1.captured E client op) := by
        rw [hpre, append_assoc]
    _ = s.2.2 ++ (s.1.returned client op ++ queue) := by rw [hbal client queue hq]
    _ = s.2.2 ++ s.1.returned client op ++ queue := (append_assoc _ _ _).symm

theorem ledger_run {E : Etherparse} (hflows : d.flows.flows = ∅) (client : InternalEndpoint)
    (ops : List Op) : Ledger client (run (account E client) (d, [], []) ops) := by
  refine run_kept (ledger_step E client) ops _ ?_
  have hnone : ∀ key, d.queueOf key = none := by
    simp [Datapath.queueOf, getMut, hflows]
  exact ⟨fun key queue hq => by simp [hnone] at hq, fun _ => ⟨rfl, rfl⟩, fun queue hq => by simp [hnone] at hq⟩

/-- **Captured datagrams are neither lost nor duplicated**: in every run, the datagrams handed out for a client's flow
are the first of those captured since it was opened, in their order, and when there is nothing to hand out every queue
is empty. -/
theorem captured_run {filter : FilterPolicy} {dns : DnsPolicy} {accepts : Accepts} {egress : PathProperties}
    {pathMtu : Mtu} {limits : DispatchLimits} {pool : BufferPool} {epoch : Instant} {d : Dispatcher}
    (hnew : new filter dns accepts egress pathMtu limits pool epoch = .ok d) (E : Etherparse)
    (client : InternalEndpoint) (ops : List Op) :
    (run (account E client) (d, [], []) ops).2.2 <+: (run (account E client) (d, [], []) ops).2.1 ∧
      (∀ queue, (run (account E client) (d, [], []) ops).1.queueOf (.mapping client) = some queue →
        (run (account E client) (d, [], []) ops).2.1 = (run (account E client) (d, [], []) ops).2.2 ++ queue) ∧
      ((run (account E client) (d, [], []) ops).1.pollDatagram.2 = none →
        ∀ key queue, (run (account E client) (d, [], []) ops).1.pollDatagram.1.queueOf key = some queue →
          queue = []) := by
  have hled := ledger_run (E := E) (Datapath.empty_of_new (datapath_of_new hnew).1).1 client ops
  generalize run (account E client) (d, [], []) ops = s at hled
  refine ⟨?_, hled.live, (Datapath.pollDatagram_queue hled.listed).2.1⟩
  rcases hq : s.1.queueOf (.mapping client) with _ | queue
  · simp [hled.closed hq]
  rw [hled.live queue hq]
  exact prefix_append _ _

def exampleDatagram (payload : UInt8) : Bytes :=
  plainPacket 17 0xc0000201#32 0xc6336402#32 4000 5000 [0, 9, 0, 0, payload]

def exampleTurn : List Op :=
  [.packet .tunnel (.borrowed (exampleDatagram 1)) (Instant.ofSecs 1),
    .packet .tunnel (.borrowed (exampleDatagram 2)) (Instant.ofSecs 2), .pollDatagram]

theorem captured_exampleTurn :
    (run (account plainIp ⟨.v4 0xc0000201#32, 4000⟩) (inspecting .flows, [], []) exampleTurn).2.2 =
        [(⟨.v4 0xc6336402#32, 5000⟩, [1])] ∧
      (run (account plainIp ⟨.v4 0xc0000201#32, 4000⟩) (inspecting .flows, [], []) exampleTurn).2.2 <+:
        (run (account plainIp ⟨.v4 0xc0000201#32, 4000⟩) (inspecting .flows, [], []) exampleTurn).2.1 :=
  ⟨by decide +kernel, (captured_run (new_inspecting .flows) plainIp ⟨.v4 0xc0000201#32, 4000⟩ exampleTurn).1⟩

end Dispatcher

end Boreas
