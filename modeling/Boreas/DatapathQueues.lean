import Boreas.Relay

/-! # Datagrams in the datapath's queues

How many client datagrams wait in the queues (`queued`) and how many drops the events note (`noted`), and what each
call does to the two. -/

namespace Boreas

open L3 List Option Table UdpFlowTable

namespace Datapath

def queueLength (_ : FlowKey) (st : EntryState FlowState) : ℕ := st.value.buffer.datagrams.length

def queued (d : Datapath) : ℕ := total queueLength d.flows.flows

def isDrop : FlowEvent → Bool
  | .datagramDropped _ => true
  | _ => false

def noted (d : Datapath) : ℕ := d.events.countP isDrop

variable {d : Datapath}

theorem total_getOrInsertWith (t : UdpFlowTable FlowKey FlowState) (key : FlowKey) (now : Instant) (create : FlowState)
    (hcreate : create.buffer.datagrams = []) :
    total queueLength (t.getOrInsertWith key now create).1.flows = total queueLength t.flows := by
  unfold getOrInsertWith
  rcases now.checkedAdd t.idleTimeout with _ | deadline
  · rfl
  cases hkey : t.flows.lookup key with
  | some st =>
    have h := total_insert queueLength t.flows key { st with deadline := deadline }
    rw [hkey] at h
    exact Nat.add_right_cancel h
  | none =>
    split_ifs with hfull
    · rfl
    · have h := total_insert queueLength t.flows key ⟨create, deadline⟩
      rw [hkey] at h
      simpa [queueLength, hcreate] using h

theorem queued_openFlow (d : Datapath) (key : FlowKey) (plan : FlowPlan) (now : Instant) :
    (d.openFlow key plan now).1.queued = d.queued ∧ (d.openFlow key plan now).1.events = d.events ∧
      (d.openFlow key plan now).1.pool = d.pool := by
  have h := total_getOrInsertWith d.flows key now ⟨plan, .new d.datagramBufferCapacity⟩ rfl
  unfold openFlow
  rcases hr : d.flows.getOrInsertWith key now ⟨plan, .new d.datagramBufferCapacity⟩ with ⟨flows, result⟩
  rw [hr] at h
  cases result with
  | error e | ok _ => exact ⟨h, rfl, rfl⟩

variable {now : Instant} {key : FlowKey}

theorem getMut_openFlow {plan : FlowPlan} {opened : Bool}
    (h : (d.openFlow key plan now).2 = .ok opened) : ∃ flow, (d.openFlow key plan now).1.flows.getMut key = some flow := by
  unfold openFlow getOrInsertWith at h ⊢
  rcases hdl : now.checkedAdd d.flows.idleTimeout with _ | due
  · simp [hdl] at h
  cases hkey : d.flows.flows.lookup key with
  | some st => simp [getMut]
  | none =>
    simp only [hdl, hkey] at h ⊢
    split_ifs at h ⊢ with hfull
    simp [getMut]

theorem total_putMut {t : UdpFlowTable FlowKey FlowState}
    (h : t.getMut key = some flow) (plan : FlowPlan) (buf : DatagramBuffer (SocketAddr × Bytes)) :
    total queueLength (t.putMut key ⟨plan, buf⟩).flows + flow.buffer.datagrams.length =
      total queueLength t.flows + buf.datagrams.length := by
  obtain ⟨st, hst, rfl⟩ := map_eq_some_iff.mp h
  unfold putMut
  rw [hst]
  have hins := total_insert queueLength t.flows key ⟨⟨plan, buf⟩, st.deadline⟩
  rw [hst] at hins
  exact hins

theorem length_trySend (b : DatagramBuffer τ) (x : τ) :
    (b.trySend x).1.datagrams.length + (if (b.trySend x).2 = .dropped then 1 else 0) = b.datagrams.length + 1 := by
  unfold DatagramBuffer.trySend
  split_ifs <;> simp_all

theorem noted_append (d : Datapath) (event : FlowEvent) :
    { d with events := d.events ++ [event] }.noted = d.noted + if isDrop event then 1 else 0 := by
  unfold noted
  rw [countP_append, countP_singleton]

theorem queued_captureDatagram {pkt : IngressPacket} (hudp : pkt.transport = .udp sourcePort destinationPort)
    (hpay : pkt.payload buf = some payload) (hsize : payload.length ≤ d.pool.sliceSize)
    (hroom : 0 < d.pool.available) (hflow : d.flows.getMut key = some flow) :
    (d.captureDatagram pkt buf key).queued + (d.captureDatagram pkt buf key).noted = d.queued + d.noted + 1 := by
  have htake := BufferPool.take_of_room hsize hroom
  unfold captureDatagram
  rw [hudp, hpay]
  rcases ht : d.pool.take payload with ⟨pool, taken⟩
  rw [ht] at htake
  subst htake
  simp only [map_some, ht, hflow]
  have hsent := length_trySend flow.buffer (⟨pkt.destination, destinationPort⟩, payload)
  rcases hr : flow.buffer.trySend (⟨pkt.destination, destinationPort⟩, payload) with ⟨buffer, outcome⟩
  rw [hr] at hsent
  have hput := total_putMut hflow flow.plan buffer
  cases outcome with
  | dropped =>
    have hnoted := noted_append d (.datagramDropped key.client)
    simp only [noted, queued, isDrop, if_true] at hsent hnoted ⊢
    omega
  | buffered =>
    simp only [noted, queued, reduceCtorEq, if_false] at hsent ⊢
    omega

theorem total_pollLoop (flows : UdpFlowTable FlowKey FlowState) (ready : List FlowKey) :
    total queueLength (pollLoop flows ready).1.flows + (pollLoop flows ready).2.2.toList.length =
      total queueLength flows.flows := by
  obtain ⟨heq, -⟩ | ⟨before, client, after, flow, target, payload, rest, -, -, hflow, hqueue, heq⟩ :=
    pollLoop_spec flows ready <;> rw [heq]
  · rfl
  have hput := total_putMut hflow flow.plan { flow.buffer with datagrams := rest }
  rw [hqueue, length_cons] at hput
  dsimp only at hput
  simp only [toList_some, length_singleton]
  omega

theorem queued_pollDatagram (d : Datapath) :
    d.pollDatagram.1.queued + d.pollDatagram.2.toList.length = d.queued ∧ d.pollDatagram.1.noted = d.noted :=
  ⟨total_pollLoop d.flows d.ready, rfl⟩

theorem queued_deliverDatagram (d : Datapath) (client peer : InternalEndpoint) (payload : Bytes) (now : Instant) :
    (d.deliverDatagram client peer payload now).1.queued = d.queued ∧
      (d.deliverDatagram client peer payload now).1.noted = d.noted := by
  obtain heq | ⟨-, plan, pool, transmits, events, heq, hev, -⟩ := d.deliverDatagram_cases client peer payload now <;>
    rw [heq]
  · exact ⟨rfl, rfl⟩
  · refine ⟨total_getOrInsertWith d.flows (.mapping client) now ⟨plan, .new d.datagramBufferCapacity⟩ rfl, ?_⟩
    obtain rfl | rfl := hev
    · rfl
    · exact noted_append d .transmitDropped

def Deliverable (d : Datapath) (client peer : InternalEndpoint) (payload : Bytes) (now : Instant) : Prop :=
  d.contains (.mapping client) = true →
    (∃ plan, d.plans .excluded = .ok plan) ∧ (now.checkedAdd d.flows.idleTimeout).isSome ∧
      sameFamily peer.address client.address = true ∧ payload.length ≤ maxUdpPayload peer.address

theorem deliverDatagram_ne_error (h : d.Deliverable client peer payload now) (e : DatapathError) :
    (d.deliverDatagram client peer payload now).2 ≠ .error e := by
  unfold deliverDatagram
  split_ifs with hlive
  · simp
  obtain ⟨⟨plan, hplan⟩, hclock, hfam, hmax⟩ := h (by simpa using hlive)
  obtain ⟨flows, state, hflows⟩ := getOrInsertWith_of_live ⟨plan, .new d.datagramBufferCapacity⟩
    (isSome_iff_ne_none.mpr (by simpa [contains] using hlive)) hclock
  rw [hplan]
  dsimp only
  rw [hflows]
  unfold BufferPool.takeZeroed
  rcases d.pool.reserve (udpDatagramLen peer.address payload.length) with ⟨pool, granted⟩
  rcases granted with _ | _
  · simp
  have hlen : (List.replicate (udpDatagramLen peer.address payload.length) (0 : UInt8)).length =
      udpDatagramLen peer.address payload.length := length_replicate
  obtain ⟨bytes, hwrite, -, -⟩ := readUdp_writeUdp hfam hmax (Nat.le_of_eq hlen.symm)
  dsimp only
  rw [hwrite]
  simp

def Unexpired (now : Instant) (t : UdpFlowTable FlowKey FlowState) : Prop :=
  ∀ key st, t.flows.lookup key = some st → st.value.buffer.datagrams ≠ [] → now < st.deadline

theorem total_expireOne (h : Unexpired now acc.1) (key : FlowKey) : Unexpired now (expireOne now acc key).1 ∧
      total queueLength (expireOne now acc key).1.flows = total queueLength acc.1.flows := by
  unfold expireOne
  rcases hkey : acc.1.flows.lookup key with _ | st
  · exact ⟨h, rfl⟩
  dsimp only
  split_ifs with hdue
  · have hempty : st.value.buffer.datagrams = [] := by
      by_contra hne
      exact absurd (h key st hkey hne) (not_lt.mpr hdue)
    have herase := total_erase queueLength acc.1.flows key
    rw [hkey] at herase
    simp only [elim_some, queueLength, hempty, length_nil, Nat.add_zero] at herase
    refine ⟨fun key' st' hst' => ?_, herase⟩
    rw [lookup_erase_eq] at hst'
    split_ifs at hst'
    exact h key' st' hst'
  · exact ⟨h, rfl⟩

theorem queued_onTimeout (h : Unexpired now d.flows) : (d.onTimeout now).queued = d.queued := by
  suffices hfold : ∀ (keys : List FlowKey) (acc : UdpFlowTable FlowKey FlowState × List FlowState),
      Unexpired now acc.1 → total queueLength (keys.foldl (expireOne now) acc).1.flows =
        total queueLength acc.1.flows from
    hfold (d.flows.wheel.takeDue now).2 ({ d.flows with wheel := (d.flows.wheel.takeDue now).1 }, []) h
  intro keys
  induction keys with
  | nil => exact fun acc _ => rfl
  | cons key keys ih =>
    intro acc hacc
    have hone := total_expireOne hacc key
    exact (ih _ hone.1).trans hone.2

theorem queued_onPathChange (accepts : Accepts) (next : PathProperties)
    (h : ∀ key st, d.flows.flows.lookup key = some st → st.value.buffer.datagrams = []) :
    (d.onPathChange accepts next).queued = d.queued ∧ (d.onPathChange accepts next).noted = d.noted := by
  have hpre : d.queued = 0 := total_eq_zero fun key st hst => by
    rw [queueLength, h key st hst]
    rfl
  have hafter : (d.onPathChange accepts next).queued = 0 := total_eq_zero fun key st hst => by
    unfold onPathChange UdpFlowTable.retain at hst
    rw [lookup_retain] at hst
    obtain ⟨st', hst', hkeep⟩ := bind_eq_some_iff.mp hst
    obtain ⟨state, hrepl, rfl⟩ := map_eq_some_iff.mp hkeep
    have hbuf : state.buffer = st'.value.buffer := by
      dsimp only [replanned] at hrepl
      split at hrepl <;> cases hrepl <;> rfl
    rw [queueLength]
    rw [hbuf, h key st' hst']
    rfl
  refine ⟨hafter.trans hpre.symm, ?_⟩
  have hev : ((d.flows.flows.entries.filterMap fun e => d.replanEvent accepts next e.1 e.2.value).countP isDrop) =
      0 := by
    rw [countP_eq_zero]
    intro event hevent
    obtain ⟨e, -, he⟩ := mem_filterMap.mp hevent
    unfold replanEvent at he
    split at he <;> cases he <;> simp [isDrop]
  unfold noted onPathChange
  rw [countP_append, hev]
  rfl

end Datapath

end Boreas
