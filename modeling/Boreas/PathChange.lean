import Boreas.DispatchFlows

/-! # Path changes

`on_path_change` plans every live flow again as `Excluded`, whatever status it was opened with; `track` keeps that
status.  `endsOnlyIncompatible_iff` says when a change ends exactly the flows that cannot survive it: on a flow
egress, or when no inspected flow is live. -/

namespace Boreas.Dispatcher

open Option Runs

/-! ### The status a flow was opened with -/

/-- The datapath with the inspection status of each flow: that of the packet that opened it. -/
def track (E : Etherparse) (s : Dispatcher × (FlowKey → Inspection)) (op : Op) :
    Dispatcher × (FlowKey → Inspection) :=
  (s.1.step E op,
    match op with
    | .packet origin ingress now =>
      match s.1.arrival E origin ingress now with
      | none => s.2
      | some whole => fun key =>
        if keyOf whole = some key ∧ s.1.flowOf key = none then s.1.inspection whole origin now else s.2 key
    | _ => s.2)

/-- A flow with the plan `plan` and the status `status` cannot survive the change. -/
def Incompatible (d : Dispatcher) (accepts : Accepts) (next : PathProperties) (status : Inspection)
    (plan : FlowPlan) : Prop :=
  ∀ nextPlan, planFlow d.filter status accepts next d.pathMtu = .ok nextPlan →
    nextPlan.transport.sameKind plan.transport = false

/-- The change ends exactly the flows that cannot survive it, and none when nothing changes. -/
structure EndsOnlyIncompatible (d : Dispatcher) (status : FlowKey → Inspection) (accepts : Accepts)
    (next : PathProperties) : Prop where
  exactly : ∀ key plan deadline, d.flowOf key = some (plan, deadline) →
    ((d.onPathChange accepts next).flowOf key = none ↔ d.Incompatible accepts next (status key) plan)
  identical : accepts = d.accepts → next = d.egress → ∀ key, d.flowOf key ≠ none →
    (d.onPathChange accepts next).flowOf key ≠ none

/-! ### Planning again -/

variable {state : FlowState}

theorem replanned_ipPackets {d : Datapath} (h : state.plan.transport = .localTermination) :
    d.replanned .ipPackets next state = none := by
  have hlayer : flowLayer state.plan false .ipPackets = .flows := by simp [flowLayer, h]
  unfold Datapath.replanned replan
  rw [inspected_excluded, hlayer, if_pos (by decide)]

theorem replanned_flows {d : Datapath} (h : state.plan.transport = .localTermination) (next : PathProperties) :
    ∃ state', d.replanned .flows next state = some state' ∧ state'.plan.transport = .localTermination := by
  have hlayer : flowLayer state.plan false .flows = .flows := by simp [flowLayer, h]
  unfold Datapath.replanned replan
  rw [inspected_excluded, hlayer, planFlow_flows]
  rw [h]
  cases state.plan.quic with
  | passThrough =>
    cases planQuic d.filter .excluded next .localTermination with
    | passThrough => exact ⟨_, rfl, h⟩
    | steerToHttp2 reason => exact ⟨_, rfl, rfl⟩
  | steerToHttp2 reason => exact ⟨_, rfl, h⟩

variable {d : Dispatcher} {plan : FlowPlan}

theorem incompatible_iff
    (hplan : plan.transport = .localTermination) (hstat : status = .candidate → d.filter = .inspectHttp)
    (next : PathProperties) :
    d.Incompatible accepts next status plan ↔ accepts = .ipPackets ∧ status = .excluded := by
  unfold Incompatible
  rw [hplan]
  cases accepts with
  | flows => simp [planFlow_flows, TransportPath.sameKind]
  | ipPackets =>
    cases status with
    | candidate => simp [hstat rfl, planFlow_candidate, TransportPath.sameKind]
    | excluded =>
      simp only [and_self, iff_true]
      intro nextPlan h
      obtain ⟨mtu, hmtu⟩ := packetFastPath_of_planFlow h
      rw [hmtu]
      rfl

/-! ### The flows in the table -/

/-- Every flow is terminated locally; an inspected one is so by the session's filter, and on a packet egress every
one is inspected. -/
def Classified (s : Dispatcher × (FlowKey → Inspection)) : Prop :=
  ∀ key plan deadline, s.1.flowOf key = some (plan, deadline) →
    plan.transport = .localTermination ∧ (s.2 key = .candidate → s.1.filter = .inspectHttp) ∧
      (s.1.accepts = .ipPackets → s.2 key = .candidate)

variable {status status' : FlowKey → Inspection}

theorem Classified.of_aside (h : Classified (d, status))
    (haside : Aside d d') (hstat : ∀ key, d.flowOf key ≠ none → status' key = status key) :
    Classified (d', status') := by
  intro key plan due hflow
  dsimp only at hflow ⊢
  rw [haside.flowOf] at hflow
  have hfilt : d'.filter = d.filter := congrArg Setting.filter haside.setting
  have hacc : d'.accepts = d.accepts := congrArg Setting.accepts haside.setting
  rw [hfilt, hacc, hstat key (by rw [hflow]; simp)]
  exact h key plan due hflow

theorem Classified.of_opened (h : Classified (d, status)) (hopen : Opened d d' key plan now)
    (hstat : ∀ k, d.flowOf k ≠ none → status' k = status k)
    (hnew : d.flowOf key = none → plan.transport = .localTermination ∧
      (status' key = .candidate → d.filter = .inspectHttp) ∧ (d.accepts = .ipPackets → status' key = .candidate)) :
    Classified (d', status') := by
  obtain ⟨due, -, hflow⟩ := hopen.flowOf
  have hfilt : d'.filter = d.filter := congrArg Setting.filter hopen.setting
  have hacc : d'.accepts = d.accepts := congrArg Setting.accepts hopen.setting
  intro k plan' due' hk
  dsimp only at hk ⊢
  rw [hflow k] at hk
  rw [hfilt, hacc]
  split_ifs at hk with heq
  · subst heq
    rcases hold : d.flowOf k with _ | ⟨oldPlan, oldDeadline⟩
    · rw [hold] at hk
      cases hk
      exact hnew hold
    rw [hold] at hk
    cases hk
    rw [hstat k (by rw [hold]; simp)]
    exact h k oldPlan oldDeadline hold
  · rw [hstat k (by rw [hk]; simp)]
    exact h k plan' due' hk

variable (E : Etherparse)

theorem classified_packet (h : Classified s)
    (origin : Side) (ingress : Ingress) (now : Instant) : Classified (track E s (.packet origin ingress now)) := by
  obtain ⟨d, status⟩ := s
  unfold track
  dsimp only [step]
  rcases onPacket_spec E d origin ingress now with ⟨harr, haside⟩ | ⟨whole, harr, heffect⟩
  · rw [harr]
    exact h.of_aside haside fun _ _ => rfl
  rw [harr]
  dsimp only
  have hold : ∀ k, d.flowOf k ≠ none →
      (if keyOf whole = some k ∧ d.flowOf k = none then d.inspection whole origin now else status k) = status k :=
    fun k hk => if_neg fun hnone => hk hnone.2
  rcases heffect with ⟨haside, -⟩ | ⟨plan, key, hopen, hkey, hop, -⟩
  · exact h.of_aside haside hold
  obtain ⟨hplan, hlocal, -⟩ := hopen.plan
  refine h.of_opened hop hold fun hnew => ?_
  rw [if_pos ⟨hkey, hnew⟩]
  have hkept : d.kept whole origin = none := by
    rw [kept_eq, hkey]
    simp [hnew]
  rw [planFor, hkept] at hplan
  exact ⟨hlocal, filter_of_candidate, candidate_of_local hplan hlocal⟩

theorem classified_onPathChange (h : Classified (d, status))
    (accepts : Accepts) (next : PathProperties) : Classified (d.onPathChange accepts next, status) := by
  intro key plan due hflow
  unfold flowOf onPathChange releasing Datapath.onPathChange UdpFlowTable.retain at hflow
  dsimp only at hflow ⊢
  rw [Table.lookup_retain] at hflow
  obtain ⟨st', hst', hmap⟩ := map_eq_some_iff.mp hflow
  obtain ⟨st, hst, hkeep⟩ := bind_eq_some_iff.mp hst'
  obtain ⟨state', hrepl, rfl⟩ := map_eq_some_iff.mp hkeep
  cases hmap
  obtain ⟨hlocal, hstat, -⟩ := h key st.value.plan st.deadline (by simp [flowOf, hst])
  cases accepts with
  | ipPackets =>
    rw [replanned_ipPackets hlocal] at hrepl
    cases hrepl
  | flows =>
    obtain ⟨state'', hrepl', hlocal'⟩ := replanned_flows (d := d.toDatapath) hlocal next
    rw [hrepl'] at hrepl
    cases hrepl
    exact ⟨hlocal', hstat, fun hacc => by cases hacc⟩

/-- **Step lemma**: every call keeps the flows classified. -/
theorem classified_step (s : Dispatcher × (FlowKey → Inspection)) (op : Op) (h : Classified s) :
    Classified (track E s op) := by
  obtain ⟨d, status⟩ := s
  cases op with
  | packet origin ingress now => exact classified_packet E h origin ingress now
  | inspectAddresses addrs now => exact h
  | deliverDatagram client peer payload now =>
    rcases deliverDatagram_spec d client peer payload now with haside | ⟨hlive, plan, hopen⟩
    · exact h.of_aside haside fun _ _ => rfl
    refine h.of_opened hopen (fun _ _ => rfl) fun hnone => ?_
    unfold Datapath.contains at hlive
    unfold flowOf at hnone
    rw [map_eq_none_iff] at hnone
    rw [hnone] at hlive
    cases hlive
  | onTimeout now =>
    intro key plan due hkey
    change (d.onTimeout now).flowOf key = some (plan, due) at hkey
    rcases (onTimeout_spec d now).2 key with hkept | ⟨hnone, -⟩
    · exact h key plan due (hkept ▸ hkey)
    · rw [hnone] at hkey
      cases hkey
  | onPathChange accepts next => exact classified_onPathChange h accepts next
  | answerDns client resolver resp => exact h.of_aside (aside_step E d trivial) fun _ _ => rfl
  | pollDatagram => exact h.of_aside (@aside_step E d .pollDatagram trivial) fun _ _ => rfl
  | pollQuery | pollTerminate | pollTransmit | pollEvent | takeSlice len | returnSlice => exact h

theorem classified_run (h : d.flows.flows = ∅) (ops : List Op) :
    Classified (run (track E) (d, fun _ => .excluded) ops) := by
  refine run_kept (classified_step E) ops _ ?_
  intro key plan due hflow
  simp [flowOf, h] at hflow

/-! ### What a change ends -/

theorem flowOf_onPathChange
    (hflow : d.flowOf key = some (plan, deadline)) (hlocal : plan.transport = .localTermination) (accepts : Accepts)
    (next : PathProperties) : (d.onPathChange accepts next).flowOf key = none ↔ accepts = .ipPackets := by
  obtain ⟨st, hst, hplan⟩ := map_eq_some_iff.mp hflow
  cases hplan
  have hlook : (d.onPathChange accepts next).flowOf key =
      (d.replanned accepts next st.value).map (fun state => (state.plan, st.deadline)) := by
    unfold flowOf onPathChange releasing Datapath.onPathChange UdpFlowTable.retain
    rw [Table.lookup_retain, hst, bind_some, map_map]
    rfl
  rw [hlook, map_eq_none_iff]
  cases accepts with
  | ipPackets => simp [replanned_ipPackets hlocal]
  | flows =>
    obtain ⟨state, hstate, -⟩ := replanned_flows (d := d.toDatapath) hlocal next
    simp [hstate]

/-- **A path change ends exactly the flows that cannot survive it** when the new path is a flow egress, or when no
inspected flow is live, and in no other case: in every state that a run of the datapath reaches. -/
theorem endsOnlyIncompatible_iff (E : Etherparse) {filter : FilterPolicy} {dns : DnsPolicy} {old : Accepts}
    {egress : PathProperties} {pathMtu : Mtu} {limits : DispatchLimits} {pool : BufferPool} {epoch : Instant}
    {d : Dispatcher} (hnew : new filter dns old egress pathMtu limits pool epoch = .ok d) (ops : List Op)
    (accepts : Accepts) (next : PathProperties) :
    let s := run (track E) (d, fun _ => .excluded) ops
    EndsOnlyIncompatible s.1 s.2 accepts next ↔
      accepts = .flows ∨ ∀ key, s.1.flowOf key ≠ none → s.2 key = .excluded := by
  intro s
  have hs : Classified s := classified_run E (Datapath.empty_of_new (datapath_of_new hnew).1).1 ops
  constructor
  · intro hends
    cases hacc : accepts with
    | flows => exact .inl rfl
    | ipPackets =>
      refine .inr fun key hlive => ?_
      obtain ⟨⟨plan, due⟩, hflow⟩ := ne_none_iff_exists'.mp hlive
      obtain ⟨hlocal, hstat, -⟩ := hs key plan due hflow
      have hended := (flowOf_onPathChange hflow hlocal accepts next).mpr hacc
      exact ((incompatible_iff hlocal hstat next).mp ((hends.exactly key plan due hflow).mp hended)).2
  · intro hcond
    have hexcl : ∀ key, s.1.flowOf key ≠ none → accepts = .ipPackets → s.2 key = .excluded := by
      intro key hlive hacc
      rcases hcond with hflows | hnone
      · rw [hflows] at hacc
        cases hacc
      · exact hnone key hlive
    refine ⟨fun key plan due hflow => ?_, fun hacc hnext key hlive => ?_⟩
    · obtain ⟨hlocal, hstat, -⟩ := hs key plan due hflow
      rw [flowOf_onPathChange hflow hlocal, incompatible_iff hlocal hstat]
      exact ⟨fun h => ⟨h, hexcl key (by rw [hflow]; simp) h⟩, And.left⟩
    · obtain ⟨⟨plan, due⟩, hflow⟩ := ne_none_iff_exists'.mp hlive
      obtain ⟨hlocal, -, hcand⟩ := hs key plan due hflow
      rw [Ne, flowOf_onPathChange hflow hlocal]
      -- On a packet egress every live flow is inspected.
      intro hpkts
      have h := hexcl key hlive hpkts
      rw [hcand (hacc ▸ hpkts)] at h
      cases h

def inspectedOps : List Op :=
  [.inspectAddresses [.v4 0xc6336402#32] (Instant.ofSecs 1),
    .packet .tunnel (.borrowed exampleSegment) (Instant.ofSecs 2)]

/-- On a flow egress the inspected connection is live, and a change to the same path ends no flow. -/
theorem endsOnlyIncompatible_flows :
    (run (track plainIp) (inspecting .flows, fun _ => .excluded) inspectedOps).1.flowOf exampleConnection ≠ none ∧
      EndsOnlyIncompatible (run (track plainIp) (inspecting .flows, fun _ => .excluded) inspectedOps).1
        (run (track plainIp) (inspecting .flows, fun _ => .excluded) inspectedOps).2 .flows packetPath :=
  ⟨by decide,
    (endsOnlyIncompatible_iff plainIp (new_inspecting .flows) inspectedOps .flows packetPath).mpr (.inl rfl)⟩

/-- **A change to the same path ends an inspected connection** on a packet egress, although its plan, made again with
its own status, is the one it holds. -/
theorem ends_inspected :
    let s := run (track plainIp) (inspecting .ipPackets, fun _ => .excluded) inspectedOps
    s.1.accepts = .ipPackets ∧ s.1.egress = packetPath ∧
      (∃ plan deadline, s.1.flowOf exampleConnection = some (plan, deadline) ∧
        planFlow s.1.filter (s.2 exampleConnection) .ipPackets packetPath s.1.pathMtu = .ok plan) ∧
      (s.1.onPathChange .ipPackets packetPath).flowOf exampleConnection = none ∧
      ¬ EndsOnlyIncompatible s.1 s.2 .ipPackets packetPath := by
  intro s
  have hlive : s.1.flowOf exampleConnection =
      some (⟨.localTermination, .steerToHttp2 .inspectionRequired⟩, Instant.ofSecs 122) := by decide +revert
  have hended : (s.1.onPathChange .ipPackets packetPath).flowOf exampleConnection = none := by decide +revert
  have hsame : s.1.accepts = .ipPackets ∧ s.1.egress = packetPath := by decide +revert
  refine ⟨hsame.1, hsame.2, ⟨_, _, hlive, by decide +revert⟩, hended, fun h => ?_⟩
  exact h.identical hsame.1.symm hsame.2.symm exampleConnection (by rw [hlive]; simp) hended

end Boreas.Dispatcher
