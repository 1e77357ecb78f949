import Boreas.DispatchFlows

/-! # A connection stays on its path

`Sticky` says that a TCP packet of the client which comes within the idle timeout of the one before it, of the same
connection, takes the same path.  A connection on the fast path has no flow: every packet is planned anew, and an
address that becomes inspected meanwhile moves it.  `sticky_run` is for runs without a path
change in which no address is named while such a connection to it is in use (`Steady`). -/

namespace Boreas.Dispatcher

open InspectedAddresses Instant L3 List Option Runs Setting

/-! ### The packets that were put on a path -/

inductive Path
  | fastPath
  | termination
deriving DecidableEq, Repr

structure Carried where
  key : FlowKey
  at_ : Instant
  path : Path
deriving DecidableEq

/-- The path a packet of a connection is put on: its action forwards it, or opens or refreshes its flow. -/
def carried (E : Etherparse) (d : Dispatcher) (origin : Side) (ingress : Ingress) (now : Instant) : Option Carried :=
  match origin, d.arrival E origin ingress now with
  | .tunnel, some whole =>
    match keyOf whole with
    | some (.connection client server) =>
      match d.action whole .tunnel now, (d.onPacket E .tunnel ingress now).2 with
      | .ok (.forwardPacket _), _ => some ⟨.connection client server, now, .fastPath⟩
      | .ok (.openStream _), .ok () => some ⟨.connection client server, now, .termination⟩
      | _, _ => none
    | _ => none
  | _, _ => none

/-- The datapath with the packets put on a path so far, newest first, and the last clock reading. -/
structure History where
  d : Dispatcher
  log : List Carried
  clock : Instant

def History.step (E : Etherparse) (h : History) (op : Op) : History where
  d := h.d.step E op
  log :=
    match op with
    | .packet origin ingress now => (h.d.carried E origin ingress now).toList ++ h.log
    | _ => h.log
  clock := op.reading.getD h.clock

def last (log : List Carried) (key : FlowKey) : Option Carried := log.find? (fun c => c.key = key)

/-- A packet that comes within the idle timeout of the last one of its connection takes the same path. -/
def Sticky (idle : Duration) (log : List Carried) : Prop :=
  ∀ later c earlier, log = later ++ c :: earlier → ∀ before, last earlier c.key = some before →
    c.at_.ns < before.at_.ns + idle → c.path = before.path

theorem sticky_nil : Sticky idle [] := by
  intro later c earlier h
  simp at h

variable {c : Carried}

variable {log : List Carried}

theorem sticky_cons (h : Sticky idle log)
    (hc : ∀ before, last log c.key = some before → c.at_.ns < before.at_.ns + idle → c.path = before.path) :
    Sticky idle (c :: log) := by
  intro later c' earlier hlog
  rcases later with _ | ⟨first, later⟩
  · cases hlog
    exact hc
  cases hlog
  exact h later c' earlier rfl

/-! ### The condition -/

def Selects (d : Dispatcher) (sourcePort destinationPort : UInt16) : Prop :=
  d.originationPorts.any (·.contains sourcePort) = false ∧ d.filter = .inspectHttp ∧
    destinationPort ∈ d.inspectedPorts

instance (d : Dispatcher) (sourcePort destinationPort : UInt16) : Decidable (d.Selects sourcePort destinationPort) :=
  inferInstanceAs (Decidable (_ ∧ _ ∧ _))

/-- A connection on the fast path is in use whose server an inspected address would select it by. -/
def History.Uses (h : History) (address : IpAddr) (now : Instant) : Prop :=
  ∃ client server at_, last h.log (.connection client server) = some ⟨.connection client server, at_, .fastPath⟩ ∧
    server.address = address ∧ h.d.Selects client.port server.port ∧ now.ns < at_.ns + h.d.flows.idleTimeout

/-- The clock does not go backwards, the path stays, and no address is named while a connection to it that would be
selected is in use on the fast path. -/
def Steady (h : History) (op : Op) : Prop :=
  (∀ now, op.reading = some now → h.clock ≤ now) ∧
    match op with
    | .onPathChange _ _ => False
    | .inspectAddresses addresses now => ∀ address ∈ addresses, ¬ h.Uses address now
    | _ => True

/-! ### Inspection -/

variable {packet : IngressPacket} {d : Dispatcher}

theorem inspection_tcp (h : packet.transport = .tcp sourcePort destinationPort) (now : Instant) :
    d.inspection packet .tunnel now = .candidate ↔
      d.Selects sourcePort destinationPort ∧ d.inspected.live packet.destination now = true := by
  unfold inspection Selects
  rw [h]
  dsimp only
  cases d.originationPorts.any (·.contains sourcePort) with
  | true => simp
  | false =>
    rw [if_neg (by simp)]
    split_ifs with hnot
    · simp only [false_iff]
      rintro ⟨⟨-, hfilt, hport⟩, hlive⟩
      rcases hnot with h | h | h | h
      · exact h rfl
      · exact h hfilt
      · exact h hport
      · rw [hlive] at h
        cases h
    · simp only [not_or, not_not] at hnot
      simp [hnot]

/-! ### The invariant -/

/-- Where the last packet of a connection left it: a terminated connection has its flow in the table for the idle
timeout, and one on the fast path has none, and no address that would select it is inspected. -/
def Placed (d : Dispatcher) (clock : Instant) (c : Carried) : Prop :=
  match c.path with
  | .termination => c.at_.ns + d.flows.idleTimeout ≤ clock.ns ∨
      ∃ plan deadline, d.flowOf c.key = some (plan, deadline) ∧ c.at_.ns + d.flows.idleTimeout ≤ deadline.ns
  | .fastPath => d.accepts = .ipPackets ∧ d.flowOf c.key = none ∧
      ∀ client server, c.key = .connection client server → d.Selects client.port server.port →
        ∀ t, clock ≤ t → t.ns < c.at_.ns + d.flows.idleTimeout → d.inspected.live server.address t = false

structure Bound (h : History) : Prop where
  terminated : ∀ key plan deadline, h.d.flowOf key = some (plan, deadline) → plan.transport = .localTermination
  past : ∀ c ∈ h.log, c.at_ ≤ h.clock
  placed : ∀ key c, last h.log key = some c → Placed h.d h.clock c
  connection : ∀ c ∈ h.log, ∃ client server, c.key = .connection client server
  sticky : Sticky h.d.flows.idleTimeout h.log

variable {key : FlowKey}

theorem last_mem (h : last log key = some c) : c ∈ log ∧ c.key = key := by
  have hkey := find?_some h
  exact ⟨mem_of_find?_eq_some h, of_decide_eq_true hkey⟩

theorem last_cons : last (c :: log) key = if c.key = key then some c else last log key := by
  unfold last
  split_ifs with h <;> simp [h]

variable {now : Instant} {d' : Dispatcher} {table : InspectedAddresses}

theorem selects_of_setting (h : d'.setting = { d.setting with inspected := table }) :
    d'.Selects sourcePort destinationPort ↔ d.Selects sourcePort destinationPort := by
  have hfilt : d'.filter = d.filter := congrArg Setting.filter h
  have hports : d'.inspectedPorts = d.inspectedPorts := congrArg Setting.inspectedPorts h
  have horig : d'.originationPorts = d.originationPorts := congrArg Setting.originationPorts h
  unfold Selects
  rw [hfilt, hports, horig]

/-- A connection stays where it is while its flow lasts or is refreshed, or, on the fast path, while no flow is opened
for it and no address becomes inspected that would select it. -/
theorem Placed.move (h : Placed d clock c) (hclock : clock ≤ now)
    (hset : d'.setting = { d.setting with inspected := table })
    (hkept : ∀ plan due, d.flowOf c.key = some (plan, due) → due ≤ now ∨
      ∃ plan' due', d'.flowOf c.key = some (plan', due') ∧
        (due ≤ due' ∨ c.at_.ns + d.flows.idleTimeout ≤ due'.ns))
    (hnone : c.path = .fastPath → d.accepts = .ipPackets → d.flowOf c.key = none → d'.flowOf c.key = none)
    (hlive : c.path = .fastPath → ∀ client server, c.key = .connection client server →
      d.Selects client.port server.port → ∀ t, now ≤ t → t.ns < c.at_.ns + d.flows.idleTimeout →
      table.live server.address t = true → d.inspected.live server.address t = true) :
    Placed d' now c := by
  have hidle : d'.flows.idleTimeout = d.flows.idleTimeout := congrArg Setting.idleTimeout hset
  have hacc : d'.accepts = d.accepts := congrArg Setting.accepts hset
  have hinsp : d'.inspected = table := congrArg Setting.inspected hset
  have hns : clock.ns ≤ now.ns := (le_iff _).mp hclock
  unfold Placed at h ⊢
  rw [hidle, hacc, hinsp]
  cases hpath : c.path with
  | termination =>
    rw [hpath] at h
    rcases h with hpast | ⟨plan, due, hflow, hle⟩
    · exact .inl (hpast.trans hns)
    rcases hkept plan due hflow with hdue | ⟨plan', due', hflow', hlater⟩
    · have := (le_iff _).mp hdue
      exact .inl (by omega)
    · refine .inr ⟨plan', due', hflow', ?_⟩
      rcases hlater with hlater | hlater
      · exact hle.trans ((le_iff _).mp hlater)
      · exact hlater
  | fastPath =>
    rw [hpath] at h
    obtain ⟨hpkts, hflow, hunsel⟩ := h
    refine ⟨hpkts, hnone hpath hpkts hflow, fun client server hkey hsel t ht hlt => ?_⟩
    rw [selects_of_setting hset] at hsel
    have hold := hunsel client server hkey hsel t (hclock.trans ht) hlt
    rcases hnew : table.live server.address t with _ | _
    · rfl
    rw [hlive hpath client server hkey hsel t ht hlt hnew] at hold
    cases hold

theorem Bound.aside (hb : Bound h) (haside : Aside h.d d') (hclock : h.clock ≤ now) : Bound ⟨d', h.log, now⟩ := by
  have hidle : d'.flows.idleTimeout = h.d.flows.idleTimeout := congrArg idleTimeout haside.setting
  refine ⟨fun key plan due hflow => hb.terminated key plan due (haside.flowOf key ▸ hflow),
    fun c hc => (hb.past c hc).trans hclock, fun key c hlast => ?_, hb.connection, hidle ▸ hb.sticky⟩
  exact (hb.placed key c hlast).move hclock haside.setting
    (fun plan due hflow => .inr ⟨plan, due, (haside.flowOf c.key).trans hflow, .inl (le_refl _)⟩)
    (fun _ _ hnone => (haside.flowOf c.key).trans hnone) fun _ _ _ _ _ _ _ _ hlive => hlive

variable {plan : FlowPlan}

/-- A flow is opened or refreshed: the connections of other packets stay where they are, and so does the flow's own
when it is a terminated one. -/
theorem Placed.opened (h : Placed d clock c)
    (hclock : clock ≤ now) (hpast : c.at_ ≤ clock) (hopen : Opened d d' key plan now)
    (hfast : c.path = .fastPath → d.accepts = .ipPackets → c.key ≠ key) : Placed d' now c := by
  obtain ⟨due, hdl, hflow⟩ := hopen.flowOf
  have hns := checkedAdd_eq_some hdl
  refine h.move hclock hopen.setting (fun plan' due' hold => .inr ?_) (fun hpath hpkts hnone => ?_)
    fun _ _ _ _ _ _ _ _ hlive => hlive
  · by_cases hkey : c.key = key
    · refine ⟨_, due, (hflow c.key).trans (if_pos hkey), .inr ?_⟩
      have := (le_iff _).mp (hpast.trans hclock)
      omega
    · exact ⟨plan', due', ((hflow c.key).trans (if_neg hkey)).trans hold, .inl (le_refl _)⟩
  · rw [hflow c.key, if_neg (hfast hpath hpkts)]
    exact hnone

theorem terminated_of_opened
    (h : ∀ key plan due, d.flowOf key = some (plan, due) → plan.transport = .localTermination)
    (hopen : Opened d d' key plan now) (hlocal : d.flowOf key = none → plan.transport = .localTermination) :
    ∀ key plan due, d'.flowOf key = some (plan, due) → plan.transport = .localTermination := by
  obtain ⟨due, -, hflow⟩ := hopen.flowOf
  intro k plan' due' hk
  rw [hflow k] at hk
  split_ifs at hk with hkey
  · rcases hold : d.flowOf key with _ | ⟨oldPlan, oldDeadline⟩
    · rw [hold] at hk
      cases hk
      exact hlocal hold
    rw [hold] at hk
    cases hk
    exact h key oldPlan oldDeadline hold
  · exact h k plan' due' hk

theorem Bound.opened (hb : Bound h) (hopen : Opened h.d d' key plan now) (hclock : h.clock ≤ now)
    (hlocal : h.d.flowOf key = none → plan.transport = .localTermination)
    (hfast : ∀ client server, key = .connection client server → h.d.accepts = .flows) : Bound ⟨d', h.log, now⟩ := by
  have hidle : d'.flows.idleTimeout = h.d.flows.idleTimeout := congrArg idleTimeout hopen.setting
  refine ⟨terminated_of_opened hb.terminated hopen hlocal, fun c hc => (hb.past c hc).trans hclock,
    fun k c hlast => ?_, hb.connection, hidle ▸ hb.sticky⟩
  obtain ⟨hmem, -⟩ := last_mem hlast
  refine (hb.placed k c hlast).opened hclock (hb.past c hmem) hopen fun _ hpkts hkey => ?_
  obtain ⟨client, server, hconn⟩ := hb.connection c hmem
  rw [hfast client server (hkey.symm.trans hconn)] at hpkts
  cases hpkts

variable {client server : InternalEndpoint}

theorem Bound.push {h : History} (hb : Bound h)
    (hidle : d'.flows.idleTimeout = h.d.flows.idleTimeout) (hclock : h.clock ≤ c.at_)
    (hconn : c.key = .connection client server)
    (hterm : ∀ key plan due, d'.flowOf key = some (plan, due) → plan.transport = .localTermination)
    (hpl : Placed d' c.at_ c)
    (hoth : ∀ key before, key ≠ c.key → last h.log key = some before → Placed d' c.at_ before)
    (hsame : ∀ before, last h.log c.key = some before → c.at_.ns < before.at_.ns + h.d.flows.idleTimeout →
      c.path = before.path) : Bound ⟨d', c :: h.log, c.at_⟩ := by
  refine ⟨hterm, fun c' hc' => ?_, fun key c' hlast => ?_, fun c' hc' => ?_, ?_⟩
  · rcases mem_cons.mp hc' with rfl | hc'
    · exact le_refl _
    · exact (hb.past c' hc').trans hclock
  · dsimp only at hlast
    rw [last_cons] at hlast
    split_ifs at hlast with hkey
    · cases hlast
      exact hpl
    · exact hoth key c' (fun hne => hkey hne.symm) hlast
  · rcases mem_cons.mp hc' with rfl | hc'
    · exact ⟨client, server, hconn⟩
    · exact hb.connection c' hc'
  · dsimp only
    rw [hidle]
    exact sticky_cons hb.sticky hsame

/-! ### One step -/

theorem tcp_of_keyOf (h : keyOf packet = some (.connection client server)) :
    packet.transport = .tcp client.port server.port ∧ packet.destination = server.address := by
  unfold keyOf at h
  cases ht : packet.transport <;> rw [ht] at h <;> cases h
  exact ⟨rfl, rfl⟩

theorem forwards_spec
    (hterm : ∀ key plan due, d.flowOf key = some (plan, due) → plan.transport = .localTermination)
    (hkey : keyOf packet = some (.connection client server))
    (hact : d.action packet .tunnel now = .ok (.forwardPacket plan)) :
    d.accepts = .ipPackets ∧ d.flowOf (.connection client server) = none ∧
      d.inspection packet .tunnel now = .excluded := by
  obtain ⟨htcp, -⟩ := tcp_of_keyOf hkey
  rw [action_tcp htcp] at hact
  rcases hplan : d.planFor packet .tunnel now with _ | chosen
  · simp [hplan] at hact
  simp only [hplan] at hact
  have hfast : chosen.transport ≠ .localTermination := by
    intro hlocal
    unfold routePlanned at hact
    rw [hlocal, htcp] at hact
    cases hact
  unfold planFor at hplan
  rw [kept_eq, hkey, bind_some] at hplan
  cases hflow : d.flowOf (.connection client server) with
  | some old =>
    rw [hflow] at hplan
    cases hplan
    exact absurd (hterm _ _ _ hflow) hfast
  | none =>
    rw [hflow] at hplan
    rw [d.plans_eq] at hplan
    cases hacc : d.accepts with
    | flows =>
      rw [hacc, planFlow_flows] at hplan
      cases hplan
      exact absurd rfl hfast
    | ipPackets =>
      refine ⟨rfl, rfl, ?_⟩
      cases hinsp : d.inspection packet .tunnel now with
      | excluded => rfl
      | candidate =>
        rw [hinsp, filter_of_candidate hinsp] at hplan
        cases hplan
        exact absurd rfl hfast

theorem Bound.forward (hb : Bound h) (haside : Aside h.d d') (hclock : h.clock ≤ now)
    (hkey : keyOf packet = some (.connection client server))
    (hact : h.d.action packet .tunnel now = .ok (.forwardPacket plan)) :
    Bound ⟨d', ⟨.connection client server, now, .fastPath⟩ :: h.log, now⟩ := by
  obtain ⟨hpkts, hnone, hexcl⟩ := forwards_spec hb.terminated hkey hact
  obtain ⟨htcp, hdst⟩ := tcp_of_keyOf hkey
  have hmoved := hb.aside haside hclock
  have hidle : d'.flows.idleTimeout = h.d.flows.idleTimeout := congrArg Setting.idleTimeout haside.setting
  have hinsp : d'.inspected = h.d.inspected := congrArg Setting.inspected haside.setting
  refine Bound.push (c := ⟨.connection client server, now, .fastPath⟩) hb hidle hclock rfl
    hmoved.terminated ?_ (fun key before _ hlast => hmoved.placed key before hlast) fun before hlast hlt => ?_
  · refine ⟨(congrArg Setting.accepts haside.setting).trans hpkts, (haside.flowOf _).trans hnone,
      fun client' server' hsame hsel t ht _ => ?_⟩
    cases hsame
    rcases hlive : d'.inspected.live server.address t with _ | _
    · rfl
    rw [hinsp] at hlive
    have hcand := (inspection_tcp htcp now).mpr
      ⟨(selects_of_setting haside.setting).mp hsel, by rw [hdst]; exact live_mono ht hlive⟩
    rw [hexcl] at hcand
    cases hcand
  · have hpl := hb.placed _ before hlast
    obtain ⟨-, hpre⟩ := last_mem hlast
    cases hpath : before.path with
    | fastPath => rfl
    | termination =>
      -- A terminated connection in use has its flow in the table.
      unfold Placed at hpl
      rw [hpath] at hpl
      have := (le_iff _).mp hclock
      rcases hpl with hpast | ⟨plan', deadline, hflow, -⟩
      · dsimp only at hlt
        omega
      · rw [hpre, hnone] at hflow
        cases hflow

theorem Bound.terminate (hb : Bound h)
    (hopen : Opened h.d d' (.connection client server) plan now) (hclock : h.clock ≤ now)
    (hkey : keyOf packet = some (.connection client server)) (hop : h.d.Opening packet .tunnel now plan) :
    Bound ⟨d', ⟨.connection client server, now, .termination⟩ :: h.log, now⟩ := by
  obtain ⟨hplan, hlocal, -⟩ := hop.plan
  obtain ⟨htcp, hdst⟩ := tcp_of_keyOf hkey
  obtain ⟨due, hdl, hflow⟩ := hopen.flowOf
  have hidle : d'.flows.idleTimeout = h.d.flows.idleTimeout := congrArg idleTimeout hopen.setting
  refine Bound.push (c := ⟨.connection client server, now, .termination⟩) hb hidle hclock rfl
    (terminated_of_opened hb.terminated hopen fun _ => hlocal) ?_ (fun key before hne hlast => ?_)
    fun before hlast hlt => ?_
  · refine .inr ⟨_, due, (hflow _).trans (if_pos rfl), ?_⟩
    rw [hidle]
    exact (checkedAdd_eq_some hdl).ge
  · obtain ⟨hmem, hpre⟩ := last_mem hlast
    exact (hb.placed key before hlast).opened hclock (hb.past before hmem) hopen fun _ _ => hpre ▸ hne
  · have hpl := hb.placed _ before hlast
    obtain ⟨-, hpre⟩ := last_mem hlast
    cases hpath : before.path with
    | termination => rfl
    | fastPath =>
      -- A connection in use on the fast path has no flow, so that its packet was planned as a candidate.
      unfold Placed at hpl
      rw [hpath] at hpl
      obtain ⟨hpkts, hnone, hunsel⟩ := hpl
      rw [hpre] at hnone
      rw [planFor, kept_eq, hkey, bind_some, hnone] at hplan
      have hcand := candidate_of_local hplan hlocal hpkts
      obtain ⟨hsel, hlive⟩ := (inspection_tcp htcp now).mp hcand
      rw [hdst, hunsel client server hpre hsel now hclock hlt] at hlive
      cases hlive

variable {whole : IngressPacket} {ingress : Ingress}

theorem carried_none (harr : d.arrival E origin ingress now = some whole)
    (h : ¬ (origin = .tunnel ∧ ∃ client server, keyOf whole = some (.connection client server))) :
    d.carried E origin ingress now = none := by
  unfold carried
  rw [harr]
  cases origin with
  | egress => rfl
  | tunnel =>
    dsimp only
    split
    · next client server hkey => exact absurd ⟨rfl, client, server, hkey⟩ h
    · rfl

theorem carried_connection (harr : d.arrival E .tunnel ingress now = some whole)
    (hkey : keyOf whole = some (.connection client server)) :
    d.carried E .tunnel ingress now = match d.action whole .tunnel now, (d.onPacket E .tunnel ingress now).2 with
      | .ok (.forwardPacket _), _ => some ⟨.connection client server, now, .fastPath⟩
      | .ok (.openStream _), .ok () => some ⟨.connection client server, now, .termination⟩
      | _, _ => none := by
  unfold carried
  rw [harr]
  dsimp only
  rw [hkey]

theorem Opening.stream (h : d.Opening packet origin now plan)
    (hkey : keyOf packet = some (.connection client server)) :
    d.action packet origin now = .ok (.openStream plan) := by
  obtain ⟨hplan, hlocal, -⟩ := h.plan
  rw [action_tcp (tcp_of_keyOf hkey).1, hplan]
  dsimp only [routePlanned]
  rw [hlocal, (tcp_of_keyOf hkey).1]

theorem bound_packet (E : Etherparse) (hb : Bound h) (origin : Side) (ingress : Ingress)
    (hclock : h.clock ≤ now) : Bound (h.step E (.packet origin ingress now)) := by
  unfold History.step
  dsimp only [Op.reading]
  rcases onPacket_spec E h.d origin ingress now with ⟨harr, haside⟩ | ⟨whole, harr, heffect⟩
  · have hnone : h.d.carried E origin ingress now = none := by
      unfold carried
      rw [harr]
      cases origin <;> rfl
    rw [hnone]
    exact hb.aside haside hclock
  · by_cases hconn : origin = .tunnel ∧ ∃ client server, keyOf whole = some (.connection client server)
    · obtain ⟨rfl, client, server, hkey⟩ := hconn
      rw [carried_connection harr hkey]
      rcases heffect with ⟨haside, href⟩ | ⟨plan, key, hopen, hkey', hop, hok⟩
      · have hstay := hb.aside haside hclock
        split
        · next plan hact => exact hb.forward haside hclock hkey hact
        · next plan hact hok => exact absurd hok (href plan (.inl hact))
        · exact hstay
      · rw [hkey] at hkey'
        cases hkey'
        rw [hopen.stream hkey, hok]
        exact hb.terminate hop hclock hkey hopen
    · rw [carried_none harr hconn]
      rcases heffect with ⟨haside, -⟩ | ⟨plan, key, hopen, hkey, hop, -⟩
      · exact hb.aside haside hclock
      obtain ⟨hplan, hlocal, -⟩ := hopen.plan
      refine hb.opened hop hclock (fun _ => hlocal) fun client server hsame => ?_
      subst hsame
      -- Only the egress side is left, and there a packet egress terminates nothing.
      cases origin with
      | tunnel => exact absurd ⟨rfl, client, server, hkey⟩ hconn
      | egress =>
        rw [planFor_egress] at hplan
        cases hacc : h.d.accepts with
        | flows => rfl
        | ipPackets =>
          rw [hacc] at hplan
          obtain ⟨mtu, hmtu⟩ := packetFastPath_of_planFlow hplan
          rw [hmtu] at hlocal
          cases hlocal

theorem bound_inspectAddresses (hb : Bound h)
    (hclock : h.clock ≤ now) (hunused : ∀ addr ∈ addresses, ¬ h.Uses addr now) :
    Bound ⟨h.d.inspectAddresses addresses now, h.log, now⟩ := by
  refine ⟨hb.terminated, fun c hc => (hb.past c hc).trans hclock, fun key c hlast => ?_, hb.connection, hb.sticky⟩
  have hset : (h.d.inspectAddresses addresses now).setting =
      { h.d.setting with inspected := (h.d.inspectAddresses addresses now).inspected } := rfl
  refine (hb.placed key c hlast).move hclock hset
    (fun plan due hflow => .inr ⟨plan, due, hflow, .inl (le_refl _)⟩) (fun _ _ hnone => hnone)
    fun hpath client server hkey hsel t ht hlt hlive => ?_
  by_cases hnamed : server.address ∈ addresses
  · -- The connection is not in use any more, so there is no such `t`.
    have hns : now.ns ≤ t.ns := (le_iff _).mp ht
    obtain ⟨-, hkey'⟩ := last_mem hlast
    refine absurd ⟨client, server, c.at_, ?_, rfl, hsel, by omega⟩ (hunused server.address hnamed)
    rw [← hkey, hkey', hlast, ← hpath, ← hkey']
  · obtain ⟨due, hlook, hlt'⟩ := live_iff.mp hlive
    refine live_iff.mpr ⟨due, ?_, hlt'⟩
    rwa [inspectAddresses, lookup_admitAddresses hnamed] at hlook

theorem bound_onTimeout (hb : Bound h) (hclock : h.clock ≤ now) : Bound ⟨h.d.onTimeout now, h.log, now⟩ := by
  obtain ⟨hset, hflow⟩ := onTimeout_spec h.d now
  have hidle : (h.d.onTimeout now).flows.idleTimeout = h.d.flows.idleTimeout := congrArg idleTimeout hset
  refine ⟨fun key plan due hkey => ?_, fun c hc => (hb.past c hc).trans hclock, fun key c hlast => ?_,
    hb.connection, hidle ▸ hb.sticky⟩
  · dsimp only at hkey
    rcases hflow key with hkept | ⟨hnone, -⟩
    · exact hb.terminated key plan due (hkept ▸ hkey)
    · rw [hnone] at hkey
      cases hkey
  · refine (hb.placed key c hlast).move hclock hset (fun plan due hold => ?_) (fun _ _ hnone => ?_)
      fun _ _ _ _ _ _ _ _ => live_of_expire
    · rcases hflow c.key with hkept | ⟨-, plan', deadline', hdue, hle⟩
      · exact .inr ⟨plan, due, hkept.trans hold, .inl (le_refl _)⟩
      · rw [hold] at hdue
        cases hdue
        exact .inl hle
    · rcases hflow c.key with hkept | ⟨hgone, -⟩
      · exact hkept.trans hnone
      · exact hgone

/-- **Step lemma**: a steady call keeps every connection bound to its path. -/
theorem bound_step (E : Etherparse) (h : History) (hb : Bound h) (hsteady : Steady h op) : Bound (h.step E op) := by
  obtain ⟨hread, hsteady⟩ := hsteady
  cases op with
  | packet origin ingress now => exact bound_packet E hb origin ingress (hread now rfl)
  | inspectAddresses addrs now => exact bound_inspectAddresses hb (hread now rfl) hsteady
  | onTimeout now => exact bound_onTimeout hb (hread now rfl)
  | onPathChange accepts next => exact hsteady.elim
  | deliverDatagram client peer payload now =>
    rcases deliverDatagram_spec h.d client peer payload now with haside | ⟨hlive, plan, hopen⟩
    · exact hb.aside haside (hread now rfl)
    · refine hb.opened hopen (hread now rfl) (fun hnone => ?_) fun _ _ hkey => by cases hkey
      rw [flowOf, map_eq_none_iff] at hnone
      rw [Datapath.contains, hnone] at hlive
      cases hlive
  | answerDns client resolver resp => exact hb.aside (untouched_answerDns h.d client resolver resp).aside (le_refl _)
  | pollDatagram => exact hb.aside (aside_pollDatagram h.d) (le_refl _)
  | pollQuery => exact hb.aside (@aside_step E h.d .pollQuery trivial) (le_refl _)
  | pollTerminate => exact hb.aside (@aside_step E h.d .pollTerminate trivial) (le_refl _)
  | pollTransmit => exact hb.aside (@aside_step E h.d .pollTransmit trivial) (le_refl _)
  | pollEvent => exact hb.aside (@aside_step E h.d .pollEvent trivial) (le_refl _)
  | takeSlice len => exact hb.aside (@aside_step E h.d (.takeSlice len) trivial) (le_refl _)
  | returnSlice => exact hb.aside (@aside_step E h.d .returnSlice trivial) (le_refl _)

/-- **A connection in use stays on its path**: in every run from a new datapath whose calls are all steady, a packet
that comes within the idle timeout of the last one of its connection takes the same path. -/
theorem sticky_run (E : Etherparse) {filter : FilterPolicy} {dns : DnsPolicy} {accepts : Accepts}
    {egress : PathProperties} {pathMtu : Mtu} {limits : DispatchLimits} {pool : BufferPool} {epoch : Instant}
    {d : Dispatcher} (hnew : new filter dns accepts egress pathMtu limits pool epoch = .ok d) (ops : List Op)
    (hsteady : Along (History.step E) Steady ⟨d, [], epoch⟩ ops) :
    Sticky limits.flowIdleTimeout (run (History.step E) ⟨d, [], epoch⟩ ops).log := by
  obtain ⟨hflows, hidle, -⟩ := Datapath.empty_of_new (datapath_of_new hnew).1
  have hstart : Bound ⟨d, [], epoch⟩ := by
    refine ⟨fun key plan due hflow => ?_, nofun, nofun, nofun, sticky_nil⟩
    simp [flowOf, hflows] at hflow
  obtain ⟨hbound, hkept⟩ := run_invariant
    (I := fun h : History => Bound h ∧ h.d.flows.idleTimeout = limits.flowIdleTimeout)
    (fun h op hI hG => ⟨bound_step E h hI.1 hG, (fixed_step E h.d op).2.trans hI.2⟩) ops _ ⟨hstart, hidle⟩ hsteady
  exact hkept ▸ hbound.sticky

/-- The server's address is inspected first; then the client's segments come a minute apart. -/
def steadyOps : List Op :=
  [.inspectAddresses [.v4 0xc6336402#32] (ofSecs 1),
    .packet .tunnel (.borrowed exampleSegment) (ofSecs 2), .onTimeout (ofSecs 62),
    .packet .tunnel (.borrowed exampleSegment) (ofSecs 63)]

/-- The connection is terminated and stays so, also when its server's address is no longer inspected. -/
theorem sticky_steadyOps : (run (History.step plainIp) ⟨inspecting .ipPackets, [], ofSecs 0⟩ steadyOps).log =
        [⟨exampleConnection, ofSecs 63, .termination⟩, ⟨exampleConnection, ofSecs 2, .termination⟩] ∧
      Sticky exampleLimits.flowIdleTimeout
        (run (History.step plainIp) ⟨inspecting .ipPackets, [], ofSecs 0⟩ steadyOps).log := by
  have hsteady : Along (History.step plainIp) Steady ⟨inspecting .ipPackets, [], ofSecs 0⟩ steadyOps := by
    refine ⟨⟨fun now h => ?_, fun addr _ => ?_⟩, ⟨fun now h => ?_, trivial⟩, ⟨fun now h => ?_, trivial⟩,
      ⟨fun now h => ?_, trivial⟩, trivial⟩
    · cases h
      decide
    · rintro ⟨client, server, at_, hlast, -⟩
      cases hlast
    · cases h
      decide
    · cases h
      decide
    · cases h
      decide
  have hsticky := sticky_run plainIp (new_inspecting .ipPackets) steadyOps hsteady
  exact ⟨by decide +kernel, hsticky⟩

/-- A segment is forwarded, the server's address becomes inspected, and the next segment comes two seconds later. -/
def movingOps : List Op :=
  [.packet .tunnel (.borrowed exampleSegment) (ofSecs 1),
    .inspectAddresses [.v4 0xc6336402#32] (ofSecs 2),
    .packet .tunnel (.borrowed exampleSegment) (ofSecs 3)]

/-- **Inspection moves a connection in use**: its first segment was forwarded to the egress, and its second is handed to
local termination, which never saw the connection begin. -/
theorem moved_by_inspection :
    let h := run (History.step plainIp) ⟨inspecting .ipPackets, [], ofSecs 0⟩ movingOps
    h.d.transmits = [⟨.egress, (spendHop exampleSegment).1⟩] ∧ h.d.terminate = [exampleSegment] ∧
      h.log = [⟨exampleConnection, ofSecs 3, .termination⟩, ⟨exampleConnection, ofSecs 1, .fastPath⟩] ∧
      ¬ Sticky exampleLimits.flowIdleTimeout h.log := by
  intro h
  have hlog : h.log = [⟨exampleConnection, ofSecs 3, .termination⟩,
      ⟨exampleConnection, ofSecs 1, .fastPath⟩] := by decide +revert
  refine ⟨by decide +revert, by decide +revert, hlog, fun hsticky => ?_⟩
  exact absurd (hsticky [] _ _ rfl ⟨exampleConnection, ofSecs 1, .fastPath⟩ (by decide) (by decide)) (by decide)

end Boreas.Dispatcher
