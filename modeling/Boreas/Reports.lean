import Boreas.DispatchFlows

/-! # Reporting to the client

A packet leads to nothing, to itself forwarded to the other side, or to an ICMP error for the client.  A `Report` is
an error with the packet that it quotes; `report` gives the one of a call.  `outcome_handle` is the inversion of a
whole packet's handling, and `outcome_packet` that of a packet call. -/

namespace Boreas

open IngressPacket L3 Slices

structure Report where
  error : IcmpError
  quoted : Bytes
deriving DecidableEq, Repr

def Report.packet (E : Etherparse) (r : Report) : Option Bytes :=
  match parse E r.quoted with
  | .error _ => none
  | .ok parsed =>
    match parsed.destination, parsed.source with
    | .v4 source, .v4 destination =>
      some (E.icmpv4 source destination r.error (r.quoted.take (maxIcmpv4Error - (20 + 8))))
    | .v6 source, .v6 destination =>
      some (E.icmpv6 source destination r.error (r.quoted.take (maxIcmpv6Error - (40 + 8))))
    | _, _ => none

theorem emit_ok (h : emit out packet = .ok (written, len)) : written.take len = packet := by
  unfold emit at h
  split_ifs at h with hle
  cases h
  simp [overwrite]

theorem writeIcmpError_ok (h : writeIcmpError E out quoted error = .ok (written, len)) :
    (⟨error, quoted⟩ : Report).packet E = some (written.take len) := by
  unfold writeIcmpError at h
  unfold Report.packet
  rcases hpar : parse E quoted with _ | parsed
  · simp [hpar] at h
  simp only [hpar] at h ⊢
  cases hdst : parsed.destination <;> cases hsrc : parsed.source <;>
    simp only [hdst, hsrc, reduceCtorEq] at h ⊢ <;> rw [emit_ok h]

theorem Report.length_packet {r : Report} {packet : Bytes} (h : r.packet E = some packet) :
    packet.length ≤ minIpv6Mtu := by
  unfold Report.packet at h
  split at h
  · cases h
  split at h
  · cases h
    rw [E.length_icmpv4, List.length_take]
    simp only [maxIcmpv4Error, minIpv6Mtu]
    omega
  · cases h
    rw [E.length_icmpv6, List.length_take]
    simp only [maxIcmpv6Error, minIpv6Mtu]
    omega
  · cases h

namespace Dispatcher

/-! ### The errors that are generated

One function for each that may generate an error, with the same branches: the report that the call queues. -/

def answerReport (d : Dispatcher) (E : Etherparse) (r : Report) : Option Report :=
  if (d.answerWith (fun reply => writeIcmpError E reply r.quoted r.error)).2 then some r else none

variable (E : Etherparse)

section

variable (d : Dispatcher)

def exhaustReport (bytes : Bytes) (to_ : Side) (quotingAllowed : Bool)
    (now : Instant) : Option Report :=
  let d := d.noting .hopsExhausted
  if to_ = .egress ∧ quotingAllowed then
    match d.takeIcmp now with
    | (d, true) => d.answerReport E ⟨.timeExceeded, bytes⟩
    | (_, false) => none
  else none

def forwardReport (ingress : Ingress) (to_ : Side) (quotingAllowed : Bool)
    (now : Instant) : Option Report :=
  match ingress.intoPooled d.pool with
  | (_, none) => none
  | (pool, some bytes) =>
    match spendHop bytes with
    | (bytes, some 0) => (d.pooling pool).exhaustReport E bytes to_ quotingAllowed now
    | (_, _) => none

def tooBigReport (buf : Bytes) (innerMtu : Mtu) (now : Instant) : Option Report :=
  match d.takeIcmp now with
  | (_, false) => none
  | (d, true) => d.answerReport E ⟨.tooBig innerMtu.bytes, buf⟩

def forwardPacketReport (packet : IngressPacket) (ingress : Ingress)
    (origin : Side) (plan : FlowPlan) (now : Instant) : Option Report :=
  let quotingAllowed := packet.transport ≠ .icmp .error
  match plan.transport with
  | .packetFastPath innerMtu =>
    if origin = .tunnel ∧ quotingAllowed ∧ innerMtu.bytes < ingress.bytes.length then
      d.tooBigReport E ingress.bytes innerMtu now
    else d.forwardReport E ingress origin.across quotingAllowed now
  | .localTermination => d.forwardReport E ingress origin.across quotingAllowed now

def handleReport (packet : IngressPacket) (ingress : Ingress) (origin : Side)
    (now : Instant) : Option Report :=
  match d.action packet origin now with
  | .ok (.forwardPacket plan) => d.forwardPacketReport E packet ingress origin plan now
  | .ok (.handleIcmp _) => d.forwardReport E ingress origin.across false now
  | _ => none

/-! ### What a packet leads to -/

structure Quiet (d d' : Dispatcher) : Prop where
  transmits : d'.transmits = d.transmits
  icmp : d'.icmp = d.icmp

theorem Quiet.refl : Quiet d d := ⟨rfl, rfl⟩

end

theorem Quiet.trans (h : Quiet d d') (h' : Quiet d' d'') : Quiet d d'' :=
  ⟨h'.transmits.trans h.transmits, h'.icmp.trans h.icmp⟩

theorem quiet_noting (d : Dispatcher) : Quiet d (d.noting event) := ⟨rfl, rfl⟩

theorem quiet_dropping (d : Dispatcher) (ingress : Ingress) : Quiet d (d.dropping ingress) := by
  cases ingress <;> exact ⟨rfl, rfl⟩

theorem Reassembled.quiet (h : Reassembled d d') : Quiet d d' := by
  obtain ⟨reasm, events, rfl⟩ := h
  exact ⟨rfl, rfl⟩

theorem quiet_interceptDns (d : Dispatcher) (packet : IngressPacket) (buf : Bytes) :
    Quiet d (d.interceptDns packet buf) := by
  unfold interceptDns
  split
  · split <;> exact ⟨rfl, rfl⟩
  · exact .refl d

theorem quiet_captureForTermination (ingress : Ingress) : Quiet d (d.captureForTermination ingress) := by
  unfold captureForTermination
  split <;> exact ⟨rfl, rfl⟩

theorem transmits_openFlow (d : Datapath) (key : FlowKey) (plan : FlowPlan) (now : Instant) :
    (d.openFlow key plan now).1.transmits = d.transmits := by
  unfold Datapath.openFlow
  split <;> rfl

theorem transmits_captureDatagram (d : Datapath) (packet : IngressPacket) (buf : Bytes) (client : FlowKey) :
    (d.captureDatagram packet buf client).transmits = d.transmits := by
  unfold Datapath.captureDatagram
  split
  · dsimp only
    split
    · rfl
    · rfl
    · split
      · rfl
      · split <;> rfl
  · rfl

theorem quiet_openStream (d : Dispatcher) (packet : IngressPacket) (ingress : Ingress) (origin : Side)
    (plan : FlowPlan) (now : Instant) : Quiet d (d.openStream packet ingress origin plan now).1 := by
  unfold openStream
  rcases keyOf packet with _ | key
  · exact quiet_dropping d ingress
  dsimp only
  have hflow := transmits_openFlow d.toDatapath key plan now
  rcases heq : d.openFlow key plan now with ⟨path, result⟩
  rw [heq] at hflow
  have hopen : Quiet d { d with toDatapath := path } := ⟨hflow, rfl⟩
  rcases result with _ | opened
  · exact hopen.trans (quiet_dropping _ ingress)
  have hnoted : Quiet d (if opened = true then { d with toDatapath := path }.noting (.streamOpened key.client)
      else { d with toDatapath := path }) := by
    cases opened <;> exact ⟨hflow, rfl⟩
  dsimp only
  by_cases horig : origin = .tunnel
  · rw [if_pos horig]
    exact hnoted.trans (quiet_captureForTermination ingress)
  · rw [if_neg horig]
    exact hnoted.trans (quiet_dropping _ ingress)

theorem quiet_openDatagram (d : Dispatcher) (packet : IngressPacket) (buf : Bytes) (origin : Side) (plan : FlowPlan)
    (now : Instant) : Quiet d { d with toDatapath := (d.openDatagram packet buf origin plan now).1 } := by
  refine ⟨?_, rfl⟩
  unfold Datapath.openDatagram
  rcases keyOf packet with _ | key
  · rfl
  dsimp only
  have hflow := transmits_openFlow d.toDatapath key plan now
  rcases heq : d.openFlow key plan now with ⟨path, result⟩
  rw [heq] at hflow
  rcases result with _ | opened
  · exact hflow
  cases opened <;> cases origin <;>
    first
    | exact (transmits_captureDatagram _ packet buf key).trans hflow
    | exact hflow

def passedOn (clamp : Option Mtu) (packet : Bytes) : Bytes :=
  clamp.elim (spendHop packet).1 fun innerMtu => (clampMss (spendHop packet).1 innerMtu).1

theorem length_passedOn : (passedOn clamp packet).length = packet.length := by
  cases clamp with
  | none => exact length_spendHop packet
  | some mtu => exact (length_clampMss _ mtu).trans (length_spendHop packet)

inductive Outcome (E : Etherparse) (d d' : Dispatcher) (packet : IngressPacket) (ingress : Ingress) (origin : Side)
    (now : Instant) : Option Report → Prop
  | silent (hqueue : d'.transmits = d.transmits) (hicmp : d'.icmp = d.icmp ∨ d'.icmp = (d.icmp.take now).1) :
      Outcome E d d' packet ingress origin now none
  | forwarded {clamp : Option Mtu} (hslice : ∀ buf, ingress = .borrowed buf → buf.length ≤ d.pool.sliceSize)
      (hqueue : d'.transmits = d.transmits ++ [⟨origin.across, passedOn clamp ingress.bytes⟩])
      (hicmp : d'.icmp = d.icmp) :
      Outcome E d d' packet ingress origin now none
  | reported {r : Report} {bytes : Bytes} (hquoted : r.quoted = ingress.bytes) (hbytes : r.packet E = some bytes)
      (horigin : origin = .tunnel) (hinformational : packet.transport ≠ .icmp .error)
      (hgranted : (d.icmp.take now).2 = true) (hicmp : d'.icmp = (d.icmp.take now).1)
      (hqueue : d'.transmits = d.transmits ++ [⟨.tunnel, bytes⟩]) :
      Outcome E d d' packet ingress origin now (some r)

variable {E : Etherparse} {d d' d'' : Dispatcher} {packet : IngressPacket} {ingress : Ingress} {origin : Side}
  {now : Instant} {told : Option Report}

theorem Quiet.outcome (h : Quiet d d') : Outcome E d d' packet ingress origin now none :=
  .silent h.transmits (.inl h.icmp)

theorem Outcome.then_quiet (h : Outcome E d d' packet ingress origin now told) (hquiet : Quiet d' d'') :
    Outcome E d d'' packet ingress origin now told := by
  cases h with
  | silent hqueue hicmp => exact .silent (hquiet.transmits.trans hqueue) (by rwa [hquiet.icmp])
  | forwarded hslice hqueue hicmp =>
    exact .forwarded hslice (hquiet.transmits.trans hqueue) (hquiet.icmp.trans hicmp)
  | reported hquo hbytes horig hinfo hgr hicmp hqueue =>
    exact .reported hquo hbytes horig hinfo hgr (hquiet.icmp.trans hicmp)
      (hquiet.transmits.trans hqueue)

theorem Outcome.after_quiet (hquiet : Quiet d d') (hsize : d'.pool.sliceSize = d.pool.sliceSize)
    (h : Outcome E d' d'' packet ingress origin now told) : Outcome E d d'' packet ingress origin now told := by
  cases h with
  | silent hqueue hicmp => exact .silent (hqueue.trans hquiet.transmits) (by rwa [hquiet.icmp] at hicmp)
  | forwarded hslice hqueue hicmp =>
    exact .forwarded (by rwa [hsize] at hslice) (by rw [hqueue, hquiet.transmits]) (hicmp.trans hquiet.icmp)
  | reported hquo hbytes horig hinfo hgr hicmp hqueue =>
    rw [hquiet.icmp] at hgr hicmp
    exact .reported hquo hbytes horig hinfo hgr hicmp (by rw [hqueue, hquiet.transmits])

theorem takeIcmp_spec (h : d.takeIcmp now = (d', granted)) :
    d'.transmits = d.transmits ∧ d'.icmp = (d.icmp.take now).1 ∧ (d.icmp.take now).2 = granted := by
  cases h
  exact ⟨rfl, rfl, rfl⟩

theorem answerWith_spec (d : Dispatcher) (write : Bytes → Except WriteError (Bytes × ℕ)) :
    (d.answerWith write).1.icmp = d.icmp ∧
      ((d.answerWith write).2 = false ∧ (d.answerWith write).1.transmits = d.transmits ∨
        (d.answerWith write).2 = true ∧ ∃ reply written len, write reply = .ok (written, len) ∧
          (d.answerWith write).1.transmits = d.transmits ++ [⟨.tunnel, written.take len⟩]) := by
  unfold answerWith
  rcases d.pool.takeZeroed d.pool.sliceSize with ⟨pool, taken⟩
  rcases taken with _ | reply
  · exact ⟨rfl, .inl ⟨rfl, rfl⟩⟩
  dsimp only
  cases hwrite : write reply with
  | error e => exact ⟨rfl, .inl ⟨rfl, rfl⟩⟩
  | ok written => exact ⟨rfl, .inr ⟨rfl, reply, written.1, written.2, hwrite, rfl⟩⟩

theorem outcome_answer (r : Report) (hquo : r.quoted = ingress.bytes)
    (hinfo : packet.transport ≠ .icmp .error) (hgr : (d.icmp.take now).2 = true)
    (hqueue : d'.transmits = d.transmits) (hicmp : d'.icmp = (d.icmp.take now).1) :
    Outcome E d (d'.answerWith (fun reply => writeIcmpError E reply r.quoted r.error)).1 packet ingress .tunnel now
      (d'.answerReport E r) := by
  obtain ⟨hsame, ⟨hno, htx⟩ | ⟨hyes, reply, written, len, hwrite, htx⟩⟩ :=
    d'.answerWith_spec fun reply => writeIcmpError E reply r.quoted r.error
  · rw [answerReport, if_neg (by simp [hno])]
    exact .silent (htx.trans hqueue) (.inr (hsame.trans hicmp))
  · rw [answerReport, if_pos hyes]
    exact .reported hquo (writeIcmpError_ok hwrite) rfl hinfo hgr (hsame.trans hicmp)
      (by rw [htx, hqueue])

theorem outcome_exhaust (hquo : quotingAllowed = true → packet.transport ≠ .icmp .error) :
    Outcome E d (d.exhaust E ingress.bytes origin.across quotingAllowed now) packet ingress origin now
      (d.exhaustReport E ingress.bytes origin.across quotingAllowed now) := by
  have hrel : ∀ d' told, Outcome E d d' packet ingress origin now told →
      Outcome E d { d' with pool := d'.pool.release } packet ingress origin now told :=
    fun d' told h => h.then_quiet ⟨rfl, rfl⟩
  unfold exhaust exhaustReport
  refine hrel _ _ ?_
  by_cases hquote : origin.across = .egress ∧ quotingAllowed = true
  · rw [if_pos hquote, if_pos hquote]
    have horig : origin = .tunnel := by
      cases origin with
      | tunnel => rfl
      | egress => cases hquote.1
    subst horig
    rcases htake : (d.noting .hopsExhausted).takeIcmp now with ⟨d', granted⟩
    obtain ⟨hqueue, hicmp, hgr⟩ := takeIcmp_spec htake
    cases granted with
    | false => exact .silent hqueue (.inr hicmp)
    | true => exact outcome_answer ⟨.timeExceeded, ingress.bytes⟩ rfl (hquo hquote.2) hgr hqueue hicmp
  · rw [if_neg hquote, if_neg hquote]
    exact (quiet_noting d).outcome

theorem intoPooled_some (h : ingress.intoPooled pool = (pool', some bytes)) :
    bytes = ingress.bytes ∧ pool'.sliceSize = pool.sliceSize ∧
      ∀ buf, ingress = .borrowed buf → buf.length ≤ pool.sliceSize := by
  cases ingress with
  | owned buf =>
    cases h
    exact ⟨rfl, rfl, fun _ h => nomatch h⟩
  | borrowed buf =>
    have hroom := pool.reserve_iff buf.length
    have hsize := pool.reserve_sliceSize buf.length
    change pool.take buf = _ at h
    unfold BufferPool.take at h
    rcases hresv : pool.reserve buf.length with ⟨pool₁, granted⟩
    rw [hresv] at h hroom hsize
    rcases granted with _ | _
    · cases h
    cases h
    refine ⟨rfl, hsize, fun buf' heq => ?_⟩
    cases heq
    exact (hroom.mp rfl).1

theorem outcome_forward (hquo : quotingAllowed = true → packet.transport ≠ .icmp .error) (clamp : Option Mtu) :
    Outcome E d (d.forward E ingress origin.across clamp quotingAllowed now) packet ingress origin now
      (d.forwardReport E ingress origin.across quotingAllowed now) := by
  unfold forward forwardReport
  rcases hpooled : ingress.intoPooled d.pool with ⟨pool, taken⟩
  rcases taken with _ | bytes
  · exact Quiet.outcome ⟨rfl, rfl⟩
  obtain ⟨rfl, hsize, hslice⟩ := intoPooled_some hpooled
  dsimp only
  rcases hhop : spendHop ingress.bytes with ⟨spent, left⟩
  have hexh := @spendHop_exhausted ingress.bytes
  have hpassed : passedOn clamp ingress.bytes =
      clamp.elim spent fun mtu => (clampMss spent mtu).1 := by
    unfold passedOn
    rw [hhop]
  have hqueue := congrArg (fun bytes => d.transmits ++ [Transmit.mk origin.across bytes]) hpassed.symm
  rw [hhop] at hexh
  rcases left with _ | left
  · exact .forwarded hslice hqueue rfl
  cases left with
  | succ left => exact .forwarded hslice hqueue rfl
  | zero =>
    have hspent : spent = ingress.bytes := hexh rfl
    subst hspent
    have hquiet : Quiet d { d with pool := pool } := ⟨rfl, rfl⟩
    exact Outcome.after_quiet hquiet hsize (outcome_exhaust hquo)

theorem outcome_reportTooBig (hinfo : packet.transport ≠ .icmp .error) (mtu : Mtu) :
    Outcome E d (d.reportTooBig E ingress.bytes mtu now) packet ingress .tunnel now
      (d.tooBigReport E ingress.bytes mtu now) := by
  unfold reportTooBig tooBigReport
  rcases htake : d.takeIcmp now with ⟨d', granted⟩
  obtain ⟨hqueue, hicmp, hgr⟩ := takeIcmp_spec htake
  rcases granted with _ | _
  · exact .silent hqueue (.inr hicmp)
  have hans : Outcome E d
      (d'.answerWith fun reply => writeIcmpError E reply ingress.bytes (.tooBig mtu.bytes)).1 packet
      ingress .tunnel now (d'.answerReport E ⟨.tooBig mtu.bytes, ingress.bytes⟩) :=
    outcome_answer ⟨.tooBig mtu.bytes, ingress.bytes⟩ rfl hinfo hgr hqueue hicmp
  dsimp only
  rcases hqueued : d'.answerWith fun reply => writeTooBig E reply ingress.bytes mtu.bytes with ⟨d'', queued⟩
  have heq : (d'.answerWith fun reply => writeIcmpError E reply ingress.bytes (.tooBig mtu.bytes)).1 =
      d'' := congrArg Prod.fst hqueued
  rw [heq] at hans
  cases queued with
  | false => exact hans
  | true => exact hans.then_quiet (quiet_noting _)

theorem outcome_forwardPacket (plan : FlowPlan) :
    Outcome E d (d.forwardPacket E packet ingress origin plan now) packet ingress origin now
      (d.forwardPacketReport E packet ingress origin plan now) := by
  have hquo : decide (packet.transport ≠ .icmp .error) = true → packet.transport ≠ .icmp .error :=
    of_decide_eq_true
  unfold forwardPacket forwardPacketReport
  cases plan.transport with
  | packetFastPath mtu =>
    dsimp only
    by_cases hbig : origin = .tunnel ∧ packet.transport ≠ .icmp .error ∧ mtu.bytes < ingress.bytes.length
    · rw [if_pos hbig, if_pos hbig]
      obtain ⟨rfl, hinfo, -⟩ := hbig
      exact (outcome_reportTooBig hinfo mtu).then_quiet (quiet_dropping _ ingress)
    · rw [if_neg hbig, if_neg hbig]
      exact outcome_forward hquo _
  | localTermination => exact outcome_forward hquo _

theorem outcome_handle (hwhole : packet.transport ≠ .fragment) :
    Outcome E d (d.handle E packet ingress origin now).1 packet ingress origin now
      (d.handleReport E packet ingress origin now) := by
  unfold handle dispatchWithin handleReport
  rcases hact : d.action packet origin now with _ | action
  · exact (quiet_dropping d ingress).outcome
  cases action with
  | reassemble => exact absurd (action_reassemble hact) hwhole
  | resolveDns => exact ((quiet_interceptDns d packet ingress.bytes).trans (quiet_dropping _ ingress)).outcome
  | dropSteered => exact ((quiet_noting d).trans (quiet_dropping _ ingress)).outcome
  | forwardPacket plan => exact outcome_forwardPacket plan
  | openStream plan => exact (quiet_openStream d packet ingress origin plan now).outcome
  | openDatagram plan =>
    exact ((quiet_openDatagram d packet ingress.bytes origin plan now).trans (quiet_dropping _ ingress)).outcome
  | handleIcmp plan => exact outcome_forward (fun h : false = true => absurd h (by decide)) none
  | dropUnsupported => exact (quiet_dropping d ingress).outcome

/-! ### Packets of either side -/

variable (E : Etherparse)

variable (d : Dispatcher)

/-- The whole packet that a packet from one side leads to, in the form in which it is handled: as it came, or as the
datagram that its fragments complete. -/
def handled (origin : Side) (ingress : Ingress) (now : Instant) :
    Option (Dispatcher × IngressPacket × Ingress) :=
  match parse E ingress.bytes with
  | .error _ => none
  | .ok packet =>
    if packet.transport = .fragment then
      match d.arrived E origin ingress now with
      | (d, some (whole, bytes)) => some (d, whole, .borrowed bytes)
      | (_, none) => none
    else some (d, packet, ingress)

/-- **A packet is handled as a whole packet, or nothing comes of it.** -/
theorem onPacket_handled (origin : Side) (ingress : Ingress) (now : Instant) :
    match d.handled E origin ingress now with
    | none => Quiet d (d.onPacket E origin ingress now).1
    | some (d', whole, ingress') =>
      Reassembled d d' ∧ whole.transport ≠ .fragment ∧ parse E ingress'.bytes = .ok whole ∧
        (origin = .egress → ingress' = ingress) ∧
        Quiet (d'.handle E whole ingress' origin now).1 (d.onPacket E origin ingress now).1 := by
  unfold handled onPacket arrived
  rcases hpar : parse E ingress.bytes with _ | packet
  · exact quiet_dropping d ingress
  dsimp only
  by_cases hfrag : packet.transport = .fragment
  · rw [if_pos hfrag]
    cases origin with
    | egress =>
      dsimp only [dispatchFromEgress]
      rw [if_pos hfrag, if_pos hfrag]
      exact (quiet_noting d).trans (quiet_dropping _ ingress)
    | tunnel =>
      have honly := resolve_only E (d.depth ingress.bytes) d packet ingress.bytes now
      dsimp only [dispatch]
      rw [dispatchWithin_fragment E _ d ingress _ now hfrag, if_neg (by unfold depth; omega)]
      rcases hr : resolve E (d.depth ingress.bytes) d packet ingress.bytes now with ⟨d', found⟩
      rw [hr] at honly
      rcases found with _ | found
      · exact honly.quiet.trans (quiet_dropping d' ingress)
      rcases found with _ | found
      · exact honly.quiet.trans (quiet_dropping d' ingress)
      obtain ⟨hwhole, hbytes⟩ := resolve_whole (congrArg Prod.snd hr)
      exact ⟨honly, hwhole, hbytes hpar, by simp, quiet_dropping _ ingress⟩
  · rw [if_neg hfrag]
    refine ⟨.refl d, hfrag, hpar, fun _ => rfl, ?_⟩
    cases origin with
    | tunnel =>
      dsimp only [dispatch, depth]
      rw [dispatchWithin_whole E _ d ingress _ now hfrag]
      exact .refl _
    | egress =>
      dsimp only [dispatchFromEgress, dispatch, depth]
      rw [if_neg hfrag, dispatchWithin_whole E _ d ingress _ now hfrag]
      exact .refl _

def report : Op → Option Report
  | .packet origin ingress now =>
    match d.handled E origin ingress now with
    | some (d, whole, ingress) => d.handleReport E whole ingress origin now
    | none => none
  | _ => none

/-- **What a packet leads to.** A packet of the egress is handled as it came. -/
theorem outcome_packet (origin : Side) (ingress : Ingress) (now : Instant) :
    Quiet d (d.step E (.packet origin ingress now)) ∧ d.report E (.packet origin ingress now) = none ∨
      ∃ d' whole ingress', d.handled E origin ingress now = some (d', whole, ingress') ∧
        parse E ingress'.bytes = .ok whole ∧ (origin = .egress → ingress' = ingress) ∧
        Outcome E d (d.step E (.packet origin ingress now)) whole ingress' origin now
          (d.report E (.packet origin ingress now)) := by
  have hpkt := onPacket_handled E d origin ingress now
  unfold report
  dsimp only [step]
  rcases hhand : d.handled E origin ingress now with _ | ⟨d', whole, ingress'⟩
  · rw [hhand] at hpkt
    exact .inl ⟨hpkt, rfl⟩
  rw [hhand] at hpkt
  obtain ⟨honly, hwhole, hpar, heg, hquiet⟩ := hpkt
  have hsize : d'.pool.sliceSize = d.pool.sliceSize := by
    obtain ⟨reasm, events, rfl⟩ := honly
    rfl
  exact .inr ⟨d', whole, ingress', rfl, hpar, heg,
    Outcome.after_quiet honly.quiet hsize ((outcome_handle hwhole).then_quiet hquiet)⟩

theorem icmp_step (h : ∀ origin ingress now, op ≠ .packet origin ingress now) :
    (d.step E op).icmp = d.icmp := by
  cases op with
  | packet origin ingress now => exact absurd rfl (h origin ingress now)
  | answerDns client resolver resp =>
    dsimp only [step]
    unfold answerDns
    split
    · rfl
    · split <;> rfl
  | _ => rfl

def lastHop : Bytes := exampleSegment.set 8 1

end Dispatcher

end Boreas
