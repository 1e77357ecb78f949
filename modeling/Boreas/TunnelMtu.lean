import Boreas.Reports

/-! # Packets that fit the tunnel

ICMP errors are cut to sizes below every MTU, but the other packets queued for the tunnel are bounded by the pool's
slice alone.  `fitsTunnel_of_narrow` says that they fit in every run where no call brings a packet between the MTU and
the slice. -/

namespace Boreas

open L3 Runs

def sliceHeadroom : ℕ := 128

def sessionSlice (mtu : Mtu) : ℕ+ := ⟨mtu.bytes + sliceHeadroom, Nat.add_pos_right _ (by decide)⟩

namespace Dispatcher

def FitsTunnel (mtu : Mtu) (d : Dispatcher) : Prop :=
  ∀ transmit ∈ d.transmits, transmit.to_ = .tunnel → transmit.bytes.length ≤ mtu.bytes

/-- A packet of `length` bytes is within the tunnel's MTU, or too long for a slice. -/
def Narrow (d : Dispatcher) (length : ℕ) : Prop := length ≤ d.pathMtu.bytes ∨ d.pool.sliceSize < length

instance (d : Dispatcher) (length : ℕ) : Decidable (d.Narrow length) := instDecidableOr

instance (mtu : Mtu) (d : Dispatcher) : Decidable (FitsTunnel mtu d) := List.decidableBAll _ _

/-- The packet that a call brings for the tunnel is narrow. One that comes in a slice has that slice already. -/
def NarrowCall (d : Dispatcher) : Op → Prop
  | .packet .egress (.borrowed buf) _ => d.Narrow buf.length
  | .packet .egress (.owned packet) _ => packet.length ≤ d.pathMtu.bytes
  | .answerDns _ resolver response => d.Narrow (udpDatagramLen resolver.address response.length)
  | .deliverDatagram _ peer payload _ => d.Narrow (udpDatagramLen peer.address payload.length)
  | _ => True

instance (d : Dispatcher) : DecidablePred d.NarrowCall
  | .packet .egress (.borrowed buf) _ => inferInstanceAs (Decidable (d.Narrow buf.length))
  | .packet .egress (.owned packet) _ => inferInstanceAs (Decidable (packet.length ≤ d.pathMtu.bytes))
  | .answerDns _ resolver response =>
    inferInstanceAs (Decidable (d.Narrow (udpDatagramLen resolver.address response.length)))
  | .deliverDatagram _ peer payload _ =>
    inferInstanceAs (Decidable (d.Narrow (udpDatagramLen peer.address payload.length)))
  | .packet .tunnel _ _ => isTrue trivial
  | .inspectAddresses _ _ => isTrue trivial
  | .onTimeout _ => isTrue trivial
  | .onPathChange _ _ => isTrue trivial
  | .pollDatagram => isTrue trivial
  | .pollQuery => isTrue trivial
  | .pollTerminate => isTrue trivial
  | .pollTransmit => isTrue trivial
  | .pollEvent => isTrue trivial
  | .takeSlice _ => isTrue trivial
  | .returnSlice => isTrue trivial

/-! ### What a call queues -/

variable {mtu : Mtu} {d d' : Dispatcher}

theorem fitsTunnel_append (h : FitsTunnel mtu d) (hqueue : d'.transmits = d.transmits ++ [transmit])
    (hfits : transmit.to_ = .tunnel → transmit.bytes.length ≤ mtu.bytes) : FitsTunnel mtu d' := by
  intro queued hmem hto
  rw [hqueue, List.mem_append, List.mem_singleton] at hmem
  cases hmem with
  | inl hpre => exact h queued hpre hto
  | inr hnew =>
    subst hnew
    exact hfits hto

theorem FitsTunnel.of_queue (h : FitsTunnel mtu d) (hqueue : d'.transmits = d.transmits) : FitsTunnel mtu d' := by
  unfold FitsTunnel
  rwa [hqueue]

theorem length_written {pool : BufferPool} (htake : (pool.takeZeroed (udpDatagramLen peer.address n)).2 = some bytes)
    (hwrite : writeUdp bytes peer client payload = .ok out) :
    out.1.length = udpDatagramLen peer.address n ∧ out.1.length ≤ pool.sliceSize := by
  have hroom := pool.reserve_iff (udpDatagramLen peer.address n)
  unfold BufferPool.takeZeroed at htake
  rcases hresv : pool.reserve (udpDatagramLen peer.address n) with ⟨pool₁, granted⟩
  rw [hresv] at htake hroom
  rcases granted with _ | _
  · cases htake
  cases htake
  have hlen := (length_writeUdp hwrite).trans List.length_replicate
  exact ⟨hlen, hlen ▸ (hroom.mp rfl).1⟩

theorem transmits_answerDns (d : Dispatcher) (client resolver : InternalEndpoint) (resp : Bytes) :
    (d.answerDns client resolver resp).1.transmits = d.transmits ∨
      ∃ bytes : Bytes, bytes.length = udpDatagramLen resolver.address resp.length ∧
        bytes.length ≤ d.pool.sliceSize ∧
        (d.answerDns client resolver resp).1.transmits = d.transmits ++ [⟨.tunnel, bytes⟩] := by
  unfold answerDns
  rcases htaken : d.pool.takeZeroed (udpDatagramLen resolver.address resp.length) with ⟨pool, taken⟩
  rcases taken with _ | bytes
  · exact .inl rfl
  dsimp only
  rcases hwrite : writeUdp bytes resolver client resp with _ | out
  · exact .inl rfl
  obtain ⟨hlen, hslice⟩ := length_written (congrArg Prod.snd htaken) hwrite
  exact .inr ⟨out.1, hlen, hslice, rfl⟩

theorem transmits_deliverDatagram (d : Datapath) (client peer : InternalEndpoint) (payload : Bytes) (now : Instant) :
    (d.deliverDatagram client peer payload now).1.transmits = d.transmits ∨
      ∃ bytes : Bytes, bytes.length = udpDatagramLen peer.address payload.length ∧ bytes.length ≤ d.pool.sliceSize ∧
        (d.deliverDatagram client peer payload now).1.transmits = d.transmits ++ [⟨.tunnel, bytes⟩] := by
  obtain heq | ⟨-, plan, pool, transmits, events, heq, -, hsent⟩ := d.deliverDatagram_cases client peer payload now <;>
    rw [heq]
  · exact .inl rfl
  · refine hsent.imp_right fun ⟨bytes, out, htake, hwrite, hqueue⟩ => ?_
    obtain ⟨hlen, hslice⟩ := length_written htake hwrite
    exact ⟨out.1, hlen, hslice, hqueue⟩

theorem fitsTunnel_packet (h : FitsTunnel mtu d) (hmtu : d.pathMtu = mtu) (E : Etherparse)
    (hnar : d.NarrowCall (.packet origin ingress now)) : FitsTunnel mtu (d.step E (.packet origin ingress now)) := by
  obtain ⟨hquiet, -⟩ | ⟨-, whole, ingress', -, -, heg, hout⟩ := outcome_packet E d origin ingress now
  · exact h.of_queue hquiet.transmits
  generalize d.report E (.packet origin ingress now) = told at hout
  cases hout with
  | silent hqueue => exact h.of_queue hqueue
  | reported hquo hbytes horig hinfo hgr hicmp hqueue =>
    refine fitsTunnel_append h hqueue fun _ => ?_
    exact le_trans (Report.length_packet hbytes) mtu.min_le
  | forwarded hslice hqueue =>
    refine fitsTunnel_append h hqueue fun hto => ?_
    cases origin with
    | tunnel => cases hto
    | egress =>
      rw [heg rfl] at hslice ⊢
      rw [length_passedOn, ← hmtu]
      cases ingress with
      | owned pkt => exact hnar
      | borrowed buf =>
        cases hnar with
        | inl hle => exact hle
        | inr hlong => exact absurd (hslice buf rfl) (not_le.mpr hlong)

theorem fitsTunnel_generated (h : FitsTunnel mtu d) (hmtu : d.pathMtu = mtu) (hnar : d.Narrow length)
    (hqueue : d'.transmits = d.transmits ∨ ∃ bytes : Bytes, bytes.length = length ∧ bytes.length ≤ d.pool.sliceSize ∧
      d'.transmits = d.transmits ++ [⟨.tunnel, bytes⟩]) : FitsTunnel mtu d' := by
  obtain hsame | ⟨bytes, hlen, hslice, hqueue⟩ := hqueue
  · exact h.of_queue hsame
  refine fitsTunnel_append h hqueue fun _ => ?_
  dsimp only
  cases hnar with
  | inl hle =>
    rw [hmtu] at hle
    omega
  | inr hlong => omega

/-- **Step lemma**: a narrow call keeps the tunnel's queue within the MTU. -/
theorem fitsTunnel_step (h : FitsTunnel mtu d) (hmtu : d.pathMtu = mtu) (E : Etherparse)
    (hnar : d.NarrowCall op) : FitsTunnel mtu (d.step E op) := by
  cases op with
  | packet origin ingress now => exact fitsTunnel_packet h hmtu E hnar
  | answerDns client resolver resp =>
    exact fitsTunnel_generated h hmtu hnar (transmits_answerDns d client resolver resp)
  | deliverDatagram client peer payload now =>
    exact fitsTunnel_generated h hmtu hnar (transmits_deliverDatagram d.toDatapath client peer payload now)
  | pollTransmit => exact fun transmit hmem => h transmit (List.mem_of_mem_tail hmem)
  | _ => exact h.of_queue rfl

/-! ### Runs -/

/-- **Every packet for the tunnel fits it**, in every run from a new datapath whose calls are narrow: for every MTU and
every pool, those with slices above the MTU among them. -/
theorem fitsTunnel_of_narrow (E : Etherparse) {filter : FilterPolicy} {dns : DnsPolicy} {accepts : Accepts}
    {egress : PathProperties} {pathMtu : Mtu} {limits : DispatchLimits} {pool : BufferPool} {epoch : Instant}
    {d : Dispatcher} (hnew : new filter dns accepts egress pathMtu limits pool epoch = .ok d) (ops : List Op)
    (hnarrow : Along (step E) NarrowCall d ops) : FitsTunnel pathMtu (run (step E) d ops) := by
  obtain ⟨-, -, -, hempty, hmtu⟩ := Datapath.empty_of_new (datapath_of_new hnew).1
  have hstart : FitsTunnel pathMtu d := by
    intro transmit hmem
    rw [hempty] at hmem
    cases hmem
  exact (run_invariant (I := fun d => FitsTunnel pathMtu d ∧ d.pathMtu = pathMtu) (G := NarrowCall)
    (fun d op hI hG => ⟨fitsTunnel_step hI.1 hI.2 E hG, (fixed_step E d op).1.trans hI.2⟩) ops d
    ⟨hstart, hmtu⟩ hnarrow).1

/-! ### A reply above the MTU -/

def linkMtu : Mtu := ⟨1280, le_rfl, Nat.le_of_ble_eq_true rfl⟩

def clientDatagram : Bytes := plainPacket 17 0xc0000201#32 0xc6336402#32 4000 5000 [0, 11, 0, 0, 1, 2, 3]

def oneReply (length : ℕ) : List Op :=
  [.packet .tunnel (.borrowed clientDatagram) (Instant.ofSecs 1), .pollDatagram,
    .deliverDatagram ⟨.v4 0xc0000201#32, 4000⟩ ⟨.v4 0xc6336402#32, 5000⟩ (List.replicate length 0) (Instant.ofSecs 2)]

def relaySession : Except DatapathError Dispatcher :=
  new .passThrough .intercept .flows packetPath linkMtu exampleLimits
    (.new (sessionSlice linkMtu) (Nat.succPNat 7)) (Instant.ofSecs 0)

theorem fitsTunnel_oneReply : ∃ d, relaySession = .ok d ∧ Along (step plainIp) NarrowCall d (oneReply 1252) ∧
    FitsTunnel linkMtu (run (step plainIp) d (oneReply 1252)) := by
  obtain ⟨d, hd⟩ : ∃ d, relaySession = .ok d := ⟨_, rfl⟩
  have hnar : Along (step plainIp) NarrowCall d (oneReply 1252) := by
    cases hd
    decide +kernel
  exact ⟨d, hd, hnar, fitsTunnel_of_narrow plainIp hd _ hnar⟩

/-- **A reply that fits a slice of the session is queued above the link's MTU.** -/
theorem relayed_above_mtu : ∃ d, relaySession = .ok d ∧
    ¬ FitsTunnel linkMtu (run (step plainIp) d (oneReply 1380)) := by
  refine ⟨_, rfl, ?_⟩
  decide +kernel

end Dispatcher

end Boreas
