import Boreas.DispatchDepth
import Boreas.DispatchFlows
import Boreas.ReassemblyComplete

/-! # Senders that obey Packet Too Big

A client's packet above the inner MTU is answered with Packet Too Big, so that the client fragments.  Its fragments
are reassembled before the size test, so they get through exactly when the whole of their datagram fits
(`getsThrough_iff`). -/

namespace Boreas

open IngressPacket L3 List Runs Slices

def relayed (innerMtu : Mtu) (bytes : Bytes) : Bytes := (clampMss (spendHop bytes).1 innerMtu).1

namespace Dispatcher

structure Piece (E : Etherparse) (ingress : Ingress) (f : Fragment) : Prop where
  fragment : ∃ packet, parse E ingress.bytes = .ok packet ∧ packet.transport = .fragment
  parsed : fragmentOf E ingress.bytes = .ok (some f)

theorem headers_le (h : fragmentOf E buf = .ok (some f)) : 20 ≤ buf.length := by
  have hread := f.headersRead
  have hle : f.headers.length ≤ buf.length := by
    unfold fragmentOf at h
    rcases hip : E.fromIp buf with _ | sliced
    · simp [hip] at h
    simp only [hip, Except.ok.injEq] at h
    unfold Fragment.parse at h
    split at h
    · cases h
    · cases h
    · split_ifs at h
      cases h
      simp
    split_ifs at h
    split at h
    · cases h
      simp
    · cases h
  rcases hn : f.nextHeaderAt with _ | n
  · rw [hn] at hread
    have := hread.1
    omega
  rw [hn] at hread
  have := hread.1
  unfold ipv6HeaderBytes at this
  omega

variable {d : Dispatcher} {ingress : Ingress}

variable {now : Instant}

theorem onPacket_fragment (h : Piece E ingress f) : (d.onPacket E .tunnel ingress now).1 =
      match d.reassembler.push f now with
      | (reassembler, .pending) => { d with reassembler := reassembler }.dropping ingress
      | (reassembler, .discarded) =>
        ({ d with reassembler := reassembler }.noting .reassemblyDiscarded).dropping ingress
      | (reassembler, .complete dgram) =>
        match parse E dgram with
        | .error _ => { d with reassembler := reassembler }.dropping ingress
        | .ok packet =>
          (dispatchWithin E (d.depth ingress.bytes - 1) { d with reassembler := reassembler } packet
            (.borrowed dgram) .tunnel now).1.dropping ingress := by
  obtain ⟨packet, hpkt, htrans⟩ := h.fragment
  obtain ⟨n, hdepth⟩ : ∃ n, d.depth ingress.bytes = n + 1 := ⟨_, rfl⟩
  unfold onPacket
  rw [hpkt]
  dsimp only [dispatch]
  rw [hdepth, dispatchWithin, action_fragment htrans, Nat.add_sub_cancel]
  unfold onFragment
  rw [h.parsed]
  dsimp only
  rcases d.reassembler.push f now with ⟨reassembler, outcome⟩
  cases outcome with
  | pending | discarded => rfl
  | complete dgram =>
    dsimp only
    cases parse E dgram <;> rfl

/-! ### A datagram that gets through -/

/-- The datagram is forwarded to the egress, and is not answered with Packet Too Big. -/
structure GetsThrough (innerMtu : Mtu) (datagram : Bytes) (d d' : Dispatcher) : Prop where
  forwarded : d.forwarded d' = [⟨.egress, relayed innerMtu datagram⟩]
  unanswered : .pathReported innerMtu ∉ d'.events.drop d.events.length

/-- The whole datagram meets the inner MTU, unless it is an ICMP error; the pool has a slice for it; and it has a hop
left. -/
structure Fits (d : Dispatcher) (packet : IngressPacket) (datagram : Bytes) (innerMtu : Mtu) : Prop where
  mtu : packet.transport = .icmp .error ∨ datagram.length ≤ innerMtu.bytes
  slice : (d.pool.take datagram).2 ≠ none
  hop : (spendHop datagram).2 ≠ some 0

theorem Answered.forwarded (h : Answered d d') : d.forwarded d' = [] := by
  obtain ⟨replies, hreplies⟩ := h.replies
  simp [Dispatcher.forwarded, hreplies]

theorem take_eq_some {p : BufferPool} (h : (p.take bytes).2 ≠ none) :
    p.take bytes = ((p.take bytes).1, some bytes) := by
  unfold BufferPool.take at h ⊢
  rcases hr : p.reserve bytes.length with ⟨p', granted⟩
  cases granted with
  | true => rfl
  | false => simp [hr] at h

theorem forward_borrowed (E : Etherparse) (d : Dispatcher) (bytes : Bytes) (innerMtu : Mtu) (quotingAllowed : Bool)
    (now : Instant) :
    let d' := d.forward E (.borrowed bytes) .egress (some innerMtu) quotingAllowed now
    ((d.pool.take bytes).2 ≠ none ∧ (spendHop bytes).2 ≠ some 0 ∧
        d'.transmits = d.transmits ++ [⟨.egress, relayed innerMtu bytes⟩] ∧ d'.events = d.events) ∨
      ((d.pool.take bytes).2 = none ∨ (spendHop bytes).2 = some 0) ∧ Answered d d' := by
  unfold forward
  dsimp only [Ingress.intoPooled]
  by_cases htaken : (d.pool.take bytes).2 = none
  · right
    refine ⟨.inl htaken, ?_⟩
    rcases hr : d.pool.take bytes with ⟨pool, taken⟩
    rw [hr] at htaken
    subst htaken
    exact ⟨⟨rfl, rfl, rfl⟩, [], (append_nil _).symm⟩
  · rw [take_eq_some htaken]
    dsimp only
    rcases hhop : spendHop bytes with ⟨spent, left⟩
    by_cases hzero : left = some 0
    · right
      subst hzero
      exact ⟨.inr rfl, { answered_exhaust E _ spent .egress quotingAllowed now with }⟩
    · left
      refine ⟨by simp, hzero, ?_⟩
      simp only [relayed, hhop]
      exact ⟨rfl, trivial⟩

variable {innerMtu : Mtu}

theorem forwardPacket_fits (E : Etherparse) (d : Dispatcher) (packet : IngressPacket) (dgram : Bytes)
    (hplan : plan.transport = .packetFastPath innerMtu) (now : Instant) :
    let d' := d.forwardPacket E packet (.borrowed dgram) .tunnel plan now
    (d.Fits packet dgram innerMtu ∧ d'.transmits = d.transmits ++ [⟨.egress, relayed innerMtu dgram⟩] ∧
      d'.events = d.events) ∨ ¬ d.Fits packet dgram innerMtu ∧ Answered d d' := by
  unfold forwardPacket
  simp only [hplan, Ingress.bytes, true_and]
  by_cases hbig : packet.transport ≠ .icmp .error ∧ innerMtu.bytes < dgram.length
  · right
    rw [if_pos hbig]
    refine ⟨fun h => ?_, answered_reportTooBig E d dgram innerMtu now⟩
    cases h.mtu with
    | inl herror => exact hbig.1 herror
    | inr hle => omega
  · rw [if_neg hbig]
    obtain ⟨hslice, hhop, hforward⟩ | ⟨hno, hans⟩ := forward_borrowed E d dgram innerMtu
      (decide (packet.transport ≠ .icmp .error)) now
    · left
      refine ⟨⟨?_, hslice, hhop⟩, hforward⟩
      by_cases herror : packet.transport = .icmp .error
      · exact .inl herror
      · exact .inr (not_lt.mp fun hlt => hbig ⟨herror, hlt⟩)
    · right
      refine ⟨fun h => ?_, hans⟩
      cases hno with
      | inl hnone => exact h.slice hnone
      | inr hzero => exact h.hop hzero

variable {packet : IngressPacket}

/-- **A datagram on the fast path gets through exactly when it fits.** -/
theorem getsThrough_handle (hact : d.action packet .tunnel now = .ok (.forwardPacket plan))
    (hplan : plan.transport = .packetFastPath innerMtu) (datagram : Bytes) :
    GetsThrough innerMtu datagram d (d.handle E packet (.borrowed datagram) .tunnel now).1 ↔
      d.Fits packet datagram innerMtu := by
  have hhandle : (d.handle E packet (.borrowed datagram) .tunnel now).1 =
      d.forwardPacket E packet (.borrowed datagram) .tunnel plan now := by
    unfold handle dispatchWithin
    rw [hact]
  rw [hhandle]
  obtain ⟨hfits, htx, hev⟩ | ⟨hnot, hans⟩ := forwardPacket_fits E d packet datagram hplan now
  · exact iff_of_true ⟨by simp [forwarded, htx], by simp [hev]⟩ hfits
  · exact iff_of_false (fun h => by simpa [hans.forwarded] using h.forwarded) hnot

/-! ### Its fragments -/

def sent (sends : List (Ingress × Instant)) : List Op := sends.map fun send => .packet .tunnel send.1 send.2

structure Undisturbed (d d' : Dispatcher) : Prop where
  untouched : Untouched d d'
  transmits : d'.transmits = d.transmits
  events : d'.events = d.events

theorem Undisturbed.refl (d : Dispatcher) : Undisturbed d d := ⟨.refl d, rfl, rfl⟩

theorem Undisturbed.trans (h : Undisturbed d d') (h' : Undisturbed d' d'') : Undisturbed d d'' :=
  ⟨h.untouched.trans h'.untouched, h'.transmits.trans h.transmits, h'.events.trans h.events⟩

theorem undisturbed_pushed (d : Dispatcher) (reassembler : Reassembler) :
    Undisturbed d ({ d with reassembler := reassembler }.dropping ingress) := by
  cases ingress <;> exact ⟨⟨rfl, rfl, rfl⟩, rfl, rfl⟩

variable {acc : List Fragment}

theorem not_full_of_holds {r : Reassembler} (h : r.Holds k acc) (hne : acc ≠ []) : ¬ r.Full k := by
  rintro ⟨hnone, -⟩
  obtain ⟨-, hnil⟩ | ⟨p, hp, -⟩ := h
  · exact hne hnil
  · rw [hp] at hnone
    cases hnone

variable {E : Etherparse} {o : Original} {fs : List Fragment}

variable {g : Fragment}

theorem step_piece (hsplit : Split o fs) (hholds : d.reassembler.Holds o.key acc) (hroom : ¬ d.reassembler.Full o.key)
    (hperm : (acc ++ g :: rest).Perm fs) (hrest : rest ≠ []) (hpiece : Piece E ingress g) (now : Instant) :
    Undisturbed d (d.step E (.packet .tunnel ingress now)) ∧
      (d.step E (.packet .tunnel ingress now)).reassembler.Holds o.key (acc ++ [g]) := by
  have hkey : g.key = o.key := hsplit.key g (hperm.subset (by simp))
  have hpush := @Reassembler.Holds.push o fs acc rest g d.reassembler now hsplit hholds hperm (by rwa [hkey])
  rw [if_neg hrest] at hpush
  have hstep : d.step E (.packet .tunnel ingress now) =
      { d with reassembler := (d.reassembler.push g now).1 }.dropping ingress := by
    show (d.onPacket E .tunnel ingress now).1 = _
    rw [onPacket_fragment hpiece]
    rcases hr : d.reassembler.push g now with ⟨reassembler, outcome⟩
    rw [hr] at hpush
    obtain ⟨hpend, -⟩ := hpush
    subst hpend
    rfl
  rw [hstep]
  refine ⟨undisturbed_pushed d _, ?_⟩
  cases ingress <;> exact hpush.2

variable {sends : List (Ingress × Instant)} {gs : List Fragment}

/-- **The fragments before the last to come wait**, in whatever order they come. -/
theorem run_pieces (hsplit : Split o fs) (hrest : rest ≠ [])
    (hpcs : Forall₂ (fun send f => Piece E send.1 f) sends gs)
    (hholds : d.reassembler.Holds o.key acc) (hroom : ¬ d.reassembler.Full o.key)
    (hperm : (acc ++ gs ++ rest).Perm fs) :
    Undisturbed d (run (step E) d (sent sends)) ∧ (run (step E) d (sent sends)).reassembler.Holds o.key (acc ++ gs) ∧
      ¬ (run (step E) d (sent sends)).reassembler.Full o.key := by
  induction hpcs generalizing acc d with
  | nil => exact ⟨.refl d, by simpa [sent] using hholds, hroom⟩
  | @cons send g sends gs hpiece _ ih =>
    have hperm' : (acc ++ g :: (gs ++ rest)).Perm fs := by simpa using hperm
    obtain ⟨hfirst, hnext⟩ := step_piece hsplit hholds hroom hperm' (by simp [hrest]) hpiece send.2
    obtain ⟨hlater, hheld, hroom'⟩ := ih hnext (not_full_of_holds hnext (by simp)) (by simpa using hperm)
    exact ⟨hfirst.trans hlater, by simpa [sent] using hheld, hroom'⟩

/-- **The last fragment to come brings the datagram**, which is handled as if it had come whole. -/
theorem onPacket_last (hsplit : Split o fs)
    (hholds : d.reassembler.Holds o.key gs) (hroom : ¬ d.reassembler.Full o.key) (hperm : (gs ++ [g]).Perm fs)
    (hpiece : Piece E ingress g) (now : Instant) (hparse : parse E o.restored = .ok packet)
    (hwhole : packet.transport ≠ .fragment) :
    (d.onPacket E .tunnel ingress now).1 =
      ({ d with reassembler := (d.reassembler.push g now).1 }.handle E packet (.borrowed o.restored) .tunnel
        now).1.dropping ingress := by
  have hkey : g.key = o.key := hsplit.key g (hperm.subset (by simp))
  have hpush := @Reassembler.Holds.push o fs gs [] g d.reassembler now hsplit hholds hperm (by rwa [hkey])
  obtain ⟨n, hdepth⟩ : ∃ n, d.depth ingress.bytes - 1 = n + 1 := by
    have := headers_le hpiece.parsed
    exact ⟨d.depth ingress.bytes - 2, by unfold depth; omega⟩
  rw [onPacket_fragment hpiece]
  rcases hr : d.reassembler.push g now with ⟨reassembler, outcome⟩
  rw [hr] at hpush
  subst hpush
  dsimp only
  rw [hparse]
  dsimp only
  rw [hdepth, dispatchWithin_whole E n _ _ _ _ hwhole]

theorem forwarded_of_same {e : Dispatcher} (h : e.transmits = d.transmits) (h' : e'.transmits = d'.transmits) :
    e.forwarded e' = d.forwarded d' := by
  unfold forwarded
  rw [h, h']

theorem getsThrough_congr (h : Undisturbed d e) (htx : e'.transmits = d'.transmits) (hev : e'.events = d'.events) :
    GetsThrough innerMtu datagram d d' ↔ GetsThrough innerMtu datagram e e' := by
  have hfwd := forwarded_of_same h.transmits htx
  constructor
  · exact fun hthru => ⟨hfwd.trans hthru.1, by rw [h.events, hev]; exact hthru.2⟩
  · exact fun hthru => ⟨hfwd.symm.trans hthru.1, by rw [← h.events, ← hev]; exact hthru.2⟩

/-- **Fragments are handled as the datagram that they make up**: they get through exactly when it does. -/
theorem getsThrough_whole (hsplit : Split o fs) (hperm : (gs ++ [g]).Perm fs)
    (hpcs : Forall₂ (fun send f => Piece E send.1 f) sends gs) (hpiece : Piece E ingress g)
    (hnone : d.reassembler.pending.lookup o.key = none) (hroom : ¬ d.reassembler.Full o.key)
    (hparse : parse E o.restored = .ok packet) (hact : d.action packet .tunnel now = .ok (.forwardPacket plan)) :
    ∃ whole : Dispatcher, whole.pool = (run (step E) d (sent sends)).pool ∧
      whole.action packet .tunnel now = .ok (.forwardPacket plan) ∧
      (GetsThrough innerMtu o.restored d (run (step E) d (sent (sends ++ [(ingress, now)]))) ↔
        GetsThrough innerMtu o.restored whole (whole.handle E packet (.borrowed o.restored) .tunnel now).1) := by
  have hwhole : packet.transport ≠ .fragment := by
    intro hfrag
    rw [action_fragment hfrag] at hact
    cases hact
  have hstart : d.reassembler.Holds o.key [] := .inl ⟨hnone, rfl⟩
  obtain ⟨hpre, hholds, hroom'⟩ := run_pieces hsplit (cons_ne_nil g []) hpcs hstart hroom hperm
  have hrun : run (step E) d (sent (sends ++ [(ingress, now)])) =
      ((run (step E) d (sent sends)).onPacket E .tunnel ingress now).1 := by
    simp [sent, step]
  rw [hrun, onPacket_last hsplit hholds hroom' hperm hpiece now hparse hwhole]
  generalize run (step E) d (sent sends) = prior at hpre
  have hpushed : Undisturbed prior { prior with reassembler := (prior.reassembler.push g now).1 } :=
    ⟨⟨rfl, rfl, rfl⟩, rfl, rfl⟩
  have hsame := hpre.trans hpushed
  refine ⟨{ prior with reassembler := (prior.reassembler.push g now).1 }, rfl, ?_, ?_⟩
  · rw [action_of_aside hsame.untouched.aside]
    exact hact
  · exact getsThrough_congr hsame (transmits_dropping _ ingress).symm (by cases ingress <;> rfl)

/-- **Whatever the split, a datagram gets through exactly when the whole of it fits.** -/
theorem getsThrough_iff (hsplit : Split o fs) {gs : List Fragment} {g : Fragment} (hperm : (gs ++ [g]).Perm fs)
    {sends : List (Ingress × Instant)} (hpieces : Forall₂ (fun send f => Piece E send.1 f) sends gs)
    {ingress : Ingress} (hpiece : Piece E ingress g) {d : Dispatcher}
    (hnone : d.reassembler.pending.lookup o.key = none) (hroom : ¬ d.reassembler.Full o.key) {packet : IngressPacket}
    (hparse : parse E o.restored = .ok packet) {now : Instant} {plan : FlowPlan} {innerMtu : Mtu}
    (haction : d.action packet .tunnel now = .ok (.forwardPacket plan))
    (hplan : plan.transport = .packetFastPath innerMtu) :
    GetsThrough innerMtu o.restored d (run (step E) d (sent (sends ++ [(ingress, now)]))) ↔
      (run (step E) d (sent sends)).Fits packet o.restored innerMtu := by
  obtain ⟨whole, hpool, hact', hiff⟩ := getsThrough_whole hsplit hperm hpieces hpiece hnone hroom hparse haction
  rw [hiff, getsThrough_handle hact' hplan o.restored]
  constructor
  · exact fun h => ⟨h.mtu, hpool ▸ h.slice, h.hop⟩
  · exact fun h => ⟨h.mtu, hpool ▸ h.slice, h.hop⟩

/-! ### Datagrams sent in two fragments -/

def udpHeader (size : ℕ) (flags block : UInt8) : Bytes :=
  [0x45, 0] ++ toBeBytes size ++ [0xbe, 0xef, flags, block, 64, 17, 0, 0, 192, 0, 2, 1, 198, 51, 100, 2]

def moreFlag (more : Bool) : UInt8 := if more then 0x20 else 0

theorem headersRead_udpHeader : HeadersRead (udpHeader size flags block) none :=
  ⟨Nat.le_refl 20, show 20 = ((0x45 : UInt8) &&& 0x0f).toNat * 4 by decide⟩

def pieceBytes (block : UInt8) (more : Bool) (payload : Bytes) : Bytes :=
  udpHeader (20 + payload.length) (moreFlag more) block ++ payload

def pieceOf (block : UInt8) (more : Bool) (payload : Bytes) : Fragment where
  source := .v4 0xc0000201
  destination := .v4 0xc6336402
  protocol := 17
  identification := 0xbeef
  offset := block.toNat * 8
  moreFragments := more
  payload := payload
  headers := udpHeader (20 + payload.length) (moreFlag more) block
  nextHeaderAt := none
  aligned := by omega
  headersRead := headersRead_udpHeader

variable (payload : Bytes)

def wholeOf (h : payload.length ≤ 65515) : Original where
  key := (pieceOf 0 true payload).key
  header := udpHeader (20 + payload.length) 0 0
  nextHeaderAt := none
  payload := payload
  headersRead := headersRead_udpHeader
  unfragmented := ⟨show (0x45 : UInt8) >>> 4 = 4 by decide, rfl, rfl, rfl,
    show 20 + payload.length ≤ 65535 by omega⟩

theorem heads_pieceOf (h : payload.length ≤ 65515) (block : UInt8) (more : Bool) (part : Bytes) :
    (wholeOf payload h).Heads (pieceOf block more part) where
  nextHeaderAt := rfl
  length := rfl
  flags _ := by cases more <;> rfl
  same i hi := by
    have hi : i ≠ 2 ∧ i ≠ 3 ∧ i ≠ 6 ∧ i ≠ 7 := by
      simp only [wholeOf, ownFields, mem_cons, not_or] at hi
      tauto
    rcases Nat.lt_or_ge i 20 with hlow | hhigh
    · interval_cases i <;> first | rfl | omega
    · obtain ⟨k, rfl⟩ := Nat.exists_eq_add_of_le' hhigh
      rfl

theorem split_two (first last : Bytes) (block : UInt8) (hfirst : first.length = block.toNat * 8) (hne : first ≠ [])
    (hlast : last ≠ []) (h : (first ++ last).length ≤ 65515) :
    Split (wholeOf (first ++ last) h) [pieceOf 0 true first, pieceOf block false last] where
  ne_nil := by simp
  key := by simp [wholeOf, pieceOf, Fragment.key]
  data := by simp [pieceOf, hne, hlast]
  tiles := by simp [Tiling.Tiles, Fragment.extent, pieceOf, wholeOf, hfirst]
  payload := by simp [wholeOf, pieceOf]
  more := by
    simp [wholeOf, pieceOf, Fragment.extent, hfirst]
    omega
  headers f hf _ := by
    obtain rfl | hf := mem_cons.mp hf
    · exact heads_pieceOf ..
    · rw [mem_singleton.mp hf]
      exact heads_pieceOf ..

def wholePacket : IngressPacket :=
  ⟨.v4 0xc0000201, .v4 0xc6336402, .udp (UInt16.ofNat (ofOctets (slice payload 0 2)))
    (UInt16.ofNat (ofOctets (slice payload 2 2))), 28, payload.length - 8, rfl⟩

/-- The packet egress turns out to leave an inner MTU of 1280 bytes. -/
def narrow : Dispatcher :=
  run (step plainIp) (inspecting .ipPackets) [.onPathChange .ipPackets ⟨.native, 220, none⟩]

def narrowMtu : Mtu := ⟨1280, by decide, by decide⟩

def narrowPlan : FlowPlan := ⟨.packetFastPath narrowMtu, .passThrough⟩

def fromPorts (length : ℕ) (rest : Bytes) : Bytes :=
  octets 2 4000 ++ octets 2 5000 ++ octets 2 length ++ [0, 0] ++ rest

set_option maxRecDepth 2000 in
theorem small_gets_through :
    GetsThrough narrowMtu (wholeOf (fromPorts 16 [] ++ replicate 8 0) (by decide)).restored narrow
      (run (step plainIp) narrow (sent ([(.borrowed (pieceBytes 0 true (fromPorts 16 [])),
        Instant.ofSecs 1)] ++ [(.borrowed (pieceBytes 1 false (replicate 8 0)), Instant.ofSecs 1)]))) := by
  have hsplit := split_two (fromPorts 16 []) (replicate 8 0) 1 rfl (by decide) (by decide)
    (by decide)
  have hfirst : Piece plainIp (.borrowed (pieceBytes 0 true (fromPorts 16 [])))
    (pieceOf 0 true (fromPorts 16 [])) := ⟨⟨_, rfl, rfl⟩, rfl⟩
  have hparse : parse plainIp
      (wholeOf (fromPorts 16 [] ++ replicate 8 0) (by decide)).restored =
        .ok (wholePacket (fromPorts 16 [] ++ replicate 8 0)) := rfl
  have hact : narrow.action (wholePacket (fromPorts 16 [] ++ replicate 8 0)) .tunnel
    (Instant.ofSecs 1) = .ok (.forwardPacket narrowPlan) := rfl
  exact (getsThrough_iff hsplit (.refl _) (.cons hfirst .nil) ⟨⟨_, rfl, rfl⟩, rfl⟩ rfl (by decide) hparse hact rfl).mpr
    ⟨.inr (by decide), by decide, by decide⟩

def firstPart : Bytes := fromPorts 1480 (replicate 1248 0)

def lastPart : Bytes := replicate 224 0

/-- **Both fragments of a datagram of 1500 bytes are smaller than the inner MTU of 1280, and the datagram is not
forwarded.** -/
theorem too_big_though_split :
    (pieceBytes 0 true firstPart).length ≤ narrowMtu.bytes ∧ (pieceBytes 157 false lastPart).length ≤ narrowMtu.bytes ∧
      ¬ GetsThrough narrowMtu (wholeOf (firstPart ++ lastPart) (by decide +kernel)).restored narrow
        (run (step plainIp) narrow (sent ([(.borrowed (pieceBytes 0 true firstPart), Instant.ofSecs 1)] ++
          [(.borrowed (pieceBytes 157 false lastPart), Instant.ofSecs 1)]))) := by
  refine ⟨by decide +kernel, by decide +kernel, fun h => absurd (congrArg length h.forwarded) ?_⟩
  decide +kernel

end Dispatcher

end Boreas
