import Boreas.Dispatch

/-! # Packets as they arrive

A fragment is dispatched as the datagram it completes, which may be a fragment again.  `arrived` follows the chain to
the whole packet that came out, and `onPacket_arrived` says that a call for a packet is `handle` on what arrived. -/

namespace Boreas

open L3
open IngressPacket (parse)

namespace Dispatcher

/-! ### Whole packets -/

theorem routePlanned_ne_reassemble : routePlanned transport plan ≠ .reassemble := by
  unfold routePlanned
  cases plan.transport with
  | packetFastPath mtu => simp
  | localTermination => cases transport <;> simp

variable {packet : IngressPacket}

theorem action_reassemble {d : Dispatcher}
    (h : d.action packet origin now = .ok .reassemble) : packet.transport = .fragment := by
  unfold action at h
  cases hadm : admitPacket packet.transport d.dns (d.backstop packet origin now) with
  | settled action =>
    rw [hadm] at h
    cases h
    unfold admitPacket at hadm
    split at hadm
    · assumption
    · cases hadm
    · split_ifs at hadm <;> cases hadm
    · cases hadm
    · cases hadm
  | planned =>
    rw [hadm] at h
    rcases hplan : d.planFor packet origin now with _ | plan
    · simp [hplan] at h
    simp only [hplan, Except.ok.injEq] at h
    exact absurd h (routePlanned_ne_reassemble)

theorem action_fragment {d : Dispatcher} (h : packet.transport = .fragment) :
    d.action packet origin now = .ok .reassemble := by
  unfold action
  rw [h]
  rfl

/-- `dispatch` for a whole packet, which makes no call within a call. -/
def handle (E : Etherparse) (d : Dispatcher) (packet : IngressPacket) (ingress : Ingress) (origin : Side)
    (now : Instant) : Dispatcher × Except DatapathError Unit := dispatchWithin E 1 d packet ingress origin now

variable (E : Etherparse) (depth : ℕ) (d : Dispatcher)

variable (origin : Side) (ingress : Ingress)

theorem dispatchWithin_whole (origin : Side) (now : Instant) (hwhole : packet.transport ≠ .fragment) :
    dispatchWithin E (depth + 1) d packet ingress origin now = d.handle E packet ingress origin now := by
  unfold handle dispatchWithin
  rcases hact : d.action packet origin now with _ | action
  · rfl
  cases action with
  | reassemble => exact absurd (action_reassemble hact) hwhole
  | _ => rfl

def forwarded (d d' : Dispatcher) : List Transmit :=
  (d'.transmits.drop d.transmits.length).filter fun transmit => transmit.to_ = .egress

theorem transmits_dropping : (d.dropping ingress).transmits = d.transmits := by
  cases ingress <;> rfl

/-! ### The chain of datagrams -/

def resolve (E : Etherparse) : ℕ → Dispatcher → IngressPacket → Bytes → Instant →
    Dispatcher × Except DatapathError (Option (IngressPacket × Bytes))
  | 0, d, _, _, _ => (d, .ok none)
  | depth + 1, d, packet, buf, now =>
    if packet.transport = .fragment then
      match fragmentOf E buf with
      | .error e => (d, .error (.malformed e))
      | .ok none => (d, .ok none)
      | .ok (some fragment) =>
        match d.reassembler.push fragment now with
        | (reassembler, .pending) => ({ d with reassembler := reassembler }, .ok none)
        | (reassembler, .discarded) =>
          ({ d with reassembler := reassembler }.noting .reassemblyDiscarded, .ok none)
        | (reassembler, .complete datagram) =>
          match parse E datagram with
          | .error e => ({ d with reassembler := reassembler }, .error (.malformed e))
          | .ok packet => resolve E depth { d with reassembler := reassembler } packet datagram now
    else (d, .ok (some (packet, buf)))

theorem resolve_whole {E : Etherparse} {depth : ℕ} {d : Dispatcher}
    (h : (resolve E depth d packet buf now).2 = .ok (some (whole, bytes))) : whole.transport ≠ .fragment ∧
      (parse E buf = .ok packet → parse E bytes = .ok whole) := by
  induction depth generalizing d packet buf with
  | zero => simp [resolve] at h
  | succ depth ih =>
    unfold resolve at h
    split_ifs at h with hfrag
    · split at h
      · cases h
      · cases h
      split at h
      · cases h
      · cases h
      · split at h
        · cases h
        · next hnext => exact ⟨(ih h).1, fun _ => (ih h).2 hnext⟩
    · cases h
      exact ⟨hfrag, id⟩

def Reassembled (d d' : Dispatcher) : Prop :=
  ∃ reassembler events, d' = d.resolving reassembler events

theorem Reassembled.refl : Reassembled d d := ⟨d.reassembler, d.events, rfl⟩

theorem Reassembled.trans {d : Dispatcher} (h : Reassembled d d') (h' : Reassembled d' d'') : Reassembled d d'' := by
  obtain ⟨r, es, rfl⟩ := h
  obtain ⟨r', es', rfl⟩ := h'
  exact ⟨r', es', rfl⟩

theorem Reassembled.transmits {d : Dispatcher} (h : Reassembled d d') : d'.transmits = d.transmits := by
  obtain ⟨reasm, events, rfl⟩ := h
  rfl

theorem Reassembled.inspected {d : Dispatcher} (h : Reassembled d d') : d'.inspected = d.inspected := by
  obtain ⟨reasm, events, rfl⟩ := h
  rfl

theorem Reassembled.pushed (reassembler : Reassembler) :
    Reassembled d { d with reassembler := reassembler } := ⟨reassembler, d.events, rfl⟩

theorem Reassembled.noting (event : FlowEvent) : Reassembled d (d.noting event) :=
  ⟨d.reassembler, _, rfl⟩

theorem resolve_only (packet : IngressPacket) (buf : Bytes)
    (now : Instant) : Reassembled d (resolve E depth d packet buf now).1 := by
  induction depth generalizing d packet buf with
  | zero => exact .refl d
  | succ depth ih =>
    unfold resolve
    split_ifs with hfrag
    · rcases fragmentOf E buf with _ | frag
      · exact .refl d
      rcases frag with _ | frag
      · exact .refl d
      dsimp only
      rcases d.reassembler.push frag now with ⟨reasm, outcome⟩
      cases outcome with
      | pending => exact .pushed d reasm
      | discarded => exact (Reassembled.pushed d reasm).trans (.noting _ _)
      | complete dgram =>
        dsimp only
        cases parse E dgram with
        | error e => exact .pushed d reasm
        | ok next => exact (Reassembled.pushed d reasm).trans (ih _ next dgram)
    · exact .refl d

def concluded (E : Etherparse) (origin : Side) (now : Instant) :
    Dispatcher × Except DatapathError (Option (IngressPacket × Bytes)) → Dispatcher × Except DatapathError Unit
  | (d, .error e) => (d, .error e)
  | (d, .ok none) => (d, .ok ())
  | (d, .ok (some (whole, bytes))) => d.handle E whole (.borrowed bytes) origin now

theorem dispatchWithin_fragment (origin : Side) (now : Instant) (hfrag : packet.transport = .fragment) :
    dispatchWithin E depth d packet ingress origin now = if depth = 0 then (d, .ok ())
      else ((concluded E origin now (resolve E depth d packet ingress.bytes now)).1.dropping ingress,
          (concluded E origin now (resolve E depth d packet ingress.bytes now)).2) := by
  induction depth generalizing d packet ingress with
  | zero => rfl
  | succ depth ih =>
    rw [if_neg (Nat.succ_ne_zero depth), dispatchWithin, action_fragment hfrag, resolve, if_pos hfrag]
    unfold onFragment
    rcases fragmentOf E ingress.bytes with _ | frag
    · rfl
    rcases frag with _ | frag
    · rfl
    dsimp only
    rcases d.reassembler.push frag now with ⟨reasm, outcome⟩
    cases outcome with
    | pending | discarded => rfl
    | complete dgram =>
      dsimp only
      rcases parse E dgram with _ | next
      · rfl
      dsimp only
      by_cases hnext : next.transport = .fragment
      · rw [ih _ (.borrowed dgram) hnext]
        cases depth with
        | zero | succ depth => rfl
      cases depth with
      | zero => rfl
      | succ depth =>
        rw [dispatchWithin_whole E depth _ _ _ _ hnext, resolve, if_neg hnext]
        rfl

/-! ### What arrives -/

def arrival (E : Etherparse) (d : Dispatcher) (origin : Side) (ingress : Ingress) (now : Instant) :
    Option IngressPacket :=
  match parse E ingress.bytes with
  | .error _ => none
  | .ok packet =>
    match origin with
    | .tunnel =>
      match (resolve E (d.depth ingress.bytes) d packet ingress.bytes now).2 with
      | .ok (some (whole, _)) => some whole
      | _ => none
    | .egress => if packet.transport = .fragment then none else some packet

def arrived (E : Etherparse) (d : Dispatcher) (origin : Side) (ingress : Ingress) (now : Instant) :
    Dispatcher × Option (IngressPacket × Bytes) :=
  match parse E ingress.bytes with
  | .error _ => (d, none)
  | .ok packet =>
    match origin with
    | .tunnel =>
      match resolve E (d.depth ingress.bytes) d packet ingress.bytes now with
      | (d, .ok found) => (d, found)
      | (d, .error _) => (d, none)
    | .egress =>
      if packet.transport = .fragment then (d.noting .reassemblyDiscarded, none)
      else (d, some (packet, ingress.bytes))

variable (now : Instant)

theorem arrived_only : Reassembled d (d.arrived E origin ingress now).1 := by
  unfold arrived
  rcases parse E ingress.bytes with _ | packet
  · exact .refl d
  cases origin with
  | tunnel =>
    have honly := resolve_only E (d.depth ingress.bytes) d packet ingress.bytes now
    dsimp only
    rcases hr : resolve E (d.depth ingress.bytes) d packet ingress.bytes now with ⟨d', found⟩
    rw [hr] at honly
    cases found <;> exact honly
  | egress =>
    dsimp only
    split_ifs
    · exact .noting d _
    · exact .refl d

theorem arrived_arrival : d.arrival E origin ingress now = (d.arrived E origin ingress now).2.map Prod.fst := by
  unfold arrived arrival
  rcases parse E ingress.bytes with _ | packet
  · rfl
  cases origin with
  | tunnel =>
    dsimp only
    rcases hr : resolve E (d.depth ingress.bytes) d packet ingress.bytes now with ⟨d', found⟩
    cases found with
    | error e => rfl
    | ok found => cases found <;> rfl
  | egress =>
    dsimp only
    split_ifs <;> rfl

/-- **A packet is handled as what arrives.** The slice it came in is released if it does not move along. -/
theorem onPacket_arrived : (match (d.arrived E origin ingress now).2 with
      | none => (d.onPacket E origin ingress now).1 = (d.arrived E origin ingress now).1.dropping ingress
      | some (whole, bytes) =>
        whole.transport ≠ .fragment ∧ (bytes = ingress.bytes ∧ (d.arrived E origin ingress now).1 = d ∧
            d.onPacket E origin ingress now = d.handle E whole ingress origin now ∨
          d.onPacket E origin ingress now =
            (((d.arrived E origin ingress now).1.handle E whole (.borrowed bytes) origin now).1.dropping ingress,
              ((d.arrived E origin ingress now).1.handle E whole (.borrowed bytes) origin now).2))) := by
  unfold onPacket arrived
  rcases parse E ingress.bytes with _ | packet
  · rfl
  cases origin with
  | tunnel =>
    obtain ⟨depth, hdepth⟩ : ∃ n, d.depth ingress.bytes = n + 1 := ⟨_, rfl⟩
    dsimp only [dispatch]
    by_cases hfrag : packet.transport = .fragment
    · rw [dispatchWithin_fragment E _ d ingress _ now hfrag, if_neg (by omega)]
      rcases hr : resolve E (d.depth ingress.bytes) d packet ingress.bytes now with ⟨d', found⟩
      rcases found with _ | found
      · rfl
      cases found with
      | none => rfl
      | some found => exact ⟨(resolve_whole (congrArg Prod.snd hr)).1, .inr rfl⟩
    · have hr : resolve E (d.depth ingress.bytes) d packet ingress.bytes now =
          (d, .ok (some (packet, ingress.bytes))) := by rw [hdepth, resolve, if_neg hfrag]
      rw [hr]
      refine ⟨hfrag, .inl ⟨rfl, rfl, ?_⟩⟩
      rw [hdepth, dispatchWithin_whole E depth d ingress _ now hfrag]
  | egress =>
    dsimp only [dispatchFromEgress]
    by_cases hfrag : packet.transport = .fragment
    · rw [if_pos hfrag, if_pos hfrag]
    · rw [if_neg hfrag, if_neg hfrag]
      refine ⟨hfrag, .inl ⟨rfl, rfl, ?_⟩⟩
      exact dispatchWithin_whole E _ d ingress _ now hfrag

end Dispatcher

end Boreas
