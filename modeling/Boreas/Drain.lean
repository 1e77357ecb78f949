import Boreas.Reports

/-! # Draining the datapath

The cross-feeding loop of `drain` (host/shell.rs) between the datapath and an egress that is any code.  What comes
from the egress is queued for the tunnel only (`transmits_onEgressOwned`), so the loop ends after two passes
(`drain_ends`). -/

namespace Boreas.Draining

open Option

inductive EgressEmit
  | toNetwork (bytes : Bytes)
  | toTunnel (bytes : Bytes)
deriving DecidableEq, Repr

/-- `handle_tun_packet` of any egress: it may take slices from the pool, and says what it emits and whether it took
the packet. -/
structure PacketEgress where
  State : Type
  handleTunPacket : State → BufferPool → Bytes → State × BufferPool × List EgressEmit × Bool

/-- How a write to the device or the network ends: a transient error or a timeout is only counted. -/
inductive Written
  | done
  | counted
  | failed
deriving DecidableEq, Repr

structure Counters where
  packetsRejected : ℕ
  egressRejected : ℕ
  deviceErrors : ℕ
  networkErrors : ℕ
deriving DecidableEq, Repr

/-- What the loop meets: the parser of packets, the clock at each of its readings, and the outcome of each write. -/
structure Surroundings where
  etherparse : Etherparse
  clock : ℕ → Instant
  device : ℕ → Written
  network : ℕ → Written

/-- The loop's state. `readings` counts how often the clock was read, and the last two fields are what was written. -/
structure State (G : PacketEgress) where
  datapath : Dispatcher
  egress : G.State
  emits : List EgressEmit
  counters : Counters
  readings : ℕ
  device : List Bytes
  network : List Bytes

variable {G : PacketEgress}

namespace State

variable (W : Surroundings)

def toNetwork (s : State G) (bytes : Bytes) : Option (State G) :=
  let s' := { s with network := s.network ++ [bytes] }
  match W.network s.network.length with
  | .done => some s'
  | .counted => some { s' with counters := { s.counters with networkErrors := s.counters.networkErrors + 1 } }
  | .failed => none

def toDevice (s : State G) (bytes : Bytes) : Option (State G) :=
  let s' := { s with device := s.device ++ [bytes] }
  match W.device s.device.length with
  | .done => some s'
  | .counted => some { s' with counters := { s.counters with deviceErrors := s.counters.deviceErrors + 1 } }
  | .failed => none

def feed (s : State G) : EgressEmit → Option (State G)
  | .toNetwork bytes =>
    (s.toNetwork W bytes).map fun s => { s with datapath := { s.datapath with pool := s.datapath.pool.release } }
  | .toTunnel bytes =>
    let (datapath, result) := s.datapath.onEgressOwned W.etherparse bytes (W.clock s.readings)
    let s := { s with datapath := datapath, readings := s.readings + 1 }
    match result with
    | .ok () => some s
    | .error _ => some { s with counters := { s.counters with packetsRejected := s.counters.packetsRejected + 1 } }

def feedAll (W : Surroundings) : List EgressEmit → State G → Option (State G)
  | [], s => some s
  | emit :: rest, s => (s.feed W emit).bind (feedAll W rest)

def transmit (s : State G) (t : Transmit) : Option (State G) :=
  let s' : Option (State G) := match t.to_ with
    | .tunnel => s.toDevice W t.bytes
    | .egress =>
      let (egress, pool, emits, taken) := G.handleTunPacket s.egress s.datapath.pool t.bytes
      let s := { s with
        egress := egress
        datapath := { s.datapath with pool := pool }
        emits := s.emits ++ emits }
      if taken then some s
      else some { s with counters := { s.counters with egressRejected := s.counters.egressRejected + 1 } }
  s'.map fun s => { s with datapath := { s.datapath with pool := s.datapath.pool.release } }

def transmitAll (W : Surroundings) : List Transmit → State G → Option (State G)
  | [], s => some s
  | t :: rest, s =>
    ({ s with datapath := { s.datapath with transmits := rest } }.transmit W t).bind (transmitAll W rest)

def pass (s : State G) : Option (State G) :=
  (feedAll W s.emits { s with emits := [] }).bind fun s => transmitAll W s.datapath.transmits s

end State

inductive Ended (G : PacketEgress)
  | failed
  | drained (s : State G)

/-- The loop, for at most `n` passes. -/
def drainWithin (W : Surroundings) : ℕ → State G → Option (Ended G)
  | 0, _ => none
  | n + 1, s => match s.pass W with
    | none => some .failed
    | some s => if s.emits = [] then some (.drained s) else drainWithin W n s

/-! ### What comes from the egress -/

def queuedForEgress (d : Dispatcher) : List Transmit := d.transmits.filter fun t => t.to_ = .egress

theorem transmits_onEgressOwned (E : Etherparse) (d : Dispatcher) (bytes : Bytes) (now : Instant) :
    (d.onEgressOwned E bytes now).1.transmits = d.transmits ∨
      ∃ pkt, (d.onEgressOwned E bytes now).1.transmits = d.transmits ++ [⟨.tunnel, pkt⟩] := by
  have hstep : (d.onEgressOwned E bytes now).1 = d.step E (.packet .egress (.owned bytes) now) := rfl
  obtain ⟨hquiet, -⟩ | ⟨-, whole, ingress', -, -, -, hout⟩ := Dispatcher.outcome_packet E d .egress (.owned bytes) now
  · exact .inl hquiet.transmits
  generalize d.report E (.packet .egress (.owned bytes) now) = told at hout
  cases hout with
  | silent hqueue => exact .inl hqueue
  | forwarded hslice hqueue => exact .inr ⟨_, hqueue⟩
  | reported hquo hbytes horig => cases horig

theorem queuedForEgress_onEgressOwned (E : Etherparse) (d : Dispatcher) (bytes : Bytes) (now : Instant) :
    queuedForEgress (d.onEgressOwned E bytes now).1 = queuedForEgress d := by
  unfold queuedForEgress
  obtain hsame | ⟨pkt, hqueued⟩ := transmits_onEgressOwned E d bytes now
  · rw [hsame]
  · rw [hqueued, List.filter_append]
    simp

/-! ### A pass -/

structure Calm (s s' : State G) : Prop where
  queued : queuedForEgress s'.datapath = queuedForEgress s.datapath
  emits : s'.emits = s.emits

theorem Calm.refl (s : State G) : Calm s s := ⟨rfl, rfl⟩

theorem Calm.trans (h : Calm s s') (h' : Calm s' s'') : Calm s s'' :=
  ⟨h'.queued.trans h.queued, h'.emits.trans h.emits⟩

variable {W : Surroundings} {s s' : State G}

theorem calm_toNetwork (h : s.toNetwork W bytes = some s') : Calm s s' := by
  unfold State.toNetwork at h
  split at h
  · cases h
    exact ⟨rfl, rfl⟩
  · cases h
    exact ⟨rfl, rfl⟩
  · cases h

theorem toDevice_some (h : s.toDevice W bytes = some s') : s'.datapath = s.datapath ∧ s'.emits = s.emits := by
  unfold State.toDevice at h
  split at h
  · cases h
    exact ⟨rfl, rfl⟩
  · cases h
    exact ⟨rfl, rfl⟩
  · cases h

theorem calm_feed {emit : EgressEmit} (h : s.feed W emit = some s') : Calm s s' := by
  unfold State.feed at h
  cases emit with
  | toNetwork bytes =>
    obtain ⟨s₁, hs₁, rfl⟩ := map_eq_some_iff.mp h
    have hcalm := calm_toNetwork hs₁
    exact ⟨hcalm.queued, hcalm.emits⟩
  | toTunnel bytes =>
    have hqueued := queuedForEgress_onEgressOwned W.etherparse s.datapath bytes (W.clock s.readings)
    dsimp only at h
    split at h
    · cases h
      exact ⟨hqueued, rfl⟩
    · cases h
      exact ⟨hqueued, rfl⟩

theorem calm_feedAll (h : State.feedAll W emits s = some s') : Calm s s' := by
  induction emits generalizing s with
  | nil =>
    cases h
    exact Calm.refl _
  | cons emit rest ih =>
    obtain ⟨s₁, hs₁, hrest⟩ := bind_eq_some_iff.mp h
    exact (calm_feed hs₁).trans (ih hrest)

theorem transmitAll_some (hqueue : s.datapath.transmits = queue) (h : State.transmitAll W queue s = some s') :
    s'.datapath.transmits = [] ∧ ((∀ t ∈ queue, t.to_ ≠ .egress) → s'.emits = s.emits) := by
  induction queue generalizing s with
  | nil =>
    cases h
    exact ⟨hqueue, fun _ => rfl⟩
  | cons t rest ih =>
    obtain ⟨s₁, hs₁, hrest⟩ := bind_eq_some_iff.mp h
    obtain ⟨s₂, hs₂, rfl⟩ := map_eq_some_iff.mp hs₁
    have hkept : s₂.datapath.transmits = rest ∧ (t.to_ ≠ .egress → s₂.emits = s.emits) := by
      cases hto : t.to_ with
      | tunnel =>
        rw [hto] at hs₂
        obtain ⟨hdp, hemits⟩ := toDevice_some hs₂
        exact ⟨by rw [hdp], fun _ => hemits⟩
      | egress =>
        rw [hto] at hs₂
        dsimp only at hs₂
        split_ifs at hs₂
        · cases hs₂
          exact ⟨rfl, fun hne => absurd rfl hne⟩
        · cases hs₂
          exact ⟨rfl, fun hne => absurd rfl hne⟩
    obtain ⟨hempty, hemits⟩ := ih (by exact hkept.1) hrest
    refine ⟨hempty, fun hnone => ?_⟩
    rw [hemits fun t' ht' => hnone t' (List.mem_cons_of_mem _ ht')]
    exact hkept.2 (hnone t List.mem_cons_self)

theorem pass_some (h : s.pass W = some s') :
    s'.datapath.transmits = [] ∧ (queuedForEgress s.datapath = [] → s'.emits = []) := by
  obtain ⟨s₁, hs₁, hs'⟩ := bind_eq_some_iff.mp h
  have hcalm := calm_feedAll hs₁
  obtain ⟨hempty, hemits⟩ := transmitAll_some rfl hs'
  refine ⟨hempty, fun hnone => ?_⟩
  have hqueued : queuedForEgress s₁.datapath = [] := hcalm.queued.trans hnone
  rw [hemits fun t ht hto => ?_, hcalm.emits]
  unfold queuedForEgress at hqueued
  rw [List.filter_eq_nil_iff] at hqueued
  exact hqueued t ht (decide_eq_true hto)

/-- **Draining reaches a fixpoint.** A packet from the egress queues nothing for the egress, in any state of the
datapath; and from every state, with every egress and whatever the clock, the device and the network answer, the loop
ends after at most two passes: more passes give the same end. -/
theorem drain_ends (W : Surroundings) (s : State G) :
    (∀ bytes now, queuedForEgress (s.datapath.onEgressOwned W.etherparse bytes now).1 = queuedForEgress s.datapath) ∧
      ∃ ended, ∀ n, drainWithin W (n + 2) s = some ended := by
  refine ⟨queuedForEgress_onEgressOwned W.etherparse s.datapath, ?_⟩
  rcases hfirst : s.pass W with _ | s₁
  · exact ⟨.failed, fun n => by simp [drainWithin, hfirst]⟩
  by_cases hemits : s₁.emits = []
  · exact ⟨.drained s₁, fun n => by simp [drainWithin, hfirst, hemits]⟩
  rcases hsec : s₁.pass W with _ | s₂
  · exact ⟨.failed, fun n => by simp [drainWithin, hfirst, hemits, hsec]⟩
  have hqueued : queuedForEgress s₁.datapath = [] := by
    rw [queuedForEgress, (pass_some hfirst).1]
    rfl
  have hdone := (pass_some hsec).2 hqueued
  exact ⟨.drained s₂, fun n => by simp [drainWithin, hfirst, hemits, hsec, hdone]⟩

end Boreas.Draining
