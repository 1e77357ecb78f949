import Boreas.Captured

/-! # QUIC where the plan steers it away

A plan says whether QUIC is steered to HTTP/2, but what drops a datagram to UDP port 443 is the window of an inspected
address.  `steered_run`: in a run where every such datagram goes to an address within its window, none is forwarded or
captured. -/

namespace Boreas

open Instant Runs

namespace Dispatcher

def IsQuic (packet : IngressPacket) : Prop := ∃ sourcePort, packet.transport = .udp sourcePort httpsPort

/-- The plan of the packet's flow, live or new, steers QUIC away. -/
def Steered (d : Dispatcher) (packet : IngressPacket) (now : Instant) : Prop :=
  ∃ plan reason, d.planFor packet .tunnel now = .ok plan ∧ plan.quic = .steerToHttp2 reason

/-- A steered QUIC packet of the client is neither forwarded to the egress nor captured for the relay. -/
def SteersQuic (E : Etherparse) (d : Dispatcher) : Op → Prop
  | .packet .tunnel ingress now =>
    ∀ whole, d.arrival E .tunnel ingress now = some whole → IsQuic whole → d.Steered whole now →
      d.forwarded (d.step E (.packet .tunnel ingress now)) = [] ∧
        ∀ client, d.captured E client (.packet .tunnel ingress now) = []
  | _ => True

/-- A steered QUIC packet of the client goes to an address within its inspection window. -/
def Backstopped (E : Etherparse) (d : Dispatcher) : Op → Prop
  | .packet .tunnel ingress now =>
    ∀ whole, d.arrival E .tunnel ingress now = some whole → IsQuic whole → d.Steered whole now →
      d.inspected.live whole.destination now = true
  | _ => True

theorem action_of_live {d : Dispatcher} (hquic : IsQuic packet)
    (hlive : d.inspected.live packet.destination now = true) : d.action packet .tunnel now = .ok .dropSteered := by
  obtain ⟨srcPort, htrans⟩ := hquic
  have hport : ¬ (httpsPort = dnsPort ∧ d.dns = .intercept) := fun h => absurd h.1 (by decide)
  simp only [action, backstop, admitPacket, htrans, hlive, if_true, if_neg hport, and_self]

theorem handle_dropSteered {d : Dispatcher} (h : d.action packet origin now = .ok .dropSteered) :
    (d.handle E packet ingress origin now).1.transmits = d.transmits := by
  unfold handle dispatchWithin
  rw [h]
  cases ingress <;> rfl

/-- **Step lemma**: a packet within its window is dropped. -/
theorem steersQuic_step (d : Dispatcher) (h : d.Backstopped E op) : d.SteersQuic E op := by
  cases op with
  | packet origin ingress now =>
    cases origin with
    | egress => trivial
    | tunnel =>
      intro whole hwhole hquic hsteer
      have hlive := h whole hwhole hquic hsteer
      have hpkt := onPacket_arrived E d .tunnel ingress now
      have honly := arrived_only E d .tunnel ingress now
      rw [arrived_arrival] at hwhole
      unfold forwarded step captured
      rcases harr : d.arrived E .tunnel ingress now with ⟨d', found⟩
      rw [harr] at hpkt honly hwhole
      obtain ⟨⟨whole, bytes⟩, rfl, rfl⟩ := Option.map_eq_some_iff.mp hwhole
      have hact : d'.action whole .tunnel now = .ok .dropSteered := by
        apply action_of_live hquic
        rw [honly.inspected]
        exact hlive
      have htx : (d.onPacket E .tunnel ingress now).1.transmits = d.transmits := by
        obtain ⟨-, ⟨-, -, heq⟩ | heq⟩ := hpkt
        · rw [heq]
          exact handle_dropSteered (action_of_live hquic hlive)
        · rw [heq, transmits_dropping, handle_dropSteered hact, honly.transmits]
      constructor
      · simp [htx]
      · simp [harr, capturedWhole, hact]
  | _ => trivial

/-- **QUIC is not carried where the plan steers it away**, in a run whose steered QUIC packets all go to addresses
within their inspection windows. -/
theorem steered_run (E : Etherparse) (d : Dispatcher) (before after : List Op) (op : Op)
    (h : Along (step E) (Backstopped E) d (before ++ op :: after)) : (run (step E) d before).SteersQuic E op :=
  steersQuic_step _ h.guard

def exampleQuic : Bytes := plainPacket 17 0xc0000201#32 0xc6336402#32 4000 443 [0, 9, 0, 0, 7]

def exampleQuicPacket : IngressPacket := ⟨.v4 0xc0000201#32, .v4 0xc6336402#32, .udp 4000 443, 28, 1, rfl⟩

def emulatedOps : List Op := [.onPathChange .flows ⟨.emulated, 0, some 1400⟩]

def steeredOps : List Op := emulatedOps ++ [.inspectAddresses [.v4 0xc6336402#32] (ofSecs 0)]

theorem steered_within_window :
    (run (step plainIp) (inspecting .flows) steeredOps).Steered exampleQuicPacket (ofSecs 1) ∧
      (run (step plainIp) (inspecting .flows) steeredOps).SteersQuic plainIp
        (.packet .tunnel (.borrowed exampleQuic) (ofSecs 1)) := by
  refine ⟨⟨⟨.localTermination, .steerToHttp2 .datagramFidelity⟩, .datagramFidelity, rfl, rfl⟩,
    steered_run plainIp (inspecting .flows) steeredOps []
      (.packet .tunnel (.borrowed exampleQuic) (ofSecs 1)) ⟨trivial, trivial, ?_, trivial⟩⟩
  intro whole hwhole _ _
  obtain rfl : exampleQuicPacket = whole := Option.some.inj hwhole
  decide +kernel

/-- **A QUIC datagram is captured for an egress that emulates datagrams**, although its plan steers it away. -/
theorem quic_over_emulated : ¬ (run (step plainIp) (inspecting .flows) emulatedOps).SteersQuic plainIp
      (.packet .tunnel (.borrowed exampleQuic) (ofSecs 1)) := by
  intro h
  have hplan : (run (step plainIp) (inspecting .flows) emulatedOps).Steered exampleQuicPacket (ofSecs 1) :=
    ⟨⟨.localTermination, .steerToHttp2 .datagramFidelity⟩, .datagramFidelity, rfl, rfl⟩
  have hcap := (h exampleQuicPacket rfl ⟨4000, rfl⟩ hplan).2 ⟨.v4 0xc0000201#32, 4000⟩
  exact absurd hcap (by decide +kernel)

end Dispatcher

end Boreas
