import Mathlib

/-! # Planning a flow

The planner of lib.rs: `planFlow` chooses a flow's transport path and whether QUIC is steered away from it, from
the session's filter policy, the flow's inspection verdict, and the egress's properties.  A flow-oriented egress
can always be planned (`planFlow_flows`); only the packet fast path can fail, when the egress's overhead leaves
too small an inner MTU. -/

namespace Boreas

def minQuicMtu : ℕ := 1200

def minIpv6Mtu : ℕ := 1280

structure Mtu where
  bytes : ℕ
  min_le : minIpv6Mtu ≤ bytes
  lt_max : bytes < 65536
deriving DecidableEq, Repr

inductive MtuError
  | belowMinimum (bytes : ℕ)
deriving DecidableEq, Repr

def Mtu.new (bytes : ℕ) (h : bytes < 65536) : Except MtuError Mtu :=
  if hmin : minIpv6Mtu ≤ bytes then .ok ⟨bytes, hmin, h⟩ else .error (.belowMinimum bytes)

def quicBudget (bytes : ℕ) : Option ℕ := if minQuicMtu ≤ bytes then some bytes else none

inductive Accepts
  | ipPackets
  | flows
deriving DecidableEq, Repr

inductive DatagramFidelity
  | none
  | emulated
  | native
deriving DecidableEq, Repr

structure PathProperties where
  datagramFidelity : DatagramFidelity
  overheadBytes : ℕ
  maxDatagramSize : Option ℕ
deriving DecidableEq, Repr

inductive FilterPolicy
  | passThrough
  | inspectHttp
deriving DecidableEq, Repr

inductive Inspection
  | candidate
  | excluded
deriving DecidableEq, Repr

inductive DnsPolicy
  | intercept
  | forward
deriving DecidableEq, Repr

inductive TransportPath
  | packetFastPath (innerMtu : Mtu)
  | localTermination
deriving DecidableEq

inductive SteeringReason
  | inspectionRequired
  | datagramFidelity
  | mtuBelowMinimum
deriving DecidableEq, Repr

inductive QuicPolicy
  | passThrough
  | steerToHttp2 (reason : SteeringReason)
deriving DecidableEq, Repr

structure FlowPlan where
  transport : TransportPath
  quic : QuicPolicy
deriving DecidableEq

inductive PlanError
  | overheadExceedsPathMtu
  | innerMtu (error : MtuError)
deriving DecidableEq, Repr

variable (filter : FilterPolicy)

variable (inspection : Inspection)

def inspected : Bool :=
  filter = .inspectHttp ∧ inspection = .candidate

def innerMtu (egress : PathProperties) (pathMtu : Mtu) : Except PlanError Mtu :=
  if pathMtu.bytes < egress.overheadBytes then .error .overheadExceedsPathMtu
  else
    match Mtu.new (pathMtu.bytes - egress.overheadBytes) (by have := pathMtu.lt_max; omega) with
    | .ok mtu => .ok mtu
    | .error e => .error (.innerMtu e)

def planTransport (accepts : Accepts) (egress : PathProperties)
    (pathMtu : Mtu) : Except PlanError TransportPath :=
  match inspected filter inspection, accepts with
  | false, .ipPackets =>
    match innerMtu egress pathMtu with
    | .ok mtu => .ok (.packetFastPath mtu)
    | .error e => .error e
  | _, _ => .ok .localTermination

def datagramBudget (transport : TransportPath) (egress : PathProperties) : Option ℕ :=
  match transport with
  | .packetFastPath mtu => quicBudget mtu.bytes
  | .localTermination => egress.maxDatagramSize.bind quicBudget

def planQuic (egress : PathProperties)
    (transport : TransportPath) : QuicPolicy :=
  if inspected filter inspection then .steerToHttp2 .inspectionRequired
  else if egress.datagramFidelity ≠ .native then .steerToHttp2 .datagramFidelity
  else if datagramBudget transport egress = none then .steerToHttp2 .mtuBelowMinimum
  else .passThrough

def planFlow (accepts : Accepts) (egress : PathProperties)
    (pathMtu : Mtu) : Except PlanError FlowPlan :=
  match planTransport filter inspection accepts egress pathMtu with
  | .ok transport => .ok ⟨transport, planQuic filter inspection egress transport⟩
  | .error e => .error e

inductive Replan
  | unchanged
  | resteer (reason : SteeringReason) (plan : FlowPlan)
  | teardown
deriving DecidableEq

def flowLayer (current : FlowPlan) (inspectedFlow : Bool) (accepts : Accepts) : Accepts :=
  match current.transport with
  | .packetFastPath _ => .ipPackets
  | .localTermination => if inspectedFlow then accepts else .flows

def TransportPath.sameKind : TransportPath → TransportPath → Bool
  | .packetFastPath _, .packetFastPath _ => true
  | .localTermination, .localTermination => true
  | _, _ => false

def replan (current : FlowPlan) (filter : FilterPolicy) (inspection : Inspection) (accepts : Accepts)
    (next : PathProperties) (pathMtu : Mtu) : Except PlanError Replan :=
  if accepts ≠ flowLayer current (inspected filter inspection) accepts then .ok .teardown
  else
    match planFlow filter inspection accepts next pathMtu with
    | .error e => .error e
    | .ok nextPlan =>
      if nextPlan.transport.sameKind current.transport = false then .ok .teardown
      else
        match current.quic, nextPlan.quic with
        | .passThrough, .steerToHttp2 reason => .ok (.resteer reason nextPlan)
        | _, _ => .ok .unchanged

theorem planFlow_flows (egress : PathProperties) (pathMtu : Mtu) :
    planFlow filter inspection .flows egress pathMtu =
      .ok ⟨.localTermination, planQuic filter inspection egress .localTermination⟩ := by
  unfold planFlow planTransport
  cases inspected filter inspection <;> rfl

theorem inspected_excluded : inspected filter .excluded = false := by simp [inspected]

theorem planFlow_candidate : planFlow .inspectHttp .candidate accepts egress pathMtu =
      .ok ⟨.localTermination, planQuic .inspectHttp .candidate egress .localTermination⟩ := by
  cases accepts <;> rfl

theorem packetFastPath_of_planFlow {filter : FilterPolicy}
    (h : planFlow filter .excluded .ipPackets egress pathMtu = .ok plan) :
    ∃ mtu, plan.transport = .packetFastPath mtu := by
  unfold planFlow planTransport at h
  rw [inspected_excluded] at h
  rcases hmtu : innerMtu egress pathMtu with _ | mtu
  · simp [hmtu] at h
  simp only [hmtu, Except.ok.injEq] at h
  exact ⟨mtu, by rw [← h]⟩

end Boreas
