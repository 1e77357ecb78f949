import Boreas.Clock
import Boreas.Table
import Boreas.Wire
import Boreas.Pool

/-! # Demotions

The model of policy/demote.rs: the evidence against intercepting a host, one strike count and expiry for each cause,
and the tier that the live causes still permit. -/

namespace Boreas.Intercept

inductive Tier
  | splice
  | inspect
  | rewrite
deriving DecidableEq, Repr

inductive InterceptedTier
  | inspect
  | rewrite
deriving DecidableEq, Repr

namespace Tier

def rank : Tier → ℕ
  | splice => 0
  | inspect => 1
  | rewrite => 2

def intercepted : Tier → Option InterceptedTier
  | splice => none
  | inspect => some .inspect
  | rewrite => some .rewrite

end Tier

inductive Demotion
  | leafRejected
  | upstreamRefusedProxy
  | upstreamUntrusted
  | protocolRefused
  | rewriteExhausted
deriving DecidableEq, Repr

namespace Demotion

def all : List Demotion := [leafRejected, upstreamRefusedProxy, upstreamUntrusted, protocolRefused, rewriteExhausted]

def tier : Demotion → Tier
  | leafRejected => .splice
  | upstreamRefusedProxy => .splice
  | upstreamUntrusted => .splice
  | protocolRefused => .splice
  | rewriteExhausted => .inspect

def hour : ℕ := 60 * 60

def ttl : Demotion → Duration
  | leafRejected => fromSecs (12 * hour)
  | upstreamRefusedProxy => fromSecs (12 * hour)
  | protocolRefused => fromSecs (12 * hour)
  | upstreamUntrusted => fromSecs (5 * 60)
  | rewriteExhausted => fromSecs hour

end Demotion

inductive Standing
  | unrestricted
  | limited (cause : Demotion)
deriving DecidableEq, Repr

def Standing.permits : Standing → Except Demotion InterceptedTier
  | unrestricted => .ok .rewrite
  | limited cause => (cause.tier.intercepted).elim (.error cause) .ok

/-! ### Evidence -/

inductive TlsError
  | noApplicationProtocol
  | alertReceived (alert : UInt8)
  | other
deriving DecidableEq, Repr

/-- What the origin's handshake says: evidence of a refusal, or none. -/
inductive Refusal
  | alert (alert : UInt8)
  | untrusted
  | noProtocol
deriving DecidableEq, Repr

def alertCloseNotify : UInt8 := 0
def alertUserCanceled : UInt8 := 90
def alertNoApplicationProtocol : UInt8 := 120

def conclusive (alert : UInt8) : Bool := alert != alertCloseNotify && alert != alertUserCanceled

/-- `classify` on the client's leg. -/
def terminating : TlsError → Option Demotion
  | .noApplicationProtocol => some .protocolRefused
  | .alertReceived alert =>
    if alert = alertNoApplicationProtocol then some .protocolRefused
    else if conclusive alert then some .leafRejected else none
  | .other => none

/-- `classify` on the origin's leg, for an error that holds a refusal. -/
def originating : Refusal → Option Demotion
  | .noProtocol => some .protocolRefused
  | .untrusted => some .upstreamUntrusted
  | .alert alert =>
    if alert = alertNoApplicationProtocol then some .protocolRefused
    else if conclusive alert then some .upstreamRefusedProxy else none

/-! ### The table -/

def strikes : ℕ := 3

structure Strike where
  count : ℕ
  expiry : Option Instant

def Strike.default : Strike := ⟨0, none⟩

def unlapsed (strike : Strike) (now : Instant) : Bool := strike.expiry.any (now < ·)

def live (strike : Strike) (now : Instant) : Bool := strikes ≤ strike.count && unlapsed strike now

def pruneAt : ℕ := 1024

structure Demotions where
  hosts : Table Bytes (Demotion → Strike)
  pruneAt : ℕ

namespace Demotions

def new : Demotions := ⟨∅, Intercept.pruneAt⟩

def standingOf (expiries : Demotion → Strike) (now : Instant) : Standing :=
  match (Demotion.all.filter fun cause => live (expiries cause) now).argmin (fun cause => cause.tier.rank) with
  | none => .unrestricted
  | some cause => .limited cause

def standing (d : Demotions) (host : Bytes) (now : Instant) : Standing :=
  match d.hosts.lookup host with
  | none => .unrestricted
  | some expiries => standingOf expiries now

def prune (d : Demotions) (host : Bytes) (now : Instant) : Demotions :=
  if d.pruneAt ≤ Table.size d.hosts ∧ d.hosts.lookup host = none then
    let hosts := Table.retain
      (fun _ expiries => if Demotion.all.any (fun cause => unlapsed (expiries cause) now) then some expiries else none)
      d.hosts
    ⟨hosts, max Intercept.pruneAt (min (Table.size hosts * 2) BufferPool.u64Max)⟩
  else d

def record (d : Demotions) (host : Bytes) (cause : Demotion) (now : Instant) : Demotions × Standing :=
  let d := d.prune host now
  let expiries := (d.hosts.lookup host).getD fun _ => .default
  let count := if unlapsed (expiries cause) now then (expiries cause).count else 0
  let expiries := Function.update expiries cause ⟨min (count + 1) 255, now.checkedAdd cause.ttl⟩
  ({ d with hosts := d.hosts.insert host expiries }, standingOf expiries now)

end Demotions

end Boreas.Intercept
