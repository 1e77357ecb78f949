import Boreas.Clock
import Boreas.Dns
import Boreas.Fifo

/-! # The memo of upstream replies

The model of policy/cache.rs: replies are remembered under the name and type that were asked, for as long as their
shortest answer allows, within bounds; failures and replies that cannot be read are not. -/

namespace Boreas.Dns

def minTtl : Duration := fromSecs 30
def maxTtl : Duration := fromSecs 3600
def negativeTtl : Duration := fromSecs 60

def soa : ℕ := 6

def negativeLifetime (m : Message) : Duration :=
  match m.authority.find? (fun record => record.rtype.toWire = soa) with
  | none => negativeTtl
  | some record =>
    if record.rdata.length < 4 then negativeTtl
    else fromSecs (min record.ttl (ofOctets (record.rdata.drop (record.rdata.length - 4))))

def shortestTtl (answers : List (ResourceRecord × ℕ)) : Option ℕ := (answers.map fun answer => answer.1.ttl).min?

def lifetime (m : Message) : Option Duration :=
  let raw : Option Duration :=
    match m.rcode with
    | .noError =>
      match m.answers with
      | .error _ => none
      | .ok answers => some (((shortestTtl answers).map fromSecs).getD (negativeLifetime m))
    | .nameError => some (negativeLifetime m)
    | _ => none
  raw.map fun ttl => max minTtl (min ttl maxTtl)

structure Cached where
  reply : Bytes
  admitted : Instant
  expires : Instant
deriving DecidableEq

structure DnsCache where
  entries : BoundedFifo (Name × RecordType) Cached

namespace DnsCache

def new (capacity : ℕ+) : DnsCache := ⟨.new capacity⟩

def get (c : DnsCache) (name : Name) (qtype : RecordType) (now : Instant) : Option (Bytes × Duration) :=
  ((c.entries.get (name, qtype)).filter fun cached => now < cached.expires).map fun cached =>
    (cached.reply, now.saturatingDurationSince cached.admitted)

/-- `admit`; an expiry past the end of the clock's range, where the addition would panic, leaves the reply out. -/
def admitReply (c : DnsCache) (name : Name) (qtype : RecordType) (reply : Bytes) (now : Instant) : DnsCache :=
  match (Message.parse reply).toOption.bind lifetime with
  | none => c
  | some lifetime =>
    match now.checkedAdd lifetime with
    | none => c
    | some expires => ⟨c.entries.insert (name, qtype) ⟨reply, now, expires⟩⟩

def clear (c : DnsCache) : DnsCache := ⟨c.entries.clear⟩

end DnsCache

end Boreas.Dns
