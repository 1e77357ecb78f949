import Boreas.Dispatch
import Boreas.DnsCache
import Boreas.HostPolicy

/-! # Resolving a query

The model of `resolve` and of what the reactor does with its answer (host/shell.rs): a query is refused, or answered
from the upstream or the memo of its replies, rewritten under the policy of its name; the addresses of an inspected
name are collected for steering, and the reactor admits them to the inspected set before it queues the answer. -/

namespace Boreas.Dns

open L3

def maxDnsResponse : ℕ := 1232
def minDnsResponse : ℕ := 512

inductive Upstream
  | do53
  | doT
  | doH
  | doQ
deriving DecidableEq, Repr

inductive Provenance
  | policy
  | upstream (kind : Upstream)
  | cached (kind : Upstream)
deriving DecidableEq, Repr

structure Resolution where
  name : Name
  qtype : RecordType
  rcode : Rcode
  answers : ℕ
  provenance : Provenance
  rule : Option Name
  ech : EchOutcome
  alpn : AlpnOutcome
deriving DecidableEq

structure Answer where
  client : InternalEndpoint
  resolver : InternalEndpoint
  message : Bytes
  resolution : Option Resolution
  steered : List IpAddr
deriving DecidableEq

/-! ### The reply to a forwarded query -/

/-- A transport to the upstream: what a payload is answered with, unless it fails. -/
structure DnsUpstream where
  kind : Upstream
  query : Bytes → Option Bytes

structure Reply where
  bytes : Option Bytes
  age : Duration
  provenance : Provenance
deriving DecidableEq

variable (upstream : DnsUpstream)

def replyTo (cache : DnsCache) (question : Question) (payload : Bytes) (now : Instant) :
    Reply × DnsCache :=
  match cache.get question.name question.qtype now with
  | some (reply, age) => (⟨some reply, age, .cached upstream.kind⟩, cache)
  | none =>
    match upstream.query payload with
    | some reply =>
      (⟨some reply, 0, .upstream upstream.kind⟩, cache.admitReply question.name question.qtype reply now)
    | none => (⟨none, 0, .upstream upstream.kind⟩, cache)

def ageSecs (age : Duration) : ℕ := min (age / nanosPerSec) (2 ^ 32 - 1)

def responseLimit (request : Message) : ℕ :=
  max minDnsResponse (min (request.udpPayloadSize.getD minDnsResponse) maxDnsResponse)

structure Fitted where
  out : Bytes
  rewritten : Rewritten
  rcode : Rcode
  steered : List IpAddr

/-- The upstream's message for the client.  One that does not fit is truncated, over what a failed attempt left in the
buffer. -/
def rewriteReply (buffer : Bytes) (request : Message) (policy : AnswerPolicy) (age : ℕ) (bytes : Bytes) :
    Except DnsError Fitted := do
  let reply ← Message.parse bytes
  let steered ← if policy.steers then answerAddresses reply else .ok []
  match writeResponseAged (buffer.take (responseLimit request)) request reply policy age with
  | .ok (out, rewritten) => return ⟨out, rewritten, reply.rcode, steered⟩
  | .error .outputTooSmall =>
    let (out, len) ← writeTruncated buffer request
    return ⟨out, ⟨len, 0, .absent, .absent⟩, reply.rcode, []⟩
  | .error error => .error error

/-! ### The whole query -/

def bareResolution (question : Question) (rcode : Rcode) (provenance : Provenance) (rule : Option Name) : Resolution :=
  ⟨question.name, question.qtype, rcode, 0, provenance, rule, .absent, .absent⟩

def answerQuery (policy : HostPolicy) (now : Instant) (cache : DnsCache) (buffer : Bytes)
    (request : Message) (payload : Bytes) : DnsCache × Option (Bytes × Resolution × List IpAddr) :=
  match planQuery request.question policy with
  | .refuse rule =>
    (cache, (writeRefusal buffer request).toOption.map fun (out, len) =>
      (out.take len, bareResolution request.question .nameError .policy (some rule), []))
  | .forward policy =>
    let (reply, cache) := replyTo upstream cache request.question payload now
    let rewritten :=
      match reply.bytes with
      | some bytes => rewriteReply buffer request policy (ageSecs reply.age) bytes
      | none => .error .truncated
    match rewritten with
    | .ok fitted =>
      (cache, some (fitted.out.take fitted.rewritten.len,
        ⟨request.question.name, request.question.qtype, fitted.rcode, fitted.rewritten.answers, reply.provenance, none,
          fitted.rewritten.ech, fitted.rewritten.alpn⟩, fitted.steered))
    | .error _ =>
      (cache, (writeFailure buffer request).toOption.map fun (out, len) =>
        (out.take len, bareResolution request.question .serverFailure reply.provenance none, []))

def resolve (policy : HostPolicy) (now : Instant) (pool : BufferPool) (cache : DnsCache)
    (query : DnsQuery) : BufferPool × DnsCache × Option Answer :=
  match pool.takeZeroed maxDnsResponse with
  | (pool, none) => (pool, cache, none)
  | (pool, some buffer) =>
    let formatError :=
      match writeFormatError buffer query.payload with
      | .ok (out, len) => (pool, cache, some ⟨query.client, query.resolver, out.take len, none, []⟩)
      | .error _ => (pool.release, cache, none)
    match Message.parse query.payload with
    | .error _ => formatError
    | .ok request =>
      if request.isResponse then formatError
      else
        match answerQuery upstream policy now cache buffer request query.payload with
        | (cache, some (message, resolution, steered)) =>
          (pool, cache, some ⟨query.client, query.resolver, message, some resolution, steered⟩)
        | (cache, none) => (pool.release, cache, none)

end Boreas.Dns

namespace Boreas.Dispatcher

open Dns

def admitAnswer (d : Dispatcher) (answer : Answer) (now : Instant) : Dispatcher :=
  if answer.steered = [] then d else d.inspectAddresses answer.steered now

def onAnswer (d : Dispatcher) (answer : Answer) (now : Instant) : Dispatcher × Except DatapathError Unit :=
  (d.admitAnswer answer now).answerDns answer.client answer.resolver answer.message

end Boreas.Dispatcher
