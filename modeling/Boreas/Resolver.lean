import Boreas.Resolve

/-! # The resolver

`resolver_loop` (host/shell.rs) with the queries it has spawned, which share one memo of replies.  The loop clears the
memo if the policy's channel has changed, and only then takes its snapshot and spawns the query; these steps, the
upstream's answers and reloads come in any order.  `resolve_eq` is that an uninterrupted query does what `resolve`
does; by `sound_run` what is served from the memo was received for the same name and type. -/

namespace Boreas.Dns

def maxInflightQueries : ℕ := 64
def dnsCacheEntries : ℕ+ := 2048

/-! ### The halves of a query -/

def answerBuffer : Bytes := List.replicate maxDnsResponse 0

inductive Looked
  | ended (answer : Option Answer)
  | hit (request : Message) (policy : AnswerPolicy) (reply : Bytes) (age : Duration)
  | miss (request : Message) (policy : AnswerPolicy)

def lookUp (policy : HostPolicy) (cache : DnsCache) (query : DnsQuery) (buffered : Bool) (now : Instant) : Looked :=
  let formatError : Option Answer := (writeFormatError answerBuffer query.payload).toOption.map fun (out, len) =>
    ⟨query.client, query.resolver, out.take len, none, []⟩
  if buffered = false then .ended none
  else
    match Message.parse query.payload with
    | .error _ => .ended formatError
    | .ok request =>
      if request.isResponse then .ended formatError
      else
        match planQuery request.question policy with
        | .refuse rule =>
          .ended ((writeRefusal answerBuffer request).toOption.map fun (out, len) =>
            ⟨query.client, query.resolver, out.take len,
              some (bareResolution request.question .nameError .policy (some rule)), []⟩)
        | .forward policy =>
          match cache.get request.question.name request.question.qtype now with
          | some (reply, age) => .hit request policy reply age
          | none => .miss request policy

def finish (query : DnsQuery) (request : Message) (policy : AnswerPolicy) (reply : Reply) : Option Answer :=
  let rewritten :=
    match reply.bytes with
    | some bytes => rewriteReply answerBuffer request policy (ageSecs reply.age) bytes
    | none => .error .truncated
  match rewritten with
  | .ok fitted =>
    some ⟨query.client, query.resolver, fitted.out.take fitted.rewritten.len,
      some ⟨request.question.name, request.question.qtype, fitted.rcode, fitted.rewritten.answers, reply.provenance, none,
        fitted.rewritten.ech, fitted.rewritten.alpn⟩, fitted.steered⟩
  | .error _ =>
    (writeFailure answerBuffer request).toOption.map fun (out, len) =>
      ⟨query.client, query.resolver, out.take len,
        some (bareResolution request.question .serverFailure reply.provenance none), []⟩

def DnsCache.afterReply (cache : DnsCache) (request : Message) (now : Instant) : Option Bytes → DnsCache
  | some reply => cache.admitReply request.question.name request.question.qtype reply now
  | none => cache

variable {request : Message} {answers : AnswerPolicy} (upstream : DnsUpstream) (policy : HostPolicy) (now : Instant)
    (cache : DnsCache)

theorem resolve_eq (pool : BufferPool) (cache : DnsCache) (query : DnsQuery) :
    (resolve upstream policy now pool cache query).2 =
      match lookUp policy cache query (pool.takeZeroed maxDnsResponse).2.isSome now with
      | .ended answer => (cache, answer)
      | .hit request policy reply age => (cache, finish query request policy ⟨some reply, age, .cached upstream.kind⟩)
      | .miss request policy => (cache.afterReply request now (upstream.query query.payload),
          finish query request policy ⟨upstream.query query.payload, 0, .upstream upstream.kind⟩) := by
  unfold resolve lookUp
  rcases hpool : pool.takeZeroed maxDnsResponse with ⟨pool', lent⟩
  rcases lent with _ | buf
  · rfl
  obtain rfl : buf = answerBuffer := BufferPool.takeZeroed_eq hpool
  dsimp only
  rw [if_neg (by simp)]
  rcases Message.parse query.payload with _ | request
  · dsimp only
    cases writeFormatError answerBuffer query.payload <;> rfl
  dsimp only
  split_ifs with hresp
  · cases writeFormatError answerBuffer query.payload <;> rfl
  unfold answerQuery
  cases planQuery request.question policy with
  | refuse rule =>
    dsimp only
    cases writeRefusal answerBuffer request <;> rfl
  | forward answers =>
    unfold replyTo DnsCache.afterReply finish
    cases cache.get request.question.name request.question.qtype now with
    | some entry =>
      dsimp only
      cases rewriteReply answerBuffer request answers (ageSecs entry.2) entry.1 with
      | ok fitted => rfl
      | error e =>
        dsimp only
        cases writeFailure answerBuffer request <;> rfl
    | none =>
      rcases upstream.query query.payload with _ | reply
      · dsimp only
        cases writeFailure answerBuffer request <;> rfl
      dsimp only
      cases rewriteReply answerBuffer request answers (ageSecs 0) reply with
      | ok fitted => rfl
      | error e =>
        dsimp only
        cases writeFailure answerBuffer request <;> rfl

theorem lookUp_hit {policy : HostPolicy} {cache : DnsCache} {now : Instant}
    (h : lookUp policy cache query buffered now = .hit request answers reply age) :
    Message.parse query.payload = .ok request ∧
      cache.get request.question.name request.question.qtype now = some (reply, age) := by
  unfold lookUp at h
  split_ifs at h
  split at h
  · cases h
  rename_i hparse
  split_ifs at h
  split at h
  · cases h
  split at h
  · rename_i hget
    cases h
    exact ⟨hparse, hget⟩
  · cases h

theorem lookUp_miss {policy : HostPolicy} {cache : DnsCache} {now : Instant}
    (h : lookUp policy cache query buffered now = .miss request answers) :
    Message.parse query.payload = .ok request := by
  unfold lookUp at h
  split_ifs at h
  split at h
  · cases h
  rename_i hparse
  split_ifs at h
  split at h
  · cases h
  · split at h
    · cases h
    · cases h
      exact hparse

/-! ### Remembering -/

def expiry (reply : Bytes) (now : Instant) : Option Instant :=
  ((Message.parse reply).toOption.bind lifetime).bind now.checkedAdd

theorem admitReply_eq (name : Name) (qtype : RecordType) (reply : Bytes) (now : Instant) :
    cache.admitReply name qtype reply now =
      match expiry reply now with
      | none => cache
      | some expires => ⟨cache.entries.insert (name, qtype) ⟨reply, now, expires⟩⟩ := by
  unfold DnsCache.admitReply expiry
  cases (Message.parse reply).toOption.bind lifetime with
  | none | some lifetime => rfl

theorem get_some {cache : DnsCache} {now : Instant} (h : cache.get name qtype now = some (reply, age)) :
    ∃ cached, cache.entries.get (name, qtype) = some cached ∧ cached.reply = reply := by
  obtain ⟨cached, hcach, hpair⟩ := Option.map_eq_some_iff.mp h
  exact ⟨cached, (Option.filter_eq_some_iff.mp hcach).1, congrArg Prod.fst hpair⟩

end Boreas.Dns

namespace Boreas.Resolving

open Dns List Message

/-! ### The loop and its queries -/

/-- A spawned query with its snapshot of the policy; `version` counts the reloads before the snapshot. -/
structure Asked where
  query : DnsQuery
  policy : HostPolicy
  version : ℕ

inductive Phase
  | spawned
  | waiting (request : Message) (policy : AnswerPolicy) (now : Instant)

/-- A reply of the upstream and the query it was received for; `stored` counts the reloads before it came. -/
structure Received where
  asked : Asked
  request : Message
  reply : Bytes
  stored : ℕ

/-- A query that is served from the memo, and whose reply is noted there under its key. -/
structure Hit where
  asked : Asked
  request : Message
  reply : Bytes
  source : Option Received
  answer : Option Answer

def keyOf (request : Message) : Name × RecordType := (request.question.name, request.question.qtype)

/-- `resolver_loop` and its tasks.  `policy` is the value of the `watch` channel, `version` how often it was sent and
`seen` the version that the loop's receiver has seen; `taken` is a query that the loop has taken and not yet spawned.
The last fields are for statements: whose reply is remembered, and what was received, served from the memo and answered
so far. -/
structure Resolver where
  kind : Upstream
  policy : HostPolicy
  version : ℕ
  seen : ℕ
  taken : Option DnsQuery
  cache : DnsCache
  tasks : List (Asked × Phase)
  source : Name × RecordType → Option Received
  received : List Received
  hits : List Hit
  answers : List Answer

inductive Event
  | reload (policy : HostPolicy)
  | check (query : DnsQuery)
  | spawn
  | look (task : ℕ) (buffered : Bool) (now : Instant)
  | reply (task : ℕ) (bytes : Option Bytes)

namespace Resolver

def start (kind : Upstream) (policy : HostPolicy) : Resolver where
  kind := kind
  policy := policy
  version := 0
  seen := 0
  taken := none
  cache := .new dnsCacheEntries
  tasks := []
  source := fun _ => none
  received := []
  hits := []
  answers := []

variable (r : Resolver)

def reload (policy : HostPolicy) : Resolver := { r with policy := policy, version := r.version + 1 }

def check (query : DnsQuery) : Resolver :=
  if r.taken = none ∧ r.tasks.length < maxInflightQueries then
    let r := { r with taken := some query }
    if r.seen = r.version then r else { r with cache := r.cache.clear }
  else r

def spawn : Resolver :=
  match r.taken with
  | none => r
  | some query =>
    { r with taken := none, seen := r.version, tasks := r.tasks ++ [(⟨query, r.policy, r.version⟩, .spawned)] }

def ends (i : ℕ) (answer : Option Answer) : Resolver :=
  { r with tasks := r.tasks.eraseIdx i, answers := r.answers ++ answer.toList }

def look (i : ℕ) (buffered : Bool) (now : Instant) : Resolver :=
  match r.tasks[i]? with
  | some (asked, .spawned) =>
    match lookUp asked.policy r.cache asked.query buffered now with
    | .ended answer => r.ends i answer
    | .hit request policy reply age =>
      let answer := finish asked.query request policy ⟨some reply, age, .cached r.kind⟩
      let r := r.ends i answer
      { r with hits := r.hits ++ [⟨asked, request, reply, r.source (keyOf request), answer⟩] }
    | .miss request policy => { r with tasks := r.tasks.set i (asked, .waiting request policy now) }
  | _ => r

def receive (i : ℕ) (bytes : Option Bytes) : Resolver :=
  match r.tasks[i]? with
  | some (asked, .waiting request policy now) =>
    let r := r.ends i (finish asked.query request policy ⟨bytes, 0, .upstream r.kind⟩)
    let r := { r with cache := r.cache.afterReply request now bytes }
    match bytes with
    | none => r
    | some reply =>
      let received : Received := ⟨asked, request, reply, r.version⟩
      let r := { r with received := r.received ++ [received] }
      if (expiry reply now).isSome then { r with source := Function.update r.source (keyOf request) (some received) }
      else r
  | _ => r

def step : Event → Resolver
  | .reload policy => r.reload policy
  | .check query => r.check query
  | .spawn => r.spawn
  | .look i buffered now => r.look i buffered now
  | .reply i bytes => r.receive i bytes

end Resolver

/-! ### What a step does -/

inductive Move (r : Resolver) : Event → Resolver → Prop
  | idle (e : Event) : Move r e r
  | reload (policy : HostPolicy) : Move r (.reload policy) (r.reload policy)
  | checked (query : DnsQuery) (htaken : r.taken = none) (hseen : r.seen = r.version) :
      Move r (.check query) { r with taken := some query }
  | cleared (query : DnsQuery) (htaken : r.taken = none) (hunseen : r.seen ≠ r.version) :
      Move r (.check query) { r with taken := some query, cache := r.cache.clear }
  | spawned {query : DnsQuery} (htaken : r.taken = some query) :
      Move r .spawn
        { r with taken := none, seen := r.version, tasks := r.tasks ++ [(⟨query, r.policy, r.version⟩, .spawned)] }
  | ended {i : ℕ} (buffered : Bool) (now : Instant) (answer : Option Answer) :
      Move r (.look i buffered now) (r.ends i answer)
  | hit {i : ℕ} {buffered : Bool} {now : Instant} {asked : Asked} {request : Message} {reply : Bytes}
      {cached : Cached} {answer : Option Answer} (htask : r.tasks[i]? = some (asked, .spawned))
      (hparse : parse asked.query.payload = .ok request)
      (hget : r.cache.entries.get (keyOf request) = some cached) (hreply : cached.reply = reply) :
      Move r (.look i buffered now)
        { r.ends i answer with hits := r.hits ++ [⟨asked, request, reply, r.source (keyOf request), answer⟩] }
  | miss {i : ℕ} {buffered : Bool} {now : Instant} {asked : Asked} {request : Message} {policy : AnswerPolicy}
      (htask : r.tasks[i]? = some (asked, .spawned)) (hparse : parse asked.query.payload = .ok request) :
      Move r (.look i buffered now) { r with tasks := r.tasks.set i (asked, .waiting request policy now) }
  | failed {i : ℕ} (answer : Option Answer) : Move r (.reply i none) (r.ends i answer)
  | dropped {i : ℕ} {asked : Asked} {request : Message} {policy : AnswerPolicy} {now : Instant} {reply : Bytes}
      {answer : Option Answer} (htask : r.tasks[i]? = some (asked, .waiting request policy now))
      (hexpiry : expiry reply now = none) :
      Move r (.reply i (some reply))
        { r.ends i answer with received := r.received ++ [⟨asked, request, reply, r.version⟩] }
  | kept {i : ℕ} {asked : Asked} {request : Message} {policy : AnswerPolicy} {now expires : Instant} {reply : Bytes}
      {answer : Option Answer} (htask : r.tasks[i]? = some (asked, .waiting request policy now))
      (hexpiry : expiry reply now = some expires) :
      Move r (.reply i (some reply))
        { r.ends i answer with
          cache := ⟨r.cache.entries.insert (keyOf request) ⟨reply, now, expires⟩⟩
          received := r.received ++ [⟨asked, request, reply, r.version⟩]
          source := Function.update r.source (keyOf request) (some ⟨asked, request, reply, r.version⟩) }

variable (r : Resolver)

theorem move_check (query : DnsQuery) : Move r (.check query) (r.check query) := by
  unfold Resolver.check
  dsimp only
  split_ifs with hen hseen
  · exact .checked query hen.1 hseen
  · exact .cleared query hen.1 hseen
  · exact .idle _

theorem move_look (i : ℕ) (buffered : Bool) (now : Instant) :
    Move r (.look i buffered now) (r.look i buffered now) := by
  unfold Resolver.look
  split
  · rename_i asked htask
    split
    · exact .ended _ _ _
    · rename_i hlook
      obtain ⟨hparse, hget⟩ := lookUp_hit hlook
      obtain ⟨cached, hcach, hreply⟩ := get_some hget
      exact .hit htask hparse hcach hreply
    · rename_i hlook
      exact .miss htask (lookUp_miss hlook)
  · exact .idle _

theorem move_receive (i : ℕ) (bytes : Option Bytes) : Move r (.reply i bytes) (r.receive i bytes) := by
  unfold Resolver.receive
  split
  · rename_i asked request policy now htask
    rcases bytes with _ | reply
    · exact .failed _
    dsimp only [DnsCache.afterReply]
    rw [admitReply_eq]
    cases hexp : expiry reply now with
    | none => exact .dropped htask hexp
    | some expires => exact .kept htask hexp
  · exact .idle _

theorem move_step (e : Event) : Move r e (r.step e) := by
  cases e with
  | reload policy => exact .reload policy
  | check query => exact move_check r query
  | spawn =>
    dsimp only [Resolver.step, Resolver.spawn]
    split
    · exact .idle _
    · exact .spawned ‹_›
  | look i buffered now => exact move_look r i buffered now
  | reply i bytes => exact move_receive r i bytes

/-! ### Where a remembered reply comes from -/

structure Backs (received : List Received) (key : Name × RecordType) (t : Received) (cached : Cached) : Prop where
  mem : t ∈ received
  key : keyOf t.request = key
  reply : t.reply = cached.reply
  kept : ∃ now, (expiry t.reply now).isSome = true

/-- What a query was served is a reply received for a query with the same key. -/
structure Traced (received : List Received) (hit : Hit) (t : Received) : Prop where
  source : hit.source = some t
  mem : t ∈ received
  key : keyOf t.request = keyOf hit.request
  reply : t.reply = hit.reply
  kept : ∃ now, (expiry t.reply now).isSome = true

variable {received received' : List Received}

theorem Backs.mono (hsub : received ⊆ received') {key : Name × RecordType}
    (h : Backs received key t cached) : Backs received' key t cached :=
  ⟨hsub h.mem, h.key, h.reply, h.kept⟩

theorem Traced.mono (hsub : received ⊆ received')
    (h : Traced received hit t) : Traced received' hit t := ⟨h.source, hsub h.mem, h.key, h.reply, h.kept⟩

structure Sound (r : Resolver) : Prop where
  waiting : ∀ asked request policy now, (asked, .waiting request policy now) ∈ r.tasks →
    parse asked.query.payload = .ok request
  received : ∀ t ∈ r.received, parse t.asked.query.payload = .ok t.request
  sourced : BoundedFifo.Sourced (Backs r.received) r.source r.cache.entries
  hits : ∀ hit ∈ r.hits, parse hit.asked.query.payload = .ok hit.request ∧ ∃ t, Traced r.received hit t

theorem sound_start (kind : Upstream) (policy : HostPolicy) : Sound (.start kind policy) where
  waiting _ _ _ _ hmem := absurd hmem not_mem_nil
  received _ hmem := absurd hmem not_mem_nil
  sourced := BoundedFifo.sourced_new _
  hits _ hmem := absurd hmem not_mem_nil

theorem Sound.ends {r : Resolver} (h : Sound r) (i : ℕ) (answer : Option Answer) : Sound (r.ends i answer) :=
  ⟨fun asked request policy now hmem => h.waiting asked request policy now (mem_of_mem_eraseIdx hmem), h.received,
    h.sourced, h.hits⟩

theorem Sound.traced {r : Resolver} (h : Sound r)
    (answer : Option Answer) (hget : r.cache.entries.get (keyOf request) = some cached) (hreply : cached.reply = reply) :
    ∃ t, Traced r.received ⟨asked, request, reply, r.source (keyOf request), answer⟩ t := by
  obtain ⟨t, hsrc, hbacks⟩ := h.sourced _ _ hget
  exact ⟨t, hsrc, hbacks.mem, hbacks.key, hbacks.reply.trans hreply, hbacks.kept⟩

theorem Sound.received_snoc {r : Resolver} (h : Sound r)
    {i : ℕ} (htask : r.tasks[i]? = some (asked, .waiting request policy now)) (reply : Bytes) :
    ∀ t ∈ r.received ++ [⟨asked, request, reply, r.version⟩], parse t.asked.query.payload = .ok t.request := by
  intro t ht
  obtain ht | ht := mem_append.mp ht
  · exact h.received t ht
  · obtain rfl := mem_singleton.mp ht
    exact h.waiting asked request policy now (mem_of_getElem? htask)

theorem Sound.step {r : Resolver} (h : Sound r) (hmove : Move r e r') : Sound r' := by
  cases hmove with
  | idle => exact h
  | reload policy | checked query => exact { h with }
  | cleared query => exact ⟨h.waiting, h.received, BoundedFifo.sourced_clear, h.hits⟩
  | spawned htaken =>
    refine ⟨fun asked request policy now hmem => ?_, h.received, h.sourced, h.hits⟩
    obtain hmem | hmem := mem_append.mp hmem
    · exact h.waiting asked request policy now hmem
    · cases mem_singleton.mp hmem
  | ended => exact h.ends _ _
  | hit htask hparse hget hreply =>
    refine ⟨(h.ends _ none).waiting, h.received, h.sourced, fun hit hmem => ?_⟩
    obtain hmem | hmem := mem_append.mp hmem
    · exact h.hits hit hmem
    · obtain rfl := mem_singleton.mp hmem
      exact ⟨hparse, h.traced _ hget hreply⟩
  | miss htask hparse =>
    refine ⟨fun asked' req' pol' now' hmem => ?_, h.received, h.sourced, h.hits⟩
    obtain hmem | heq := mem_or_eq_of_mem_set hmem
    · exact h.waiting asked' req' pol' now' hmem
    · cases heq
      exact hparse
  | failed => exact h.ends _ _
  | dropped htask hexp =>
    refine ⟨(h.ends _ none).waiting, h.received_snoc htask _,
      h.sourced.mono fun _ _ _ hbacks => hbacks.mono (subset_append_left _ _), fun hit hmem => ?_⟩
    obtain ⟨hparse, t, htr⟩ := h.hits hit hmem
    exact ⟨hparse, t, htr.mono (subset_append_left _ _)⟩
  | kept htask hexp =>
    refine ⟨(h.ends _ none).waiting, h.received_snoc htask _, ?_, fun hit hmem => ?_⟩
    · refine BoundedFifo.Sourced.insert
        (h.sourced.mono fun _ _ _ hbacks => hbacks.mono (subset_append_left _ _)) ?_
      exact ⟨mem_append_right _ mem_cons_self, rfl, rfl, _, by rw [hexp]; rfl⟩
    · obtain ⟨hparse, t, htr⟩ := h.hits hit hmem
      exact ⟨hparse, t, htr.mono (subset_append_left _ _)⟩

theorem sound_run (kind : Upstream) (policy : HostPolicy) (es : List Event) :
    Sound (Runs.run Resolver.step (.start kind policy) es) :=
  Runs.run_kept (I := Sound) (fun r e h => h.step (move_step r e)) es _ (sound_start kind policy)

end Boreas.Resolving
