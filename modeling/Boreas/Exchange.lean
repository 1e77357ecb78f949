import Boreas.Rules
import Boreas.Runs

/-! # The intercepted exchange

intercept/exchange.rs: `Proxy.prepare` is `Proxy::forward` up to the upstream, and the exchange runs requests of the
client's connection against the upstream connection on either wire.  Of hyper it is assumed that an error of the
service ends an HTTP/1 server connection, and only resets the stream on an HTTP/2 one.  `spent_iff` says on which
client wires an upstream that has ended also ends the client's connection. -/

namespace Boreas.Intercept

open Http Rules List Runs

inductive Wire
  | http1
  | http2
deriving DecidableEq, Repr

structure Response where
  status : ℕ
  headers : HeaderMap

/-! ### Hop-by-hop fields -/

inductive Handling
  | ordinary
  | upgrade
deriving DecidableEq, Repr

variable (headers : HeaderMap)

def connectionTokens : List Bytes :=
  ((headers.getAll .connection).filterMap toStr).flatMap (fun value => (value.splitOn 44).map trim)

def handling : Handling :=
  if (connectionTokens headers).any (eqIgnoreAsciiCase · (ascii "upgrade")) && headers.containsKey .upgrade then .upgrade
  else .ordinary

def hopByHop : List Bytes :=
  [ascii "keep-alive", ascii "proxy-authenticate", ascii "proxy-authorization", ascii "te", ascii "trailer",
    ascii "transfer-encoding"]

def nominated (handling : Handling) : List HeaderName :=
  ((connectionTokens headers).filter
    (fun token => handling = .ordinary || !eqIgnoreAsciiCase token (ascii "upgrade"))).filterMap HeaderName.fromBytes

def discards (handling : Handling) (name : HeaderName) : Bool :=
  hopByHop.contains name.bytes || (handling = .ordinary && (name = .connection || name = .upgrade)) ||
    (nominated headers handling).contains name

def keepDrained (discard : HeaderName → Bool) (state : HeaderMap × Option HeaderName) (item : Option HeaderName × Bytes) :
    HeaderMap × Option HeaderName :=
  let keeping :=
    match item.1 with
    | some name => if discard name then none else some name
    | none => state.2
  match keeping with
  | some name => (state.1.append name item.2, keeping)
  | none => (state.1, keeping)

def stripHopByHop (handling : Handling) : HeaderMap :=
  let discard := discards headers handling
  if !headers.keys.any discard then headers
  else (headers.drain.foldl (keepDrained discard) (.empty, none)).1

theorem foldl_keepDrained_rest (discard : HeaderName → Bool) (name : HeaderName) : ∀ (vs : List Bytes) (m : HeaderMap),
    (vs.map (fun value => (none, value))).foldl (keepDrained discard) (m, none) = (m, none) ∧
      (vs.map (fun value => (none, value))).foldl (keepDrained discard) (m, some name) =
        (vs.foldl (fun m value => m.append name value) m, some name)
  | [], _ => ⟨rfl, rfl⟩
  | _ :: vs, m =>
    ⟨(foldl_keepDrained_rest discard name vs m).1, (foldl_keepDrained_rest discard name vs _).2⟩

theorem foldl_keepDrained_field (discard : HeaderName → Bool) (hvals : field.2 ≠ [])
    (keeping : Option HeaderName) (hnew : field.1 ∉ m.keys) :
    (((HeaderMap.drainField field).foldl (keepDrained discard) (m, keeping)).1).fields =
      m.fields ++ if discard field.1 then [] else [field] := by
  obtain ⟨name, vs⟩ := field
  rcases vs with _ | ⟨value, vs⟩
  · exact absurd rfl hvals
  rw [HeaderMap.drainField, foldl_cons]
  dsimp only [keepDrained]
  by_cases hdisc : discard name = true
  · rw [if_pos hdisc, if_pos hdisc, (foldl_keepDrained_rest discard name vs m).1, append_nil]
  · rw [if_neg hdisc, if_neg hdisc, (foldl_keepDrained_rest discard name vs _).2]
    have hfirst : (m.append name value).fields = m.fields ++ [(name, [value])] :=
      HeaderMap.appendFields_of_notMem hnew
    exact HeaderMap.foldl_append_values name vs _ hfirst

theorem foldl_keepDrained (discard : HeaderName → Bool) : ∀ (fields : List (HeaderName × List Bytes)) (m : HeaderMap)
    (keeping : Option HeaderName), (∀ field ∈ fields, field.2 ≠ []) → (m.keys ++ fields.map Prod.fst).Nodup →
      (((fields.flatMap HeaderMap.drainField).foldl (keepDrained discard) (m, keeping)).1).fields =
        m.fields ++ fields.filter (fun field => !discard field.1)
  | [], m, _, _, _ => by simp
  | field :: fields, m, keeping, hvals, hnodup => by
    rw [flatMap_cons, foldl_append]
    have hnew : field.1 ∉ m.keys := fun hmem =>
      (nodup_append.mp hnodup).2.2 field.1 hmem field.1 (by simp) rfl
    have hfield := foldl_keepDrained_field discard (hvals field mem_cons_self) keeping hnew
    generalize (HeaderMap.drainField field).foldl (keepDrained discard) (m, keeping) = state at hfield ⊢
    obtain ⟨m', keeping'⟩ := state
    dsimp only at hfield
    have hkeys : (m'.keys ++ fields.map Prod.fst).Nodup := by
      unfold HeaderMap.keys at hnodup ⊢
      rw [hfield, map_append, append_assoc]
      refine List.Nodup.sublist ?_ hnodup
      rw [map_cons]
      split_ifs
      · simp
      · simp
    rw [foldl_keepDrained discard fields m' keeping' (fun f hf => hvals f (mem_cons_of_mem _ hf)) hkeys, hfield,
      append_assoc, filter_cons]
    cases hdisc : discard field.1 <;> simp

/-- **Stripping is a filter**: what is not discarded stays as it was, in order. -/
theorem fields_stripHopByHop (handling : Handling) : (stripHopByHop headers handling).fields =
      headers.fields.filter (fun field => !discards headers handling field.1) := by
  unfold stripHopByHop
  dsimp only
  rcases hany : headers.keys.any (discards headers handling) with _ | _
  · refine (filter_eq_self.mpr fun field hfield => ?_).symm
    have hkey : field.1 ∈ headers.keys := mem_map_of_mem hfield
    simpa using any_eq_false.mp hany field.1 hkey
  exact foldl_keepDrained _ headers.fields .empty none headers.ne_nil
    (by simpa [HeaderMap.keys, HeaderMap.empty] using headers.nodup)

/-! ### Forwarding a request -/

def withoutPort (named : Bytes) : Bytes :=
  if Uri.colon ∈ named then (named.rdropWhile (· != Uri.colon)).dropLast else named

/-- The host of a name: a bracketed IPv6 literal keeps its colons, a name loses its port, and either its last dots. -/
def hostOf (named : Bytes) : Bytes :=
  (if named.head? = some Uri.openBracket then named.tail.takeWhile (· != Uri.closeBracket)
    else withoutPort named).rdropWhile (· == 46)

def readName (request : Request) : Option Bytes :=
  match request.uri.host with
  | some host => some host
  | none => (request.headers.get .host).bind toStr

def requestedHost (request : Request) : Option Bytes := (readName request).map hostOf

/-- The host, filter and wires (the client's and the origin's) of an exchange; `shape` stands for the steering and
rewriting of a response. -/
structure Proxy where
  host : Bytes
  filter : Bytes → Request → FilterVerdict
  wires : Wire × Wire
  shape : Response → Response

inductive Prepared
  | answered (response : Response)
  | sent (request : Request) (handling : Handling)

def misdirected : Response := ⟨421, .empty⟩
def blocked : Response := ⟨403, .empty⟩
def badGateway : Response := ⟨502, .empty⟩

/-- `Proxy::forward` up to the upstream. -/
def Proxy.prepare (p : Proxy) (request : Request) : Prepared :=
  if (requestedHost request).any (fun host => !eqIgnoreAsciiCase host p.host) then .answered misdirected
  else if p.filter p.host request = .block then .answered blocked
  else
    let handling := handling request.headers
    .sent { request with headers := stripHopByHop request.headers handling } handling

/-! ### The connections of an exchange -/

inductive Client
  | serving
  | upgraded
  | closed
deriving DecidableEq, Repr

/-- A request sent upstream: whether the client offered an upgrade, and whether the upstream still stood. -/
structure Stream where
  id : ℕ
  upgrade : Bool
  upstreamOpen : Bool
deriving DecidableEq, Repr

inductive Outcome
  | response (response : Response)
  | failed

structure Exchange where
  served : Bool
  crossings : ℕ
  upstreamOpen : Bool
  client : Client
  inFlight : List Stream
  next : ℕ
  outcomes : List (ℕ × Outcome)

namespace Exchange

def init : Exchange := ⟨false, 0, true, .serving, [], 0, []⟩

variable (w : Exchange)

def conclude (id : ℕ) (outcome : Outcome) : Exchange :=
  { w with inFlight := w.inFlight.filter (fun stream => stream.id ≠ id), outcomes := w.outcomes ++ [(id, outcome)] }

def request (w : Exchange) (p : Proxy) (request : Request) : Exchange :=
  -- An HTTP/1 connection serves one request at a time.
  if w.client ≠ .serving ∨ (p.wires.1 = .http1 ∧ w.inFlight ≠ []) then w
  else
    match p.prepare request with
    | .answered response => { w with next := w.next + 1 }.conclude w.next (.response response)
    | .sent _ handling =>
      { w with
        next := w.next + 1
        crossings := if p.wires.1 = p.wires.2 then w.crossings else w.crossings + 1
        inFlight := w.inFlight ++ [⟨w.next, handling = .upgrade, w.upstreamOpen⟩] }

def answers (p : Proxy) (id : ℕ) (response : Response) : Exchange :=
  match w.inFlight.find? (fun stream => stream.id = id) with
  | none => w
  | some stream =>
    if stream.upstreamOpen = false then w
    else if stream.upgrade ∧ response.status = 101 then
      { w with
        served := true
        client := if p.wires.1 = Wire.http1 then .upgraded else w.client }.conclude id (.response response)
    else
      { w with served := true }.conclude id
        (.response (p.shape { response with headers := stripHopByHop response.headers .ordinary }))

def serviceError (p : Proxy) (id : ℕ) : Exchange :=
  match p.wires.1 with
  | .http1 => { w.conclude id .failed with client := .closed, inFlight := [] }
  | .http2 => w.conclude id .failed

def fails (p : Proxy) (id : ℕ) : Exchange :=
  match w.inFlight.find? (fun stream => stream.id = id) with
  | none => w
  | some _ => if w.served then w.serviceError p id else w.conclude id (.response badGateway)

end Exchange

inductive Event
  | request (request : Request)
  | answers (id : ℕ) (response : Response)
  | fails (id : ℕ)
  | upstreamEnds
  | hangUp

def step (p : Proxy) (w : Exchange) : Event → Exchange
  | .request request => w.request p request
  | .answers id response => w.answers p id response
  | .fails id => w.fails p id
  | .upstreamEnds => { w with upstreamOpen := false }
  | .hangUp => { w with client := .closed, inFlight := [] }

/-! ### A spent upstream -/

def failures (w : Exchange) : ℕ := w.outcomes.countP (fun outcome => outcome.2 matches .failed)

/-- Once the upstream has ended after serving, the first request that finds it ended closes the client's connection. -/
def EndsClient (wires : Wire × Wire) : Prop :=
  ∀ (p : Proxy), p.wires = wires → ∀ (es : List Event) (stream : Stream),
    let w := run (step p) Exchange.init es
    w.served = true → w.upstreamOpen = false → stream ∈ w.inFlight → (step p w (.fails stream.id)).client = .closed

/-- No client connection can see its requests fail without end. -/
def BoundsFailures (wires : Wire × Wire) : Prop :=
  ∃ bound, ∀ (p : Proxy), p.wires = wires → ∀ es : List Event, failures (run (step p) Exchange.init es) ≤ bound

/-! ### The HTTP/1 client -/

theorem failures_conclude_response (id : ℕ) : failures (w.conclude id (.response response)) = failures w := by
  simp [failures, Exchange.conclude]

theorem failures_conclude_failed (id : ℕ) : failures (w.conclude id .failed) = failures w + 1 := by
  simp [failures, Exchange.conclude]

/-- On an HTTP/1 client connection: nothing is in flight once it is closed, and only its last request failed. -/
structure H1Ok (w : Exchange) : Prop where
  idle : w.client = .closed → w.inFlight = []
  failures_le : failures w ≤ 1
  failures_eq : w.client ≠ .closed → failures w = 0

variable {w : Exchange}

theorem H1Ok.of_found (h : H1Ok w) {id : ℕ}
    (hfound : w.inFlight.find? (fun stream => stream.id = id) = some stream) : w.client ≠ .closed := by
  intro hcl
  rw [h.idle hcl] at hfound
  cases hfound

theorem H1Ok.responded {w' : Exchange} (h : H1Ok w) (hopen : w.client ≠ .closed) (houtcomes : w'.outcomes = w.outcomes)
    (hopen' : w'.client ≠ .closed) (id : ℕ) (resp : Response) : H1Ok (w'.conclude id (.response resp)) := by
  have hfails : failures (w'.conclude id (.response resp)) = 0 := by
    rw [failures_conclude_response, failures, houtcomes]
    exact h.failures_eq hopen
  exact ⟨fun hcl => absurd hcl hopen', hfails ▸ Nat.zero_le 1, fun _ => hfails⟩

theorem h1Ok_step (hwire : p.wires.1 = .http1) (h : H1Ok w) (e : Event) : H1Ok (step p w e) := by
  cases e with
  | request request =>
    dsimp only [step, Exchange.request]
    by_cases hbusy : w.client ≠ .serving ∨ (p.wires.1 = .http1 ∧ w.inFlight ≠ [])
    · rw [if_pos hbusy]
      exact h
    · have hserving : w.client = .serving := not_not.mp (not_or.mp hbusy).1
      have hopen : w.client ≠ .closed := by rw [hserving]; nofun
      rw [if_neg hbusy]
      cases p.prepare request with
      | answered resp => exact h.responded hopen (by rfl) (by exact hopen) w.next resp
      | sent sent handling => exact ⟨fun hcl => absurd hcl hopen, h.failures_le, h.failures_eq⟩
  | answers id resp =>
    dsimp only [step, Exchange.answers]
    cases hfound : w.inFlight.find? (fun stream => stream.id = id) with
    | none => exact h
    | some stream =>
      have hopen := h.of_found hfound
      dsimp only
      split_ifs
      · exact h
      · exact h.responded hopen (by rfl) (by nofun) id _
      · exact h.responded hopen (by rfl) (by exact hopen) id _
  | fails id =>
    dsimp only [step, Exchange.fails]
    cases hfound : w.inFlight.find? (fun stream => stream.id = id) with
    | none => exact h
    | some stream =>
      have hopen := h.of_found hfound
      split_ifs
      · unfold Exchange.serviceError
        rw [hwire]
        have hfails : failures (w.conclude id .failed) = 1 := by
          rw [failures_conclude_failed, h.failures_eq hopen]
        exact ⟨fun _ => rfl, hfails.le, fun hne => absurd rfl hne⟩
      · exact h.responded hopen rfl hopen id badGateway
  | upstreamEnds => exact { h with }
  | hangUp => exact ⟨fun _ => rfl, h.failures_le, fun hne => absurd rfl hne⟩

variable {wires : Wire × Wire}

theorem boundsFailures_h1 (hwire : wires.1 = .http1) : BoundsFailures wires := by
  refine ⟨1, fun p hp es => ?_⟩
  have hinit : H1Ok Exchange.init := ⟨nofun, Nat.zero_le 1, fun _ => rfl⟩
  exact (run_kept (I := H1Ok) (fun w e hw => h1Ok_step (by rw [hp, hwire]) hw e) es _ hinit).failures_le

theorem endsClient_h1 (hwire : wires.1 = .http1) : EndsClient wires := by
  intro p hp es stream w hserv hended hstr
  have hfound : (w.inFlight.find? (fun s => s.id = stream.id)).isSome :=
    find?_isSome.mpr ⟨stream, hstr, by simp⟩
  dsimp only [step, Exchange.fails]
  cases h : w.inFlight.find? (fun s => s.id = stream.id) with
  | none => rw [h] at hfound; cases hfound
  | some found =>
    rw [if_pos hserv, Exchange.serviceError, hp, hwire]

/-! ### The HTTP/2 client -/

def plainRequest : Request := ⟨ascii "GET", ⟨none, none, ascii "/"⟩, .empty⟩

def openProxy (wires : Wire × Wire) : Proxy := ⟨ascii "example.com", fun _ _ => .allow, wires, id⟩

def spend : List Event := [.request plainRequest, .answers 0 ⟨200, .empty⟩, .upstreamEnds]

def retry (id : ℕ) : List Event := [.request plainRequest, .fails id]

structure Spent (w : Exchange) : Prop where
  served : w.served = true
  ended : w.upstreamOpen = false
  serving : w.client = .serving
  idle : w.inFlight = []

theorem Spent.retry (h : Spent w) (up : Wire) :
    let w' := run (step (openProxy (.http2, up))) w (retry w.next)
    Spent w' ∧ w'.next = w.next + 1 ∧ failures w' = failures w + 1 := by
  obtain ⟨crossings, hreq⟩ : ∃ crossings, step (openProxy (.http2, up)) w (.request plainRequest) =
      { w with next := w.next + 1, crossings := crossings, inFlight := [⟨w.next, false, w.upstreamOpen⟩] } := by
    refine ⟨if Wire.http2 = up then w.crossings else w.crossings + 1, ?_⟩
    dsimp only [step, Exchange.request]
    rw [if_neg (by simp [h.serving, openProxy]), h.idle]
    rfl
  dsimp only [Intercept.retry]
  rw [run_cons, hreq, run_cons]
  have hfails : step (openProxy (.http2, up))
      { w with next := w.next + 1, crossings := crossings, inFlight := [⟨w.next, false, w.upstreamOpen⟩] } (.fails w.next) =
      { w with next := w.next + 1, crossings := crossings, inFlight := [],
               outcomes := w.outcomes ++ [(w.next, .failed)] } := by
    simp [step, Exchange.fails, h.served, Exchange.serviceError, openProxy, Exchange.conclude]
  rw [hfails]
  exact ⟨⟨h.served, h.ended, h.serving, rfl⟩, rfl, by simp [failures]⟩

theorem spent_retries (up : Wire) : ∀ n : ℕ,
    let w := run (step (openProxy (.http2, up))) Exchange.init
      (spend ++ (List.range n).flatMap (fun i => retry (i + 1)))
    Spent w ∧ w.next = n + 1 ∧ failures w = n
  | 0 => by cases up <;> exact ⟨⟨rfl, rfl, rfl, rfl⟩, rfl, rfl⟩
  | n + 1 => by
    obtain ⟨hspent, hnext, hfails⟩ := spent_retries up n
    have hretry := hspent.retry up
    rw [hnext, hfails] at hretry
    rw [range_succ, flatMap_append, ← append_assoc, run_append]
    simpa using hretry

theorem not_endsClient_h2 (up : Wire) : ¬ EndsClient (.http2, up) := by
  intro hends
  have hcl := hends (openProxy (.http2, up)) rfl (spend ++ [.request plainRequest]) ⟨1, false, false⟩
  cases up <;> cases hcl rfl rfl (by decide)

theorem not_boundsFailures_h2 (up : Wire) : ¬ BoundsFailures (.http2, up) := by
  rintro ⟨bound, hbound⟩
  have hle := hbound (openProxy (.http2, up)) rfl
    (spend ++ (List.range (bound + 1)).flatMap (fun i => retry (i + 1)))
  rw [(spent_retries up (bound + 1)).2.2] at hle
  omega

/-- **A spent upstream ends the client's connection exactly on HTTP/1**: only there does the first request that finds
it ended close the connection, and only there is the number of failed requests bounded. -/
theorem spent_iff (wires : Wire × Wire) :
    (EndsClient wires ↔ wires.1 = .http1) ∧ (BoundsFailures wires ↔ wires.1 = .http1) := by
  obtain ⟨client, upstream⟩ := wires
  cases client with
  | http1 => exact ⟨⟨fun _ => rfl, fun _ => endsClient_h1 rfl⟩, ⟨fun _ => rfl, fun _ => boundsFailures_h1 rfl⟩⟩
  | http2 =>
    exact ⟨⟨fun hends => absurd hends (not_endsClient_h2 upstream), nofun⟩,
      ⟨fun hbounds => absurd hbounds (not_boundsFailures_h2 upstream), nofun⟩⟩

/-- **Three failed requests on an HTTP/2 client connection** after its upstream ended, and it is still serving. -/
theorem serving_after_failures :
    let w := run (step (openProxy (.http2, .http2))) Exchange.init (spend ++ retry 1 ++ retry 2 ++ retry 3)
    w.served = true ∧ w.upstreamOpen = false ∧ failures w = 3 ∧ w.client = .serving ∧
      ¬ EndsClient (.http2, .http2) ∧ ¬ BoundsFailures (.http2, .http2) :=
  ⟨rfl, rfl, rfl, rfl, not_endsClient_h2 .http2, not_boundsFailures_h2 .http2⟩

end Boreas.Intercept
