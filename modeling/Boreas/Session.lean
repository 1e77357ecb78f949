import Boreas.ClientHello
import Boreas.Demote

/-! # Sessions

intercept/session.rs: `introduce` and `peek` recognise what a client opens with, and `establish` is `serve_session` up
to `run_exchange`.  A run interleaves sessions and the events of their exchanges.  The request parser, the origin and
the local TLS server are parameters; of the last two it is assumed that the origin selects a protocol that it was
offered, or none, and that the local server selects the one wire it advertises or refuses
(`Conforms`).  `crossings_run` says that then no exchange crosses HTTP versions. -/

namespace Boreas.Session

open List Reader
open L3 (SocketAddr)
open Http Rules Intercept
open Wire (fromAlpn)

/-! ### The opening -/

/-- What the request parser says of a first part of a request. -/
inductive Parsed
  | complete (headers : List (Bytes × Bytes))
  | incomplete
  | error

/-- httparse on at most 64 fields, and whether a text is an authority of the http crate. -/
structure Parsers where
  request : Bytes → Parsed
  authority : Bytes → Bool

inductive Introduction
  | incomplete
  | tls (hello : Hello)
  | http (host : Option DomainName)
  | plain
deriving DecidableEq

def recordHandshake : UInt8 := 0x16
def recordMajor : UInt8 := 0x03
def maxRecord : ℕ := 2 ^ 14 + 5

variable (P : Parsers)

def hostField (headers : List (Bytes × Bytes)) : Option DomainName :=
  match headers.find? (fun field => eqIgnoreAsciiCase field.1 (ascii "host")) with
  | none => none
  | some (_, value) =>
    if validUtf8 value && P.authority value then (DomainName.new (Uri.authorityHost value)).toOption else none

def requestHead (bytes : Bytes) : Introduction :=
  match P.request bytes with
  | .complete headers => .http (hostField P headers)
  | .incomplete => .incomplete
  | .error => .plain

def introduce (bytes : Bytes) : Introduction :=
  match bytes with
  | content :: major :: _minor :: rest =>
    if content ≠ recordHandshake ∨ major ≠ recordMajor then requestHead P bytes
    else
      match vectorU16 rest with
      | none => .incomplete
      | some (record, _) => .tls (readHello record)
  | _ => .incomplete

def peek (buf : Bytes) : List Bytes → Introduction × Bytes × List Bytes
  | [] => (introduce P buf, buf, [])
  | chunk :: reads =>
    if introduce P buf = .incomplete ∧ buf.length < maxRecord then peek (buf ++ chunk) reads
    else (introduce P buf, buf, chunk :: reads)

/-! ### A session -/

inductive InterceptDecision
  | intercept
  | splice
deriving DecidableEq, Repr

structure InterceptPolicy where
  allow : List Bytes

def isUpper (b : UInt8) : Bool := 65 ≤ b && b ≤ 90

def InterceptPolicy.decide (p : InterceptPolicy) (host : Bytes) : InterceptDecision :=
  if (if host.any isUpper then p.allow.contains (host.map lower) else p.allow.contains host) then .intercept else .splice

inductive SpliceReason
  | notAllowlisted
  | unnamed
  | notTls
  | undecided
  | demoted (cause : Demotion)
  | originHandshake
deriving DecidableEq, Repr

inductive Handling
  | intercepted (host : DomainName) (wire : Wire) (tier : InterceptedTier)
  | spliced (reason : SpliceReason)
  | demoted (host : DomainName) (cause : Demotion)
deriving DecidableEq

inductive SessionError
  | upstream (error : EgressError)
  | clientHandshake (error : TlsError)
  | transfer
deriving DecidableEq, Repr

/-- What a session meets: the client's bytes as they are read before the deadline and the rest of them, the answers of
the egress (to the host by name, and to the address of a splice), of the origin to an ALPN list and of the local TLS
server to the client's bytes, and the times of its two looks at the demotions. -/
structure Attempt where
  server : SocketAddr
  reads : List Bytes
  rest : Bytes
  dial : Target → Except EgressError Unit
  splice : Target → Except SessionError Unit
  origin : DomainName → ClientProfile → Bytes → Except (Option Refusal) (Option Bytes)
  accept : Bytes → Wire → Except TlsError (Option Bytes)
  standsAt : Instant
  failsAt : Instant
  reads_ne : ∀ chunk ∈ reads, chunk ≠ [] ∧ chunk.length ≤ 1024

def Attempt.stream (a : Attempt) : Bytes := a.reads.flatten ++ a.rest

structure Running where
  host : DomainName
  tier : InterceptedTier
  proxy : Proxy
  exchange : Exchange

/-- What the sessions share, and the exchanges in progress. `shape` stands for the steering and rewriting of a
response on a tier; `handled` is what the sessions have returned. -/
structure Sessions where
  policy : InterceptPolicy
  filter : Bytes → Request → FilterVerdict
  shape : InterceptedTier → Response → Response
  demotions : Demotions
  crossings : ℕ
  live : Table ℕ Running
  handled : List (ℕ × Except SessionError Handling)

/-- How far a session gets without an exchange. -/
inductive Outcome
  | concluded (result : Except SessionError Handling)
  | exchange (host : DomainName) (wires : Wire × Wire) (tier : InterceptedTier)

namespace Sessions

def splice (a : Attempt) (reason : SpliceReason) : Outcome :=
  .concluded ((a.splice (.ip a.server)).map fun _ => .spliced reason)

variable (s : Sessions)

def learn (host : DomainName) (error : TlsError) (now : Instant) : Sessions × Outcome :=
  match terminating error with
  | none => (s, .concluded (.error (.clientHandshake error)))
  | some cause =>
    let (demotions, standing) := s.demotions.record host.bytes cause now
    ({ s with demotions := demotions }, .concluded <|
      match standing.permits with
      | .error cause => .ok (.demoted host cause)
      | .ok _ => .error (.clientHandshake error))

/-- The TLS approach: the origin selects before the forged leaf is sent. -/
def interceptTls (a : Attempt) (host : DomainName) (profile : ClientProfile) (alpn : Offer)
    (replayed : Bytes) (tier : InterceptedTier) : Sessions × Outcome :=
  match a.origin host profile alpn.encode with
  | .error refusal =>
    let demotions :=
      match refusal.bind originating with
      | some cause => (s.demotions.record host.bytes cause a.failsAt).1
      | none => s.demotions
    ({ s with demotions := demotions }, splice a .originHandshake)
  | .ok selected =>
    let wire := fromAlpn selected
    match a.accept replayed wire with
    -- The leaf is already sent, so a splice is no longer possible.
    | .error error => s.learn host error a.failsAt
    | .ok accepted => (s, .exchange host (fromAlpn accepted, wire) tier)

def intercept (a : Attempt) (host : DomainName)
    (approach : Sessions → InterceptedTier → Sessions × Outcome) : Sessions × Outcome :=
  if s.policy.decide host.bytes = .splice then (s, splice a .notAllowlisted)
  else
    match (s.demotions.standing host.bytes a.standsAt).permits with
    | .error cause => (s, splice a (.demoted cause))
    | .ok tier =>
      match a.dial (.domain host a.server.port) with
      | .error e => (s, .concluded (.error (.upstream e)))
      | .ok () => approach s tier

def establish (a : Attempt) : Sessions × Outcome :=
  match peek P [] a.reads with
  | (.tls ⟨some host, profile, alpn⟩, peeked, unread) =>
    s.intercept a host fun s tier => s.interceptTls a host profile alpn (peeked ++ unread.flatten ++ a.rest) tier
  -- Cleartext has no handshake, and is HTTP/1.
  | (.http (some host), _, _) => s.intercept a host fun s tier => (s, .exchange host (.http1, .http1) tier)
  | (.tls ⟨none, _, _⟩, _, _) => (s, splice a .unnamed)
  | (.http none, _, _) => (s, splice a .unnamed)
  | (.plain, _, _) => (s, splice a .notTls)
  | (.incomplete, _, _) => (s, splice a .undecided)

end Sessions

/-! ### Runs of sessions -/

inductive Event
  | session (k : ℕ) (a : Attempt)
  | exchange (k : ℕ) (event : Intercept.Event)
  /-- The exchange ends, with the number of rewrites that exceeded their budget. -/
  | ends (k : ℕ) (failures : ℕ) (now : Instant)

def step (s : Sessions) : Event → Sessions
  | .session k a =>
    match s.live.lookup k with
    | some _ => s
    | none =>
      match s.establish P a with
      | (s, .concluded result) => { s with handled := s.handled ++ [(k, result)] }
      | (s, .exchange host wires tier) =>
        { s with live := s.live.insert k ⟨host, tier, ⟨host.bytes, s.filter, wires, s.shape tier⟩, .init⟩ }
  | .exchange k event =>
    match s.live.lookup k with
    | none => s
    | some r =>
      let exchange := Intercept.step r.proxy r.exchange event
      { s with
        crossings := s.crossings + (exchange.crossings - r.exchange.crossings)
        live := s.live.insert k { r with exchange := exchange } }
  | .ends k failures now =>
    match s.live.lookup k with
    | none => s
    | some r =>
      { s with
        live := s.live.erase k
        demotions :=
          if 0 < failures then (s.demotions.record r.host.bytes .rewriteExhausted now).1 else s.demotions
        handled := s.handled ++ [(k, .ok (.intercepted r.host r.proxy.wires.1 r.tier))] }

/-! ### The two TLS peers -/

def OfferedIn (alpn name : Bytes) : Prop :=
  ∃ names, (∀ n ∈ names, n.length < 256) ∧ alpnList names = alpn ∧ name ∈ names

def Selects (offered : List Bytes) (wire : Wire) (selected : Option Bytes) : Prop :=
  (wire.identifier ∈ offered ∧ selected = some wire.identifier) ∨ (offered = [] ∧ selected = none)

structure Attempt.Conforms (a : Attempt) : Prop where
  origin : ∀ host profile alpn name, a.origin host profile alpn = .ok (some name) → OfferedIn alpn name
  opens : ∀ wire selected, a.accept a.stream wire = .ok selected → ∃ h : ClientHello, h.Opens a.stream
  accept : ∀ (h : ClientHello) record wire selected, ClientHello.FirstRecord a.stream record → h.encode <+: record →
    a.accept a.stream wire = .ok selected → Selects h.offered wire selected

def Event.Conforms : Event → Prop
  | .session _ a => a.Conforms
  | _ => True

def Speaks (h : ClientHello) (wire : Wire) : Prop :=
  wire.identifier ∈ h.offered ∨ (h.offered = [] ∧ wire = .http1)

def Chosen (selected : Option Bytes) (wire : Wire) : Prop :=
  selected = some wire.identifier ∨ (selected = none ∧ wire = .http1)

def Attempt.selected (a : Attempt) : Option (Option Bytes) :=
  match (peek P [] a.reads).1 with
  | .tls ⟨some host, profile, alpn⟩ => (a.origin host profile alpn.encode).toOption
  | _ => none

def Attempt.CommonWire (a : Attempt) (h : ClientHello) : Prop :=
  ∃ wire selected, Speaks h wire ∧ a.selected P = some selected ∧ Chosen selected wire

/-! ### What was recognised -/

variable {P}

theorem peek_eq (buf : Bytes) (reads : List Bytes) : (peek P buf reads).1 = introduce P (peek P buf reads).2.1 ∧
      (peek P buf reads).2.1 ++ (peek P buf reads).2.2.flatten = buf ++ reads.flatten := by
  induction reads generalizing buf with
  | nil => exact ⟨rfl, rfl⟩
  | cons chunk reads ih =>
    unfold peek
    split_ifs with hmore
    · rw [flatten_cons, ← append_assoc]
      exact ih (buf ++ chunk)
    · exact ⟨rfl, rfl⟩

theorem introduce_of_opens {h : ClientHello} (hopens : h.Opens (peeked ++ more)) : introduce P peeked = .incomplete ∨
      ∃ record, introduce P peeked = .tls (readHello record) ∧ ClientHello.FirstRecord (peeked ++ more) record ∧
        (record <+: h.encode ∨ h.encode <+: record) := by
  obtain ⟨record, ⟨minor, rest, hshort, hbytes⟩, hrec⟩ := hopens
  have hfirst : ClientHello.FirstRecord (peeked ++ more) record := ⟨minor, rest, hshort, hbytes⟩
  match peeked, hbytes with
  | [], _ | [_], _ | [_, _], _ => exact .inl rfl
  | content :: major :: minor' :: tail, hbytes =>
    obtain ⟨rfl, rfl, rfl, htail⟩ : content = 0x16 ∧ major = 0x03 ∧ minor' = minor ∧
        tail ++ more = vector16 record ++ rest := by simpa using hbytes
    unfold introduce
    dsimp only
    rcases hread : vectorU16 tail with _ | ⟨body, after⟩
    · exact .inl rfl
    have hmore := vectorU16_append hread more
    rw [htail, vectorU16_vector16 hshort] at hmore
    cases hmore
    exact .inr ⟨record, rfl, hfirst, hrec⟩

/-! ### What reaches an exchange -/

theorem snd_learn (s : Sessions) (host : DomainName) (error : TlsError) (now : Instant) :
    ∃ result, (s.learn host error now).2 = .concluded result := by
  unfold Sessions.learn
  cases terminating error with
  | none | some cause => exact ⟨_, rfl⟩

variable {s : Sessions} {a : Attempt} {wires : Wire × Wire} {tier : InterceptedTier}

variable {approach : Sessions → InterceptedTier → Sessions × Outcome}

theorem exchange_intercept (heq : (s.intercept a host approach).2 = .exchange h wires tier) :
    ∃ t, (approach s t).2 = .exchange h wires tier := by
  unfold Sessions.intercept at heq
  split_ifs at heq
  · cases heq
  rcases hperm : (s.demotions.standing host.bytes a.standsAt).permits with _ | t
  · rw [hperm] at heq
    cases heq
  rw [hperm] at heq
  rcases hdial : a.dial (.domain host a.server.port) with _ | _
  · rw [hdial] at heq
    cases heq
  rw [hdial] at heq
  exact ⟨t, heq⟩

variable {alpn : Offer}

theorem exchange_interceptTls (heq : (s.interceptTls a host profile alpn replayed t).2 = .exchange h wires tier) :
    ∃ selected accepted, a.origin host profile alpn.encode = .ok selected ∧
      a.accept replayed (fromAlpn selected) = .ok accepted ∧ wires = (fromAlpn accepted, fromAlpn selected) := by
  unfold Sessions.interceptTls at heq
  rcases horig : a.origin host profile alpn.encode with _ | selected
  · rw [horig] at heq
    exact absurd heq nofun
  rw [horig] at heq
  dsimp only at heq
  rcases hacc : a.accept replayed (fromAlpn selected) with e | accepted
  · rw [hacc] at heq
    obtain ⟨result, hres⟩ := snd_learn s host e a.failsAt
    exact absurd (hres.symm.trans heq) (by nofun)
  rw [hacc] at heq
  cases heq
  exact ⟨selected, accepted, rfl, hacc, rfl⟩

theorem mem_of_offeredIn (h : OfferedIn alpn.encode name) : ∃ wire ∈ alpn.wires, name = wire.identifier := by
  obtain ⟨names, hshort, hlist, hname⟩ := h
  have hwires : ∀ n ∈ alpn.wires.map Wire.identifier, n.length < 256 := by
    intro n hn
    obtain ⟨wire, -, rfl⟩ := mem_map.mp hn
    exact wire.length_identifier_lt
  have hnames : names = alpn.wires.map Wire.identifier := by
    rw [← all_alpnList hshort, hlist]
    exact all_alpnList hwires
  rw [hnames] at hname
  obtain ⟨wire, hwire, rfl⟩ := mem_map.mp hname
  exact ⟨wire, hwire, rfl⟩

/-- **Both peers settle on one wire**, and it is common to them. -/
theorem wires_agree {accepted : Option Bytes} (hoffer : ∀ wire, wire ∈ alpn.wires ↔ wire.identifier ∈ h.offered)
    (horig : ∀ name, selected = some name → OfferedIn alpn.encode name)
    (hacc : Selects h.offered (fromAlpn selected) accepted) :
    fromAlpn accepted = fromAlpn selected ∧ Speaks h (fromAlpn selected) ∧ Chosen selected (fromAlpn selected) := by
  rcases selected with _ | name
  · rcases hacc with ⟨hmem, rfl⟩ | ⟨hnone, rfl⟩
    · exact ⟨rfl, .inl hmem, .inr ⟨rfl, rfl⟩⟩
    · exact ⟨rfl, .inr ⟨hnone, rfl⟩, .inr ⟨rfl, rfl⟩⟩
  obtain ⟨wire, hwire, rfl⟩ := mem_of_offeredIn (horig name rfl)
  rw [Wire.fromAlpn_identifier] at hacc ⊢
  have hmem := (hoffer wire).mp hwire
  rcases hacc with ⟨-, rfl⟩ | ⟨hnone, -⟩
  · exact ⟨Wire.fromAlpn_identifier wire, .inl hmem, .inl rfl⟩
  · rw [hnone] at hmem
    cases hmem

variable {host : DomainName}

theorem exchange_establish (heq : (s.establish P a).2 = .exchange host wires tier) :
    (wires = (.http1, .http1) ∧ ∃ name, (peek P [] a.reads).1 = .http (some name)) ∨
      ∃ name profile alpn selected accepted, (peek P [] a.reads).1 = .tls ⟨some name, profile, alpn⟩ ∧
        a.origin name profile alpn.encode = .ok selected ∧ a.accept a.stream (fromAlpn selected) = .ok accepted ∧
        wires = (fromAlpn accepted, fromAlpn selected) := by
  have hstr := (peek_eq (P := P) [] a.reads).2
  unfold Sessions.establish at heq
  match hpeek : peek P [] a.reads with
  | (.tls ⟨some name, profile, alpn⟩, peeked, unread) =>
    rw [hpeek] at heq hstr
    obtain ⟨t, heq⟩ := exchange_intercept heq
    obtain ⟨selected, accepted, horig, hacc, hwires⟩ := exchange_interceptTls heq
    rw [show peeked ++ unread.flatten = a.reads.flatten from hstr] at hacc
    exact .inr ⟨name, profile, alpn, selected, accepted, rfl, horig, hacc, hwires⟩
  | (.http (some name), _, _) =>
    rw [hpeek] at heq
    obtain ⟨t, heq⟩ := exchange_intercept heq
    cases heq
    exact .inl ⟨rfl, _, rfl⟩
  | (.tls ⟨none, _, _⟩, _, _) | (.http none, _, _) | (.plain, _, _) | (.incomplete, _, _) =>
    rw [hpeek] at heq
    cases heq

/-- **A session that reaches an exchange has one wire on both legs**, and the ClientHello and the origin have it in
common. -/
theorem wires_establish (hconf : a.Conforms) (heq : (s.establish P a).2 = .exchange host wires tier) :
    wires.1 = wires.2 ∧ ∀ h : ClientHello, h.Opens a.stream → a.CommonWire P h := by
  obtain ⟨hintro, hstr⟩ := peek_eq (P := P) [] a.reads
  have hrecog : ∀ h : ClientHello, h.Opens a.stream → (peek P [] a.reads).1 = .incomplete ∨
      ∃ record, (peek P [] a.reads).1 = .tls (readHello record) ∧ ClientHello.FirstRecord a.stream record ∧
        (record <+: h.encode ∨ h.encode <+: record) := by
    intro h hopens
    unfold Attempt.stream at hopens ⊢
    rw [← nil_append a.reads.flatten, ← hstr, append_assoc] at hopens ⊢
    rw [hintro]
    exact introduce_of_opens hopens
  rcases exchange_establish heq with ⟨rfl, name, hhttp⟩ | ⟨name, profile, alpn, selected, accepted, htls, horig, hacc, rfl⟩
  · refine ⟨rfl, fun h hopens => ?_⟩
    rcases hrecog h hopens with hnone | ⟨record, hsome, -⟩
    · rw [hhttp] at hnone
      cases hnone
    · rw [hhttp] at hsome
      cases hsome
  · have hagree : ∀ h : ClientHello, h.Opens a.stream → fromAlpn accepted = fromAlpn selected ∧
        Speaks h (fromAlpn selected) ∧ Chosen selected (fromAlpn selected) := by
      intro h hopens
      rcases hrecog h hopens with hnone | ⟨record, hsome, hfirst, hrec⟩
      · rw [htls] at hnone
        cases hnone
      rw [htls] at hsome
      have hhello : readHello record = ⟨some name, profile, alpn⟩ := (Introduction.tls.inj hsome).symm
      have hwhole := ClientHello.whole_of_host hrec (by rw [hhello]; nofun)
      have hoffer := ClientHello.wires_of_record hwhole
      rw [hhello] at hoffer
      refine wires_agree hoffer (fun n hn => ?_) (hconf.accept h record _ _ hfirst hwhole hacc)
      rw [hn] at horig
      exact hconf.origin _ _ _ _ horig
    obtain ⟨h, hopens⟩ := hconf.opens _ _ hacc
    refine ⟨(hagree h hopens).1, fun h hopens => ⟨_, selected, (hagree h hopens).2.1, ?_, (hagree h hopens).2.2⟩⟩
    unfold Attempt.selected
    rw [htls]
    dsimp only
    rw [horig]
    rfl

def Ended (result : Except SessionError Handling) : Prop := ∀ host wire tier, result ≠ .ok (.intercepted host wire tier)

variable {result : Except SessionError Handling}

theorem ended_splice (heq : Sessions.splice a reason = .concluded result) : Ended result := by
  cases heq
  cases a.splice (.ip a.server) <;> exact nofun

theorem ended_learn (heq : (s.learn host error now).2 = .concluded result) : Ended result := by
  unfold Sessions.learn at heq
  rcases hcause : terminating error with _ | cause
  · rw [hcause] at heq
    cases heq
    exact nofun
  rw [hcause] at heq
  dsimp only at heq
  cases hperm : (s.demotions.record host.bytes cause now).2.permits with
  | error cause' | ok t =>
    rw [hperm] at heq
    cases heq
    exact nofun

/-- What a step before the exchange does: the demotions may change, and a session that is over has ended. -/
structure Settles (s : Sessions) (out : Sessions × Outcome) : Prop where
  frame : ∃ demotions, out.1 = { s with demotions := demotions }
  ended : ∀ result, out.2 = .concluded result → Ended result

theorem settles_splice (s : Sessions) (a : Attempt) :
    Settles s (s, Sessions.splice a reason) := ⟨⟨_, rfl⟩, fun _ heq => ended_splice heq⟩

theorem settles_interceptTls (s : Sessions) (a : Attempt) (host : DomainName) (profile : ClientProfile) (alpn : Offer)
    (tier : InterceptedTier) : Settles s (s.interceptTls a host profile alpn replayed tier) := by
  unfold Sessions.interceptTls
  rcases a.origin host profile alpn.encode with _ | selected
  · exact ⟨⟨_, rfl⟩, fun _ heq => ended_splice heq⟩
  dsimp only
  cases a.accept replayed (fromAlpn selected) with
  | ok accepted => exact ⟨⟨_, rfl⟩, nofun⟩
  | error e =>
    refine ⟨?_, fun _ heq => ended_learn heq⟩
    dsimp only
    unfold Sessions.learn
    cases terminating e with
    | none | some cause => exact ⟨_, rfl⟩

theorem settles_intercept (h : ∀ tier, Settles s (approach s tier)) : Settles s (s.intercept a host approach) := by
  unfold Sessions.intercept
  split_ifs
  · exact settles_splice s a
  rcases (s.demotions.standing host.bytes a.standsAt).permits with _ | tier
  · exact settles_splice s a
  cases a.dial (.domain host a.server.port) with
  | error e =>
    refine ⟨⟨_, rfl⟩, fun result heq => ?_⟩
    cases heq
    exact nofun
  | ok _ => exact h tier

theorem settles_establish (s : Sessions) (a : Attempt) : Settles s (s.establish P a) := by
  unfold Sessions.establish
  match peek P [] a.reads with
  | (.tls ⟨some name, profile, alpn⟩, peeked, unread) =>
    exact settles_intercept fun tier => settles_interceptTls s a name profile alpn tier
  | (.http (some name), _, _) => exact settles_intercept fun tier => ⟨⟨_, rfl⟩, nofun⟩
  | (.tls ⟨none, _, _⟩, _, _) | (.http none, _, _) | (.plain, _, _) | (.incomplete, _, _) => exact settles_splice s a

/-! ### Runs -/

theorem crossings_step (hwires : p.wires.1 = p.wires.2) : (Intercept.step p w event).crossings = w.crossings := by
  cases event with
  | request request =>
    simp only [Intercept.step, Exchange.request, hwires, if_true]
    split_ifs
    · rfl
    · cases p.prepare request <;> rfl
  | answers id resp =>
    simp only [Intercept.step, Exchange.answers]
    cases w.inFlight.find? (fun stream => stream.id = id) with
    | none => rfl
    | some stream =>
      dsimp only
      split_ifs <;> rfl
  | fails id =>
    simp only [Intercept.step, Exchange.fails, Exchange.serviceError]
    cases w.inFlight.find? (fun stream => stream.id = id) with
    | none => rfl
    | some stream =>
      split_ifs
      · cases p.wires.1 <;> rfl
      · rfl
  | upstreamEnds | hangUp => rfl

structure Uncrossed (s : Sessions) : Prop where
  counter : s.crossings = 0
  wires : ∀ k r, s.live.lookup k = some r → r.proxy.wires.1 = r.proxy.wires.2

theorem Uncrossed.insert (h : Uncrossed s) (hr : r.proxy.wires.1 = r.proxy.wires.2) {k : ℕ} :
    ∀ j r', (s.live.insert k r).lookup j = some r' → r'.proxy.wires.1 = r'.proxy.wires.2 :=
  Table.forall_lookup_insert (P := fun _ (r : Running) => r.proxy.wires.1 = r.proxy.wires.2) k hr h.wires

theorem Uncrossed.step (h : Uncrossed s) (he : e.Conforms) : Uncrossed (step P s e) := by
  cases e with
  | session k a =>
    dsimp only [Session.step]
    cases s.live.lookup k with
    | some r => exact h
    | none =>
      obtain ⟨demotions, hframe⟩ := (settles_establish (P := P) s a).frame
      rcases hout : s.establish P a with ⟨s', out⟩
      rw [hout] at hframe
      dsimp only at hframe
      subst hframe
      cases out with
      | concluded result => exact ⟨h.counter, h.wires⟩
      | exchange host wires tier =>
        have hwires := (wires_establish (P := P) (s := s) he (by rw [hout])).1
        exact ⟨h.counter, h.insert hwires⟩
  | exchange k event =>
    dsimp only [Session.step]
    rcases hk : s.live.lookup k with _ | r
    · exact h
    have hr := h.wires k r hk
    refine ⟨?_, h.insert (r := { r with exchange := Intercept.step r.proxy r.exchange event }) hr⟩
    dsimp only
    rw [crossings_step hr, Nat.sub_self, h.counter]
  | ends k failures now =>
    dsimp only [Session.step]
    rcases hk : s.live.lookup k with _ | r
    · exact h
    refine ⟨h.counter, fun j r' hj => ?_⟩
    dsimp only at hj
    rw [Table.lookup_erase_eq] at hj
    split_ifs at hj
    exact h.wires j r' hj

/-- **No exchange crosses HTTP versions**: at any point of any run, the wires of every exchange in progress are
equal, the counter is zero, the next session reaches an exchange only with equal wires, and a session whose
ClientHello has no wire in common with the origin ends or is spliced. -/
theorem crossings_run {s₀ : Sessions} (hcounter : s₀.crossings = 0) (hlive : s₀.live = ∅) {es : List Event}
    (hconforms : ∀ e ∈ es, e.Conforms) :
    let s := Runs.run (step P) s₀ es
    s.crossings = 0 ∧ (∀ k r, s.live.lookup k = some r → r.proxy.wires.1 = r.proxy.wires.2) ∧
      ∀ a : Attempt, a.Conforms →
        (∀ host wires tier, (s.establish P a).2 = .exchange host wires tier → wires.1 = wires.2) ∧
        ∀ h : ClientHello, h.Opens a.stream → ¬ a.CommonWire P h →
          ∃ result, (s.establish P a).2 = .concluded result ∧ Ended result := by
  intro s
  have hempty : Uncrossed s₀ := ⟨hcounter, fun k r hk => by rw [hlive] at hk; cases hk⟩
  have hs : Uncrossed s := Runs.run_invariant (fun s e hs he => hs.step he) es s₀ hempty
    (Runs.along_of_mem es s₀ fun e he _ => hconforms e he)
  refine ⟨hs.counter, hs.wires, fun a ha => ⟨fun host wires tier heq => (wires_establish ha heq).1,
    fun h hopens hnone => ?_⟩⟩
  cases hout : (s.establish P a).2 with
  | concluded result => exact ⟨result, rfl, (settles_establish s a).ended result hout⟩
  | exchange host wires tier => exact absurd ((wires_establish ha hout).2 h hopens) hnone

/-! ### A client that offers both wires -/

def bothWires : List Bytes := [ascii "h2", ascii "http/1.1"]

def namedHello : ClientHello where
  version := [3, 3]
  random := List.replicate 32 17
  sessionId := []
  cipherSuites := [0x13, 0x01]
  compressionMethods := [0]
  extensions := some
    [(extensionServerName, vector16 (nameTypeHost :: vector16 (ascii "a.example"))),
      (extensionAlpn, vector16 (alpnList bothWires))]
  offered := bothWires
  version_length := rfl
  random_length := rfl
  sessionId_short := by decide
  cipherSuites_short := by decide
  compressionMethods_short := by decide
  extensions_short := by decide
  block_short := by decide
  distinct := by decide
  offered_short := by decide
  list_short := by decide
  alpn := by decide
  noAlpn := by decide

def namedStream : Bytes := 0x16 :: 0x03 :: 0x01 :: vector16 namedHello.encode

theorem namedHello_opens : namedHello.Opens namedStream :=
  ⟨namedHello.encode, ⟨0x01, [], by decide, by simp [namedStream]⟩, .inl (prefix_refl _)⟩

def namedAttempt : Attempt where
  server := ⟨.v4 0xc6336402#32, 443⟩
  reads := [namedStream]
  rest := []
  dial := fun _ => .ok ()
  splice := fun _ => .ok ()
  origin := fun _ _ alpn => .ok (if alpn = alpnList bothWires then some (ascii "h2") else none)
  accept := fun _ wire => if wire = .http2 then .ok (some (ascii "h2")) else .error .other
  standsAt := Instant.ofSecs 1
  failsAt := Instant.ofSecs 1
  reads_ne := by decide

def noRequests : Parsers := ⟨fun _ => .error, fun _ => false⟩

theorem namedAttempt_conforms : namedAttempt.Conforms where
  origin host profile alpn name h := by
    simp only [namedAttempt] at h
    split_ifs at h with halpn
    · cases h
      exact ⟨bothWires, by decide, halpn.symm, by decide⟩
    · cases h
  opens wire selected _ := ⟨namedHello, by simpa [Attempt.stream, namedAttempt] using namedHello_opens⟩
  accept h record wire selected hfirst hwhole hacc := by
    simp only [namedAttempt] at hacc
    split_ifs at hacc with hwire
    cases hacc
    refine .inl ⟨?_, by rw [hwire]; rfl⟩
    -- The record is the one of the attempt, and every ClientHello that it has whole offers HTTP/2.
    obtain ⟨minor, rest, hshort, hbytes⟩ := hfirst
    have hread : vectorU16 (vector16 namedHello.encode ++ []) = vectorU16 (vector16 record ++ rest) := by
      simpa [Attempt.stream, namedAttempt, namedStream] using congrArg (fun bytes => vectorU16 (bytes.drop 3)) hbytes
    rw [vectorU16_vector16 (by decide), vectorU16_vector16 hshort] at hread
    cases hread
    rw [← ClientHello.wires_of_record hwhole, hwire]
    decide +kernel

def freshSessions : Sessions where
  policy := ⟨[ascii "a.example"]⟩
  filter := fun _ _ => .allow
  shape := fun _ => id
  demotions := .new
  crossings := 0
  live := ∅
  handled := []

theorem crossings_named :
    let s := Runs.run (step noRequests) freshSessions [.session 0 namedAttempt]
    s.crossings = 0 ∧ (s.live.lookup 0).map (fun r => r.proxy.wires) = some (.http2, .http2) := by
  have hconf : ∀ e ∈ [Event.session 0 namedAttempt], e.Conforms := by
    intro e he
    rw [mem_singleton] at he
    subst he
    exact namedAttempt_conforms
  exact ⟨(@crossings_run noRequests freshSessions rfl rfl _ hconf).1, by decide +kernel⟩

end Boreas.Session
