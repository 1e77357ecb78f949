import Boreas.Resolve
import Boreas.SvcParams

/-! # The addresses an answer tells

What a client learns from an answer: the addresses of its `A` and `AAAA` records and the hints of its HTTPS and SVCB
records (`told`).  For an inspected name each should be on the list the answer is steered by (`Steers`), but the list
holds the addresses of `A` and `AAAA` records only: `steers_iff` says that the hints are the difference. -/

namespace Boreas.Dns

open List hiding all cons count head nil

/-! ### What a record tells -/

def svcparamIpv4hint : ℕ := 4
def svcparamIpv6hint : ℕ := 6

def groups (size : ℕ) : ℕ → Bytes → List Bytes
  | 0, _ => []
  | count + 1, bytes => bytes.take size :: groups size count (bytes.drop size)

def paramHints (p : ℕ × Bytes) : List IpAddr :=
  if p.1 = svcparamIpv4hint then (groups 4 (p.2.length / 4) p.2).map ipv4
  else if p.1 = svcparamIpv6hint then (groups 16 (p.2.length / 16) p.2).map ipv6
  else []

def svcParams (rdata : Bytes) : Except DnsError (List (ℕ × Bytes)) := do
  let cursor ← svcParamsAt rdata
  foldParams rdata (fun params p => .ok (params ++ [(p.key, p.value)])) cursor none []

def recordHints (record : ResourceRecord) : List IpAddr :=
  if record.rtype.carriesSvcParams then
    match svcParams record.rdata with
    | .error _ => []
    | .ok params => params.flatMap paramHints
  else []

variable (bytes : Bytes)

def messageRecords : List ResourceRecord :=
  match Message.parse bytes with
  | .error _ => []
  | .ok m =>
    match m.answers with
    | .error _ => []
    | .ok answers => answers.map Prod.fst

def addressed : List IpAddr := (messageRecords bytes).flatMap recordAddresses

def hinted : List IpAddr := (messageRecords bytes).flatMap recordHints

def told : List IpAddr := addressed bytes ++ hinted bytes

theorem messageRecords_eq {bytes : Bytes} (hparse : Message.parse bytes = .ok m) (hans : m.answers = .ok answers) :
    messageRecords bytes = answers.map Prod.fst := by
  unfold messageRecords
  rw [hparse]
  dsimp only
  rw [hans]

/-! ### Rewriting keeps what is told -/

theorem foldlM_collect : (placed cursor ps).foldlM
      (fun params (p : SvcParam) => (.ok (params ++ [(p.key, p.value)]) : Except DnsError _)) s = .ok (s ++ ps) := by
  induction ps generalizing cursor s with
  | nil =>
    rw [append_nil]
    rfl
  | cons p ps ih =>
    show (placed (cursor + 4 + p.2.length) ps).foldlM _ (s ++ [p]) = _
    rw [ih, append_assoc, singleton_append]

theorem svcParams_of_service (h : Service rdata head ps) : svcParams rdata = .ok ps := by
  unfold svcParams
  rw [h.fold, foldlM_collect, nil_append]

theorem flatMap_paramHints_keeps (policy : AnswerPolicy) (all ps : List (ℕ × Bytes)) :
    (ps.filter (keeps policy all)).flatMap paramHints = ps.flatMap paramHints := by
  induction ps with
  | nil => rfl
  | cons p ps ih =>
    cases hkept : keeps policy all p with
    | true => rw [filter_cons_of_pos hkept, flatMap_cons, flatMap_cons, ih]
    | false =>
      have hnone : paramHints p = [] := by
        unfold paramHints
        rw [if_neg, if_neg]
        · intro hkey
          simp [keeps, hkey, svcparamIpv6hint, svcparamAlpn, svcparamNoDefaultAlpn, svcparamEch] at hkept
        · intro hkey
          simp [keeps, hkey, svcparamIpv4hint, svcparamAlpn, svcparamNoDefaultAlpn, svcparamEch] at hkept
      rw [filter_cons_of_neg (by rw [hkept]; exact Bool.false_ne_true), flatMap_cons, hnone, ih,
        nil_append]

variable {policy : AnswerPolicy} {age : ℕ}

theorem recordHints_rewrites (h : Rewrites policy age old new) : recordHints new = recordHints old := by
  unfold recordHints
  rw [h.rtype]
  split_ifs with hsvc
  · obtain ⟨params, rdata, hpars, hrdata, hnew⟩ := h.rdata
    obtain ⟨rdata', head, ps, hrdata', hold, hleft⟩ := answerRdata_eq policy hsvc hpars
    rw [hrdata'] at hrdata
    cases hrdata
    rw [hnew, svcParams_of_service hleft, svcParams_of_service hold]
    exact flatMap_paramHints_keeps policy ps ps
  · rfl

theorem recordAddresses_rewrites (h : Rewrites policy age old new) : recordAddresses new = recordAddresses old := by
  unfold recordAddresses
  cases hrtype : old.rtype with
  | a | aaaa => rw [h.rtype, hrtype, h.rdata_eq (by rw [hrtype]; rfl)]
  | https | svcb | other value => rw [h.rtype, hrtype]

theorem flatMap_rewrites {olds : List (ResourceRecord × ℕ)}
    (hall : Forall₂ (fun old new => Rewrites policy age old.1 new) olds news)
    {f : ResourceRecord → List IpAddr} (hf : ∀ old new, Rewrites policy age old new → f new = f old) :
    news.flatMap f = (olds.map Prod.fst).flatMap f := by
  induction hall with
  | nil => rfl
  | cons hone _ ih => rw [map_cons, flatMap_cons, flatMap_cons, ih, hf _ _ hone]

/-- **The rewritten answer tells what the reply tells.** -/
theorem told_rewritten (hquery : Message.parse qbytes = .ok query) (hup : Message.parse ubytes = .ok upstream)
    (hwrite : writeResponseAged out query upstream policy age = .ok (out', r)) :
    addressed (out'.take r.len) = addressed ubytes ∧ hinted (out'.take r.len) = hinted ubytes := by
  obtain ⟨olds, news, w, holds, hall, -, hparse, hans, -⟩ := answers_written hquery hup hwrite
  unfold addressed hinted
  rw [messageRecords_eq hparse hans, messageRecords_eq hup holds, map_fst_laidAt]
  constructor
  · exact flatMap_rewrites hall fun _ _ => recordAddresses_rewrites
  · exact flatMap_rewrites hall fun _ _ => recordHints_rewrites

/-! ### What `resolve` hands back for an inspected name -/

theorem messageRecords_writeEmpty (hquery : Message.parse qbytes = .ok query) (hflags : flags &&& opcodeMask = 0)
    (hwrite : writeEmpty out query flags = .ok (out', len)) : messageRecords (out'.take len) = [] := by
  obtain ⟨w, hparse, hans⟩ := answers_writeEmpty hquery hflags hwrite
  rw [messageRecords_eq hparse hans, map_nil]

theorem addressed_eq {bytes : Bytes} (hparse : Message.parse bytes = .ok m)
    (h : answerAddresses m = .ok addresses) : addresses = addressed bytes := by
  unfold answerAddresses at h
  rw [bind_eq_ok] at h
  obtain ⟨answers, hans, h⟩ := h
  cases h
  rw [addressed, messageRecords_eq hparse hans, flatMap_map]

theorem rewriteReply_spec {bytes : Bytes} (hreq : Message.parse qbytes = .ok request) (hsteers : policy.steers = true)
    (h : rewriteReply buffer request policy age bytes = .ok fitted) :
    messageRecords (fitted.out.take fitted.rewritten.len) = [] ∨
      fitted.steered = addressed bytes ∧ addressed (fitted.out.take fitted.rewritten.len) = addressed bytes ∧
        hinted (fitted.out.take fitted.rewritten.len) = hinted bytes := by
  unfold rewriteReply at h
  rw [bind_eq_ok] at h
  obtain ⟨reply, hreply, h⟩ := h
  rw [if_pos hsteers, bind_eq_ok] at h
  obtain ⟨steered, hsteer, h⟩ := h
  split at h
  · rename_i out rewritten hwrite
    cases h
    exact .inr ⟨addressed_eq hreply hsteer, told_rewritten hreq hreply hwrite⟩
  · rw [bind_eq_ok] at h
    obtain ⟨⟨out, len⟩, htrunc, h⟩ := h
    cases h
    exact .inl (messageRecords_writeEmpty hreq rfl htrunc)
  · cases h

/-- **An answer with records for an inspected name** tells what the reply it comes from tells, and lists the addresses
of its address records. -/
theorem resolve_inspected {policy : HostPolicy}
    (hreq : Message.parse query.payload = .ok request) (hquery : request.isResponse = false)
    (hinsp : (policy.judge request.question.name).verdict = .inspected)
    (hres : (resolve upstream policy now pool cache query).2.2 = some answer)
    (hrecs : messageRecords answer.message ≠ []) :
    ∃ reply, (replyTo upstream cache request.question query.payload now).1.bytes = some reply ∧
      answer.steered = addressed reply ∧ addressed answer.message = addressed reply ∧
      hinted answer.message = hinted reply := by
  have hplan : planQuery request.question policy = .forward (answerPolicy .inspected) := by
    unfold planQuery
    dsimp only
    rw [hinsp]
  unfold resolve at hres
  split at hres
  · cases hres
  rename_i buf _
  rw [hreq] at hres
  dsimp only at hres
  rw [hquery, if_neg Bool.false_ne_true] at hres
  split at hres
  · rename_i msg resolution steered hans
    cases hres
    unfold answerQuery at hans
    rw [hplan] at hans
    dsimp only at hans hrecs ⊢
    split at hans
    · rename_i fitted hfitted
      cases hans
      split at hfitted
      · rename_i bytes hbytes
        obtain hnone | hsome := rewriteReply_spec hreq rfl hfitted
        · exact absurd hnone hrecs
        · exact ⟨bytes, hbytes, hsome⟩
      · cases hfitted
    · rw [Prod.mk.injEq] at hans
      obtain ⟨⟨out, len⟩, hfail, heq⟩ := Option.map_eq_some_iff.mp hans.2
      cases heq
      have hwrite : writeFailure buf request = .ok (out, len) := by
        rcases hresult : writeFailure buf request with _ | res
        · rw [hresult] at hfail
          cases hfail
        rw [hresult] at hfail
        cases hfail
        rfl
      exact absurd (messageRecords_writeEmpty hreq rfl hwrite) hrecs
  · cases hres

end Boreas.Dns

namespace Boreas.Dispatcher

open Dns

/-! ### Steering -/

/-- Every address the answer tells is listed; those listed are live before the answer is queued, and still are when
it is. -/
structure Steers (d : Dispatcher) (answer : Answer) (now : Instant) : Prop where
  listed : ∀ address ∈ told answer.message, address ∈ answer.steered
  unqueued : (d.admitAnswer answer now).transmits = d.transmits
  admitted : ∀ address ∈ answer.steered, (d.admitAnswer answer now).inspected.live address now = true
  live : ∀ address ∈ answer.steered, (d.onAnswer answer now).1.inspected.live address now = true

theorem inspected_answerDns (d : Dispatcher) : (d.answerDns client resolver response).1.inspected = d.inspected := by
  unfold answerDns
  split
  · rfl
  · split <;> rfl

theorem transmits_admitAnswer (d : Dispatcher) (answer : Answer) (now : Instant) :
    (d.admitAnswer answer now).transmits = d.transmits := by
  unfold admitAnswer
  split_ifs <;> rfl

theorem live_admitAnswer {d : Dispatcher} (hwin : 0 < d.inspected.window)
    (hroom : (d.inspected.admitAddresses answer.steered now).2 = 0)
    (h : address ∈ answer.steered) : (d.admitAnswer answer now).inspected.live address now = true := by
  unfold admitAnswer
  split_ifs with hnone
  · rw [hnone] at h
    cases h
  · exact InspectedAddresses.live_admitAddresses hwin hroom h

/-- **Every address of an inspected host that an answer tells is steered** if the hints of the reply it comes from are
all among the addresses of that reply's `A` and `AAAA` records. -/
theorem steers_iff {upstream : DnsUpstream} {policy : HostPolicy} {now later : Instant} {pool : BufferPool}
    {cache : DnsCache} {query : DnsQuery} {request : Message} {answer : Answer} {d : Dispatcher}
    (hrequest : Message.parse query.payload = .ok request) (hquery : request.isResponse = false)
    (hinspected : (policy.judge request.question.name).verdict = .inspected)
    (hresolve : (Dns.resolve upstream policy now pool cache query).2.2 = some answer)
    (hrecords : messageRecords answer.message ≠ []) (hwindow : 0 < d.inspected.window)
    (hroom : (d.inspected.admitAddresses answer.steered later).2 = 0) :
    ∃ reply, (replyTo upstream cache request.question query.payload now).1.bytes = some reply ∧
      (d.Steers answer later ↔ ∀ address ∈ hinted reply, address ∈ addressed reply) := by
  obtain ⟨reply, hreply, hsteer, haddressed, hhinted⟩ :=
    resolve_inspected hrequest hquery hinspected hresolve hrecords
  refine ⟨reply, hreply, ?_⟩
  constructor
  · intro h address hmem
    rw [← hsteer]
    apply h.listed
    rw [told, hhinted]
    exact List.mem_append_right _ hmem
  · intro h
    have hlive : ∀ address ∈ answer.steered, (d.admitAnswer answer later).inspected.live address later = true :=
      fun _ => live_admitAnswer hwindow hroom
    refine ⟨fun address hmem => ?_, transmits_admitAnswer d answer later, hlive, fun address hmem => ?_⟩
    · rw [told, haddressed, hhinted] at hmem
      rw [hsteer]
      obtain hmem | hmem := List.mem_append.mp hmem
      · exact hmem
      · exact h address hmem
    · unfold onAnswer
      rw [inspected_answerDns]
      exact hlive address hmem

/-! ### One query -/

def inspectingQ : HostPolicy := HostPolicy.new.insertName .inspected ((Name.parse [113]).getD .root)

def queryQ (qtype : UInt8) : DnsQuery :=
  ⟨⟨.v4 0x0a000001#32, 5353⟩, ⟨.v4 0x0a000002#32, 53⟩, [0, 7, 1, 0, 0, 1, 0, 0, 0, 0, 0, 0, 1, 113, 0, 0, qtype, 0, 1]⟩

/-- A reply with one record of the type that was asked, given by its length and RDATA. -/
def replyQ (qtype : UInt8) (rdata : Bytes) : Bytes :=
  [0, 7, 129, 128, 0, 1, 0, 1, 0, 0, 0, 0, 1, 113, 0, 0, qtype, 0, 1, 192, 12, 0, qtype, 0, 1, 0, 0, 0, 60] ++ rdata

def resolveQ (qtype : UInt8) (rdata : Bytes) : Option Answer :=
  (Dns.resolve ⟨.do53, fun _ => some (replyQ qtype rdata)⟩ inspectingQ (Instant.ofSecs 0)
    (.new (Nat.succPNat 1499) (Nat.succPNat 7)) (.new (Nat.succPNat 3)) (queryQ qtype)).2.2

/-- An `A` record: its address is steered. -/
theorem steers_address : ∃ answer, resolveQ 1 [0, 4, 192, 0, 2, 1] = some answer ∧
    told answer.message = [.v4 0xc0000201#32] ∧ (inspecting .flows).Steers answer (Instant.ofSecs 0) := by
  obtain ⟨req, hreq, hquery, hinsp⟩ : ∃ req, Message.parse (queryQ 1).payload = .ok req ∧
      req.isResponse = false ∧ (inspectingQ.judge req.question.name).verdict = .inspected :=
    holds_of_ok (by decide)
  have hrun : (resolveQ 1 [0, 4, 192, 0, 2, 1]).any (fun answer => told answer.message = [.v4 0xc0000201#32] ∧
      ((inspecting .flows).inspected.admitAddresses answer.steered (Instant.ofSecs 0)).2 = 0) = true := by
    decide +kernel
  obtain ⟨answer, hans, hholds⟩ := (Option.any_eq_true _ _).mp hrun
  obtain ⟨htold, hroom⟩ := of_decide_eq_true hholds
  have hrecs : messageRecords answer.message ≠ [] := by
    intro hnone
    simp [told, addressed, hinted, hnone] at htold
  obtain ⟨reply, hreply, hsteers⟩ := steers_iff hreq hquery hinsp hans hrecs (by decide) hroom
  refine ⟨answer, hans, htold, hsteers.mpr ?_⟩
  cases hreply
  decide

/-- An HTTPS record with an `ipv4hint`: the client is told an address that is not steered. -/
theorem hint_not_steered : ∃ answer, resolveQ 65 [0, 11, 0, 1, 0, 0, 4, 0, 4, 192, 0, 2, 1] = some answer ∧
    told answer.message = [.v4 0xc0000201#32] ∧ answer.steered = [] ∧
    ¬ (inspecting .flows).Steers answer (Instant.ofSecs 0) := by
  have hrun : (resolveQ 65 [0, 11, 0, 1, 0, 0, 4, 0, 4, 192, 0, 2, 1]).any (fun answer =>
      told answer.message = [.v4 0xc0000201#32] ∧ answer.steered = []) = true := by decide +kernel
  obtain ⟨answer, hans, hholds⟩ := (Option.any_eq_true _ _).mp hrun
  obtain ⟨htold, hsteer⟩ := of_decide_eq_true hholds
  refine ⟨answer, hans, htold, hsteer, fun h => ?_⟩
  have hlst := h.listed (.v4 0xc0000201#32) (by rw [htold]; exact List.mem_cons_self)
  rw [hsteer] at hlst
  cases hlst

end Boreas.Dispatcher
