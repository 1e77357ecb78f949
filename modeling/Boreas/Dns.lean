import Boreas.DnsName

/-! # DNS messages and the rewriting of answers

The model of policy/dns.rs around one message: `Message.parse` and the walk over its answers, the SvcParam walk of
HTTPS and SVCB records, and `writeResponseAged`, which lays an upstream answer out anew for the client with the
`ech` and HTTP/3 `alpn` parameters cut as the policy asks. -/

namespace Boreas.Dns

open Slices

def headerBytes : ℕ := 12

def ancountAt : ℕ := 6

/-! ### Results -/

def okOr {α : Type} (o : Option α) (e : DnsError) : Except DnsError α :=
  match o with
  | some a => .ok a
  | none => .error e

theorem okOr_eq_ok : okOr o e = .ok a ↔ o = some a := by
  cases o with
  | none | some b => simp [okOr]

def ensure (p : Prop) [Decidable p] (e : DnsError) : Except DnsError Unit := if p then .ok () else .error e

theorem ensure_eq_ok [Decidable p] : ensure p e = .ok u ↔ p := by
  unfold ensure
  split_ifs with h <;> simp [h]

theorem holds_of_ok {p : α → Prop} [DecidablePred p] {x : Except ε α}
    (h : x.toOption.any (fun a => decide (p a)) = true) : ∃ a, x = .ok a ∧ p a := by
  cases x with
  | error e => cases h
  | ok a => exact ⟨a, rfl, by simpa [Except.toOption] using h⟩

/-! ### Types and codes -/

inductive RecordType
  | a
  | aaaa
  | https
  | svcb
  | other (value : ℕ)
deriving DecidableEq, Repr

namespace RecordType

def fromWire (value : ℕ) : RecordType :=
  if value = 1 then .a
  else if value = 28 then .aaaa
  else if value = 64 then .svcb
  else if value = 65 then .https
  else .other value

def toWire : RecordType → ℕ
  | .a => 1
  | .aaaa => 28
  | .svcb => 64
  | .https => 65
  | .other value => value

def carriesSvcParams : RecordType → Bool
  | .https => true
  | .svcb => true
  | _ => false

@[simp] theorem toWire_fromWire : (fromWire value).toWire = value := by
  unfold fromWire
  split_ifs <;> simp [toWire, *]

end RecordType

def flagResponse : BitVec 16 := 0x8000
def flagRecursionDesired : BitVec 16 := 0x0100
def flagRecursionAvailable : BitVec 16 := 0x0080
def flagTruncated : BitVec 16 := 0x0200
def flagAuthenticData : BitVec 16 := 0x0020
def flagCheckingDisabled : BitVec 16 := 0x0010
def opcodeMask : BitVec 16 := 0x7800
def rcodeMask : BitVec 16 := 0x000f

inductive Rcode
  | noError
  | formatError
  | serverFailure
  | nameError
  | other (value : BitVec 16)
deriving DecidableEq, Repr

namespace Rcode

def fromWire (value : BitVec 16) : Rcode :=
  if value &&& rcodeMask = 0 then .noError
  else if value &&& rcodeMask = 1 then .formatError
  else if value &&& rcodeMask = 2 then .serverFailure
  else if value &&& rcodeMask = 3 then .nameError
  else .other (value &&& rcodeMask)

def toWire : Rcode → BitVec 16
  | .noError => 0
  | .formatError => 1
  | .serverFailure => 2
  | .nameError => 3
  | .other value => value &&& rcodeMask

end Rcode

structure Question where
  name : Name
  qtype : RecordType
  qclass : ℕ
deriving DecidableEq

structure ResourceRecord where
  name : Name
  rtype : RecordType
  class_ : ℕ
  ttl : ℕ
  rdata : Bytes

structure Message where
  bytes : Bytes
  id : ℕ
  flags : BitVec 16
  answerCount : ℕ
  authorityCount : ℕ
  additionalCount : ℕ
  question : Question
  questionBytes : Bytes
  answersAt : ℕ

namespace Message

def parse (bytes : Bytes) : Except DnsError Message := do
  let id ← okOr (u16At bytes 0) .truncated
  let flags ← okOr (u16At bytes 2) .truncated
  let questionCount ← okOr (u16At bytes 4) .truncated
  let answerCount ← okOr (u16At bytes 6) .truncated
  let authorityCount ← okOr (u16At bytes 8) .truncated
  let additionalCount ← okOr (u16At bytes 10) .truncated
  ensure (BitVec.ofNat 16 flags &&& opcodeMask = 0) .notAQuery
  ensure (questionCount ≠ 0) .noQuestion
  ensure (questionCount = 1) (.multipleQuestions questionCount)
  let (name, nameLen) ← Name.read bytes headerBytes
  ensure (nameLen = name.wireLen) .compressedQuestion
  let qtype ← okOr (u16At bytes (headerBytes + nameLen)) .truncated
  let qclass ← okOr (u16At bytes (headerBytes + nameLen + 2)) .truncated
  return {
    bytes := bytes
    id := id
    flags := BitVec.ofNat 16 flags
    answerCount := answerCount
    authorityCount := authorityCount
    additionalCount := additionalCount
    question := ⟨name, RecordType.fromWire qtype, qclass⟩
    questionBytes := slice bytes headerBytes (nameLen + 4)
    answersAt := headerBytes + nameLen + 4 }

variable (m : Message)

def rcode : Rcode := Rcode.fromWire m.flags

def isResponse : Bool := m.flags &&& flagResponse ≠ 0

def isTruncated : Bool := m.flags &&& flagTruncated ≠ 0

def recursionDesired : Bool := m.flags &&& flagRecursionDesired ≠ 0

def authenticData : Bool := m.flags &&& flagAuthenticData ≠ 0

def checkingDisabled : Bool := m.flags &&& flagCheckingDisabled ≠ 0

end Message

/-! ### Walking the answers -/

def readRecord (message : Bytes) (cursor : ℕ) : Except DnsError (ResourceRecord × ℕ) := do
  let (name, nameLen) ← Name.read message cursor
  let rtype ← okOr (u16At message (cursor + nameLen)) .truncated
  let class_ ← okOr (u16At message (cursor + nameLen + 2)) .truncated
  let ttl ← okOr (u32At message (cursor + nameLen + 4)) .truncated
  let length ← okOr (u16At message (cursor + nameLen + 8)) .truncated
  let rdata ← okOr (takeAt message (cursor + nameLen + 10) length) .truncated
  return (⟨name, RecordType.fromWire rtype, class_, ttl, rdata⟩, cursor + nameLen + 10)

def walk (message : Bytes) : ℕ → ℕ → Except DnsError (List (ResourceRecord × ℕ))
  | 0, _ => return []
  | remaining + 1, cursor => do
    let (record, at_) ← readRecord message cursor
    let rest ← walk message remaining (at_ + record.rdata.length)
    return (record, at_) :: rest

variable (m : Message)

def Message.answers : Except DnsError (List (ResourceRecord × ℕ)) :=
  walk m.bytes m.answerCount m.answersAt

def sectionEnd (message : Bytes) : ℕ → ℕ → Except DnsError ℕ
  | 0, cursor => return cursor
  | remaining + 1, cursor => do
    let (record, at_) ← readRecord message cursor
    sectionEnd message remaining (at_ + record.rdata.length)

/-- The records of a section up to the first that cannot be read: the walk does not get past it. -/
def readable (message : Bytes) : ℕ → ℕ → List ResourceRecord
  | 0, _ => []
  | remaining + 1, cursor =>
    match readRecord message cursor with
    | .error _ => []
    | .ok (record, at_) => record :: readable message remaining (at_ + record.rdata.length)

def Message.authority : List ResourceRecord :=
  match sectionEnd m.bytes m.answerCount m.answersAt with
  | .error _ => readable m.bytes m.authorityCount m.bytes.length
  | .ok at_ => readable m.bytes m.authorityCount at_

def opt : ℕ := 41

/-- The payload size of the sender's OPT record; the two counts are added as 16-bit numbers. -/
def Message.udpPayloadSize : Option ℕ :=
  if 65536 ≤ m.answerCount + m.authorityCount then none
  else
    match sectionEnd m.bytes (m.answerCount + m.authorityCount) m.answersAt with
    | .error _ => none
    | .ok at_ =>
      ((readable m.bytes m.additionalCount at_).find? (fun record => record.rtype.toWire = opt)).map (·.class_)

def ipv4 (octets : Bytes) : IpAddr := .v4 (BitVec.ofNat 32 (ofOctets octets))

def ipv6 (octets : Bytes) : IpAddr := .v6 (BitVec.ofNat 128 (ofOctets octets))

def recordAddresses (record : ResourceRecord) : List IpAddr :=
  match record.rtype with
  | .a => if 4 ≤ record.rdata.length then [ipv4 (record.rdata.take 4)] else []
  | .aaaa => if 16 ≤ record.rdata.length then [ipv6 (record.rdata.take 16)] else []
  | _ => []

def answerAddresses : Except DnsError (List IpAddr) := do
  let answers ← m.answers
  return answers.flatMap fun answer => recordAddresses answer.1

/-! ### Service parameters -/

abbrev Range := ℕ × ℕ

structure SvcParam where
  key : ℕ
  value : Bytes
  at_ : Range

def svcparamEch : ℕ := 5
def svcparamAlpn : ℕ := 1
def svcparamNoDefaultAlpn : ℕ := 2

def targetEnd (rdata : Bytes) (cursor : ℕ) : Except DnsError ℕ :=
  match h : rdata[cursor]? with
  | none => .error .truncated
  | some length =>
    if length.toNat ≥ 64 then .error .reservedLabel
    else if length = 0 then .ok (cursor + 1)
    else targetEnd rdata (cursor + 1 + length.toNat)
termination_by rdata.length - cursor
decreasing_by
  have := (List.getElem?_eq_some_iff.mp h).1
  omega

variable (rdata : Bytes)

def svcParamsAt : Except DnsError ℕ := do
  ensure (2 ≤ rdata.length) .truncated
  let cursor ← targetEnd rdata 2
  ensure (cursor ≤ rdata.length) .truncated
  return cursor

def readParam (cursor : ℕ) (previous : Option ℕ) : Except DnsError SvcParam := do
  let key ← okOr (u16At rdata cursor) .truncated
  let length ← okOr (u16At rdata (cursor + 2)) .truncated
  let value ← okOr (takeAt rdata (cursor + 4) length) .truncated
  ensure (∀ p ∈ previous, p < key) .svcParamsOutOfOrder
  return ⟨key, value, (cursor, cursor + 4 + length)⟩

theorem readParam_end {rdata : Bytes} (h : readParam rdata cursor previous = .ok p) : cursor < p.at_.2 := by
  unfold readParam at h
  simp only [bind_eq_ok] at h
  obtain ⟨key, -, length, -, value, -, u, -, h⟩ := h
  cases h
  dsimp only
  omega

def foldParams {σ : Type} (rdata : Bytes) (f : σ → SvcParam → Except DnsError σ) (cursor : ℕ) (previous : Option ℕ)
    (s : σ) : Except DnsError σ :=
  if rdata.length ≤ cursor then .ok s
  else
    match _h : readParam rdata cursor previous with
    | .error e => .error e
    | .ok p =>
      match f s p with
      | .error e => .error e
      | .ok s => foldParams rdata f p.at_.2 (some p.key) s
termination_by rdata.length - cursor
decreasing_by
  have := readParam_end ‹_›
  omega

def echParam : Except DnsError (Option Range) := do
  let cursor ← svcParamsAt rdata
  foldParams rdata (fun found p => .ok (if p.key = svcparamEch then some p.at_ else found)) cursor none none

def isH3 (identifier : Bytes) : Bool :=
  identifier == [0x68, 0x33] || [0x68, 0x33, 0x2d].isPrefixOf identifier

def alpnOffersH3 (value : Bytes) (cursor : ℕ) : Except DnsError Bool :=
  match _h : value[cursor]? with
  | none => .ok false
  | some length =>
    if length = 0 then .error .emptyAlpnIdentifier
    else
      match takeAt value (cursor + 1) length.toNat with
      | none => .error .truncated
      | some identifier =>
        if isH3 identifier then .ok true else alpnOffersH3 value (cursor + 1 + length.toNat)
termination_by value.length - cursor
decreasing_by
  have := (List.getElem?_eq_some_iff.mp ‹_›).1
  omega

/-- `h3_alpn_param`: the range to remove, with a `no-default-alpn` after it. -/
def h3AlpnParam : Except DnsError (Option Range) := do
  let cursor ← svcParamsAt rdata
  foldParams rdata (fun found p =>
    if p.key = svcparamAlpn then do
      let h3 ← alpnOffersH3 p.value 0
      return if h3 then some p.at_ else found
    else if p.key = svcparamNoDefaultAlpn then .ok (found.map (fun range => (range.1, p.at_.2)))
    else .ok found) cursor none none

/-! ### RDATA with parameters cut out -/

structure Rdata where
  parts : List Bytes

namespace Rdata

section

variable (bytes : Bytes)

def verbatim : Rdata := ⟨[bytes]⟩

def get (start stop : ℕ) : Option Bytes :=
  if start ≤ stop ∧ stop ≤ bytes.length then some (slice bytes start (stop - start)) else none

def without (cut : Range) : Option Rdata := do
  let first ← get bytes 0 cut.1
  let second ← get bytes cut.2 bytes.length
  return ⟨[first, second]⟩

def withoutBoth (first second : Range) : Option Rdata :=
  if first.2 > second.1 then none
  else do
    let a ← get bytes 0 first.1
    let b ← get bytes first.2 second.1
    let c ← get bytes second.2 bytes.length
    return ⟨[a, b, c]⟩

def withoutAll : Option Range → Option Range → Option Rdata
  | none, none => some (verbatim bytes)
  | some only, none => without bytes only
  | none, some only => without bytes only
  | some left, some right =>
    if left.1 ≤ right.1 then withoutBoth bytes left right else withoutBoth bytes right left

end

def bytes (r : Rdata) : Bytes := r.parts.flatten

end Rdata

/-! ### Policies and outcomes -/

inductive EchPolicy
  | preserve
  | strip
deriving DecidableEq, Repr

inductive AlpnPolicy
  | preserve
  | stripH3
deriving DecidableEq, Repr

structure AnswerPolicy where
  ech : EchPolicy
  alpn : AlpnPolicy
deriving DecidableEq, Repr

variable (policy : AnswerPolicy)

/-- Whether resolved addresses need the backstop for UDP port 443. -/
def AnswerPolicy.steers : Bool := policy.alpn = .stripH3

inductive EchOutcome
  | absent
  | preserved
  | stripped (count : ℕ)
deriving DecidableEq, Repr

inductive AlpnOutcome
  | absent
  | preserved
  | steered (count : ℕ)
deriving DecidableEq, Repr

structure Rewritten where
  len : ℕ
  answers : ℕ
  ech : EchOutcome
  alpn : AlpnOutcome
deriving DecidableEq, Repr

/-! ### The writer -/

variable (out : Bytes)

def writeAt (at_ : ℕ) (write : Bounded → Bounded) : Except DnsError (Bytes × ℕ) := do
  let writer ← okOr (Bounded.start out at_) .outputTooSmall
  okOr (write writer).finish .outputTooSmall

def Name.write (name : Name) (out : Bytes) (at_ : ℕ) : Except DnsError (Bytes × ℕ) :=
  writeAt out at_ (fun writer => (name.labels.foldl Bounded.vectorU8 writer).u8 0)

variable (query : Message)

def writeHeaderAndQuestion (flags : BitVec 16) : Except DnsError (Bytes × ℕ) :=
  writeAt out 0 (fun writer =>
    ((((writer.u16 query.id).u16 flags.toNat).u16 1).zeros 6).bytes query.questionBytes)

def writeRecord (at_ : ℕ) (record : ResourceRecord) (rdata : Rdata) : Except DnsError (Bytes × ℕ) := do
  ensure (rdata.bytes.length < 65536) .outputTooSmall
  let (out, at_) ← record.name.write out at_
  writeAt out at_ (fun writer =>
    rdata.parts.foldl Bounded.bytes
      ((((writer.u16 record.rtype.toWire).u16 record.class_).u32 record.ttl).u16 rdata.bytes.length))

structure Progress where
  out : Bytes
  cursor : ℕ
  answers : ℕ
  echSeen : Bool
  echStripped : ℕ
  h3Seen : Bool
  h3Stripped : ℕ

def answerParams (answer : ResourceRecord) : Except DnsError (Option Range × Option Range) :=
  if answer.rtype.carriesSvcParams then do
    let ech ← echParam answer.rdata
    let h3 ← h3AlpnParam answer.rdata
    return (ech, h3)
  else .ok (none, none)

def answerRdata (answer : ResourceRecord) (params : Option Range × Option Range) :
    Option Rdata :=
  Rdata.withoutAll answer.rdata (params.2.filter (fun _ => policy.alpn = .stripH3))
    (params.1.filter (fun _ => policy.ech = .strip))

def writeAnswer (age : ℕ) (answer : ResourceRecord) (p : Progress) :
    Except DnsError Progress := do
  let params ← answerParams answer
  let rdata ← okOr (answerRdata policy answer params) .truncated
  let (out, cursor) ← writeRecord p.out p.cursor { answer with ttl := answer.ttl - age } rdata
  return {
    out := out
    cursor := cursor
    answers := p.answers + 1
    echSeen := p.echSeen || params.1.isSome
    echStripped := p.echStripped + (if params.1.isSome ∧ policy.ech = .strip then 1 else 0)
    h3Seen := p.h3Seen || params.2.isSome
    h3Stripped := p.h3Stripped + (if params.2.isSome ∧ policy.alpn = .stripH3 then 1 else 0) }

def writeAnswers (policy : AnswerPolicy) (age : ℕ) (message : Bytes) : ℕ → ℕ → Progress → Except DnsError Progress
  | 0, _, p => return p
  | remaining + 1, cursor, p => do
    let (answer, at_) ← readRecord message cursor
    let p ← writeAnswer policy age answer p
    writeAnswers policy age message remaining (at_ + answer.rdata.length) p

def responseFlags (query upstream : Message) : BitVec 16 :=
  flagResponse ||| flagRecursionAvailable ||| upstream.rcode.toWire |||
    (if query.recursionDesired then flagRecursionDesired else 0) |||
    (if query.checkingDisabled then flagCheckingDisabled else 0) |||
    (if upstream.authenticData then flagAuthenticData else 0) |||
    (if upstream.isTruncated then flagTruncated else 0)

def echOutcome (p : Progress) : EchOutcome :=
  if p.echSeen then if p.echStripped = 0 then .preserved else .stripped p.echStripped else .absent

def alpnOutcome (p : Progress) : AlpnOutcome :=
  if p.h3Seen then if p.h3Stripped = 0 then .preserved else .steered p.h3Stripped else .absent

def writeResponseAged (query upstream : Message) (policy : AnswerPolicy) (age : ℕ) :
    Except DnsError (Bytes × Rewritten) := do
  let (out, cursor) ← writeHeaderAndQuestion out query (responseFlags query upstream)
  let p ← writeAnswers policy age upstream.bytes upstream.answerCount upstream.answersAt
    ⟨out, cursor, 0, false, 0, false, 0⟩
  let (out, _) ← writeAt p.out ancountAt (fun writer => writer.u16 p.answers)
  return (out, ⟨p.cursor, p.answers, echOutcome p, alpnOutcome p⟩)

def writeEmpty (flags : BitVec 16) : Except DnsError (Bytes × ℕ) :=
  writeHeaderAndQuestion out query (flagResponse ||| flagRecursionAvailable ||| flags |||
    if query.recursionDesired then flagRecursionDesired else 0)

def writeTruncated : Except DnsError (Bytes × ℕ) := writeEmpty out query flagTruncated

def writeRefusal : Except DnsError (Bytes × ℕ) :=
  writeEmpty out query Rcode.nameError.toWire

def writeFailure : Except DnsError (Bytes × ℕ) :=
  writeEmpty out query Rcode.serverFailure.toWire

/-- `write_format_error`: of the query only its first four bytes are read. -/
def writeFormatError (query : Bytes) : Except DnsError (Bytes × ℕ) :=
  match takeAt query 0 2, u16At query 2 with
  | some id, some flags =>
    writeAt out 0 (fun writer =>
      ((writer.bytes id).u16 ((BitVec.ofNat 16 flags &&& flagRecursionDesired) ||| flagResponse |||
        Rcode.formatError.toWire).toNat).zeros (headerBytes - 4))
  | _, _ => .error .truncated

end Boreas.Dns
