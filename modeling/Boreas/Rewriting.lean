import Boreas.ContentPolicy
import Boreas.Exchange
import Boreas.RewritingBody

/-! # The rewriting of responses

`rewritable` and `Rewriting::apply` (intercept/rewrite.rs), and what `Proxy::forward` makes of an origin's
response.  The character encodings of encoding_rs and the rewriter that `build` configures are
parameters.  `shape_contentLength_iff` and `shape_contentEncoding_iff` say when the two fields reach the client as the
origin sent them. -/

namespace Boreas.Rewrite

open Http Intercept Rules
open HeaderName (contentEncoding)

/-! ### Eligibility -/

inductive NotRewritable
  | noWholeBody
  | notHtml
  | contentCoded
  | unsupportedCharset
deriving DecidableEq, Repr

structure Encodings where
  Encoding : Type
  utf8 : Encoding
  forLabel : Bytes → Option Encoding

structure Rewritable (C : Encodings) where
  encoding : C.Encoding
  coding : Coding

/-- The codings named by `Content-Encoding`, of which one at most is not `identity`. -/
def contentCoding : Coding → List Bytes → Option Coding
  | coding, [] => some coding
  | coding, token :: tokens =>
    match coding, Coding.fromToken token with
    | _, none => none
    | coding, some .identity => contentCoding coding tokens
    | .identity, some named => contentCoding named tokens
    | _, some _ => none

def splitOnce (b : UInt8) (value : Bytes) : Option (Bytes × Bytes) :=
  if b ∈ value then some (value.takeWhile (· != b), (value.dropWhile (· != b)).tail) else none

def mediaType (value : Bytes) : Bytes × Option Bytes :=
  let parts := value.splitOn 59
  (trim (parts.headD []), parts.tail.findSome? fun parameter =>
    (splitOnce 61 parameter).bind fun (name, value) =>
      if eqIgnoreAsciiCase (trim name) (ascii "charset") then some (trimMatches 34 (trim value)) else none)

def noWholeBody (status : ℕ) : Bool := (100 ≤ status && status < 200) || [204, 304, 206].contains status

def encodingTokens (headers : HeaderMap) : List Bytes :=
  ((headers.getAll .contentEncoding).filterMap toStr).flatMap (·.splitOn 44)

def rewritable (C : Encodings) (status : ℕ) (headers : HeaderMap) : Except NotRewritable (Rewritable C) :=
  if noWholeBody status then .error .noWholeBody
  else
    match contentCoding .identity (encodingTokens headers) with
    | none => .error .contentCoded
    | some coding =>
      match (headers.get .contentType).bind toStr with
      | none => .error .notHtml
      | some contentType =>
        let (media, charset) := mediaType contentType
        if !eqIgnoreAsciiCase media (ascii "text/html") then .error .notHtml
        else
          match charset with
          | none => .ok ⟨C.utf8, coding⟩
          | some label =>
            match C.forLabel label with
            | none => .error .unsupportedCharset
            | some encoding => .ok ⟨encoding, coding⟩

/-! ### Applying the rewriter -/

structure StreamBudget where
  maxMemoryBytes : ℕ
  parsingBufferBytes : ℕ
  ceiling : 0 < maxMemoryBytes
  fits : parsingBufferBytes ≤ maxMemoryBytes
deriving DecidableEq, Repr

inductive Rewriting (A : Adblock)
  | off
  | on (source : RuleEngine A) (budget : StreamBudget)

variable {A : Adblock}

/-- The memo that the lookup leaves is not kept: it never shows in a later one. -/
def Rewriting.rules (r : Rewriting A) (host : Bytes) : Option (HidingRules A × StreamBudget) :=
  match r with
  | .off => none
  | .on source budget => (source.rules host).1.map (·, budget)

structure Rewriter (A : Adblock) where
  libraries : Libraries
  encodings : Encodings
  build : HidingRules A → encodings.Encoding → StreamBudget → Bool → HtmlRewriter

inductive ProxyBody (L : Libraries)
  | forwarded
  | rewriting (H : HtmlRewriter) (body : RewritingBody L H)

def Rewriting.apply (W : Rewriter A) (r : Rewriting A) (host : Bytes) (response : Response) :
    Response × ProxyBody W.libraries :=
  match r.rules host with
  | none => (response, .forwarded)
  | some (rules, budget) =>
    match rewritable W.encodings response.status response.headers with
    | .error _ => (response, .forwarded)
    | .ok permit =>
      let (headers, inject) := relaxPolicy response.headers rules.source
      let headers := headers.remove .contentLength
      let headers := if permit.coding = .identity then headers else headers.remove .contentEncoding
      let H := W.build rules permit.encoding budget inject
      ({ response with headers }, .rewriting H (.new W.libraries H permit.coding))

def received (response : Response) : Response :=
  { response with headers := steerResponse (stripHopByHop response.headers .ordinary) }

def Rewriting.shape (W : Rewriter A) (r : Rewriting A) (host : Bytes) (response : Response) :
    Response × ProxyBody W.libraries := r.apply W host (received response)

/-! ### The fields that describe a body -/

theorem getAll_received (response : Response) (h : name ≠ .altSvc) : (received response).headers.getAll name =
      if discards response.headers .ordinary name then [] else response.headers.getAll name := by
  show (steerResponse (stripHopByHop response.headers .ordinary)).getAll name = _
  rw [getAll_steerResponse_of_ne _ h, HeaderMap.getAll_of_filter (fun name => !discards response.headers .ordinary name)
    (fields_stripHopByHop response.headers .ordinary)]
  cases discards response.headers .ordinary name <;> rfl

theorem discards_contentEncoding : discards headers .ordinary .contentEncoding =
      decide (contentEncoding ∈ nominated headers .ordinary) := by
  have hhop : contentEncoding.bytes ∉ hopByHop := by decide
  have hconn : contentEncoding ≠ .connection := by decide
  have hupg : contentEncoding ≠ .upgrade := by decide
  simp [discards, hhop, hconn, hupg]

section Rewritten

variable {W : Rewriter A} {r : Rewriting A} {host : Bytes} {response : Response} {permit : Rewritable W.encodings}

theorem shape_of_rewritable (hrules : (r.rules host).isSome)
    (hperm : rewritable W.encodings response.status (received response).headers = .ok permit) :
    ∃ H, (r.shape W host response).2 = .rewriting H (.new W.libraries H permit.coding) ∧
      (r.shape W host response).1.headers.getAll .contentLength = [] ∧
      (r.shape W host response).1.headers.getAll .contentEncoding =
        if permit.coding = .identity then (received response).headers.getAll .contentEncoding else [] := by
  obtain ⟨⟨rules, budget⟩, hsome⟩ := Option.isSome_iff_exists.mp hrules
  have hstat : (received response).status = response.status := rfl
  unfold Rewriting.shape Rewriting.apply
  rw [hsome]
  rw [hstat, hperm]
  dsimp only
  refine ⟨_, rfl, ?_, ?_⟩
  · split_ifs
    · rw [HeaderMap.getAll_remove]
    · rw [HeaderMap.getAll_remove_of_ne _ (by decide), HeaderMap.getAll_remove]
  · split_ifs
    · rw [HeaderMap.getAll_remove_of_ne _ (by decide), getAll_relaxPolicy_of_ne _ (by decide)]
    · rw [HeaderMap.getAll_remove]

theorem shape_contentLength_iff (hrules : (r.rules host).isSome)
    (hperm : rewritable W.encodings response.status (received response).headers = .ok permit) :
    (r.shape W host response).1.headers.getAll .contentLength = response.headers.getAll .contentLength ↔
      response.headers.getAll .contentLength = [] := by
  obtain ⟨-, -, hlen, -⟩ := shape_of_rewritable hrules hperm
  rw [hlen]
  exact eq_comm

theorem shape_contentEncoding_iff (hrules : (r.rules host).isSome)
    (hperm : rewritable W.encodings response.status (received response).headers = .ok permit) :
    (r.shape W host response).1.headers.getAll .contentEncoding = response.headers.getAll .contentEncoding ↔
      response.headers.getAll .contentEncoding = [] ∨
        permit.coding = .identity ∧ contentEncoding ∉ nominated response.headers .ordinary := by
  obtain ⟨-, -, -, henc⟩ := shape_of_rewritable hrules hperm
  have hother : contentEncoding ≠ .altSvc := by decide
  have hrecv := getAll_received response hother
  rw [discards_contentEncoding] at hrecv
  rw [henc, hrecv]
  by_cases hnom : contentEncoding ∈ nominated response.headers .ordinary
  · rw [if_pos (decide_eq_true hnom), ite_self]
    exact ⟨fun h => .inl h.symm, fun h => (h.resolve_right fun hkept => hkept.2 hnom).symm⟩
  have hkept : ¬ decide (contentEncoding ∈ nominated response.headers .ordinary) = true := by
    simpa using hnom
  rw [if_neg hkept]
  by_cases hcoding : permit.coding = .identity
  · rw [if_pos hcoding]
    exact iff_of_true rfl (.inr ⟨hcoding, hnom⟩)
  · rw [if_neg hcoding]
    exact ⟨fun h => .inl h.symm, fun h => (h.resolve_right fun hkept => hcoding hkept.1).symm⟩

end Rewritten

end Boreas.Rewrite
