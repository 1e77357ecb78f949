import Boreas.Fifo
import Boreas.Http
import Boreas.Text

/-! # The rule engine

The model of policy/rules.rs: one index compiled from the lists answers for requests (`verdict`) and, through a
bounded memo, for the hiding rules of a document's host (`rules`).  The index itself is the `adblock` crate's, the
selectors and the digest are those of `lol_html` and `ring`; they are the parameter `Adblock`.

`RuleEngine.rules_eq` says that the memo never shows: the answer is what the index gives for the host. -/

namespace Boreas.Rules

open Http

inductive RequestKind
  | document
  | subdocument
  | script
  | stylesheet
  | image
  | font
  | media
  | object
  | cspReport
  | xhr
  | other
deriving DecidableEq, Repr

structure Adblock where
  Index : Type
  compile : List Text → Index
  RuleRequest : Type
  request : (url source : Bytes) → RequestKind → (method : Bytes) → Option RuleRequest
  shouldBlock : Index → RuleRequest → Bool
  hideSelectors : Index → (url : Bytes) → List Bytes
  Selector : Type
  parseSelector : Bytes → Option Selector
  sha256Base64 : Bytes → Bytes

inductive FilterVerdict
  | allow
  | block
deriving DecidableEq, Repr

/-! ### The context of a request -/

def absolute (host : Bytes) (uri : Uri) : Bytes :=
  if uri.scheme.isSome then uri.toText
  else ascii "https://" ++ host ++ uri.pathAndQuery.getD (ascii "/")

def referrer (request : Request) : Option Bytes := (request.headers.get .referer).bind toStr

/-- The URL of a request and its source, as they are handed to the index. -/
def handed (host : Bytes) (request : Request) : Bytes × Bytes :=
  (absolute host request.uri, (referrer request).getD (absolute host request.uri))

def destinations : List (Bytes × RequestKind) :=
  [(ascii "document", .document), (ascii "iframe", .subdocument), (ascii "frame", .subdocument),
    (ascii "script", .script), (ascii "serviceworker", .script), (ascii "sharedworker", .script),
    (ascii "worker", .script), (ascii "style", .stylesheet), (ascii "image", .image), (ascii "font", .font),
    (ascii "audio", .media), (ascii "video", .media), (ascii "track", .media), (ascii "audioworklet", .media),
    (ascii "paintworklet", .media), (ascii "object", .object), (ascii "embed", .object), (ascii "report", .cspReport),
    (ascii "empty", .xhr)]

def accepted : List (Bytes × RequestKind) :=
  [(ascii "text/html", .document), (ascii "text/css", .stylesheet), (ascii "image/", .image), (ascii "font/", .font),
    (ascii "audio/", .media), (ascii "video/", .media)]

def destination (request : Request) : RequestKind :=
  match (request.headers.get .secFetchDest).bind toStr with
  | some dest => (destinations.lookup dest).getD .other
  | none =>
    match (request.headers.get .accept).bind toStr with
    | some accept =>
      let first := trim (accept.takeWhile (· != 44))
      ((accepted.find? (fun entry => entry.1.isPrefixOf first)).map Prod.snd).getD .other
    | none => .other

/-! ### Hiding rules -/

variable {A : Adblock}

structure HidingRules (A : Adblock) where
  selector : A.Selector
  style : Bytes
  source : Bytes
  count : ℕ

def HidingRules.compile (selectors : List Bytes) : Option (HidingRules A) :=
  let ordered := selectors.dedup.insertionSort (· ≤ ·)
  if ordered = [] then none
  else
    let list := [44].intercalate ordered
    (A.parseSelector list).map fun selector =>
      let style := list ++ ascii "\x7bdisplay:none!important\x7d"
      ⟨selector, style, ascii "'sha256-" ++ A.sha256Base64 style ++ ascii "'", ordered.length⟩

def hidingRules (index : A.Index) (host : Bytes) : Option (HidingRules A) :=
  HidingRules.compile (A.hideSelectors index (ascii "https://" ++ host ++ ascii "/"))

def urlVerdict (index : A.Index) (host : Bytes) (request : Request) : FilterVerdict :=
  let (url, source) := handed host request
  match A.request url source (destination request) request.method with
  | none => .allow
  | some matched => if A.shouldBlock index matched then .block else .allow

/-! ### The engine -/

structure RuleEngine (A : Adblock) where
  engine : A.Index
  cosmetic : BoundedFifo Bytes (Option (HidingRules A))

namespace RuleEngine

def cosmeticMemoHosts : ℕ+ := 256

variable (lists : List Text)

def fromLists : RuleEngine A := ⟨A.compile lists, .new cosmeticMemoHosts⟩

variable (e : RuleEngine A)

def verdict (host : Bytes) (request : Request) : FilterVerdict := urlVerdict e.engine host request

def rules (host : Bytes) : Option (HidingRules A) × RuleEngine A :=
  match e.cosmetic.get host with
  | some cached => (cached, e)
  | none =>
    let host := host.map lower
    match e.cosmetic.get host with
    | some cached => (cached, e)
    | none =>
      let (compiled, cosmetic) := e.cosmetic.getOrInsertWith host (fun _ => hidingRules e.engine host)
      (compiled, { e with cosmetic := cosmetic })

/-- The memo holds what the index gives, for hosts in lower case. -/
def Coherent : Prop :=
  e.cosmetic.Memoises {host | host.map lower = host} (hidingRules e.engine)

theorem coherent_fromLists : (fromLists lists : RuleEngine A).Coherent :=
  BoundedFifo.memoises_new _ _

theorem engine_rules (host : Bytes) : (e.rules host).2.engine = e.engine := by
  unfold rules
  cases e.cosmetic.get host with
  | some cached => rfl
  | none =>
    dsimp only
    cases e.cosmetic.get (host.map lower) <;> rfl

/-- **The memo never shows**: a lookup gives what the index has for the host, and leaves the memo coherent. -/
theorem rules_eq {e : RuleEngine A} (h : e.Coherent) (host : Bytes) :
    (e.rules host).1 = hidingRules e.engine (host.map lower) ∧ (e.rules host).2.Coherent := by
  have hlower : (host.map lower).map lower = host.map lower := by simp [Function.comp_def, lower_lower]
  unfold rules
  cases hraw : e.cosmetic.get host with
  | some cached =>
    obtain ⟨hhost, hcach⟩ := h host cached hraw
    have hhost' : host.map lower = host := hhost
    exact ⟨by rw [hhost']; exact hcach, h⟩
  | none =>
    dsimp only
    cases hlow : e.cosmetic.get (host.map lower) with
    | some cached => exact ⟨(h _ cached hlow).2, h⟩
    | none => exact BoundedFifo.Memoises.getOrInsertWith h hlower

/-- **Nor does it after any lookups**, whatever hosts it has let go. -/
theorem rules_after (hosts : List Bytes) (host : Bytes) :
    ((hosts.foldl (fun e asked => (e.rules asked).2) (fromLists lists : RuleEngine A)).rules host).1 =
      hidingRules (A.compile lists) (host.map lower) := by
  obtain ⟨hmemo, hengine⟩ := List.foldlRecOn (motive := fun e => e.Coherent ∧ e.engine = A.compile lists) hosts
    (fun e asked => (e.rules asked).2) ⟨coherent_fromLists lists, rfl⟩
    fun e h asked _ => ⟨(rules_eq h.1 asked).2, (engine_rules e asked).trans h.2⟩
  rw [(rules_eq hmemo host).1, hengine]

end RuleEngine

/-- An index of plain patterns: a line blocks the URLs it occurs in, and `host##selector` hides a selector on the pages
of the host. -/
def patterns : Adblock where
  Index := List Text
  compile lists := lists.flatMap Text.lines
  RuleRequest := Bytes
  request url _ _ _ := some url
  shouldBlock index url := index.any (fun line => decide (Text.utf8 line <:+: url))
  hideSelectors index url := index.filterMap fun line =>
    let host := line.takeWhile (· != '#')
    if url = ascii "https://" ++ Text.utf8 host ++ ascii "/" then
      (Text.stripPrefix "##".toList (line.drop host.length)).map Text.utf8
    else none
  Selector := Bytes
  parseSelector := some
  sha256Base64 := id

end Boreas.Rules
