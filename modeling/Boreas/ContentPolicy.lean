import Boreas.AltSvc

/-! # Content security policies

The model of `permit_inline_style` and `relax_policy` (intercept/rewrite.rs): a policy that governs inline style gains
the hash of the injected stylesheet, and one policy that refuses it stops the injection. -/

namespace Boreas.Rewrite

open Http Intercept

inductive InlineStyle
  | granted
  | widened (policy : Bytes)
  | refused
deriving DecidableEq, Repr

def styleDirectives : List Bytes := [ascii "style-src-elem", ascii "style-src"]

def fallbackDirective : Bytes := ascii "default-src"

def splitWhitespace (value : Bytes) : List Bytes := Words.words isBlank value

def position (directives : List Bytes) (name : Bytes) : Option ℕ :=
  directives.findIdx? fun directive => (splitWhitespace directive).head?.any (eqIgnoreAsciiCase · name)

def isNonceOrHash (source : Bytes) : Bool :=
  let source := source.dropWhile (· == 39)
  [ascii "nonce-", ascii "sha256-", ascii "sha384-", ascii "sha512-"].any fun start =>
    start.length < source.length && eqIgnoreAsciiCase (source.take start.length) start

def permitInlineStyle (policy source : Bytes) : InlineStyle :=
  let directives := ((policy.splitOn 59).map trim).filter (· ≠ [])
  let governing := (styleDirectives.findSome? (position directives)).map (·, false)
  match governing.or ((position directives fallbackDirective).map (·, true)) with
  | none => .granted
  | some (index, inherited) =>
    let directive := directives.getD index []
    let sources := (splitWhitespace directive).drop 1
    if sources.any (eqIgnoreAsciiCase · (ascii "'none'")) then .refused
    else if source ∈ sources then .granted
    -- a nonce or hash makes 'unsafe-inline' inert
    else if !sources.any isNonceOrHash && sources.any (eqIgnoreAsciiCase · (ascii "'unsafe-inline'")) then .granted
    else
      let widened :=
        if inherited then directives ++ [List.intercalate (ascii " ") (ascii "style-src" :: sources ++ [source])]
        else directives.set index (directive ++ ascii " " ++ source)
      .widened (List.intercalate (ascii "; ") widened)

def relaxed (source policy : Bytes) : Bytes :=
  match permitInlineStyle policy source with
  | .widened value => value
  | _ => policy

def relaxPolicy (headers : HeaderMap) (source : Bytes) : HeaderMap × Bool :=
  let policies := (headers.getAll .contentSecurityPolicy).filterMap toStr
  if policies = [] then (headers, true)
  else
    match (policies.map (relaxed source)).mapM headerValue with
    | none => (headers, false)
    | some rebuilt =>
      (rebuilt.foldl (fun headers value => headers.append .contentSecurityPolicy value)
        (headers.remove .contentSecurityPolicy),
        policies.all fun policy => permitInlineStyle policy source ≠ .refused)

theorem getAll_foldl_append_of_ne (h : other ≠ name) (vs : List Bytes) (headers : HeaderMap) :
    (vs.foldl (fun headers value => headers.append name value) headers).getAll other = headers.getAll other := by
  induction vs generalizing headers with
  | nil => rfl
  | cons value vs ih => rw [List.foldl_cons, ih, HeaderMap.getAll_append_of_ne _ _ h]

theorem getAll_relaxPolicy_of_ne (headers : HeaderMap)
    (h : name ≠ .contentSecurityPolicy) : (relaxPolicy headers source).1.getAll name = headers.getAll name := by
  unfold relaxPolicy
  dsimp only
  split
  · rfl
  · split
    · rfl
    · rw [getAll_foldl_append_of_ne h, HeaderMap.getAll_remove_of_ne _ h]

end Boreas.Rewrite
