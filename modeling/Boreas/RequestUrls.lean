import Boreas.Exchange

/-! # The request that the rules judge

`verdict` (policy/rules.rs) hands the index the URL of a request and its source.  A target without a scheme is given
https and the connection's host; the source is the `Referer` if it is visible ASCII.  `asMade_iff` says for which
requests both are those of the request that was made. -/

namespace Boreas.Rules

open Http Intercept List Option

inductive Approach
  | tls
  | cleartext
deriving DecidableEq, Repr

def Approach.scheme : Approach → Bytes
  | .tls => ascii "https"
  | .cleartext => ascii "http"

/-! ### URLs -/

structure Url where
  scheme : Bytes
  host : Bytes
  target : Bytes

def slash : UInt8 := 47
def question : UInt8 := 63

def absolutePath (target : Bytes) : Bytes :=
  if target = [] ∨ target.head? = some question then slash :: target else target

def Url.read (text : Bytes) : Option Url :=
  let scheme := text.takeWhile (· != Uri.colon)
  if scheme ≠ [] ∧ ascii "://" <+: text.drop scheme.length then
    let rest := text.drop (scheme.length + 3)
    let authority := rest.takeWhile fun b => b != slash && b != question
    let host := Uri.authorityHost authority
    if host = [] then none else some ⟨scheme, host, absolutePath (rest.drop authority.length)⟩
  else none

def visit (target : Bytes) (referer : Option Bytes) : Request :=
  ⟨ascii "GET", ⟨none, none, target⟩, (referer.map fun value => HeaderMap.empty.append .referer value).getD .empty⟩

end Boreas.Rules
