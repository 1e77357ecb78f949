import Boreas.HostPolicy
import Boreas.Text

/-! # Filter lists

The model of policy/filter.rs: a line of a list is classified (`parseRule`), the further names of a hosts-file line
are expanded (`hostsNames`), and `extendFromList` puts what a name index can enforce into a `HostPolicy`, counting
the rest.  `compile` (api.rs) is the policy of several lists.

Reading an address from text is `parseIp`, the standard library's. -/

namespace Boreas.Dns

open Text

inductive Deferred
  | needsUrl
  | needsRequestContext
  | cosmetic
  | hostsMapping
  | pattern
deriving DecidableEq, Repr

inductive Rule
  | block (name : Name)
  | allow (name : Name)
  | deferred (reason : Deferred)
  | ignored
deriving DecidableEq

inductive RuleError
  | unrepresentableHost
deriving DecidableEq, Repr

structure Deferrals where
  needsUrl : ℕ
  needsRequestContext : ℕ
  cosmetic : ℕ
  hostsMapping : ℕ
  pattern : ℕ
deriving DecidableEq, Repr

structure ListReport where
  blocked : ℕ
  allowed : ℕ
  ignored : ℕ
  malformed : ℕ
  deferred : Deferrals
deriving DecidableEq, Repr

def bump (n : ℕ) : ℕ := min (n + 1) (2 ^ 32 - 1)

def Deferrals.count (d : Deferrals) : Deferred → Deferrals
  | .needsUrl => { d with needsUrl := bump d.needsUrl }
  | .needsRequestContext => { d with needsRequestContext := bump d.needsRequestContext }
  | .cosmetic => { d with cosmetic := bump d.cosmetic }
  | .hostsMapping => { d with hostsMapping := bump d.hostsMapping }
  | .pattern => { d with pattern := bump d.pattern }

def ListReport.default : ListReport := ⟨0, 0, 0, 0, ⟨0, 0, 0, 0, 0⟩⟩

/-! ### Classifying a line -/

def ruleName (host : Text) : Except RuleError Name :=
  match Name.parse (utf8 host) with
  | some name => if name.isRoot then .error .unrepresentableHost else .ok name
  | none => .error .unrepresentableHost

def isComment : Text → Bool
  | '!' :: _ => true
  | '[' :: _ => true
  | '#' :: next :: _ => !(['#', '@', '?', '$', '%'].contains next)
  | ['#'] => true
  | _ => false

def isSink : IpAddr → Bool
  | .v4 address => address = 0 || address >>> 24 = 127
  | .v6 address => address = 0 || address = 1

section
variable (parseIp : Text → Option IpAddr)

def hostsEntry (line : Text) : Option (Except RuleError Rule) :=
  match splitWhitespace line with
  | address :: host :: _ =>
    (parseIp address).map fun address =>
      if host.head? = some '#' then .ok .ignored
      else if isSink address then (ruleName host).map .block
      else .ok (.deferred .hostsMapping)
  | _ => none

def anchored (pattern : Text) (exception : Bool) : Except RuleError Rule :=
  if '$' ∈ pattern then .ok (.deferred .needsRequestContext)
  else
    let host := (stripSuffix ['^'] pattern).getD pattern
    if '/' ∈ host ∨ '|' ∈ host then .ok (.deferred .needsUrl)
    else if '*' ∈ host ∨ host.head? = some '/' then .ok (.deferred .pattern)
    else (ruleName host).map (fun name => if exception then .allow name else .block name)

def parseRule (line : Text) : Except RuleError Rule :=
  let line := trim line
  if line = [] || isComment line then .ok .ignored
  else
    match hostsEntry parseIp line with
    | some rule => rule
    | none =>
      if line.contains "##".toList || line.contains "#@#".toList || line.contains "#?#".toList ||
          line.contains "#$#".toList then .ok (.deferred .cosmetic)
      else
        let (pattern, exception) :=
          match stripPrefix "@@".toList line with
          | some rest => (rest, true)
          | none => (line, false)
        match stripPrefix "||".toList pattern with
        | none => .ok (.deferred .needsUrl)
        | some pattern => anchored pattern exception

def hostsNames (line : Text) : List (Except RuleError Rule) :=
  let extra :=
    match splitWhitespace line with
    | address :: hosts =>
      if (parseIp address).any isSink then
        ((hosts.drop 1).takeWhile (fun host => host.head? ≠ some '#')).map (fun host => (ruleName host).map .block)
      else []
    | [] => []
  parseRule parseIp line :: extra

/-! ### Compiling lists -/

def addRule (p : HostPolicy × ListReport) : Except RuleError Rule → HostPolicy × ListReport
  | .ok (.block name) => (p.1.insertName .blocked name, { p.2 with blocked := bump p.2.blocked })
  | .ok (.allow name) => (p.1.insertName .allowed name, { p.2 with allowed := bump p.2.allowed })
  | .ok (.deferred reason) => (p.1, { p.2 with deferred := p.2.deferred.count reason })
  | .ok .ignored => (p.1, { p.2 with ignored := bump p.2.ignored })
  | .error _ => (p.1, { p.2 with malformed := bump p.2.malformed })

def HostPolicy.extendFromList (policy : HostPolicy) (list : Text) : HostPolicy × ListReport :=
  ((lines list).flatMap (hostsNames parseIp)).foldl addRule (policy, .default)

def compile (lists : List Text) : HostPolicy :=
  lists.foldl (fun policy list => (policy.extendFromList parseIp list).1) .new

end

end Boreas.Dns
