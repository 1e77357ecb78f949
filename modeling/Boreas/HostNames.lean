import Boreas.DnsName
import Boreas.Exchange

/-! # The names a forwarded request carries

A request names its target in the authority of its URI and in its `Host` fields, and `Proxy::forward` checks one of
them.  `carriesOnly_iff` says exactly when a request that is sent upstream carries no name but the connection's host. -/

namespace Boreas.Intercept

open Dns Http List Option

/-! ### Names up to case, port and a trailing dot -/

def isDigit (b : UInt8) : Bool := 48 ≤ b && b ≤ 57

def hostPart (value : Bytes) : Option Bytes :=
  if value.head? = some Uri.openBracket then
    match value.dropWhile (· != Uri.closeBracket) with
    | [] => none
    | _ :: after =>
      if after = [] ∨ (after.head? = some Uri.colon ∧ after.tail.all isDigit = true) then
        some (value.takeWhile (· != Uri.closeBracket) ++ [Uri.closeBracket])
      else none
  else if Uri.colon ∈ value → (Uri.afterLast Uri.colon value).all isDigit = true then some (withoutPort value)
  else none

def bare (name : Bytes) : Bytes := (if name.getLast? = some dot then name.dropLast else name).map lower

/-- The value names the host, up to letter case, port and a trailing dot. -/
def IsHost (host value : Bytes) : Prop := (hostPart value).map bare = some (bare host)

instance (host value : Bytes) : Decidable (IsHost host value) := inferInstanceAs (Decidable (_ = _))

def PlainName (value : Bytes) : Prop :=
  value.head? ≠ some Uri.openBracket ∧ (Uri.colon ∈ value → (Uri.afterLast Uri.colon value).all isDigit = true) ∧
    ¬ [dot, dot] <:+ withoutPort value

/-! ### What the check leaves open -/

theorem getLast?_rdropWhile_dot (s : Bytes) : (s.rdropWhile (· == 46)).getLast? ≠ some dot := by
  intro h
  have hne : s.rdropWhile (· == 46) ≠ [] := by
    rintro hnil
    rw [hnil] at h
    cases h
  have hlast := rdropWhile_last_not (· == 46) s hne
  rw [getLast?_eq_some_getLast hne, some.injEq] at h
  rw [h] at hlast
  exact hlast rfl

theorem bare_of_getLast (h : name.getLast? ≠ some dot) : bare name = name.map lower := by
  rw [bare, if_neg h]

theorem getLast?_map_lower (name : Bytes) : (name.map lower).getLast? = some dot ↔ name.getLast? = some dot := by
  rw [getLast?_map]
  cases name.getLast? with
  | none => simp
  | some b => simp [lower_eq_dot]

theorem rdropWhile_of_getLast {s : Bytes} (h : s.getLast? ≠ some dot) : s.rdropWhile (· == 46) = s := by
  rcases eq_nil_or_concat s with rfl | ⟨front, last, rfl⟩
  · rfl
  · rw [concat_eq_append] at h ⊢
    exact rdropWhile_concat_neg _ _ _ (by simpa [dot] using h)

theorem bare_eq_iff : bare s = (s.rdropWhile (· == 46)).map lower ↔ ¬ [dot, dot] <:+ s := by
  by_cases hlast : s.getLast? = some dot
  · obtain ⟨front, rfl⟩ := getLast?_eq_some_iff.mp hlast
    have hdrop : (front ++ [dot]).rdropWhile (· == 46) = front.rdropWhile (· == 46) :=
      rdropWhile_concat_pos _ _ _ rfl
    rw [bare, if_pos hlast, dropLast_concat, hdrop]
    by_cases hfront : front.getLast? = some dot
    · obtain ⟨before, rfl⟩ := getLast?_eq_some_iff.mp hfront
      have hdrop' : (before ++ [dot]).rdropWhile (· == 46) = before.rdropWhile (· == 46) :=
        rdropWhile_concat_pos _ _ _ rfl
      have hpre := rdropWhile_prefix (· == (46 : UInt8)) before
      have hle := hpre.length_le
      refine iff_of_false (fun heq => ?_) (fun hnot => hnot ⟨before, by simp⟩)
      have hlen := congrArg List.length heq
      rw [hdrop', length_map, length_map, length_append, length_singleton] at hlen
      omega
    · rw [rdropWhile_of_getLast hfront]
      refine iff_of_true rfl (fun hsuf => hfront ?_)
      obtain ⟨before, hpre⟩ := hsuf
      rw [show before ++ [dot, dot] = (before ++ [dot]) ++ [dot] by simp] at hpre
      rw [← append_cancel_right hpre, getLast?_concat]
  · rw [rdropWhile_of_getLast hlast, bare_of_getLast hlast]
    refine iff_of_true rfl (fun hsuf => hlast ?_)
    obtain ⟨before, rfl⟩ := hsuf
    simp

theorem length_hostOf_bracketed (hbrk : value.head? = some Uri.openBracket) :
    (hostOf value).length < (value.takeWhile (· != Uri.closeBracket)).length := by
  rcases value with _ | ⟨b, rest⟩
  · cases hbrk
  rw [head?_cons, some.injEq] at hbrk
  subst hbrk
  have hpre := rdropWhile_prefix (· == (46 : UInt8)) (rest.takeWhile (· != Uri.closeBracket))
  exact Nat.lt_succ_of_le hpre.length_le

/-- **A name that passed the check** is the host's exactly when it is a plain name. -/
theorem isHost_iff_plainName (hcheck : (hostOf value).map lower = host.map lower) :
    IsHost host value ↔ PlainName value := by
  have hhost : host.getLast? ≠ some dot := by
    rw [ne_eq, ← getLast?_map_lower, ← hcheck, getLast?_map_lower]
    exact getLast?_rdropWhile_dot _
  unfold IsHost PlainName hostPart
  rw [bare_of_getLast hhost, ← hcheck]
  by_cases hbrk : value.head? = some Uri.openBracket
  · refine iff_of_false (fun heq => ?_) (fun hplain => hplain.1 hbrk)
    rw [if_pos hbrk] at heq
    have hlt := length_hostOf_bracketed hbrk
    split at heq
    · cases heq
    split_ifs at heq
    · have hlen := congrArg List.length (some.inj heq)
      rw [bare_of_getLast (by simp [Uri.closeBracket, dot]), length_map, length_map, length_append] at hlen
      omega
    · cases heq
  · rw [if_neg hbrk]
    by_cases hport : Uri.colon ∈ value → (Uri.afterLast Uri.colon value).all isDigit = true
    · rw [if_pos hport, map_some, some.injEq, hostOf, if_neg hbrk, bare_eq_iff]
      exact ⟨fun h => ⟨hbrk, hport, h⟩, fun h => h.2.2⟩
    · rw [if_neg hport]
      exact iff_of_false nofun (fun h => hport h.2.1)

/-! ### What the sent request carries -/

variable (request : Request)

def carried : List Bytes := request.uri.host.toList ++ request.headers.getAll .host

/-- The `Host` values that are sent: none if `Connection` nominates the field. -/
def keptHosts : List Bytes :=
  if HeaderName.host ∈ nominated request.headers (handling request.headers) then []
  else request.headers.getAll .host

def checked : List Bytes :=
  match request.uri.host with
  | some host => [host]
  | none => ((keptHosts request).head?.bind toStr).toList

/-- The sent names that the check does not read: every `Host` value beside an authority, and without one the values
after the first, the first too if it is not visible ASCII. -/
def unchecked : List Bytes :=
  match request.uri.host with
  | some _ => keptHosts request
  | none => if ((keptHosts request).head?.bind toStr).isSome then (keptHosts request).tail else keptHosts request

theorem discards_host (handling : Handling) :
    discards headers handling .host = decide (HeaderName.host ∈ nominated headers handling) := by
  have hhop : HeaderName.host.bytes ∉ hopByHop := by decide
  have hconn : (HeaderName.host = HeaderName.connection) = False := eq_false (by decide)
  have hupg : (HeaderName.host = HeaderName.upgrade) = False := eq_false (by decide)
  simp [discards, hhop, hconn, hupg]

theorem prepare_eq_sent {p : Proxy} {request : Request} (hsent : p.prepare request = .sent sent h) :
    (∀ host, requestedHost request = some host → host.map lower = p.host.map lower) ∧
      carried sent = request.uri.host.toList ++ keptHosts request := by
  unfold Proxy.prepare at hsent
  split_ifs at hsent with hmisdirected hblocked
  cases hsent
  refine ⟨fun host hhost => ?_, ?_⟩
  · rw [hhost] at hmisdirected
    simpa [eqIgnoreAsciiCase] using hmisdirected
  · unfold carried keptHosts
    rw [HeaderMap.getAll_of_filter (fun name => !discards request.headers (handling request.headers) name)
      (fields_stripHopByHop request.headers (handling request.headers)), discards_host]
    by_cases hnom : HeaderName.host ∈ nominated request.headers (handling request.headers) <;> simp [hnom]

theorem mem_carried_iff (name : Bytes) :
    name ∈ request.uri.host.toList ++ keptHosts request ↔ name ∈ checked request ∨ name ∈ unchecked request := by
  unfold checked unchecked
  cases request.uri.host with
  | some host => simp
  | none =>
    rcases keptHosts request with _ | ⟨first, rest⟩
    · simp
    cases htext : toStr first with
    | none => simp [htext]
    | some text => simp [htext, toStr_eq_some htext]

theorem checked_isRead {request : Request} (h : name ∈ checked request) : readName request = some name := by
  unfold checked at h
  unfold readName
  cases hhost : request.uri.host with
  | some host =>
    rw [hhost] at h
    rw [mem_singleton.mp h]
  | none =>
    rw [hhost] at h
    unfold keptHosts at h
    split_ifs at h
    · cases h
    have hread := mem_toList.mp h
    unfold HeaderMap.get
    obtain ⟨first, hfirst, htext⟩ := bind_eq_some_iff.mp hread
    rw [hfirst]
    exact htext

/-- **The names of a request that is sent** are all the connection's host exactly when the name that was checked is a
plain one and the names that were not checked are the host's. -/
theorem carriesOnly_iff (p : Proxy) (request sent : Request) (h : Handling) (hsent : p.prepare request = .sent sent h) :
    (∀ name ∈ carried sent, IsHost p.host name) ↔
      (∀ name ∈ checked request, PlainName name) ∧ ∀ name ∈ unchecked request, IsHost p.host name := by
  obtain ⟨hcheck, hcar⟩ := prepare_eq_sent hsent
  have hchk : ∀ name ∈ checked request, (IsHost p.host name ↔ PlainName name) := fun name hname =>
    isHost_iff_plainName (hcheck (hostOf name) (by rw [requestedHost, checked_isRead hname]; rfl))
  rw [hcar]
  constructor
  · intro hall
    exact ⟨fun name hname => (hchk name hname).mp (hall name ((mem_carried_iff request name).mpr (.inl hname))),
      fun name hname => hall name ((mem_carried_iff request name).mpr (.inr hname))⟩
  · rintro ⟨hplain, hunchecked⟩ name hname
    rcases (mem_carried_iff request name).mp hname with hname | hname
    · exact (hchk name hname).mpr (hplain name hname)
    · exact hunchecked name hname

def naming (authority : Option Bytes) (hosts : List Bytes) : Request :=
  ⟨ascii "GET", ⟨authority.map fun _ => ascii "http", authority, ascii "/"⟩,
    hosts.foldl (fun m host => m.append .host host) .empty⟩

/-- A request whose one name differs from the host in case, a dot and a port. -/
theorem carriesOnly_plain :
    let p := openProxy (.http1, .http1)
    let request := naming none [ascii "Example.COM.:443"]
    p.prepare request = .sent { request with headers := stripHopByHop request.headers .ordinary } .ordinary ∧
      ∀ name ∈ carried { request with headers := stripHopByHop request.headers .ordinary }, IsHost p.host name := by
  intro p request
  have hsent : p.prepare request =
      .sent { request with headers := stripHopByHop request.headers .ordinary } .ordinary := rfl
  refine ⟨hsent, (carriesOnly_iff _ _ _ _ hsent).mpr ⟨fun name hname => ?_, fun name hname => ?_⟩⟩
  · rw [mem_singleton.mp hname]
    exact ⟨by decide, by decide, by decide⟩
  · cases hname

/-- **Requests that name another host and are sent**: in a second `Host` field, in a value that is not visible ASCII,
in a field that disagrees with the target's authority, and after a bracketed copy of the host. -/
theorem carries_other_names :
    let p := openProxy (.http1, .http1)
    ∀ request ∈ [naming none [ascii "example.com", ascii "evil.test"], naming none [[233, 118, 105, 108]],
        naming (some (ascii "example.com")) [ascii "evil.test"], naming none [ascii "[example.com].evil.test"]],
      ∃ sent h, p.prepare request = .sent sent h ∧ ¬ ∀ name ∈ carried sent, IsHost p.host name := by
  intro p request hreq
  fin_cases hreq
  · exact ⟨_, _, rfl, by decide⟩
  · exact ⟨_, _, rfl, by decide⟩
  · exact ⟨_, _, rfl, by decide⟩
  · exact ⟨_, _, rfl, by decide⟩

end Boreas.Intercept
