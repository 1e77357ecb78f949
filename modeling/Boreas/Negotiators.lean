import Boreas.Hysteria2
import Boreas.Http
import Boreas.Negotiation
import Boreas.Socks5
import Boreas.Text

/-! # The negotiations

The SOCKS5 client, the opening of a Hysteria2 stream and the HTTP upgrade, whose HTTP parser is a parameter.  SOCKS5
writes its greeting whenever it is offered an empty input before the proxy's choice, and moves its offset before it
refuses a method.  `agree_run` says that uses of each machine agree when the empty input is offered once and nothing
after that refusal (`Polite`), as the driver does (`agree_negotiate`). -/

namespace Boreas

open List hiding after cons head next nil toString
open Progress Runs

/-! ### SOCKS5 -/

namespace Socks5

def version : UInt8 := 5

def authVersion : UInt8 := 1

def methodNone : UInt8 := 0x00

def methodUserpass : UInt8 := 0x02

def methodUnacceptable : UInt8 := 0xff

structure Credentials where
  username : Bytes
  password : Bytes
  username_fits : 1 ≤ username.length ∧ username.length ≤ 255
  password_fits : 1 ≤ password.length ∧ password.length ≤ 255
deriving DecidableEq

def encodeAddress : Target → Bytes
  | .ip ⟨.v4 ip, port⟩ => atypIpv4 :: octets 4 ip.toNat ++ toBeBytes port.toNat
  | .ip ⟨.v6 ip, port⟩ => atypIpv6 :: octets 16 ip.toNat ++ toBeBytes port.toNat
  | .domain host port => atypDomain :: Reader.vector8 host.bytes ++ toBeBytes port.toNat

def encodeGreeting : Option Credentials → Bytes
  | some _ => [version, 2, methodNone, methodUserpass]
  | none => [version, 1, methodNone]

def encodeCredentials (credentials : Credentials) : Bytes :=
  authVersion :: Reader.vector8 credentials.username ++ Reader.vector8 credentials.password

def encodeRequest (command : UInt8) (target : Target) : Bytes := [version, command, 0] ++ encodeAddress target

def decodeMethodSelection : Bytes → Except ProxyError (Decoded UInt8)
  | v :: method :: _ =>
    if v ≠ version then .error (.version v)
    else if method = methodUnacceptable then .error .noAcceptableMethod
    else if method = methodNone ∨ method = methodUserpass then .ok (.complete method 2)
    else .error (.unexpectedMethod method)
  | _ => .ok .incomplete

def Reply.fromByte (byte : UInt8) : Reply :=
  if byte = 0 then .succeeded
  else if byte = 1 then .generalFailure
  else if byte = 2 then .notAllowed
  else if byte = 3 then .networkUnreachable
  else if byte = 4 then .hostUnreachable
  else if byte = 5 then .connectionRefused
  else if byte = 6 then .ttlExpired
  else if byte = 7 then .commandNotSupported
  else if byte = 8 then .addressTypeNotSupported
  else .other byte

def decodeReply : Bytes → Except ProxyError (Decoded Target)
  | v :: code :: _ :: rest =>
    if v ≠ version then .error (.version v)
    else if Reply.fromByte code ≠ .succeeded then .error (.refused (Reply.fromByte code))
    else
      match decodeAddress rest with
      | .error e => .error e
      | .ok .incomplete => .ok .incomplete
      | .ok (.complete value consumed) => .ok (.complete value (3 + consumed))
  | _ => .ok .incomplete

theorem stable_decodeMethodSelection : Reader.Stable decodeMethodSelection := by
  intro bytes more h
  match bytes with
  | _ :: _ :: _ => rfl

theorem addressBody_more (h : addressBody atyp rest = .ok (some (body, after)))
    (more : Bytes) : addressBody atyp (rest ++ more) = .ok (some (body, after ++ more)) := by
  unfold addressBody at h ⊢
  split_ifs at h ⊢
  · rw [Reader.take_more (Except.ok.inj h) more]
  · rw [Reader.take_more (Except.ok.inj h) more]
  · rw [Reader.vectorU8_more (Except.ok.inj h) more]

theorem addressBody_error (h : addressBody atyp rest = .error e)
    (more : Bytes) : addressBody atyp (rest ++ more) = .error e := by
  unfold addressBody at h ⊢
  split_ifs at h ⊢
  exact h

theorem stable_decodeAddress : Reader.Stable decodeAddress := by
  intro bytes more h
  rcases bytes with _ | ⟨atyp, rest⟩
  · exact absurd rfl h
  simp only [decodeAddress, Reader.u8, cons_append] at h ⊢
  rcases hbody : addressBody atyp rest with _ | body
  · rw [addressBody_error hbody more]
    rfl
  rw [hbody] at h
  rcases body with _ | ⟨body, after⟩
  · exact absurd rfl h
  rw [addressBody_more hbody more]
  simp only [bind, Except.bind] at h ⊢
  rcases hport : Reader.u16 after with _ | ⟨port, left⟩
  · rw [hport] at h
    exact absurd rfl h
  rw [Reader.u16_more hport more]
  simp only [length_cons, length_append]
  rcases addressTarget atyp body (UInt16.ofNat port) with _ | target
  · rfl
  simp only [Except.ok.injEq, Decoded.complete.injEq, true_and]
  omega

theorem stable_decodeReply : Reader.Stable decodeReply := by
  intro bytes more h
  match bytes with
  | v :: code :: reserved :: rest =>
    simp only [decodeReply, cons_append] at h ⊢
    split_ifs at h ⊢
    · rfl
    · rfl
    have haddr : decodeAddress rest ≠ .ok .incomplete := by
      intro hinc
      rw [hinc] at h
      exact h rfl
    rw [stable_decodeAddress rest more haddr]

inductive Phase
  | selecting
  | authenticating
  | requesting
deriving DecidableEq, Repr

structure Negotiate where
  credentials : Option Credentials
  command : UInt8
  target : Target
  phase : Phase
  at_ : ℕ
deriving DecidableEq

namespace Negotiate

variable (credentials : Option Credentials)

def new (command : UInt8) (target : Target) : Negotiate :=
  ⟨credentials, command, target, .selecting, 0⟩

variable (m : Negotiate)

def arm (rest : Bytes) : Turn Negotiate UInt8 (Except ProxyError (Target × ℕ)) :=
  match m.phase with
  | .selecting =>
    match decodeMethodSelection rest with
    | .error e => .ends m (.error e)
    | .ok .incomplete => .waits
    | .ok (.complete method consumed) =>
      if method = methodUserpass then
        match m.credentials with
        | none => .ends { m with at_ := m.at_ + consumed } (.error (.unexpectedMethod methodUserpass))
        | some credentials =>
          .goes { m with at_ := m.at_ + consumed, phase := .authenticating } (encodeCredentials credentials)
      else .goes { m with at_ := m.at_ + consumed, phase := .requesting } (encodeRequest m.command m.target)
  | .authenticating =>
    match rest with
    | v :: status :: _ =>
      if v ≠ authVersion then .ends m (.error (.version v))
      else if status ≠ 0 then .ends m (.error .authFailed)
      else .goes { m with at_ := m.at_ + 2, phase := .requesting } (encodeRequest m.command m.target)
    | _ => .waits
  | .requesting =>
    match decodeReply rest with
    | .error e => .ends m (.error e)
    | .ok .incomplete => .waits
    | .ok (.complete value consumed) => .ends m (.ok (value, m.at_ + consumed))

def rank : ℕ :=
  match m.phase with
  | .selecting => 2
  | .authenticating => 1
  | .requesting => 0

theorem arm_nil : m.arm [] = .waits := by
  unfold arm
  cases m.phase <;> rfl

theorem arm_append {m : Negotiate} (more : Bytes) (h : m.arm rest ≠ .waits) : m.arm (rest ++ more) = m.arm rest := by
  unfold arm at h ⊢
  cases hphase : m.phase with
  | selecting =>
    rw [hphase] at h
    rw [stable_decodeMethodSelection _ more fun hinc => h (by rw [hinc])]
  | authenticating =>
    rw [hphase] at h
    match rest with
    | _ :: _ :: _ => rfl
  | requesting =>
    rw [hphase] at h
    rw [stable_decodeReply _ more fun hinc => h (by rw [hinc])]

theorem rank_arm {m : Negotiate} (h : m.arm rest = .goes m' output) : m'.rank < m.rank := by
  unfold arm at h
  unfold rank
  cases hphase : m.phase with
  | selecting =>
    rw [hphase] at h
    dsimp only at h
    split at h
    · cases h
    · cases h
    split_ifs at h
    · split at h
      · cases h
      · cases h
        exact Nat.one_lt_two
    · cases h
      exact Nat.zero_lt_two
  | authenticating =>
    rw [hphase] at h
    dsimp only at h
    split at h
    · split_ifs at h
      cases h
      exact Nat.zero_lt_one
    · cases h
  | requesting =>
    rw [hphase] at h
    dsimp only at h
    split at h
    · cases h
    · cases h
    · cases h

theorem arm_ends {m : Negotiate} {verdict : Except ProxyError (Target × ℕ)}
    (h : m.arm rest = .ends m' verdict) : m' = m ∨ verdict = .error (.unexpectedMethod methodUserpass) := by
  unfold arm at h
  cases hphase : m.phase with
  | selecting =>
    rw [hphase] at h
    dsimp only at h
    split at h
    · cases h
      exact .inl rfl
    · cases h
    split_ifs at h
    · split at h
      · cases h
        exact .inr rfl
      · cases h
  | authenticating =>
    rw [hphase] at h
    dsimp only at h
    split at h
    · split_ifs at h
      · cases h
        exact .inl rfl
      · cases h
        exact .inl rfl
    · cases h
  | requesting =>
    rw [hphase] at h
    dsimp only at h
    split at h
    · cases h
      exact .inl rfl
    · cases h
    · cases h
      exact .inl rfl

abbrev dialogue : Dialogue UInt8 UInt8 (Except ProxyError (Target × ℕ)) where
  State := Negotiate
  turn m input := m.arm (input.drop m.at_)
  rank := rank
  Last verdict := verdict = .error (.unexpectedMethod methodUserpass)
  stable {m input} more h := by
    have hlength : m.at_ ≤ input.length := by
      by_contra hlong
      rw [drop_eq_nil_of_le (by omega), arm_nil] at h
      exact h rfl
    rw [drop_append_of_le_length hlength, arm_append more h]
  rank_lt h := rank_arm h
  ends_state h := arm_ends h

/-- `advance`. The greeting's guard can only be met in the first turn: a turn that goes on leaves the first phase. -/
def advance (input out : Bytes) : Negotiate × Bytes × Except ProxyError (Decoded Target) :=
  if m.phase = .selecting ∧ m.at_ = 0 ∧ input = [] ∧ out = [] then
    (m, out ++ encodeGreeting m.credentials, .ok .incomplete)
  else
    let (m, more, verdict) := dialogue.advance m input
    (m, out ++ more, verdictOf verdict)

abbrev negotiation : Negotiation := ⟨Negotiate, Target, advance⟩

/-- The empty input is offered once, and nothing after a method was refused for want of credentials. -/
def Polite (u : Progress negotiation) (input : Bytes) : Prop :=
  (u.offered ≠ none → input ≠ []) ∧ u.verdict ≠ .error (.unexpectedMethod methodUserpass)

def speaks (command : UInt8) (target : Target) :
    Speaks negotiation (new credentials command target) Polite where
  dialogue := dialogue
  start := new credentials command target
  greeting := encodeGreeting credentials
  Tied := Eq
  polite_last hpolite hlast := by
    rw [hlast]
    exact hpolite.2
  first := by
    have hturn : dialogue.turn (new credentials command target) [] = .waits := arm_nil (new credentials command target)
    have hwaits := Dialogue.advance_waits hturn
    refine ⟨new credentials command target, ?_, ?_⟩
    · rw [hwaits, append_nil]
      rfl
    · rw [hwaits]
  next {u d input} htied hpolite hoffered := by
    subst htied
    refine ⟨_, ?_, rfl⟩
    change advance u.state input [] = _
    unfold advance
    rw [if_neg fun hgreets => hpolite.1 hoffered hgreets.2.2.1]
    rfl

end Negotiate

end Socks5

/-! ### A request and its response -/

/-- A machine that writes its request in the first call, and decodes the response in every call. -/
structure Asking where
  request : Option Bytes
deriving DecidableEq, Repr

namespace Asking

variable {α : Type}

def advance (respond : Bytes → Except ProxyError (Decoded α)) (m : Asking) (input out : Bytes) :
    Asking × Bytes × Except ProxyError (Decoded α) :=
  (⟨none⟩, out ++ m.request.getD [], respond input)

abbrev dialogue (respond : Bytes → Except ProxyError (Decoded α)) (hstable : Reader.Stable respond) :
    Dialogue UInt8 UInt8 (Except ProxyError (α × ℕ)) where
  State := Unit
  turn _ input :=
    match respond input with
    | .ok .incomplete => .waits
    | .ok (.complete value consumed) => .ends () (.ok (value, consumed))
    | .error e => .ends () (.error e)
  rank _ := 0
  Last _ := False
  stable {_ input} more h := by
    rw [hstable input more fun hincomplete => h (by rw [hincomplete])]
  rank_lt {_ _ input output} h := by
    split at h <;> cases h
  ends_state _ := .inl rfl

theorem advance_dialogue (hstable : Reader.Stable respond) (input : Bytes) :
    ((dialogue respond hstable).advance () input).2.1 = [] ∧
      verdictOf ((dialogue respond hstable).advance () input).2.2 = respond input := by
  match hresp : respond input with
  | .ok .incomplete =>
    have hturn : (dialogue respond hstable).turn () input = .waits := by simp [hresp]
    rw [Dialogue.advance_waits hturn]
    exact ⟨rfl, rfl⟩
  | .ok (.complete value used) =>
    have hturn : (dialogue respond hstable).turn () input = .ends () (.ok (value, used)) := by
      simp [hresp]
    rw [Dialogue.advance_ends hturn]
    exact ⟨rfl, rfl⟩
  | .error e =>
    have hturn : (dialogue respond hstable).turn () input = .ends () (.error e) := by simp [hresp]
    rw [Dialogue.advance_ends hturn]
    exact ⟨rfl, rfl⟩

abbrev negotiation (respond : Bytes → Except ProxyError (Decoded α)) : Negotiation := ⟨Asking, α, advance respond⟩

def speaks {respond : Bytes → Except ProxyError (Decoded α)} (hstable : Reader.Stable respond) (request : Bytes) :
    Speaks (negotiation respond) ⟨some request⟩ (fun _ _ => True) where
  dialogue := dialogue respond hstable
  start := ()
  greeting := request
  Tied m _ := m = ⟨none⟩
  polite_last _ hlast := absurd hlast id
  first := by
    obtain ⟨hout, hverdict⟩ := advance_dialogue hstable []
    refine ⟨⟨none⟩, ?_, rfl⟩
    rw [hout, hverdict, append_nil]
    rfl
  next {u d input} htied _ _ := by
    obtain ⟨hout, hverdict⟩ := advance_dialogue hstable input
    refine ⟨⟨none⟩, ?_, rfl⟩
    rw [htied, hout, hverdict]
    rfl

end Asking

/-! ### Hysteria2 -/

namespace Hysteria2

def maxPaddingLen : ℕ := 4096

inductive TcpResponse
  | accepted
  | refused (message : Bytes)
deriving DecidableEq, Repr

def decodeTcpResponse (bytes : Bytes) : Except ProxyError (Decoded TcpResponse) :=
  match Reader.u8 bytes with
  | none => .ok .incomplete
  | some (status, rest) =>
    match Reader.varint rest with
    | none => .ok .incomplete
    | some (messageLen, rest) =>
      if maxMessageLen < messageLen then .error .header
      else
        match Reader.take messageLen rest with
        | none => .ok .incomplete
        | some (message, rest) =>
          match Reader.varint rest with
          | none => .ok .incomplete
          | some (paddingLen, rest) =>
            if maxPaddingLen < paddingLen then .error .header
            else
              match Reader.take paddingLen rest with
              | none => .ok .incomplete
              | some (_, rest) =>
                if validUtf8 message then
                  .ok (.complete (if status = 0 then .accepted else .refused message)
                    (bytes.length - rest.length))
                else .error .header

theorem stable_decodeTcpResponse : Reader.Stable decodeTcpResponse := by
  intro bytes more h
  unfold decodeTcpResponse at h ⊢
  rcases hstat : Reader.u8 bytes with _ | ⟨status, rest⟩ <;> rw [hstat] at h
  · exact absurd rfl h
  rw [Reader.u8_more hstat more]
  dsimp only at h ⊢
  rcases hmessageLen : Reader.varint rest with _ | ⟨messageLen, rest⟩ <;> rw [hmessageLen] at h
  · exact absurd rfl h
  rw [Reader.varint_more hmessageLen more]
  dsimp only at h ⊢
  by_cases hlong : maxMessageLen < messageLen
  · rw [if_pos hlong, if_pos hlong]
  rw [if_neg hlong] at h
  rcases hmsg : Reader.take messageLen rest with _ | ⟨msg, rest⟩ <;> rw [hmsg] at h
  · exact absurd rfl h
  rw [Reader.take_more hmsg more]
  dsimp only at h ⊢
  rcases hpaddingLen : Reader.varint rest with _ | ⟨paddingLen, rest⟩ <;> rw [hpaddingLen] at h
  · exact absurd rfl h
  rw [Reader.varint_more hpaddingLen more]
  dsimp only at h ⊢
  by_cases hpadded : maxPaddingLen < paddingLen
  · rw [if_pos hpadded, if_pos hpadded]
  rw [if_neg hpadded] at h
  rcases hpadding : Reader.take paddingLen rest with _ | read
  · rw [hpadding] at h
    exact absurd rfl h
  rw [Reader.take_more hpadding more]
  dsimp only
  rw [length_append, length_append, Nat.add_sub_add_right]

def OpenStream.respond (input : Bytes) : Except ProxyError (Decoded Unit) :=
  match decodeTcpResponse input with
  | .error e => .error e
  | .ok .incomplete => .ok .incomplete
  | .ok (.complete (.refused message) _) => .error (.denied message)
  | .ok (.complete .accepted consumed) => .ok (.complete () consumed)

theorem OpenStream.stable_respond : Reader.Stable OpenStream.respond := by
  intro bytes more h
  unfold OpenStream.respond at h ⊢
  rw [stable_decodeTcpResponse _ more fun hinc => h (by rw [hinc])]

abbrev OpenStream.negotiation : Negotiation := Asking.negotiation OpenStream.respond

end Hysteria2

/-! ### The HTTP upgrade -/

namespace Upgrade

open Http (ascii eqIgnoreAsciiCase)

structure Response where
  code : Option ℕ
  headers : List (Bytes × Bytes)
deriving DecidableEq, Repr

/-- The HTTP parser: an error, too little, or a head and its length; answers stay when more bytes follow. -/
structure Httparse where
  parse : Bytes → Except Unit (Option (ℕ × Response))
  stable : ∀ {input} more, parse input ≠ .ok none → parse (input ++ more) = parse input

def Response.named (response : Response) (name want : String) : Bool :=
  response.headers.any fun (header, value) =>
    eqIgnoreAsciiCase header (ascii name) &&
      ((String.fromUTF8? ⟨value.toArray⟩).any fun text =>
        eqIgnoreAsciiCase (Text.utf8 (Text.trim text.toList)) (ascii want))

def respond (H : Httparse) (input : Bytes) : Except ProxyError (Decoded Unit) :=
  match H.parse input with
  | .error () => .error .header
  | .ok none => .ok .incomplete
  | .ok (some (head, response)) =>
    if response.code ≠ some 101 then
      .error (.denied (ascii ("expected 101, got " ++ toString (response.code.getD 0))))
    else if response.named "Connection" "upgrade" = false ∨ response.named "Upgrade" "websocket" = false then
      .error (.denied (ascii "101 without the upgrade headers"))
    else .ok (.complete () head)

theorem stable_respond (H : Httparse) : Reader.Stable (respond H) := by
  intro bytes more h
  unfold respond at h ⊢
  rw [H.stable more fun hmiss => h (by rw [hmiss])]

abbrev negotiation (H : Httparse) : Negotiation := Asking.negotiation (respond H)

end Upgrade

/-! ### All three -/

inductive Negotiator
  | connect (credentials : Option Socks5.Credentials) (command : UInt8) (target : Target)
  | openStream (request : Bytes)
  | upgrade (H : Upgrade.Httparse) (request : Bytes)

namespace Negotiator

def machine : Negotiator → Negotiation
  | connect _ _ _ => Socks5.Negotiate.negotiation
  | openStream _ => Hysteria2.OpenStream.negotiation
  | upgrade H _ => Upgrade.negotiation H

def start : (k : Negotiator) → k.machine.State
  | connect credentials command target => Socks5.Negotiate.new credentials command target
  | openStream request => (⟨some request⟩ : Asking)
  | upgrade _ request => (⟨some request⟩ : Asking)

def Polite : (k : Negotiator) → Progress k.machine → Bytes → Prop
  | connect _ _ _ => Socks5.Negotiate.Polite
  | openStream _ => fun _ _ => True
  | upgrade _ _ => fun _ _ => True

def speaks : (k : Negotiator) → Speaks k.machine k.start k.Polite
  | connect credentials command target => Socks5.Negotiate.speaks credentials command target
  | openStream request => Asking.speaks Hysteria2.OpenStream.stable_respond request
  | upgrade H request => Asking.speaks (Upgrade.stable_respond H) request

variable (k : Negotiator)

theorem polite_of_driven {u : Progress k.machine} (h : u.Driven input)
    (hfresh : u.offered = none → u.verdict = .ok .incomplete) : k.Polite u input := by
  cases k with
  | openStream req | upgrade H req => trivial
  | connect credentials command target =>
    refine ⟨fun hoff => (h.2 hoff).1, ?_⟩
    have hwaits : u.verdict = .ok .incomplete := by
      by_cases hoff : u.offered = none
      · exact hfresh hoff
      · exact (h.2 hoff).2
    rw [hwaits]
    exact nofun

/-- **Negotiations emit each phase once and do not depend on splits**: any two uses of a machine that use it well
agree, whatever inputs they were offered in between and however often. -/
theorem agree_run (ps qs : List Bytes)
    (hps : Along offer (fun u input => Follows u input ∧ k.Polite u input) (new k.start) ps)
    (hqs : Along offer (fun u input => Follows u input ∧ k.Polite u input) (new k.start) qs) :
    Agree (run offer (new k.start) ps) (run offer (new k.start) qs) :=
  k.speaks.agree ps qs hps hqs

theorem along_polite : ∀ (inputs : List Bytes) (u : Progress k.machine),
    (u.offered = none → u.verdict = .ok .incomplete) → Along offer Driven u inputs →
      Along offer (fun u input => Follows u input ∧ k.Polite u input) u inputs := by
  intro inputs
  induction inputs with
  | nil => exact fun _ _ _ => trivial
  | cons input inputs ih =>
    intro u hfresh h
    exact ⟨⟨h.1.1, k.polite_of_driven h.1 hfresh⟩, ih (u.offer input) nofun h.2⟩

theorem agree_negotiate (sends sends' : List (Except ErrorKind Unit))
    (reads reads' : List (Except ErrorKind Bytes)) :
    Agree (negotiate (new k.start) [] sends reads).1 (negotiate (new k.start) [] sends' reads').1 := by
  have hdrv : (new k.start).Driven [] := ⟨rfl, fun h => absurd rfl h⟩
  obtain ⟨ps, hps, hps'⟩ := negotiate_driven reads (new k.start) [] sends hdrv
  obtain ⟨qs, hqs, hqs'⟩ := negotiate_driven reads' (new k.start) [] sends' hdrv
  rw [hps, hqs]
  exact k.speaks.agree ps qs (k.along_polite ps _ (fun _ => rfl) hps') (k.along_polite qs _ (fun _ => rfl) hqs')

def anonymous : Negotiator := connect none 1 (.ip ⟨.v4 0xc6336402#32, 443⟩)

def granted : Bytes := [5, 0, 5, 0, 0, 1, 0, 0, 0, 0, 0, 80]

def switching : Bytes :=
  Http.ascii "HTTP/1.1 101 Switching Protocols\r\nConnection: Upgrade\r\nUpgrade: websocket\r\n\r\n"

/-- A parser that knows one head. -/
def oneHead : Upgrade.Httparse where
  parse input :=
    if switching <+: input then
      .ok (some (switching.length, ⟨some 101, [(Http.ascii "Connection", Http.ascii "Upgrade"),
        (Http.ascii "Upgrade", Http.ascii "websocket")]⟩))
    else .ok none
  stable {input} more h := by
    by_cases hhead : switching <+: input
    · rw [if_pos hhead, if_pos (hhead.trans (prefix_append input more))]
    · exact absurd (if_neg hhead) h

/-- The proxy's answers piece by piece, some of them offered again, and at once; and the head of an upgrade in two
pieces, and at once. -/
theorem agree_granted : Agree (run offer (new anonymous.start) [[], [5], [5], [5, 0], granted])
      (run offer (new anonymous.start) [[], granted]) ∧
    Agree (run offer (new (upgrade oneHead [71]).start) [[], switching.take 9, switching])
      (run offer (new (upgrade oneHead [71]).start) [[], switching]) ∧
    (run offer (new (upgrade oneHead [71]).start) [[], switching]).verdict =
      .ok (.complete () switching.length) := by
  refine ⟨agree_run anonymous _ _ ?_ ?_, agree_run (upgrade oneHead [71]) _ _ ?_ ?_, ?_⟩
  · exact ⟨⟨rfl, fun h => absurd rfl h, by decide⟩, ⟨⟨[5], rfl⟩, fun _ => by decide, by decide⟩,
      ⟨⟨[], rfl⟩, fun _ => by decide, by decide⟩, ⟨⟨[0], rfl⟩, fun _ => by decide, by decide⟩,
      ⟨⟨granted.drop 2, rfl⟩, fun _ => by decide, by decide⟩, trivial⟩
  · exact ⟨⟨rfl, fun h => absurd rfl h, by decide⟩, ⟨⟨granted, rfl⟩, fun _ => by decide, by decide⟩, trivial⟩
  · exact ⟨⟨rfl, trivial⟩, ⟨⟨switching.take 9, rfl⟩, trivial⟩, ⟨⟨switching.drop 9, rfl⟩, trivial⟩, trivial⟩
  · exact ⟨⟨rfl, trivial⟩, ⟨⟨switching, rfl⟩, trivial⟩, trivial⟩
  · rfl

/-- **SOCKS5 greets twice** when it is offered the empty input twice, and forgets that it refused a method when it is
offered the same choice again. -/
theorem greeted_twice : (Along offer Follows (new anonymous.start) [[], []] ∧
      ¬ Agree (run offer (new anonymous.start) [[], []]) (run offer (new anonymous.start) [[]])) ∧
    Along offer Follows (new anonymous.start) [[], [5, 2], [5, 2]] ∧
      ¬ Agree (run offer (new anonymous.start) [[], [5, 2], [5, 2]])
        (run offer (new anonymous.start) [[], [5, 2]]) := by
  constructor
  · refine ⟨⟨rfl, ⟨[], rfl⟩, trivial⟩, fun hagree => ?_⟩
    have hwrt := (hagree [] [] rfl rfl prefix_rfl (.inl rfl)).1
    revert hwrt
    decide
  · refine ⟨⟨rfl, ⟨[5, 2], rfl⟩, ⟨[], rfl⟩, trivial⟩, fun hagree => ?_⟩
    have hverd := (hagree [5, 2] [5, 2] rfl rfl prefix_rfl (.inl rfl)).2
    cases hverd

end Negotiator

end Boreas
