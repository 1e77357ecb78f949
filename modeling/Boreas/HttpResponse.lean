import Boreas.Http
import Boreas.Text

/-! # Reading an HTTP/1.1 response

`read_http_response` (policy/upstream.rs): the head up to the first empty line, the first `content-length` and
`connection` fields, and a body of that length or up to the close.  `readHead_eq_ok`, `readExact_eq_some` and
`readToClose_eq_ok` say what is read of a stream however it is cut into reads. -/

namespace Boreas.Http1

open Http List

/-! ### Streams -/

def readSize : ℕ := 512

structure Block where
  bytes : Bytes
  ne_nil : bytes ≠ []
  le : bytes.length ≤ readSize

inductive Read
  | data (block : Block)
  | failed

/-- The reads give the stream, which ends with the last of them, or as much of it as came before one failed. -/
def Carries : List Read → Bytes → Prop
  | [], stream => stream = []
  | .failed :: _, _ => True
  | .data block :: reads, stream => block.bytes <+: stream ∧ Carries reads (stream.drop block.bytes.length)

/-! ### Fields -/

def isAsciiWhitespace (b : UInt8) : Bool := b == 9 || b == 10 || b == 12 || b == 13 || b == 32

def trimAscii (value : Bytes) : Bytes := Words.trim isAsciiWhitespace value

def cr : UInt8 := 13
def lf : UInt8 := 10
def space : UInt8 := 32
def colon : UInt8 := 58
def comma : UInt8 := 44
def crlf : Bytes := [cr, lf]

def lineValue (name line : Bytes) : Option Bytes :=
  (line.findIdx? (· == colon)).bind fun at_ =>
    if eqIgnoreAsciiCase (line.take at_) name then some (trimAscii (line.drop (at_ + 1))) else none

def header (head name : Bytes) : Option Bytes := ((head.splitOn lf).drop 1).findSome? (lineValue name)

def findHeadEnd : Bytes → Option ℕ
  | [] => none
  | b :: rest => if [cr, lf, cr, lf] <+: b :: rest then some 4 else (findHeadEnd rest).map (· + 1)

def statusIsOk (head : Bytes) : Bool :=
  let line := (head.splitOn cr).headD []
  let fields := line.splitOn space
  let version := fields.headD []
  let status := fields.tail.headD []
  (version == ascii "HTTP/1.1" || version == ascii "HTTP/1.0") && status == ascii "200"

/-! ### Numbers -/

def isContinuation (b : UInt8) : Bool := 128 ≤ b && b < 192

def fromUtf8 : Bytes → Option Text
  | [] => some []
  | b :: rest =>
    if b < 128 then (fromUtf8 rest).map (Char.ofNat b.toNat :: ·)
    else
      match rest with
      | [] => none
      | c :: rest₂ =>
        if 194 ≤ b ∧ b < 224 ∧ isContinuation c then
          (fromUtf8 rest₂).map (Char.ofNat ((b.toNat - 192) * 64 + (c.toNat - 128)) :: ·)
        else
          match rest₂ with
          | [] => none
          | d :: rest₃ =>
            -- No overlong forms and no surrogates.
            if 224 ≤ b ∧ b < 240 ∧ isContinuation c ∧ isContinuation d ∧ (b = 224 → 160 ≤ c) ∧ (b = 237 → c < 160) then
              (fromUtf8 rest₃).map
                (Char.ofNat ((b.toNat - 224) * 4096 + (c.toNat - 128) * 64 + (d.toNat - 128)) :: ·)
            else
              match rest₃ with
              | [] => none
              | e :: rest₄ =>
                if 240 ≤ b ∧ b < 245 ∧ isContinuation c ∧ isContinuation d ∧ isContinuation e ∧
                    (b = 240 → 144 ≤ c) ∧ (b = 244 → c < 144) then
                  (fromUtf8 rest₄).map (Char.ofNat ((b.toNat - 240) * 262144 + (c.toNat - 128) * 4096 +
                    (d.toNat - 128) * 64 + (e.toNat - 128)) :: ·)
                else none

def usizeEnd : ℕ := 2 ^ 64

def decimal (digits : Text) : ℕ := digits.foldl (fun n c => 10 * n + (c.toNat - 48)) 0

def parseUsize (text : Text) : Option ℕ :=
  let digits := if text.head? = some '+' then text.tail else text
  if digits ≠ [] ∧ digits.all Char.isDigit = true ∧ decimal digits < usizeEnd then some (decimal digits) else none

def parseLength (value : Bytes) : Option ℕ := (fromUtf8 value).bind fun text => parseUsize text.trim

def namesClose (value : Bytes) : Bool :=
  (value.splitOn comma).any fun token => eqIgnoreAsciiCase (trimAscii token) (ascii "close")

/-! ### The response -/

def maxHttpHead : ℕ := 8 * 1024
def maxDnsMessage : ℕ := 4096

inductive ResponseError
  | headTooLong
  | closedInHead
  | notOk
  | tooLong
  | surplus
  | closedInBody
  | io
deriving DecidableEq, Repr

def readHead : Bytes → List Read → Except ResponseError (Bytes × ℕ × List Read)
  | buffer, [] => .error (if maxHttpHead < buffer.length then .headTooLong else .closedInHead)
  | buffer, .failed :: _ => .error (if maxHttpHead < buffer.length then .headTooLong else .io)
  | buffer, .data block :: reads =>
    if maxHttpHead < buffer.length then .error .headTooLong
    else
      match findHeadEnd (buffer ++ block.bytes) with
      | some at_ => .ok (buffer ++ block.bytes, at_, reads)
      | none => readHead (buffer ++ block.bytes) reads

def readExact : ℕ → List Read → Option Bytes
  | 0, _ => some []
  | _ + 1, [] => none
  | _ + 1, .failed :: _ => none
  | n + 1, .data block :: reads =>
    if block.bytes.length ≤ n + 1 then (readExact (n + 1 - block.bytes.length) reads).map (block.bytes ++ ·)
    else some (block.bytes.take (n + 1))

def readToClose : Bytes → List Read → Except ResponseError Bytes
  | body, [] => if maxDnsMessage < body.length then .error .tooLong else .ok body
  | body, .failed :: _ => .error (if maxDnsMessage < body.length then .tooLong else .io)
  | body, .data block :: reads =>
    if maxDnsMessage < body.length then .error .tooLong else readToClose (body ++ block.bytes) reads

/-- A body, whether the connection can carry another request, and how many bytes of the stream were read. -/
structure Answered where
  body : Bytes
  reusable : Bool
  consumed : ℕ
deriving DecidableEq, Repr

def readBody (buffer : Bytes) (bodyAt : ℕ) (reads : List Read) : Except ResponseError Answered :=
  let head := buffer.take bodyAt
  let length := (header head (ascii "content-length")).bind parseLength
  let closing := (header head (ascii "connection")).any namesClose
  let body := buffer.drop bodyAt
  match length with
  | some length =>
    if maxDnsMessage < length then .error .tooLong
    else if length < body.length then .error .surplus
    else
      match readExact (length - body.length) reads with
      | none => .error .closedInBody
      | some rest => .ok ⟨body ++ rest, !closing, buffer.length + (length - body.length)⟩
  | none => (readToClose body reads).map fun body => ⟨body, false, bodyAt + body.length⟩

def readHttpResponse (reads : List Read) : Except ResponseError Answered := do
  let (buffer, bodyAt, reads) ← readHead [] reads
  if statusIsOk (buffer.take bodyAt) then readBody buffer bodyAt reads else .error .notOk

/-! ### What is read of a stream -/

theorem findHeadEnd_le : ∀ {bytes : Bytes} {at_ : ℕ}, findHeadEnd bytes = some at_ → 4 ≤ at_ ∧ at_ ≤ bytes.length
  | b :: rest, at_, h => by
    unfold findHeadEnd at h
    split_ifs at h with hsta
    · cases h
      exact ⟨le_refl _, hsta.length_le⟩
    · obtain ⟨at', hat', rfl⟩ := Option.map_eq_some_iff.mp h
      obtain ⟨hge, hle⟩ := findHeadEnd_le hat'
      exact ⟨Nat.le_succ_of_le hge, Nat.succ_le_succ hle⟩

theorem findHeadEnd_append : ∀ {bytes : Bytes} {at_ : ℕ} (more : Bytes), findHeadEnd bytes = some at_ →
    findHeadEnd (bytes ++ more) = some at_
  | b :: rest, at_, more, h => by
    unfold findHeadEnd at h
    rw [cons_append, findHeadEnd]
    split_ifs at h with hsta
    · cases h
      exact if_pos (hsta.trans (prefix_append _ _))
    obtain ⟨at', hat', rfl⟩ := Option.map_eq_some_iff.mp h
    have hnot : ¬ [cr, lf, cr, lf] <+: b :: (rest ++ more) := by
      intro hlon
      obtain ⟨hge, hle⟩ := findHeadEnd_le hat'
      have hlen : [cr, lf, cr, lf].length ≤ (b :: rest).length := Nat.le_succ_of_le (hge.trans hle)
      exact hsta (prefix_of_prefix_length_le hlon (prefix_append (b :: rest) more) hlen)
    rw [if_neg hnot, findHeadEnd_append more hat']
    rfl

theorem carries_data (h : Carries (.data block :: reads) stream) :
    ∃ rest, stream = block.bytes ++ rest ∧ Carries reads rest := by
  obtain ⟨⟨rest, rfl⟩, hrest⟩ := h
  rw [drop_left] at hrest
  exact ⟨rest, rfl, hrest⟩

theorem readHead_eq_ok : ∀ {reads : List Read} {buf stream : Bytes} {buf' : Bytes} {at_ : ℕ} {rest : List Read},
    Carries reads stream → readHead buf reads = .ok (buf', at_, rest) →
    ∃ taken left, stream = taken ++ left ∧ buf' = buf ++ taken ∧ findHeadEnd buf' = some at_ ∧ Carries rest left
  | .data block :: reads, buf, stream, buf', at_, rest, hcar, h => by
    obtain ⟨left, rfl, hleft⟩ := carries_data hcar
    unfold readHead at h
    split_ifs at h with hlong
    cases hfound : findHeadEnd (buf ++ block.bytes) with
    | some found =>
      rw [hfound] at h
      cases h
      exact ⟨block.bytes, left, rfl, rfl, hfound, hleft⟩
    | none =>
      rw [hfound] at h
      obtain ⟨taken, left', rfl, rfl, hat, hrest⟩ := readHead_eq_ok hleft h
      exact ⟨block.bytes ++ taken, left', (append_assoc ..).symm, append_assoc .., hat, hrest⟩

theorem readExact_eq_some : ∀ {reads : List Read} {n : ℕ} {stream got : Bytes}, Carries reads stream →
    readExact n reads = some got → n ≤ stream.length ∧ got = stream.take n
  | _, 0, stream, got, _, h => by
    unfold readExact at h
    cases h
    exact ⟨Nat.zero_le _, rfl⟩
  | .data block :: reads, n + 1, stream, got, hcar, h => by
    obtain ⟨left, rfl, hleft⟩ := carries_data hcar
    unfold readExact at h
    split_ifs at h with hwhole
    · obtain ⟨got', hgot', rfl⟩ := Option.map_eq_some_iff.mp h
      obtain ⟨hle, rfl⟩ := readExact_eq_some hleft hgot'
      rw [length_append, List.take_append, take_of_length_le hwhole]
      exact ⟨by omega, rfl⟩
    · cases h
      rw [length_append, take_append_of_le_length (by omega)]
      exact ⟨by omega, rfl⟩

theorem readToClose_eq_ok : ∀ {reads : List Read} {body stream body' : Bytes}, Carries reads stream →
    readToClose body reads = .ok body' → body' = body ++ stream ∧ body'.length ≤ maxDnsMessage
  | [], body, stream, body', hcar, h => by
    unfold readToClose at h
    split_ifs at h with hlong
    cases h
    rw [show stream = [] from hcar, append_nil]
    exact ⟨rfl, Nat.le_of_not_lt hlong⟩
  | .data block :: reads, body, stream, body', hcar, h => by
    obtain ⟨left, rfl, hleft⟩ := carries_data hcar
    unfold readToClose at h
    split_ifs at h
    obtain ⟨rfl, hlen⟩ := readToClose_eq_ok hleft h
    exact ⟨append_assoc .., hlen⟩

end Boreas.Http1
